import Mathlib.Algebra.Order.BigOperators.Group.Finset
import Xv6.Mkfs.Append

/-! The inodes in the image, and what `main` writes: inode 1 is the root directory with an entry
for each file, and the inodes from 2 on are the files. -/

namespace Xv6.Mkfs

open Format Segments Words Rows Function

/-! ### The inode blocks -/

/-- The inode in the image, as `rinode` reads it. -/
def inode (img : Img) (j : Nat) : Dinode := dinodeAt (img (IBLOCK j sb)) (j % IPB * dinodeSize)

/-- The number of inodes that the inode blocks have room for. -/
def capacity : Nat := ninodeblocks * IPB

theorem capacity_eq : capacity = 208 := rfl

theorem nmeta_eq : nmeta = 59 := rfl

theorem iblock_eq (j : Nat) : IBLOCK j sb = j / 8 + 32 := rfl

variable {s : State} {c : Nat → List Byte} {j a : Nat} {d : Dinode} {p : List Byte}

theorem iblock_lt (h : j < capacity) : IBLOCK j sb < nmeta := by
  rw [iblock_eq, nmeta_eq]
  rw [capacity_eq] at h
  omega

theorem dinodeAt_fits (block : Nat → Byte) (k : Nat) : (dinodeAt block k).Fits where
  type := word_lt block k 2
  major := word_lt block (k + 2) 2
  minor := word_lt block (k + 4) 2
  nlink := word_lt block (k + 6) 2
  size := word_lt block (k + 8) 4
  addrs _ := word_lt block _ 4

theorem inode_congr {img img' : Img} (h : img' (IBLOCK j sb) = img (IBLOCK j sb)) :
    inode img' j = inode img j := by
  rw [inode, inode, h]

theorem rinode_eq (hblocks : s.blocks = FSSIZE) (hj : j < capacity) :
    s.rinode j = .ok (inode s.img j) := by
  have hlt : IBLOCK j sb < s.blocks := by
    rw [hblocks]
    exact (iblock_lt hj).trans (by decide)
  rw [State.rinode, rsect_of_lt hlt]
  rfl

/-- What `winode` writes. -/
structure Stored (s : State) (j : Nat) (d : Dinode) (s' : State) : Prop where
  blocks : s'.blocks = s.blocks
  freeinode : s'.freeinode = s.freeinode
  freeblock : s'.freeblock = s.freeblock
  self : inode s'.img j = d
  others : ∀ a, a ≠ j → inode s'.img a = inode s.img a
  elsewhere : ∀ b, b ≠ IBLOCK j sb → s'.img b = s.img b

theorem winode_spec (hblocks : s.blocks = FSSIZE) (hj : j < capacity) (hd : d.Fits) :
    ∃ s', s.winode j d = .ok s' ∧ Stored s j d s' := by
  have hlt : IBLOCK j sb < s.blocks := by
    rw [hblocks]
    exact (iblock_lt hj).trans (by decide)
  refine ⟨s.wsect (IBLOCK j sb) (put (s.img (IBLOCK j sb)) (j % IPB * dinodeSize) d.bytes), ?_, ?_⟩
  · rw [State.winode, rsect_of_lt hlt]
    rfl
  have hself : (s.wsect (IBLOCK j sb) (put (s.img (IBLOCK j sb)) (j % IPB * dinodeSize)
      d.bytes)).img (IBLOCK j sb) = put (s.img (IBLOCK j sb)) (j % IPB * dinodeSize) d.bytes :=
    update_self ..
  have hother : ∀ b, b ≠ IBLOCK j sb → (s.wsect (IBLOCK j sb) (put (s.img (IBLOCK j sb))
      (j % IPB * dinodeSize) d.bytes)).img b = s.img b := fun b hb => update_of_ne hb ..
  refine ⟨wsect_blocks hlt _, rfl, rfl, ?_, ?_, hother⟩
  · rw [inode, hself, dinodeAt_put hd]
  · intro a ha
    by_cases hblock : IBLOCK a sb = IBLOCK j sb
    · rw [inode, inode, hblock, hself]
      refine dinodeAt_put_outside ?_
      rw [d.bytes_length]
      rw [iblock_eq, iblock_eq] at hblock
      simp only [dinodeSize, show IPB = 8 from rfl]
      omega
    · exact inode_congr (hother _ hblock)

/-! ### The invariant -/

/-- The type of an inode, when those below `n` have been allocated. -/
def typeOf (n j : Nat) : Nat := if j = 0 ∨ n ≤ j then 0 else if j = ROOTINO then T_DIR else T_FILE

/-- The inodes below `freeinode` have the contents `c`. -/
structure Inv (s : State) (c : Nat → List Byte) : Prop where
  blocks : s.blocks = FSSIZE
  free : s.freeblock ≤ FSSIZE
  inodes : s.freeinode ≤ capacity
  super : s.img 1 = put (fun _ => 0) 0 sb.bytes
  layout : Layout s.img (inode s.img) c (needed c) s.freeinode s.freeblock
  size : ∀ j < s.freeinode, (inode s.img j).size = (c j).length
  small : ∀ j < s.freeinode, (c j).length ≤ MAXFILE * BSIZE
  type : ∀ j < capacity, (inode s.img j).type = typeOf s.freeinode j

theorem Inv.lt_capacity (h : Inv s c) (hj : j < s.freeinode) : j < capacity :=
  Nat.lt_of_lt_of_le hj h.inodes

/-- The addresses of an inode are below `freeblock`. -/
theorem layout_addrs_lt {img : Img} {dins : Nat → Dinode} {u : Nat → Nat} {N fb : Nat}
    (h : Layout img dins c u N fb) (hj : j < N) (i : Fin (NDIRECT + 1)) :
    (dins j).addrs i < fb := by
  by_cases h0 : (dins j).addrs i = 0
  · rw [h0]
    exact Nat.lt_of_lt_of_le h.rows.pos h.rows.le
  · have href : ref img (dins j) i = (dins j).addrs i := ref_direct i.isLt
    have := h.rows.range j hj i (by rwa [href])
    rw [href] at this
    exact this.2

/-- **`iappend`** appends, or there is no room. -/
theorem iappend_spec (h : Inv s c) (hj : j < s.freeinode) (p : List Byte) :
    (∃ s', s.iappend j p = .ok s' ∧ Inv s' (update c j (c j ++ p)) ∧ s'.freeinode = s.freeinode) ∨
      (∃ e, s.iappend j p = .error e) ∧ (MAXFILE * BSIZE < (c j).length + p.length ∨
          FSSIZE + blocksFor (c j).length < s.freeblock + blocksFor ((c j).length + p.length)) := by
  have hcap := h.lt_capacity hj
  rw [State.iappend, rinode_eq h.blocks hcap]
  dsimp only [bind, Except.bind]
  rw [h.size j hj]
  obtain ⟨s1, din1, hok, happended⟩ | ⟨⟨e, he⟩, hroom⟩ :=
    iappendLoop_spec h.layout hj h.blocks h.free p
  swap
  · exact .inr ⟨⟨e, by rw [he]⟩, hroom⟩
  refine .inl ?_
  rw [hok]
  dsimp only
  have hsmall : (c j).length + p.length ≤ MAXFILE * BSIZE := by
    by_cases hp : p = []
    · rw [hp]
      exact h.small j hj
    · exact happended.small hp
  have hold := dinodeAt_fits (s.img (IBLOCK j sb)) (j % IPB * dinodeSize)
  have hfields := happended.keeps.fields
  have haddrs : ∀ i, din1.addrs i < s1.freeblock := by
    intro i
    have := layout_addrs_lt happended.layout hj i
    rwa [update_self] at this
  have hfits : ({ din1 with size := (c j).length + p.length } : Dinode).Fits := by
    have hsame := hold
    rw [← inode, ← hfields] at hsame
    refine ⟨hsame.type, hsame.major, hsame.minor, hsame.nlink, ?_, fun i => ?_⟩
    · refine Nat.lt_of_le_of_lt hsmall (by decide)
    · exact (haddrs i).trans_le (happended.free.trans (by decide))
  obtain ⟨s2, hs2, hstored⟩ := winode_spec (happended.keeps.blocks.trans h.blocks) hcap hfits
  have hnodes : ∀ a, a < capacity → a ≠ j → inode s2.img a = inode s.img a := by
    intro a ha hne
    rw [hstored.others a hne]
    exact inode_congr (happended.keeps.metaBlocks _ (iblock_lt ha))
  have hfree : s2.freeinode = s.freeinode := hstored.freeinode.trans happended.keeps.freeinode
  refine ⟨s2, hs2, ?_, hfree⟩
  exact
    { blocks := hstored.blocks.trans (happended.keeps.blocks.trans h.blocks)
      free := by
        rw [hstored.freeblock]
        exact happended.free
      inodes := by
        rw [hfree]
        exact h.inodes
      super := by
        have hne : 1 ≠ IBLOCK j sb := by
          rw [iblock_eq]
          omega
        rw [hstored.elsewhere 1 hne, happended.keeps.metaBlocks 1 (by decide), h.super]
      layout := by
        rw [hfree, hstored.freeblock]
        refine happended.layout.outside (fun b hb => hstored.elsewhere b ?_) fun a ha => ?_
        · have := iblock_lt hcap
          omega
        · by_cases haj : a = j
          · rw [haj, hstored.self, update_self]
          · rw [hnodes a (h.lt_capacity ha) haj, update_of_ne haj]
      size := by
        intro a ha
        rw [hfree] at ha
        by_cases haj : a = j
        · rw [haj, hstored.self, update_self, List.length_append]
        · rw [hnodes a (h.lt_capacity ha) haj, update_of_ne haj]
          exact h.size a ha
      small := by
        intro a ha
        rw [hfree] at ha
        by_cases haj : a = j
        · rw [haj, update_self, List.length_append]
          exact hsmall
        · rw [update_of_ne haj]
          exact h.small a ha
      type := by
        intro a ha
        rw [hfree, ← h.type a ha]
        by_cases haj : a = j
        · rw [haj, hstored.self, ← hfields]
        · rw [hnodes a ha haj] }

/-! ### Room -/

/-- The files are not too large, and their blocks are there. -/
structure Room (c : Nat → List Byte) (N : Nat) : Prop where
  small : ∀ j < N, (c j).length ≤ MAXFILE * BSIZE
  blocks : nmeta + ∑ j ∈ Finset.range N, blocksFor (c j).length ≤ FSSIZE

theorem Room.mono {c' : Nat → List Byte} {N N' : Nat} (h : Room c' N') (hN : N ≤ N')
    (hc : ∀ j < N, (c j).length ≤ (c' j).length) : Room c N where
  small := fun j hj => (hc j hj).trans (h.small j (hj.trans_le hN))
  blocks := by
    refine le_trans (Nat.add_le_add_left ?_ _) h.blocks
    calc ∑ j ∈ Finset.range N, blocksFor (c j).length
        ≤ ∑ j ∈ Finset.range N, blocksFor (c' j).length :=
          Finset.sum_le_sum fun j hj => blocksFor_mono (hc j (Finset.mem_range.1 hj))
      _ ≤ ∑ j ∈ Finset.range N', blocksFor (c' j).length :=
          Finset.sum_le_sum_of_subset (Finset.range_subset_range.2 hN)

/-- **`iappend`** appends, unless there is no room for the result. -/
theorem iappend_room (h : Inv s c) (hj : j < s.freeinode) (p : List Byte) :
    (∃ s', s.iappend j p = .ok s' ∧ Inv s' (update c j (c j ++ p)) ∧ s'.freeinode = s.freeinode) ∨
      (∃ e, s.iappend j p = .error e) ∧ ¬ Room (update c j (c j ++ p)) s.freeinode := by
  refine (iappend_spec h hj p).imp id fun herr => ⟨herr.1, fun hroom => ?_⟩
  obtain hlarge | hfull := herr.2
  · have := hroom.small j hj
    rw [update_self, List.length_append] at this
    omega
  · have htotal := h.layout.rows.total
    have hsum := hroom.blocks
    have hmem := Finset.mem_range.2 hj
    have hother : ∑ a ∈ (Finset.range s.freeinode).erase j,
        blocksFor (update c j (c j ++ p) a).length =
        ∑ a ∈ (Finset.range s.freeinode).erase j, needed c a := by
      refine Finset.sum_congr rfl fun a ha => ?_
      rw [update_of_ne (Finset.ne_of_mem_erase ha), needed]
    rw [← Finset.add_sum_erase _ _ hmem, hother, update_self, List.length_append] at hsum
    rw [← Finset.add_sum_erase _ _ hmem] at htotal
    simp only [needed] at htotal hsum
    omega

/-- The loop over the pieces of a file. -/
theorem pieces_room (h : Inv s c) (hj : j < s.freeinode) (ps : List (List Byte)) :
    (∃ s', ps.foldlM (fun s p => s.iappend j p) s = .ok s' ∧
        Inv s' (update c j (c j ++ ps.flatten)) ∧ s'.freeinode = s.freeinode) ∨
      (∃ e, ps.foldlM (fun s p => s.iappend j p) s = .error e) ∧
        ¬ Room (update c j (c j ++ ps.flatten)) s.freeinode := by
  induction ps generalizing s c with
  | nil =>
    refine .inl ⟨s, rfl, ?_, rfl⟩
    rwa [List.flatten_nil, List.append_nil, update_eq_self]
  | cons p ps ih =>
    rw [List.foldlM_cons]
    obtain ⟨s1, hok, hinv, hfree⟩ | ⟨⟨e, he⟩, hroom⟩ := iappend_room h hj p
    · rw [hok]
      have hrest := ih hinv (by rwa [hfree])
      rwa [hfree, update_idem, update_self, List.append_assoc, ← List.flatten_cons] at hrest
    · refine .inr ⟨⟨e, by rw [he]; rfl⟩, fun hroom' => hroom ?_⟩
      refine hroom'.mono le_rfl fun a _ => ?_
      by_cases haj : a = j
      · rw [haj, update_self, update_self, List.flatten_cons]
        simp
      · rw [update_of_ne haj, update_of_ne haj]

/-! ### New inodes -/

theorem typeOf_succ (n : Nat) (hne : j ≠ n) : typeOf (n + 1) j = typeOf n j := by
  have : (j = 0 ∨ n + 1 ≤ j) ↔ (j = 0 ∨ n ≤ j) := by omega
  rw [typeOf, typeOf]
  simp only [this]

theorem ialloc_spec (h : Inv s c) (hN : s.freeinode < capacity) (hc : c s.freeinode = [])
    (type : Nat) (htype : type = typeOf (s.freeinode + 1) s.freeinode) :
    ∃ s', s.ialloc type = .ok (s.freeinode, s') ∧ Inv s' c ∧ s'.freeinode = s.freeinode + 1 := by
  have hfits : (State.newDinode type).Fits := by
    have hbound : type < 2 ^ 16 := by
      rw [htype, typeOf]
      split_ifs <;> decide
    refine ⟨hbound, ?_, ?_, ?_, ?_, fun _ => ?_⟩ <;> simp [State.newDinode]
  obtain ⟨s1, hs1, hstored⟩ := winode_spec (s := { s with freeinode := s.freeinode + 1 }) h.blocks
    hN hfits
  have hnodes : ∀ a, a ≠ s.freeinode → inode s1.img a = inode s.img a := hstored.others
  have hfree : s1.freeinode = s.freeinode + 1 := hstored.freeinode
  have hblock : s1.freeblock = s.freeblock := hstored.freeblock
  refine ⟨s1, ?_, ?_, hfree⟩
  · rw [State.ialloc, hs1]
    rfl
  exact
    { blocks := hstored.blocks.trans h.blocks
      free := by
        rw [hblock]
        exact h.free
      inodes := by
        rw [hfree]
        exact hN
      super := by
        have hne : 1 ≠ IBLOCK s.freeinode sb := by
          rw [iblock_eq]
          omega
        rw [hstored.elsewhere 1 hne]
        exact h.super
      layout := by
        rw [hfree, hblock]
        have hrow : update (needed c) s.freeinode 0 = needed c := by
          rw [update_eq_self_iff, needed, hc]
          rfl
        have hnew : Layout s1.img (inode s1.img) c (update (needed c) s.freeinode 0)
            (s.freeinode + 1) s.freeblock := by
          refine h.layout.newInode (fun i => ?_) (fun b hb => hstored.elsewhere b ?_)
            (fun a ha => ?_) hc
          · rw [hstored.self]
            rfl
          · have := iblock_lt hN
            omega
          · rw [hnodes a ha.ne]
        rwa [hrow] at hnew
      size := by
        intro a ha
        rw [hfree] at ha
        by_cases haN : a = s.freeinode
        · rw [haN, hstored.self, hc]
          rfl
        · rw [hnodes a haN]
          exact h.size a (by omega)
      small := by
        intro a ha
        rw [hfree] at ha
        by_cases haN : a = s.freeinode
        · rw [haN, hc]
          exact Nat.zero_le _
        · exact h.small a (by omega)
      type := by
        intro a ha
        rw [hfree]
        by_cases haN : a = s.freeinode
        · rw [haN, hstored.self]
          exact htype
        · rw [hnodes a haN, typeOf_succ _ haN]
          exact h.type a ha }

/-! ### The files -/

/-- The entries of the root directory: numbers and names. -/
def entries (files : List HostFile) : List (Nat × Chars) :=
  [(ROOTINO, dot), (ROOTINO, dotdot)] ++ (files.zipIdx 2).map fun f => (f.2, f.1.target)

def direntOf (e : Nat × Chars) : List Byte := direntBytes e.1 (key e.2)

/-- What the inodes contain when the files have been added. -/
def contents (files : List HostFile) (j : Nat) : List Byte :=
  if j = 0 then []
  else if j = ROOTINO then (entries files).flatMap direntOf
  else (files[j - 2]?.map HostFile.contents).getD []

variable {files : List HostFile} {f : HostFile}

theorem entries_concat (files : List HostFile) (f : HostFile) :
    entries (files ++ [f]) = entries files ++ [(files.length + 2, f.target)] := by
  simp [entries, List.zipIdx_append, Nat.add_comm]

theorem contents_root : contents files ROOTINO = (entries files).flatMap direntOf := rfl

theorem contents_file (i : Nat) :
    contents files (i + 2) = (files[i]?.map HostFile.contents).getD [] := by
  have h0 : ¬ i + 2 = 0 := by omega
  have h1 : ¬ i + 2 = ROOTINO := by simp only [ROOTINO]; omega
  rw [contents, if_neg h0, if_neg h1, Nat.add_sub_cancel]

theorem contents_next : contents files (files.length + 2) = [] := by
  rw [contents_file, List.getElem?_eq_none le_rfl]
  rfl

/-- The entry goes to the end of the root directory and the bytes to the new inode. -/
theorem contents_concat (files : List HostFile) (f : HostFile) :
    contents (files ++ [f]) = update (update (contents files) ROOTINO
      (contents files ROOTINO ++ direntOf (files.length + 2, f.target))) (files.length + 2)
      f.contents := by
  funext j
  by_cases hnew : j = files.length + 2
  · rw [hnew, update_self, contents_file]
    simp
  rw [update_of_ne hnew]
  by_cases hroot : j = ROOTINO
  · rw [hroot, update_self, contents_root, contents_root, entries_concat, List.flatMap_append]
    simp
  rw [update_of_ne hroot, contents, contents, if_neg hroot, if_neg hroot]
  by_cases h0 : j = 0
  · rw [if_pos h0, if_pos h0]
  · have hroot' : j ≠ 1 := hroot
    rw [if_neg h0, if_neg h0]
    by_cases hlt : j - 2 < files.length
    · rw [List.getElem?_append_left hlt]
    · rw [List.getElem?_eq_none (by simp; omega), List.getElem?_eq_none (by omega)]

theorem contents_mono (files : List HostFile) (f : HostFile) (j : Nat) :
    (contents files j).length ≤ (contents (files ++ [f]) j).length := by
  rw [contents_concat]
  by_cases hnew : j = files.length + 2
  · rw [hnew, contents_next]
    exact Nat.zero_le _
  rw [update_of_ne hnew]
  by_cases hroot : j = ROOTINO
  · rw [hroot, update_self, List.length_append]
    omega
  · rw [update_of_ne hroot]

/-- A file has been added, or it cannot be. -/
theorem addFile_spec (h : Inv s (contents files)) (hN : s.freeinode = files.length + 2)
    (hcap : files.length + 2 < capacity) (f : HostFile) :
    (∃ s', s.addFile ROOTINO f = .ok s' ∧ Inv s' (contents (files ++ [f])) ∧
        s'.freeinode = (files ++ [f]).length + 2) ∨ (∃ e, s.addFile ROOTINO f = .error e) ∧
        ((47 : Byte) ∈ f.name ∨ ¬ Room (contents (files ++ [f])) ((files ++ [f]).length + 2)) := by
  rw [State.addFile]
  by_cases hslash : (47 : Byte) ∈ f.name
  · exact .inr ⟨⟨.index, if_pos hslash⟩, .inl hslash⟩
  rw [if_neg hslash]
  have hlen : (files ++ [f]).length + 2 = files.length + 3 := by simp
  obtain ⟨s1, hs1, hinv1, hfree1⟩ := ialloc_spec h (by omega) (by rw [hN, contents_next])
    T_FILE (by simp [typeOf, hN, ROOTINO])
  rw [hs1]
  dsimp only [bind, Except.bind]
  rw [hN] at hfree1 ⊢
  obtain ⟨s2, hs2, hinv2, hfree2⟩ | ⟨⟨e, he⟩, hroom⟩ :=
    iappend_room hinv1 (j := ROOTINO) (by rw [hfree1]; simp only [ROOTINO]; omega)
      (direntOf (files.length + 2, f.target))
  swap
  · refine .inr ⟨⟨e, ?_⟩, .inr fun hroom' => hroom ?_⟩
    · rw [direntOf, key] at he
      rw [he]
    · rw [hfree1]
      refine hroom'.mono (by omega) fun j _ => ?_
      rw [contents_concat]
      by_cases hnew : j = files.length + 2
      · rw [hnew, update_of_ne (by simp [ROOTINO]), contents_next]
        exact Nat.zero_le _
      · rw [update_of_ne hnew]
  have hfinal : update (update (contents files) ROOTINO
      (contents files ROOTINO ++ direntOf (files.length + 2, f.target))) (files.length + 2)
      (update (contents files) ROOTINO (contents files ROOTINO ++
        direntOf (files.length + 2, f.target)) (files.length + 2) ++ f.pieces.flatten) =
      contents (files ++ [f]) := by
    rw [contents_concat, update_of_ne (by simp [ROOTINO]), contents_next, List.nil_append]
    rfl
  have hpieces := pieces_room hinv2 (j := files.length + 2) (by rw [hfree2, hfree1]; omega) f.pieces
  rw [hfinal, hfree2, hfree1] at hpieces
  rw [direntOf, key] at hs2
  rw [hs2, hlen]
  exact hpieces.imp id fun herr => ⟨herr.1, .inr herr.2⟩

theorem contents_le (files more : List HostFile) (j : Nat) :
    (contents files j).length ≤ (contents (files ++ more) j).length := by
  induction more using List.reverseRecOn with
  | nil => rw [List.append_nil]
  | append_singleton l a ih =>
    rw [← List.append_assoc]
    exact ih.trans (contents_mono _ a j)

theorem addFiles_spec (h : Inv s (contents files)) (hN : s.freeinode = files.length + 2)
    (more : List HostFile) (hcap : (files ++ more).length + 2 ≤ capacity) :
    (∃ s', more.foldlM (State.addFile ROOTINO) s = .ok s' ∧ Inv s' (contents (files ++ more)) ∧
        s'.freeinode = (files ++ more).length + 2) ∨
      (∃ e, more.foldlM (State.addFile ROOTINO) s = .error e) ∧
        ((∃ f ∈ more, (47 : Byte) ∈ f.name) ∨
          ¬ Room (contents (files ++ more)) ((files ++ more).length + 2)) := by
  induction more generalizing s files with
  | nil =>
    refine .inl ⟨s, rfl, ?_, ?_⟩
    · rwa [List.append_nil]
    · rwa [List.append_nil]
  | cons f more ih =>
    have happend : files ++ f :: more = files ++ [f] ++ more := by simp
    rw [List.foldlM_cons]
    rw [happend] at hcap ⊢
    have hroomcap : files.length + 2 < capacity := by
      simp only [List.length_append, List.length_cons, List.length_nil] at hcap
      omega
    obtain ⟨s1, hok, hinv, hfree⟩ | ⟨⟨e, he⟩, hwhy⟩ := addFile_spec h hN hroomcap f
    · rw [hok]
      refine (ih hinv hfree hcap).imp id fun herr => ⟨herr.1, herr.2.imp ?_ id⟩
      rintro ⟨g, hg, hslash⟩
      exact ⟨g, List.mem_cons_of_mem f hg, hslash⟩
    · refine .inr ⟨⟨e, by rw [he]; rfl⟩,
        hwhy.imp (fun hslash => ⟨f, List.mem_cons_self, hslash⟩) ?_⟩
      intro hroom hroom'
      exact hroom (hroom'.mono (by simp) fun j _ => contents_le _ more j)

theorem dinodeAt_zero (k : Nat) : dinodeAt (fun _ => 0) k = ⟨0, 0, 0, 0, 0, fun _ => 0⟩ := by
  have hword : ∀ a n, word (fun _ => 0) a n = 0 := fun a n => word_of_zero fun _ _ => rfl
  simp only [dinodeAt, hword]

theorem inode_init (j : Nat) : inode State.init.img j = ⟨0, 0, 0, 0, 0, fun _ => 0⟩ := by
  have hne : IBLOCK j sb ≠ 1 := by
    rw [iblock_eq]
    omega
  rw [inode, State.init]
  dsimp only
  rw [update_of_ne hne]
  exact dinodeAt_zero _

/-- Before the first file: no inode but number 0, which is not used. -/
theorem inv_init : Inv State.init fun _ => [] := by
  have hzero : ∀ k, ref State.init.img (inode State.init.img 0) k = 0 := by
    intro k
    rw [inode_init, ref]
    split
    · rfl
    · rw [if_neg (by simp)]
  have hone : ∀ j, j < State.init.freeinode → j = 0 := fun j hj => Nat.lt_one_iff.1 hj
  exact
    { blocks := rfl
      free := by decide
      inodes := by decide
      super := by
        rw [State.init]
        dsimp only
        rw [update_self]
      layout :=
        { rows :=
            { pos := by decide
              cell := by
                intro j hj k
                rw [hone j hj]
                simp [hzero, needed, blocksFor, BSIZE]
              range := fun j hj k hk => by
                rw [hone j hj] at hk
                exact absurd (hzero k) hk
              distinct := fun a ha _ _ k _ hk => by
                rw [hone a ha] at hk
                exact absurd (hzero k) hk
              total := rfl }
          covers := fun j _ => Nat.le_refl _
          data := fun j _ i hi => absurd hi (Nat.not_lt_zero i)
          fresh := fun b hb i => by
            have hne : b ≠ 1 := by
              rintro rfl
              exact absurd hb (by decide)
            rw [State.init]
            dsimp only
            rw [update_of_ne hne] }
      size := fun j hj => by
        rw [hone j hj, inode_init]
        rfl
      small := fun j _ => Nat.zero_le _
      type := fun j _ => by
        rw [inode_init, typeOf, if_pos (by show j = 0 ∨ 1 ≤ j; omega)] }

theorem contents_nil : contents [] = update (fun _ => []) ROOTINO
    (direntOf (ROOTINO, dot) ++ direntOf (ROOTINO, dotdot)) := by
  funext j
  by_cases hroot : j = ROOTINO
  · rw [hroot, update_self, contents_root]
    simp [entries]
  · rw [update_of_ne hroot, contents, if_neg hroot]
    simp

theorem room_nil : Room (contents []) 2 where
  small := by decide
  blocks := by decide

/-- The part of `main` that makes the root directory. -/
theorem root_spec : ∃ s1 s2 s3, State.init.ialloc T_DIR = .ok (ROOTINO, s1) ∧
    s1.iappend ROOTINO (direntOf (ROOTINO, dot)) = .ok s2 ∧
    s2.iappend ROOTINO (direntOf (ROOTINO, dotdot)) = .ok s3 ∧
    Inv s3 (contents []) ∧ s3.freeinode = 2 := by
  obtain ⟨s1, hs1, hinv1, hfree1⟩ := ialloc_spec inv_init (by decide) rfl T_DIR rfl
  have hfree1 : s1.freeinode = 2 := hfree1
  obtain ⟨s2, hs2, hinv2, hfree2⟩ | ⟨-, hroom⟩ := iappend_room hinv1 (j := ROOTINO)
    (by rw [hfree1]; decide) (direntOf (ROOTINO, dot))
  swap
  · refine absurd ?_ hroom
    rw [hfree1]
    refine room_nil.mono le_rfl fun j _ => ?_
    rw [contents_nil]
    by_cases hj : j = ROOTINO
    · rw [hj, update_self, update_self]
      simp
    · rw [update_of_ne hj, update_of_ne hj]
  obtain ⟨s3, hs3, hinv3, hfree3⟩ | ⟨-, hroom⟩ := iappend_room hinv2 (j := ROOTINO)
    (by rw [hfree2, hfree1]; decide) (direntOf (ROOTINO, dotdot))
  · refine ⟨s1, s2, s3, hs1, hs2, hs3, ?_, by rw [hfree3, hfree2, hfree1]⟩
    rwa [update_idem, update_self, List.nil_append, ← contents_nil] at hinv3
  · rw [hfree2, hfree1, update_idem, update_self, List.nil_append, ← contents_nil] at hroom
    exact absurd room_nil hroom

/-! ### The image -/

/-- The size that `main` gives to a directory of `n` bytes. -/
def rounded (n : Nat) : Nat := (n / BSIZE + 1) * BSIZE

/-- The image at the end. -/
structure Made (files : List HostFile) (s : State) : Prop where
  free : s.freeblock ≤ FSSIZE
  freeinode : s.freeinode = files.length + 2
  super : s.img 1 = put (fun _ => 0) 0 sb.bytes
  bitmap : s.img sb.bmapstart = State.bits s.freeblock
  layout : Layout s.img (inode s.img) (contents files) (needed (contents files))
    (files.length + 2) s.freeblock
  root : (inode s.img ROOTINO).size = rounded (contents files ROOTINO).length
  size : ∀ j < files.length + 2, j ≠ ROOTINO → (inode s.img j).size = (contents files j).length
  small : ∀ j < files.length + 2, (contents files j).length ≤ MAXFILE * BSIZE
  type : ∀ j < capacity, (inode s.img j).type = typeOf (files.length + 2) j

/-- `main` from the size of the root directory on. -/
theorem finish_spec (h : Inv s (contents files)) (hN : s.freeinode = files.length + 2) :
    ∃ s1 s2, s.winode ROOTINO { inode s.img ROOTINO with
        size := rounded (contents files ROOTINO).length } = .ok s1 ∧
      s1.balloc s1.freeblock = .ok s2 ∧ Made files s2 := by
  have hroot : ROOTINO < s.freeinode := by
    rw [hN, ROOTINO]
    omega
  have hold := dinodeAt_fits (s.img (IBLOCK ROOTINO sb)) (ROOTINO % IPB * dinodeSize)
  have hfits : ({ inode s.img ROOTINO with
      size := rounded (contents files ROOTINO).length } : Dinode).Fits := by
    refine ⟨hold.type, hold.major, hold.minor, hold.nlink, ?_, hold.addrs⟩
    have := h.small ROOTINO hroot
    simp only [rounded, MAXFILE, NINDIRECT, NDIRECT, BSIZE] at this ⊢
    omega
  obtain ⟨s1, hs1, hstored⟩ := winode_spec h.blocks (h.lt_capacity hroot) hfits
  have hfree : s1.freeblock = s.freeblock := hstored.freeblock
  have hused : s1.freeblock < BSIZE * 8 := by
    rw [hfree]
    exact Nat.lt_of_le_of_lt h.free (by decide)
  refine ⟨s1, s1.wsect sb.bmapstart (State.bits s1.freeblock), hs1, if_pos hused, ?_⟩
  generalize hs2 : s1.wsect sb.bmapstart (State.bits s1.freeblock) = s2
  have hbitmap : s2.img sb.bmapstart = State.bits s1.freeblock := by
    rw [← hs2]
    exact update_self sb.bmapstart _ s1.img
  have helse : ∀ b, b ≠ sb.bmapstart → s2.img b = s1.img b := by
    intro b hb
    rw [← hs2]
    exact update_of_ne hb ..
  have hcounter : s2.freeinode = s.freeinode ∧ s2.freeblock = s.freeblock := by
    rw [← hs2]
    exact ⟨hstored.freeinode, hfree⟩
  have hbmap : sb.bmapstart = 58 := rfl
  have hnodes : ∀ j < capacity, inode s2.img j = inode s1.img j := by
    intro j hj
    refine inode_congr (helse _ ?_)
    rw [iblock_eq, hbmap]
    rw [capacity_eq] at hj
    omega
  have hothers : ∀ j < capacity, j ≠ ROOTINO → inode s2.img j = inode s.img j :=
    fun j hj hne => (hnodes j hj).trans (hstored.others j hne)
  have hself : inode s2.img ROOTINO = { inode s.img ROOTINO with
      size := rounded (contents files ROOTINO).length } :=
    (hnodes ROOTINO (by decide)).trans hstored.self
  exact
    { free := by rw [hcounter.2]; exact h.free
      freeinode := by rw [hcounter.1, hN]
      super := by
        rw [helse 1 (by decide), hstored.elsewhere 1 (by decide), h.super]
      bitmap := by rw [hbitmap, hcounter.2, hfree]
      layout := by
        have hlayout := h.layout
        rw [hN] at hlayout
        rw [hcounter.2]
        refine hlayout.outside (fun b hb => ?_) fun j hj => ?_
        · rw [nmeta_eq] at hb
          rw [helse b (by rw [hbmap]; omega),
            hstored.elsewhere b (by rw [iblock_eq, ROOTINO]; omega)]
        · by_cases hne : j = ROOTINO
          · rw [hne, hself]
          · rw [hothers j (h.lt_capacity (by omega)) hne]
      root := by rw [hself]
      size := by
        intro j hj hne
        rw [hothers j (h.lt_capacity (by omega)) hne]
        exact h.size j (by omega)
      small := by
        rw [← hN]
        exact h.small
      type := by
        intro j hj
        rw [← hN, ← h.type j hj]
        by_cases hne : j = ROOTINO
        · rw [hne, hself]
        · rw [hothers j hj hne] }

/-! ### The counter of inodes -/

section Counter

variable {s s' : State}

theorem bind_ok {α β : Type} {x : Except Exit α} {f : α → Except Exit β} {b : β}
    (h : (x >>= f) = .ok b) : ∃ a, x = .ok a ∧ f a = .ok b := by
  cases x with
  | error e => cases h
  | ok a => exact ⟨a, rfl, h⟩

theorem winode_freeinode {d : Dinode} (h : s.winode j d = .ok s') : s'.freeinode = s.freeinode := by
  simp only [State.winode, State.rsect] at h
  split at h <;> cases h
  rfl

theorem indirectBlock_freeinode {din : Dinode} {fbn : Nat} {r : Dinode × Nat}
    (h : s.indirectBlock din fbn = .ok (s', r)) : s'.freeinode = s.freeinode := by
  obtain ⟨buf, -, h⟩ := bind_ok h
  split at h <;> cases h <;> rfl

theorem fileBlock_freeinode {din : Dinode} {fbn : Nat} {r : Dinode × Nat}
    (h : s.fileBlock din fbn = .ok (s', r)) : s'.freeinode = s.freeinode := by
  simp only [State.fileBlock] at h
  split at h
  · split at h <;> cases h <;> rfl
  · split at h
    · exact (indirectBlock_freeinode h).trans rfl
    · exact indirectBlock_freeinode h

theorem iappendLoop_freeinode {din : Dinode} {off : Nat} {p : List Byte} {r : Dinode × Nat}
    (h : s.iappendLoop din off p = .ok (s', r)) : s'.freeinode = s.freeinode := by
  fun_induction State.iappendLoop s din off p with
  | case1 => cases h; rfl
  | case2 => cases h
  | case3 => cases h
  | case4 s din off p _ _ _ s1 din1 x hblock _ buf hbuf ih =>
    have hs1 : s1.freeinode = s.freeinode := fileBlock_freeinode hblock
    exact (ih h).trans hs1
  | case5 => cases h

theorem iappend_freeinode {p : List Byte} (h : s.iappend j p = .ok s') :
    s'.freeinode = s.freeinode := by
  obtain ⟨din, -, h⟩ := bind_ok h
  obtain ⟨⟨s1, din1, off⟩, hloop, h⟩ := bind_ok h
  rw [winode_freeinode h]
  exact iappendLoop_freeinode hloop

theorem ialloc_freeinode {type inum : Nat} (h : s.ialloc type = .ok (inum, s')) :
    s'.freeinode = s.freeinode + 1 := by
  obtain ⟨s1, hs1, h⟩ := bind_ok h
  cases h
  exact winode_freeinode hs1

theorem addFiles_freeinode {rootino : Nat} {files : List HostFile}
    (h : files.foldlM (State.addFile rootino) s = .ok s') :
    s'.freeinode = s.freeinode + files.length := by
  induction files generalizing s with
  | nil => cases h; rfl
  | cons f files ih =>
    rw [List.foldlM_cons] at h
    obtain ⟨s1, hadd, h⟩ := bind_ok h
    rw [State.addFile] at hadd
    split at hadd
    · cases hadd
    obtain ⟨⟨inum, s2⟩, halloc, hadd⟩ := bind_ok hadd
    obtain ⟨s3, hroot, hadd⟩ := bind_ok hadd
    have hpieces (ps : List (List Byte)) {s s' : State}
        (h : ps.foldlM (fun s p => s.iappend inum p) s = .ok s') :
        s'.freeinode = s.freeinode := by
      induction ps generalizing s with
      | nil => cases h; rfl
      | cons p ps ih =>
        rw [List.foldlM_cons] at h
        obtain ⟨s1, hs1, h⟩ := bind_ok h
        rw [ih h, iappend_freeinode hs1]
    rw [ih h, hpieces _ hadd, iappend_freeinode hroot, ialloc_freeinode halloc, List.length_cons]
    omega

/-- However many files there are, every one gets an inode. -/
theorem main_freeinode (h : main files = .ok s) : s.freeinode = files.length + 2 := by
  obtain ⟨⟨rootino, s1⟩, halloc, h⟩ := bind_ok h
  dsimp only at h
  split at h
  · cases h
  obtain ⟨s2, hdot, h⟩ := bind_ok h
  obtain ⟨s3, hdotdot, h⟩ := bind_ok h
  obtain ⟨s4, hadd, h⟩ := bind_ok h
  obtain ⟨din, -, h⟩ := bind_ok h
  obtain ⟨s5, hround, h⟩ := bind_ok h
  have hinit : State.init.freeinode = 1 := rfl
  have hlast : s.freeinode = s5.freeinode := by
    simp only [State.balloc] at h
    split at h <;> cases h
    rfl
  rw [hlast, winode_freeinode hround, addFiles_freeinode hadd, iappend_freeinode hdotdot,
    iappend_freeinode hdot, ialloc_freeinode halloc, hinit]
  omega

end Counter

/-- **`mkfs`** makes the image, unless a name has a slash or there is no room. -/
theorem main_spec (files : List HostFile) (hcap : files.length + 2 ≤ capacity) :
    (∃ s, main files = .ok s ∧ Made files s) ∨ (∃ e, main files = .error e) ∧
        ((∃ f ∈ files, (47 : Byte) ∈ f.name) ∨ ¬ Room (contents files) (files.length + 2)) := by
  obtain ⟨s1, s2, s3, hs1, hs2, hs3, hinv, hfree⟩ := root_spec
  rw [direntOf, key] at hs2 hs3
  have hmain : main files = (files.foldlM (State.addFile ROOTINO) s3 >>= fun s => do
      let din ← s.rinode ROOTINO
      let s ← s.winode ROOTINO { din with size := rounded din.size }
      s.balloc s.freeblock) := by
    rw [main, hs1]
    dsimp only [bind, Except.bind]
    rw [if_neg (by decide), hs2]
    dsimp only [pure, Except.pure]
    rw [hs3]
    rfl
  rw [hmain]
  obtain ⟨s4, hs4, hinv4, hfree4⟩ | ⟨⟨e, he⟩, hwhy⟩ := addFiles_spec hinv hfree files hcap
  · refine .inl ?_
    have hroot : ROOTINO < s4.freeinode := by
      rw [hfree4, ROOTINO]
      omega
    obtain ⟨s5, s6, hs5, hs6, hmade⟩ := finish_spec hinv4 hfree4
    refine ⟨s6, ?_, hmade⟩
    rw [hs4]
    dsimp only [bind, Except.bind]
    rw [rinode_eq hinv4.blocks (hinv4.lt_capacity hroot)]
    dsimp only
    rw [hinv4.size ROOTINO hroot, hs5]
    exact hs6
  · exact .inr ⟨⟨e, by rw [he]; rfl⟩, hwhy⟩

end Xv6.Mkfs
