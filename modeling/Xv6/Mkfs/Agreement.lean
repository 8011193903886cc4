import Xv6.Mkfs.Files

/-! What the kernel finds in an image of `mkfs`. It reads the super block and the inodes as they
were written, so every file is found under its name and read byte by byte. The root directory
is the exception: its size is rounded up to the next multiple of `BSIZE` also when it is one
already, and then its last block does not exist. -/

namespace Xv6.Mkfs

open Format Segments Words Rows Function

variable {files : List HostFile} {s : State} {j : Nat}

/-! ### The kernel's view -/

theorem readsb_of_super {img : Img} (h : img 1 = put (fun _ => 0) 0 sb.bytes) :
    readsb img = sb := by
  rw [readsb, h]
  decide +kernel

theorem Made.ilock_eq (h : Made files s) (j : Nat) : ilock s.img j = inode s.img j := by
  rw [ilock, readsb_of_super h.super, inode]

/-- The bits of the bitmap that are set. -/
theorem bits_getLsbD (used q r : Nat) (hr : r < 8) :
    (State.bits used q).getLsbD r = decide (q * 8 + r < used) := by
  induction used with
  | zero => simp [State.bits]
  | succ n ih =>
    have hbits : State.bits (n + 1) = update (State.bits n) (n / 8)
        (State.bits n (n / 8) ||| (1#8 <<< (n % 8))) := by
      rw [State.bits, List.range_succ, List.foldl_append]
      rfl
    rw [hbits]
    by_cases hq : q = n / 8
    · have hbit : (1#8 <<< (n % 8)).getLsbD r = decide (r = n % 8) := by
        rw [BitVec.getLsbD_shiftLeft, BitVec.getLsbD_one, Bool.eq_iff_iff]
        simp
        omega
      rw [hq, update_self, BitVec.getLsbD_or, ← hq, ih, hbit, Bool.eq_iff_iff]
      simp only [Bool.or_eq_true, decide_eq_true_eq]
      omega
    · rw [update_of_ne hq, ih]
      refine decide_eq_decide.2 ?_
      omega

theorem Made.inUse (h : Made files s) {b : Nat} (hb : b < s.freeblock) : inUse s.img b = true := by
  have hsmall : b < BPB := hb.trans_le (h.free.trans (by decide))
  have hblock : BBLOCK b (readsb s.img) = sb.bmapstart := by
    rw [readsb_of_super h.super, BBLOCK, Nat.div_eq_of_lt hsmall, Nat.zero_add]
  rw [Format.inUse, hblock, h.bitmap, bits_getLsbD _ _ _ (Nat.mod_lt _ (by decide)),
    Nat.mod_eq_of_lt hsmall, decide_eq_true_eq]
  omega

/-! ### Reading files -/

theorem Made.readi (h : Made files s) (hj : j < files.length + 2)
    (hcap : files.length + 2 ≤ capacity)
    {off n : Nat} (hoff : off ≤ (contents files j).length) (hn : off + n < 2 ^ 32)
    (hin : j = ROOTINO → off + n ≤ (contents files j).length) :
    Format.readi s.img (ilock s.img j) off n =
      .ok (some (((contents files j).drop off).take n)) := by
  have htype : (inode s.img j).type ≠ T_DEV := by
    rw [h.type j (hj.trans_le hcap), typeOf]
    split_ifs <;> decide
  -- the number of bytes that `readi` copies
  have hcount : ∃ k,
      (if off + n > (inode s.img j).size then (inode s.img j).size - off else n) = k ∧
      off ≤ (inode s.img j).size ∧ off + k ≤ (contents files j).length ∧
      ((contents files j).drop off).take k = ((contents files j).drop off).take n := by
    refine ⟨_, rfl, ?_⟩
    by_cases hroot : j = ROOTINO
    · have hin := hin hroot
      have hsize : off + n ≤ (inode s.img j).size := by
        rw [hroot] at hin ⊢
        rw [h.root, rounded]
        have := Nat.div_add_mod (contents files ROOTINO).length BSIZE
        have := Nat.mod_lt (contents files ROOTINO).length (show 0 < BSIZE by decide)
        rw [Nat.succ_mul, Nat.mul_comm]
        omega
      rw [if_neg (by omega)]
      exact ⟨by omega, hin, rfl⟩
    · rw [h.size j hj hroot]
      by_cases hlong : off + n > (contents files j).length
      · rw [if_pos hlong, List.take_of_length_le (by simp), List.take_of_length_le (by simp; omega)]
        exact ⟨hoff, by omega, rfl⟩
      · rw [if_neg hlong]
        exact ⟨hoff, by omega, rfl⟩
  obtain ⟨k, hk, hsize, hend, htake⟩ := hcount
  rw [h.ilock_eq, Format.readi, if_neg htype, if_neg (by omega), hk,
    h.layout.readiLoop hj (h.small j hj) off k hend rfl, htake]
  rfl

theorem direntOf_length (e : Nat × Chars) : (direntOf e).length = direntSize :=
  direntBytes_length e.1 e.2

theorem entries_length (files : List HostFile) : (entries files).length = files.length + 2 := by
  rw [entries, List.length_append, List.length_map, List.length_zipIdx, Nat.add_comm]
  rfl

theorem root_length (files : List HostFile) :
    (contents files ROOTINO).length = direntSize * (files.length + 2) := by
  rw [contents_root, flatMap_length direntOf_length, entries_length]

theorem entries_file {i : Nat} (hi : i < files.length) (h : i + 2 < (entries files).length) :
    (entries files)[i + 2] = (i + 2, files[i].target) := by
  simp [entries, Nat.add_comm]

/-- The entries of the root directory, as `dirlookup` reads them. -/
theorem Made.readi_root (h : Made files s) (hcap : files.length + 2 ≤ capacity) {i : Nat}
    (hi : i < (entries files).length) :
    Format.readi s.img (ilock s.img ROOTINO) (i * direntSize) direntSize =
      .ok (some (direntOf (entries files)[i])) := by
  have hlen := root_length files
  have hin : i * direntSize + direntSize ≤ (contents files ROOTINO).length := by
    rw [entries_length] at hi
    rw [hlen, ← Nat.succ_mul, Nat.mul_comm]
    exact Nat.mul_le_mul_left _ hi
  have hsmall := h.small ROOTINO (by rw [ROOTINO]; omega)
  have hmax : MAXFILE * BSIZE < 2 ^ 32 := by decide
  rw [h.readi (by rw [ROOTINO]; omega) hcap (by omega) (by omega) fun _ => hin, contents_root,
    Nat.mul_comm, drop_take_flatMap direntOf_length _ i hi]

theorem entries_number {e : Nat × Chars} (he : e ∈ entries files) :
    0 < e.1 ∧ e.1 < files.length + 2 := by
  rw [entries, List.mem_append] at he
  obtain he | he := he
  · have hroot : e.1 = ROOTINO := by
      simp only [List.mem_cons, List.not_mem_nil, or_false] at he
      obtain rfl | rfl := he <;> rfl
    rw [hroot, ROOTINO]
    omega
  · obtain ⟨⟨f, i⟩, hf, rfl⟩ := List.mem_map.1 he
    have := List.snd_lt_add_of_mem_zipIdx hf
    have := List.le_snd_of_mem_zipIdx hf
    dsimp only at *
    omega

theorem Made.lookup (h : Made files s) (hcap : files.length + 2 ≤ capacity) {i : Nat}
    (hi : i < (entries files).length) {name : Chars} (hname : key (entries files)[i].2 = key name)
    (hfirst : ∀ k (hk : k < i), key (entries files)[k].2 ≠ key name) :
    Format.lookup s.img (ilock s.img ROOTINO) name =
      .ok (some (i * direntSize, (entries files)[i].1)) := by
  have hsize : (ilock s.img ROOTINO).size = rounded (contents files ROOTINO).length := by
    rw [h.ilock_eq, h.root]
  have hnumber : ∀ k (hk : k < (entries files).length),
      inumOf (direntOf (entries files)[k]) = (entries files)[k].1 ∧ (entries files)[k].1 ≠ 0 := by
    intro k hk
    have := entries_number (List.getElem_mem hk)
    rw [capacity_eq] at hcap
    rw [direntOf, inumOf_direntBytes]
    omega
  have hkey : ∀ k (hk : k < (entries files).length),
      key (nameOf (direntOf (entries files)[k])) = key (entries files)[k].2 :=
    fun k hk => key_direntBytes _ _
  -- entry `k` of the directory, also behind the last one
  let de : Nat → List Byte := fun k => if hk : k < (entries files).length then
    direntOf (entries files)[k] else []
  have hde : ∀ k (hk : k < (entries files).length), de k = direntOf (entries files)[k] :=
    fun k hk => dif_pos hk
  have hread : ∀ k ≤ i, (Format.readi s.img (ilock s.img ROOTINO) (k * direntSize)
      direntSize).toOption.join = some (de k) := by
    intro k hk
    rw [h.readi_root hcap (Nat.lt_of_le_of_lt hk hi), hde k (Nat.lt_of_le_of_lt hk hi)]
    rfl
  have hbound : i * direntSize < rounded (contents files ROOTINO).length := by
    rw [root_length, rounded]
    rw [entries_length] at hi
    simp only [direntSize, DIRSIZ, BSIZE]
    omega
  have haligned : rounded (contents files ROOTINO).length % direntSize = 0 := by
    simp only [rounded, direntSize, DIRSIZ, BSIZE]
    omega
  rw [Format.lookup, hsize, dirlookup_first hbound haligned hread, hde i hi, (hnumber i hi).1]
  · intro k hk
    rw [hde k (Nat.lt_of_le_of_lt hk hi)]
    exact direntOf_length _
  · rw [Matches, hde i hi, hkey, (hnumber i hi).1]
    exact ⟨(hnumber i hi).2, hname⟩
  · intro k hk hmatch
    rw [Matches, hde k (hk.trans hi), hkey] at hmatch
    exact hfirst k hk hmatch.2

/-! ### The images of `mkfs` and the kernel agree -/

/-- The blocks that the files take together, with the root directory. -/
def blocksOf (files : List HostFile) : Nat :=
  blocksFor ((files.length + 2) * direntSize) +
    (files.map fun f => blocksFor f.contents.length).sum

theorem sum_contents (files : List HostFile) :
    ∑ j ∈ Finset.range (files.length + 2), blocksFor (contents files j).length =
      blocksOf files := by
  have hfiles : ∑ i ∈ Finset.range files.length, blocksFor (contents files (i + 2)).length =
      (files.map fun f => blocksFor f.contents.length).sum := by
    rw [← Fin.sum_univ_eq_sum_range fun i => blocksFor (contents files (i + 2)).length,
      ← List.sum_ofFn]
    congr 1
    refine List.ext_getElem (by simp) fun i _ _ => ?_
    simp [contents_file]
  have hroot : (contents files 1).length = (files.length + 2) * direntSize := by
    rw [Nat.mul_comm]
    exact root_length files
  have hnone : blocksFor (contents files 0).length = 0 := by
    rw [contents, if_pos rfl]
    rfl
  rw [Finset.sum_range_succ', Finset.sum_range_succ', hfiles, hroot, hnone, blocksOf]
  omega

theorem room_of_fit (hn : files.length ≤ NINODES - 2)
    (hsize : ∀ f ∈ files, f.contents.length ≤ MAXFILE * BSIZE)
    (hfit : nmeta + blocksOf files ≤ FSSIZE) : Room (contents files) (files.length + 2) where
  small := by
    intro j hj
    match j with
    | 0 => exact Nat.zero_le _
    | 1 =>
      have hlen : (contents files 1).length = direntSize * (files.length + 2) := root_length files
      rw [hlen]
      simp only [NINODES, direntSize, DIRSIZ, MAXFILE, NINDIRECT, NDIRECT, BSIZE] at hn ⊢
      omega
    | i + 2 =>
      have hi : i < files.length := by omega
      rw [contents_file, List.getElem?_eq_getElem hi]
      exact hsize _ (List.getElem_mem hi)
  blocks := by rwa [sum_contents]

theorem capacity_of_le (hn : files.length ≤ NINODES - 2) : files.length + 2 ≤ capacity := by
  rw [capacity_eq]
  simp only [NINODES] at hn
  omega

/-- `dirlookup` in the root directory finds the name, with an inode of a file that has the size
of the host's and from which `readi` reads its bytes, from any offset. -/
def Agrees (s : State) (f : HostFile) : Prop :=
  ∃ off inum, Format.lookup s.img (ilock s.img ROOTINO) f.target = .ok (some (off, inum)) ∧
    (ilock s.img inum).type = T_FILE ∧ (ilock s.img inum).size = f.contents.length ∧
    ∀ off n, off ≤ f.contents.length → off + n < 2 ^ 32 →
      readi s.img (ilock s.img inum) off n = .ok (some ((f.contents.drop off).take n))

/-- Under the names of the first two entries `dirlookup` finds the root directory. -/
theorem Made.lookup_dots (h : Made files s) (hcap : files.length + 2 ≤ capacity) {name : Chars}
    (hname : key name = key dot ∨ key name = key dotdot) :
    ∃ off, Format.lookup s.img (ilock s.img ROOTINO) name = .ok (some (off, ROOTINO)) := by
  have hlen := entries_length files
  rcases hname with hname | hname
  · exact ⟨_, h.lookup hcap (i := 0) (by omega) hname.symm
      fun k hk => absurd hk (Nat.not_lt_zero k)⟩
  · refine ⟨_, h.lookup hcap (i := 1) (by omega) hname.symm fun k hk => ?_⟩
    obtain rfl := Nat.lt_one_iff.1 hk
    have hdots : key dot ≠ key dotdot := by decide
    exact fun he => hdots (he.trans hname)

theorem Made.type_eq (h : Made files s) (hj : j < capacity) :
    (ilock s.img j).type = typeOf (files.length + 2) j := by rw [h.ilock_eq, h.type j hj]

/-- **`mkfs` and the kernel agree.** For at most `NINODES - 2` files that fit, with different
names and however the host splits them: `mkfs` exits normally and the kernel finds every file, if
and only if none is named `.` or `..`. -/
theorem mkfs_kernel_agree (files : List HostFile) (hn : files.length ≤ NINODES - 2)
    (hslash : ∀ f ∈ files, (47 : Byte) ∉ f.name)
    (hdistinct : files.Pairwise fun f g => key f.target ≠ key g.target)
    (hsize : ∀ f ∈ files, f.contents.length ≤ MAXFILE * BSIZE)
    (hfit : nmeta + blocksOf files ≤ FSSIZE) :
    (∃ s, main files = .ok s ∧ ∀ f ∈ files, Agrees s f) ↔
      ∀ f ∈ files, key f.target ≠ key dot ∧ key f.target ≠ key dotdot := by
  have hcap := capacity_of_le hn
  obtain ⟨s, hs, hmade⟩ | ⟨-, ⟨f, hf, hbad⟩ | hroom⟩ := main_spec files hcap
  rotate_left
  · exact absurd hbad (hslash f hf)
  · exact absurd (room_of_fit hn hsize hfit) hroom
  refine ⟨fun hall f hf => ?_, fun hdots => ⟨s, hs, fun f hf => ?_⟩⟩
  · obtain ⟨s', hs', hall⟩ := hall
    cases hs.symm.trans hs'
    obtain ⟨off, inum, hlookup, htype, -⟩ := hall f hf
    rw [← not_or]
    intro hname
    obtain ⟨off', hroot⟩ := hmade.lookup_dots hcap hname
    cases hlookup.symm.trans hroot
    rw [hmade.type_eq (by decide), typeOf, if_neg (by simp [ROOTINO]), if_pos rfl] at htype
    cases htype
  · obtain ⟨i, hi, rfl⟩ := List.getElem_of_mem hf
    have hcontents : contents files (i + 2) = files[i].contents := by
      rw [contents_file, List.getElem?_eq_getElem hi]
      rfl
    have hlen : i + 2 < (entries files).length := by
      rw [entries_length]
      omega
    have hlookup : Format.lookup s.img (ilock s.img ROOTINO) files[i].target =
        .ok (some ((i + 2) * direntSize, i + 2)) := by
      have hfound := hmade.lookup hcap hlen rfl
      rw [entries_file hi] at hfound
      refine hfound fun k hk => ?_
      -- the entries before it are `.`, `..` and earlier files
      rcases k with _ | _ | k
      · exact (hdots _ hf).1.symm
      · exact (hdots _ hf).2.symm
      · rw [entries_file (by omega)]
        exact List.pairwise_iff_getElem.1 hdistinct k i (by omega) hi (by omega)
    refine ⟨_, _, hlookup, ?_, ?_, fun off n hoff hmax => ?_⟩
    · rw [hmade.type_eq (by omega), typeOf, if_neg (by omega), if_neg (by simp [ROOTINO])]
    · rw [hmade.ilock_eq, hmade.size (i + 2) (by omega) (by simp [ROOTINO]), hcontents]
    · rw [← hcontents] at hoff ⊢
      exact hmade.readi (by omega) hcap hoff hmax fun hroot => absurd hroot (by simp [ROOTINO])

/-- A file with a name of two characters that `read` returns in two pieces. -/
def twoPieces : HostFile where
  name := [95, 97, 98]
  pieces := [[104, 101], [108, 108, 111]]
  isString := by decide
  isRead := by decide

theorem mkfs_kernel_agree_two : ∃ s, main [twoPieces] = .ok s ∧ ∃ off inum,
    Format.lookup s.img (ilock s.img ROOTINO) (Chars.lit [97, 98]) = .ok (some (off, inum)) ∧
    readi s.img (ilock s.img inum) 0 5 = .ok (some [104, 101, 108, 108, 111]) := by
  obtain ⟨s, hs, hfiles⟩ := (mkfs_kernel_agree [twoPieces] (by decide) (by decide) (by simp)
    (by decide) (by decide)).2 (by decide)
  obtain ⟨off, inum, hlookup, -, -, hread⟩ := hfiles twoPieces List.mem_cons_self
  exact ⟨s, hs, off, inum, hlookup, hread 0 5 (by decide) (by decide)⟩

/-- A file whose name is `.` without its underscore. -/
def dotFile : HostFile where
  name := [95, 46]
  pieces := [[104]]
  isString := by decide
  isRead := by decide

/-- The name is not empty and there is no other file, but `dirlookup` finds the root directory
under it. -/
theorem mkfs_dot : dotFile.target = dot ∧ ∃ s, main [dotFile] = .ok s ∧
    Format.lookup s.img (ilock s.img ROOTINO) dotFile.target = .ok (some (0, ROOTINO)) ∧
    (ilock s.img ROOTINO).size = BSIZE ∧ dotFile.contents.length = 1 := by
  have htarget : dotFile.target = dot := rfl
  refine ⟨htarget, ?_⟩
  obtain ⟨s, hs, hmade⟩ | ⟨-, ⟨f, hf, hbad⟩ | hroom⟩ := main_spec [dotFile] (by decide)
  · refine ⟨s, hs, ?_, ?_, rfl⟩
    · have hfound := hmade.lookup (by decide) (show 0 < _ by decide) rfl fun k hk =>
        absurd hk (Nat.not_lt_zero k)
      rwa [Nat.zero_mul] at hfound
    · rw [hmade.ilock_eq, hmade.root, root_length]
      rfl
  · rw [List.mem_singleton.1 hf] at hbad
    exact absurd hbad (by decide)
  · exact absurd (room_of_fit (by decide) (by decide) (by decide)) hroom

/-! ### What the kernel relies on -/

theorem Made.mapped (h : Made files s) (hround : (files.length + 2) % (BSIZE / direntSize) ≠ 0)
    (hj : j < files.length + 2) {bn : Nat} (hbn : bn * BSIZE < (inode s.img j).size) :
    bn < MAXFILE ∧ ref s.img (inode s.img j) (slot bn) ≠ 0 := by
  have hlt : bn * BSIZE < (contents files j).length := by
    by_cases hroot : j = ROOTINO
    · rw [hroot] at hbn ⊢
      rw [h.root, rounded, root_length] at hbn
      rw [root_length]
      simp only [BSIZE, direntSize, DIRSIZ] at hbn hround ⊢
      omega
    · rwa [h.size j hj hroot] at hbn
  have hsmall := h.small j hj
  have hdata := h.layout.ref_data hj hlt
  rw [Nat.mul_div_cancel bn (by decide)] at hdata
  exact ⟨Nat.lt_of_mul_lt_mul_right (hlt.trans_le hsmall), hdata⟩

/-- `readi` comes to its end where all blocks are there. -/
theorem readiLoop_ok {img : Img} {d : Dinode}
    (h : ∀ bn, bn * BSIZE < d.size → ∃ b, bmap img d bn = .ok b) (off n : Nat)
    (hn : off + n ≤ d.size) : ∃ l, readiLoop img d off n = .ok l := by
  induction n using Nat.strong_induction_on generalizing off with
  | _ n ih =>
    rw [readiLoop]
    by_cases h0 : n = 0
    · exact ⟨[], if_pos h0⟩
    have hmod := Nat.mod_lt off (show 0 < BSIZE by decide)
    obtain ⟨b, hb⟩ := h (off / BSIZE) (Nat.lt_of_le_of_lt (Nat.div_mul_le_self _ _) (by omega))
    obtain ⟨l, hl⟩ := ih (n - min n (BSIZE - off % BSIZE)) (by omega)
      (off + min n (BSIZE - off % BSIZE)) (by omega)
    refine ⟨Segments.get (img b) (off % BSIZE) (min n (BSIZE - off % BSIZE)) ++ l, ?_⟩
    rw [if_neg h0, hb]
    dsimp only
    rw [hl]
    rfl

theorem readi_ok {img : Img} {d : Dinode} (htype : d.type ≠ T_DEV)
    (h : ∀ bn, bn * BSIZE < d.size → ∃ b, bmap img d bn = .ok b) (off n : Nat) :
    ∃ r, readi img d off n = .ok r := by
  rw [readi, if_neg htype]
  split
  · exact ⟨none, rfl⟩
  · rename_i hoff
    obtain ⟨l, hl⟩ := readiLoop_ok h off (if off + n > d.size then d.size - off else n)
      (by split <;> omega)
    exact ⟨some l, by rw [hl]; rfl⟩

/-- What the kernel relies on: the inodes in use are those from 1 to the last file and below
`NINODES`; every block below the size of one of them is there; their references are different
blocks of the data area, marked in the bitmap; and `readi` never allocates. -/
def Sound (s : State) : Prop :=
  s.freeinode ≤ NINODES ∧
    (∀ j < NINODES, (ilock s.img j).type ≠ 0 ↔ 1 ≤ j ∧ j < s.freeinode) ∧
    (∀ j, 1 ≤ j → j < s.freeinode → (∀ bn, bn * BSIZE < (ilock s.img j).size →
        ∃ b, bmap s.img (ilock s.img j) bn = .ok b ∧ b ≠ 0) ∧
      (∀ k, ref s.img (ilock s.img j) k ≠ 0 → nmeta ≤ ref s.img (ilock s.img j) k ∧
        ref s.img (ilock s.img j) k < FSSIZE ∧ inUse s.img (ref s.img (ilock s.img j) k) = true) ∧
      (∀ j' k k', 1 ≤ j' → j' < s.freeinode → ref s.img (ilock s.img j) k ≠ 0 →
        ref s.img (ilock s.img j) k = ref s.img (ilock s.img j') k' → j = j' ∧ k = k') ∧
      ∀ off n, ∃ r, readi s.img (ilock s.img j) off n = .ok r)

theorem Made.sound (h : Made files s) (hn : files.length ≤ NINODES - 2)
    (hround : (files.length + 2) % (BSIZE / direntSize) ≠ 0) : Sound s := by
  have hcap := capacity_of_le hn
  rw [Sound]
  have hsub : NINODES ≤ capacity := by decide
  rw [h.freeinode]
  simp only [h.ilock_eq]
  refine ⟨by simp only [NINODES] at hn ⊢; omega, fun j hj => ?_, fun j hpos hj => ?_⟩
  · rw [h.type j (hj.trans_le hsub), typeOf]
    split_ifs with h1 h2
    · simp only [ne_eq, not_true_eq_false, false_iff]
      omega
    · refine iff_of_true (by decide) (by omega)
    · refine iff_of_true (by decide) (by omega)
  have hmapped : ∀ bn, bn * BSIZE < (inode s.img j).size →
      ∃ b, bmap s.img (inode s.img j) bn = .ok b ∧ b ≠ 0 := by
    intro bn hbn
    obtain ⟨hmax, hne⟩ := h.mapped hround hj hbn
    exact ⟨_, by rw [bmap_eq_ref hmax, if_neg hne], hne⟩
  have htype : (inode s.img j).type ≠ T_DEV := by
    rw [h.type j (hj.trans_le hcap), typeOf]
    split_ifs <;> decide
  refine ⟨hmapped, fun k hk => ?_, fun j' k k' _ hj' hk heq => ?_, fun off n => ?_⟩
  · obtain ⟨hlo, hhi⟩ := h.layout.rows.range j hj k hk
    exact ⟨hlo, hhi.trans_le h.free, h.inUse hhi⟩
  · exact h.layout.rows.distinct j hj j' hj' k k' hk heq
  · exact readi_ok htype (fun bn hbn => (hmapped bn hbn).imp fun _ hb => hb.1) off n

/-- The root directory fills its blocks: its size is rounded to one block more. -/
theorem Made.unmapped (h : Made files s) (hcap : files.length + 2 ≤ capacity)
    (hround : (files.length + 2) % (BSIZE / direntSize) = 0) : ∃ bn,
      (ilock s.img ROOTINO).size = (bn + 1) * BSIZE ∧
        bmap s.img (ilock s.img ROOTINO) bn = .error .balloc := by
  rw [capacity_eq] at hcap
  simp only [BSIZE, direntSize, DIRSIZ] at hround
  obtain ⟨bn, hbn⟩ := Nat.dvd_of_mod_eq_zero hround
  refine ⟨bn, ?_, ?_⟩
  · rw [h.ilock_eq, h.root, root_length, rounded, hbn]
    simp only [BSIZE, direntSize, DIRSIZ]
    omega
  · rw [h.ilock_eq, bmap_eq_ref (by simp only [MAXFILE, NDIRECT, NINDIRECT, BSIZE]; omega), if_pos]
    by_contra hne
    have hcell := (h.layout.rows.cell ROOTINO (by rw [ROOTINO]; omega) _).1 hne
    rw [needed, root_length, hbn, slot, if_pos (by simp only [NDIRECT]; omega)] at hcell
    rcases blocksFor_eq (direntSize * (2 * 16 * bn)) with ⟨-, e⟩ | ⟨hlt, -⟩
    · rw [e] at hcell
      simp only [direntSize, DIRSIZ] at hcell
      omega
    · simp only [direntSize, DIRSIZ] at hlt
      omega

/-- **The images are sound** if and only if there are at most `NINODES - 2` files and their number
with the two dots is not a multiple of the entries per block. -/
theorem mkfs_image_sound (files : List HostFile) {s : State} (hok : main files = .ok s) :
    Sound s ↔ files.length ≤ NINODES - 2 ∧ (files.length + 2) % (BSIZE / direntSize) ≠ 0 := by
  have hfree := main_freeinode hok
  by_cases hn : files.length ≤ NINODES - 2
  · have hcap := capacity_of_le hn
    obtain ⟨s', hs', h⟩ | ⟨⟨e, he⟩, -⟩ := main_spec files hcap
    · cases hok.symm.trans hs'
      refine ⟨fun hs => ⟨hn, fun hround => ?_⟩, fun hc => h.sound hn hc.2⟩
      obtain ⟨bn, hsize, hbmap⟩ := h.unmapped hcap hround
      obtain ⟨b, hb, -⟩ := (hs.2.2 ROOTINO le_rfl (by rw [hfree, ROOTINO]; omega)).1 bn
        (by rw [hsize]; exact Nat.mul_lt_mul_of_pos_right (Nat.lt_succ_self bn) (by decide))
      cases hbmap.symm.trans hb
    · cases hok.symm.trans he
  · refine iff_of_false (fun hs => hn ?_) fun hc => hn hc.1
    have := hs.1
    rw [hfree] at this
    simp only [NINODES] at this ⊢
    omega

theorem mkfs_image_sound_two : ∃ s, main [twoPieces] = .ok s ∧ Sound s := by
  obtain ⟨s, hs, -⟩ | ⟨-, ⟨f, hf, hbad⟩ | hroom⟩ := main_spec [twoPieces] (by decide)
  · exact ⟨s, hs, (mkfs_image_sound [twoPieces] hs).2 (by decide)⟩
  · rw [List.mem_singleton.1 hf] at hbad
    exact absurd hbad (by decide)
  · exact absurd (room_of_fit (by decide) (by decide) (by decide)) hroom

/-- An empty file, named by one character. -/
def emptyFile (i : Fin 30) : HostFile where
  name := [BitVec.ofNat 8 (97 + i)]
  pieces := []
  isString := by
    intro c hc h0
    have hzero := congrArg BitVec.toNat ((List.mem_singleton.1 hc).symm.trans h0)
    simp at hzero
    omega
  isRead := by simp

def thirtyFiles : List HostFile := List.ofFn emptyFile

/-- With the two dots the root directory fills one block; its size is two blocks, and to read
the second the kernel would have to allocate it. -/
theorem mkfs_unmapped : ∃ s, main thirtyFiles = .ok s ∧ (ilock s.img ROOTINO).size = 2 * BSIZE ∧
    bmap s.img (ilock s.img ROOTINO) 1 = .error .balloc ∧
    readi s.img (ilock s.img ROOTINO) BSIZE direntSize = .error .balloc := by
  have hlen : thirtyFiles.length = 30 := List.length_ofFn
  have hempty : ∀ f ∈ thirtyFiles, f.contents.length = 0 ∧ (47 : Byte) ∉ f.name := by
    decide +kernel
  obtain ⟨s, hs, h⟩ | ⟨-, ⟨f, hf, hbad⟩ | hroom⟩ := main_spec thirtyFiles (by rw [hlen]; decide)
  · obtain ⟨bn, hsize, hbmap⟩ := h.unmapped (by rw [hlen]; decide) (by rw [hlen]; decide)
    obtain rfl : bn = 1 := by
      rw [h.ilock_eq, h.root, root_length, hlen, rounded] at hsize
      simp only [BSIZE, direntSize, DIRSIZ] at hsize
      omega
    refine ⟨s, hs, hsize, hbmap, ?_⟩
    have htype : (ilock s.img ROOTINO).type ≠ T_DEV := by
      rw [h.type_eq (by decide), hlen]
      decide
    rw [readi, if_neg htype, hsize, if_neg (by decide), if_neg (by decide), readiLoop,
      if_neg (by decide)]
    have hblock : BSIZE / BSIZE = 1 := by decide
    rw [hblock, hbmap]
    rfl
  · exact absurd hbad (hempty f hf).2
  · refine absurd (room_of_fit (by rw [hlen]; decide) (fun f hf => ?_) (by decide +kernel)) hroom
    rw [(hempty f hf).1]
    exact Nat.zero_le _

end Xv6.Mkfs
