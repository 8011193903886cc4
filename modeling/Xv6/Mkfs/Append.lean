import Xv6.Mkfs.Layout

/-! `iappend` appends: the file has the bytes it had and the new ones behind them, and nothing
else changes. It fails only when the file becomes too large or the blocks run out. -/

namespace Xv6.Mkfs

open Format Segments Words Rows Function

/-! ### One block of the file -/

section Loop

variable {s : State} {dins : Nat → Dinode} {c : Nat → List Byte} {u : Nat → Nat} {N j fbn : Nat}

/-- What the loop of `iappend` leaves as it is. -/
structure Keeps (s s' : State) (din din' : Dinode) : Prop where
  blocks : s'.blocks = s.blocks
  freeinode : s'.freeinode = s.freeinode
  metaBlocks : ∀ b < nmeta, s'.img b = s.img b
  fields : ({ din' with addrs := din.addrs } : Dinode) = din

theorem Keeps.refl (s : State) (din : Dinode) : Keeps s s din din := ⟨rfl, rfl, fun _ _ => rfl, rfl⟩

theorem Keeps.trans {s s' s'' : State} {d d' d'' : Dinode} (h : Keeps s s' d d')
    (h' : Keeps s' s'' d' d'') : Keeps s s'' d d'' where
  blocks := h'.blocks.trans h.blocks
  freeinode := h'.freeinode.trans h.freeinode
  metaBlocks := fun b hb => (h'.metaBlocks b hb).trans (h.metaBlocks b hb)
  fields := by
    have hfields := h.fields
    rw [← h'.fields] at hfields
    exact hfields

/-- The block that `fileBlock` finds, and how many blocks it took. -/
structure Found (s : State) (dins : Nat → Dinode) (c : Nat → List Byte) (u : Nat → Nat)
    (N j fbn : Nat) (r : State × Dinode × Nat) : Prop where
  layout : Layout r.1.img (update dins j r.2.1) c (update u j (slot fbn + 1)) N
    r.1.freeblock
  block : r.2.2 = ref r.1.img r.2.1 (slot fbn)
  taken : r.1.freeblock + u j = s.freeblock + (slot fbn + 1)
  last : r.1.freeblock = s.freeblock ∨ r.1.freeblock = r.2.2 + 1
  keeps : Keeps s r.1 (dins j) r.2.1

theorem found_old (h : Layout s.img dins c u N s.freeblock) (hu : u j = slot fbn + 1) :
    Found s dins c u N j fbn (s, dins j, ref s.img (dins j) (slot fbn)) where
  layout := by
    rw [← hu, update_eq_self, update_eq_self]
    exact h
  block := rfl
  taken := by rw [hu]
  last := .inl rfl
  keeps := Keeps.refl s (dins j)

theorem found_new (h : Layout s.img dins c u N s.freeblock) (hj : j < N) (hu : u j = slot fbn)
    {s' : State} {din' : Dinode}
    (ht : Takes s.img s'.img dins (update dins j din') u N s.freeblock j)
    (hfree : s'.freeblock = s.freeblock + 1) (hkeeps : Keeps s s' (dins j) din') :
    Found s dins c u N j fbn (s', din', s.freeblock) where
  layout := by
    rw [← hu, hfree]
    exact h.take hj ht
  block := by
    have hnew := ht.new
    rw [update_self, hu] at hnew
    exact hnew.symm
  taken := by
    rw [hfree, hu]
    omega
  last := .inr hfree
  keeps := hkeeps

theorem takes_takeAddr (h : Layout s.img dins c u N s.freeblock) (hj : j < N)
    (hu : u j < NDIRECT + 1) : Takes s.img (s.takeAddr (dins j) ⟨u j, hu⟩).1.img dins
      (update dins j (s.takeAddr (dins j) ⟨u j, hu⟩).2) u N s.freeblock j := by
  refine h.takes_addr hj hu ?_ fun a ha => update_of_ne ha ..
  rw [update_self]
  rfl

theorem keeps_takeAddr (s : State) (din : Dinode) (i : Fin (NDIRECT + 1)) :
    Keeps s (s.takeAddr din i).1 din (s.takeAddr din i).2 :=
  ⟨rfl, rfl, fun _ _ => rfl, rfl⟩

theorem rsect_of_lt {b : Nat} (h : b < s.blocks) : s.rsect b = .ok (s.img b) := if_pos h

theorem rsect_of_ge {b : Nat} (h : s.blocks ≤ b) : s.rsect b = .error .read :=
  if_neg (Nat.not_lt.2 h)

theorem wsect_blocks {b : Nat} (h : b < s.blocks) (buf : Nat → Byte) :
    (s.wsect b buf).blocks = s.blocks :=
  Nat.max_eq_left h

theorem indirectBlock_spec (h : Layout s.img dins c u N s.freeblock) (hj : j < N)
    (hblocks : s.blocks = FSSIZE) (hfree : s.freeblock ≤ FSSIZE + 1) (hfbn : NDIRECT ≤ fbn)
    (hmax : fbn < MAXFILE) (hu : u j = slot fbn + 1 ∨ u j = slot fbn) :
    (∃ r, s.indirectBlock (dins j) fbn = .ok r ∧ Found s dins c u N j fbn r) ∨
      (∃ e, s.indirectBlock (dins j) fbn = .error e) ∧ FSSIZE < s.freeblock := by
  have hslot : slot fbn = fbn + 1 := if_neg (by omega)
  have hind : ref s.img (dins j) NDIRECT ≠ 0 := (h.rows.cell j hj _).2 (by omega)
  have hlast : (dins j).addrs (Fin.last NDIRECT) = ref s.img (dins j) NDIRECT := ref_last.symm
  have hentry : uint (s.img (ref s.img (dins j) NDIRECT)) (fbn - NDIRECT) =
      ref s.img (dins j) (slot fbn) := by
    have hword : ref s.img (dins j) (fbn + 1) =
        uint (s.img (ref s.img (dins j) NDIRECT)) (fbn + 1 - (NDIRECT + 1)) :=
      ref_indirect (by omega) (by omega) hind
    rw [hslot, hword, Nat.add_sub_add_right]
  by_cases hroom : ref s.img (dins j) NDIRECT < s.blocks
  swap
  · refine .inr ⟨⟨.read, ?_⟩, ?_⟩
    · rw [State.indirectBlock, hlast, rsect_of_ge (Nat.le_of_not_lt hroom)]
      rfl
    · have := (h.rows.range j hj _ hind).2
      omega
  refine .inl ?_
  rw [State.indirectBlock, hlast, rsect_of_lt hroom]
  obtain hu | hu := hu
  · have hnz : uint (s.img (ref s.img (dins j) NDIRECT)) (fbn - NDIRECT) ≠ 0 := by
      rw [hentry]
      exact (h.rows.cell j hj _).2 (by omega)
    refine ⟨(s, dins j, ref s.img (dins j) (slot fbn)), ?_, found_old h hu⟩
    exact (if_neg hnz).trans (by rw [hentry]; rfl)
  · have hz : uint (s.img (ref s.img (dins j) NDIRECT)) (fbn - NDIRECT) = 0 := by
      rw [hentry]
      by_contra hnz
      have := (h.rows.cell j hj _).1 hnz
      omega
    have hfb : s.freeblock < 2 ^ 32 := by
      simp only [FSSIZE] at hfree
      omega
    have hk : u j - (NDIRECT + 1) = fbn - NDIRECT := by omega
    have htakes := h.takes_entry hj (by omega) (by omega) hfb rfl
    rw [hk] at htakes
    refine ⟨_, if_pos hz, ?_⟩
    refine found_new h hj hu (by rwa [update_eq_self]) rfl ⟨?_, rfl, ?_, rfl⟩
    · exact Nat.max_eq_left hroom
    · intro b hb
      have hmeta := (h.rows.range j hj _ hind).1
      exact update_of_ne (by omega) ..

/-- `fileBlock` finds the block, unless the blocks run out. -/
theorem fileBlock_spec (h : Layout s.img dins c u N s.freeblock) (hj : j < N)
    (hblocks : s.blocks = FSSIZE) (hfree : s.freeblock ≤ FSSIZE) (hmax : fbn < MAXFILE)
    (hu : u j = slot fbn + 1 ∨ u j = slot fbn ∨ fbn = NDIRECT ∧ u j = NDIRECT) :
    (∃ r, s.fileBlock (dins j) fbn = .ok r ∧ Found s dins c u N j fbn r) ∨
      (∃ e, s.fileBlock (dins j) fbn = .error e) ∧ FSSIZE + u j < s.freeblock + (slot fbn + 1) := by
  by_cases hdirect : fbn < NDIRECT
  · have hslot : slot fbn = fbn := if_pos hdirect
    have haddr : (dins j).addrs ⟨fbn, Nat.lt_succ_of_lt hdirect⟩ =
        ref s.img (dins j) (slot fbn) := by
      rw [hslot, ref_direct (Nat.lt_succ_of_lt hdirect)]
    rw [State.fileBlock, dif_pos hdirect]
    refine .inl ?_
    obtain hu | hu | ⟨hne, -⟩ := hu
    · have hnz : ref s.img (dins j) (slot fbn) ≠ 0 := (h.rows.cell j hj _).2 (by omega)
      refine ⟨_, if_neg (by rwa [haddr]), ?_⟩
      rw [haddr]
      exact found_old h hu
    · have hz : ref s.img (dins j) (slot fbn) = 0 := by
        by_contra hnz
        have := (h.rows.cell j hj _).1 hnz
        omega
      have hk : u j < NDIRECT + 1 := by omega
      have hfin : (⟨fbn, Nat.lt_succ_of_lt hdirect⟩ : Fin (NDIRECT + 1)) = ⟨u j, hk⟩ :=
        Fin.ext (hu.trans hslot).symm
      refine ⟨_, if_pos (by rwa [haddr]), ?_⟩
      rw [hfin]
      dsimp only
      rw [update_self]
      exact found_new h hj hu (takes_takeAddr h hj hk) rfl (keeps_takeAddr ..)
    · omega
  · have hslot : slot fbn = fbn + 1 := if_neg hdirect
    have hlast : (dins j).addrs (Fin.last NDIRECT) = ref s.img (dins j) NDIRECT := ref_last.symm
    rw [State.fileBlock, dif_neg hdirect]
    by_cases hind : u j = NDIRECT
    · -- the file gets its indirect block
      have hz : ref s.img (dins j) NDIRECT = 0 := by
        by_contra hnz
        have := (h.rows.cell j hj _).1 hnz
        omega
      have hfbn : fbn = NDIRECT := by
        obtain hu | hu | ⟨hfbn, -⟩ := hu <;> omega
      have hk : u j < NDIRECT + 1 := by omega
      have hfin : Fin.last NDIRECT = (⟨u j, hk⟩ : Fin (NDIRECT + 1)) := Fin.ext hind.symm
      rw [if_pos (by rw [hlast, hz]), hfin]
      have hlayout := h.take hj (takes_takeAddr h hj hk)
      have hnext := indirectBlock_spec hlayout hj hblocks (Nat.succ_le_succ hfree)
        (Nat.le_of_not_lt hdirect) hmax (.inr (by rw [update_self]; omega))
      rw [update_self] at hnext
      obtain ⟨r, hr, hfound⟩ | ⟨herr, hroom⟩ := hnext
      · refine .inl ⟨r, hr, ?_⟩
        have htaken := hfound.taken
        have hfirst : (s.takeAddr (dins j) ⟨u j, hk⟩).1.freeblock = s.freeblock + 1 := rfl
        rw [update_self, hfirst] at htaken
        refine ⟨?_, hfound.block, by omega, ?_, ?_⟩
        · have := hfound.layout
          rwa [update_idem, update_idem] at this
        · have hlast := hfound.last
          rw [hfirst] at hlast
          exact .inr (hlast.resolve_left (by omega))
        · have hkeeps := hfound.keeps
          rw [update_self] at hkeeps
          exact (keeps_takeAddr s (dins j) _).trans hkeeps
      · have hroom : FSSIZE < s.freeblock + 1 := hroom
        exact .inr ⟨herr, by omega⟩
    · have hu' : u j = slot fbn + 1 ∨ u j = slot fbn := by omega
      have hnz : ref s.img (dins j) NDIRECT ≠ 0 := (h.rows.cell j hj _).2 (by omega)
      rw [if_neg (by rwa [hlast])]
      obtain hok | ⟨herr, hroom⟩ :=
        indirectBlock_spec h hj hblocks (by omega) (Nat.le_of_not_lt hdirect) hmax hu'
      · exact .inl hok
      · omega

/-! ### The loop -/

/-- The references that the files have. -/
def needed (c : Nat → List Byte) (a : Nat) : Nat := blocksFor (c a).length

/-- After `p` has been appended to inode `j`. -/
structure Appended (s : State) (dins : Nat → Dinode) (c : Nat → List Byte) (N j : Nat)
    (p : List Byte) (s' : State) (din' : Dinode) : Prop where
  layout : Layout s'.img (update dins j din') (update c j (c j ++ p))
    (needed (update c j (c j ++ p))) N s'.freeblock
  free : s'.freeblock ≤ FSSIZE
  small : p ≠ [] → (c j).length + p.length ≤ MAXFILE * BSIZE
  keeps : Keeps s s' (dins j) din'

theorem Appended.trans {s' s'' : State} {d' d'' : Dinode} {p q : List Byte}
    (h : Appended s dins c N j p s' d')
    (h' : Appended s' (update dins j d') (update c j (c j ++ p)) N j q s'' d'')
    (hp : p ≠ []) : Appended s dins c N j (p ++ q) s'' d'' where
  layout := by
    have hlayout := h'.layout
    simp only [update_idem, update_self] at hlayout
    rwa [← List.append_assoc]
  free := h'.free
  small := by
    intro _
    by_cases hq : q = []
    · rw [hq, List.append_nil]
      exact h.small hp
    · have hsmall := h'.small hq
      rw [update_self, List.length_append] at hsmall
      rw [List.length_append]
      omega
  keeps := by
    have hkeeps := h'.keeps
    rw [update_self] at hkeeps
    exact h.keeps.trans hkeeps

theorem Found.write {s1 : State} {din1 : Dinode} {x : Nat} {q : List Byte}
    (h : Found s dins c (needed c) N j fbn (s1, din1, x)) (hj : j < N)
    (hfbn : (c j).length / BSIZE = fbn) (hmax : fbn < MAXFILE) (hq : 0 < q.length)
    (hend : (c j).length + q.length ≤ (fbn + 1) * BSIZE) (hx : x < s1.blocks)
    (hblocks : s1.blocks = FSSIZE) (hfree : s.freeblock ≤ FSSIZE) : Appended s dins c N j q
      (s1.wsect x (put (s1.img x) ((c j).length - fbn * BSIZE) q)) din1 := by
  subst hfbn
  have hlayout := h.layout
  have hblock := h.block
  have hlast := h.last
  dsimp only at hlayout hblock hlast
  have hgrown : blocksFor ((c j).length + q.length) = slot ((c j).length / BSIZE) + 1 :=
    blocksFor_add hq hend
  have hmod : (c j).length - (c j).length / BSIZE * BSIZE = (c j).length % BSIZE := by
    have := Nat.div_add_mod (c j).length BSIZE
    rw [Nat.mul_comm] at this
    omega
  have hwritten := hlayout.write hj (p := q) hend (by rw [update_self]; omega)
    (by rw [update_self, hgrown]) rfl
  have hrows : update (needed c) j (slot ((c j).length / BSIZE) + 1) =
      needed (update c j (c j ++ q)) := by
    funext a
    by_cases ha : a = j
    · rw [ha, needed, update_self, update_self, List.length_append, hgrown]
    · rw [update_of_ne ha, needed, needed, update_of_ne ha]
  have hxmeta : nmeta ≤ x := by
    have hcell := (hlayout.rows.cell j hj (slot ((c j).length / BSIZE))).2
      (by rw [update_self]; omega)
    have := (hlayout.rows.range j hj _ hcell).1
    rwa [update_self, ← hblock] at this
  refine ⟨?_, ?_, ?_, ?_⟩
  · rw [update_self, ← hblock] at hwritten
    rw [hmod, ← hrows]
    exact hwritten
  · show s1.freeblock ≤ FSSIZE
    omega
  · intro _
    have : ((c j).length / BSIZE + 1) * BSIZE ≤ MAXFILE * BSIZE := Nat.mul_le_mul_right _ hmax
    omega
  · refine h.keeps.trans ⟨wsect_blocks hx _, rfl, fun b hb => ?_, rfl⟩
    exact update_of_ne (by omega) ..

theorem iappendLoop_spec (h : Layout s.img dins c (needed c) N s.freeblock) (hj : j < N)
    (hblocks : s.blocks = FSSIZE) (hfree : s.freeblock ≤ FSSIZE) (p : List Byte) :
    (∃ s' din', s.iappendLoop (dins j) (c j).length p =
        .ok (s', din', (c j).length + p.length) ∧ Appended s dins c N j p s' din') ∨
      (∃ e, s.iappendLoop (dins j) (c j).length p = .error e) ∧
        (MAXFILE * BSIZE < (c j).length + p.length ∨ FSSIZE + blocksFor (c j).length <
            s.freeblock + blocksFor ((c j).length + p.length)) := by
  induction hlen : p.length using Nat.strong_induction_on generalizing s dins c p with
  | _ len ih =>
  subst hlen
  rw [State.iappendLoop]
  by_cases hp : p = []
  · refine .inl ⟨s, dins j, by rw [if_pos hp, hp]; rfl, ?_, hfree, fun hne => absurd hp hne,
      Keeps.refl s _⟩
    rw [hp, List.append_nil, update_eq_self, update_eq_self]
    exact h
  rw [if_neg hp]
  have hpos : 0 < p.length := List.length_pos_iff.2 hp
  by_cases hmax : (c j).length / BSIZE < MAXFILE
  swap
  · refine .inr ⟨⟨.maxfile, if_neg hmax⟩, .inl ?_⟩
    simp only [MAXFILE, NINDIRECT, NDIRECT, BSIZE] at hmax ⊢
    omega
  rw [if_pos hmax]
  generalize hfbn : (c j).length / BSIZE = fbn at hmax ⊢
  generalize hn1 : min p.length ((fbn + 1) * BSIZE - (c j).length) = n1
  have hoff : (c j).length < (fbn + 1) * BSIZE := by
    simp only [BSIZE] at hfbn ⊢
    omega
  have hn1pos : 0 < n1 := by omega
  have hgrown : blocksFor ((c j).length + n1) = slot fbn + 1 := by
    rw [← hfbn]
    refine blocksFor_add hn1pos ?_
    rw [hfbn]
    omega
  have hmono : blocksFor ((c j).length + n1) ≤ blocksFor ((c j).length + p.length) :=
    blocksFor_mono (by omega)
  have hu := blocksFor_cases (c j).length
  rw [hfbn] at hu
  obtain ⟨⟨s1, din1, x⟩, hr, hfound⟩ | ⟨⟨e, he⟩, hroom⟩ := fileBlock_spec h hj hblocks hfree hmax hu
  swap
  · refine .inr ⟨⟨e, by rw [he]⟩, .inr ?_⟩
    simp only [needed] at hroom
    omega
  simp only [hr]
  have htaken := hfound.taken
  have hxblock := hfound.block
  have hlast := hfound.last
  have hkeeps := hfound.keeps
  have hlayout := hfound.layout
  simp only [needed] at htaken hxblock hlast hkeeps hlayout
  have hxrange : nmeta ≤ x ∧ x < s1.freeblock := by
    have hcell : ref s1.img din1 (slot fbn) ≠ 0 := by
      have := (hlayout.rows.cell j hj (slot fbn)).2 (by rw [update_self]; omega)
      rwa [update_self] at this
    have := hlayout.rows.range j hj (slot fbn) (by rwa [update_self])
    rw [update_self] at this
    rwa [hxblock]
  by_cases hx : x < FSSIZE
  swap
  · refine .inr ⟨⟨.read, ?_⟩, .inr (by omega)⟩
    rw [rsect_of_ge (by rw [hkeeps.blocks, hblocks]; omega)]
  have hxblocks : x < s1.blocks := by rw [hkeeps.blocks, hblocks]; exact hx
  rw [rsect_of_lt hxblocks]
  dsimp only
  have hsplit : p.take n1 ++ p.drop n1 = p := List.take_append_drop n1 p
  have htake : (p.take n1).length = n1 := by
    rw [List.length_take]
    omega
  have hne : p.take n1 ≠ [] := by
    intro he
    rw [he, List.length_nil] at htake
    omega
  have hfirst := hfound.write hj hfbn hmax (q := p.take n1) (by omega) (by omega) hxblocks
    (hkeeps.blocks.trans hblocks) hfree
  have hlen : (p.drop n1).length < p.length := by
    rw [List.length_drop]
    omega
  have hrest := ih _ hlen hfirst.layout (hfirst.keeps.blocks.trans hblocks) hfirst.free
    (p.drop n1) rfl
  simp only [update_self, List.length_append, htake] at hrest
  have htotal : (c j).length + n1 + (p.drop n1).length = (c j).length + p.length := by
    rw [List.length_drop]
    omega
  obtain ⟨s2, din2, hok, happended⟩ | ⟨herr, hroom⟩ := hrest
  · refine .inl ⟨s2, din2, by rw [hok, htotal], ?_⟩
    have := hfirst.trans happended hne
    rwa [hsplit] at this
  · refine .inr ⟨herr, ?_⟩
    rw [htotal, hgrown] at hroom
    obtain hroom | hroom := hroom
    · exact .inl hroom
    · refine .inr ?_
      have hfreed : (s1.wsect x (put (s1.img x) ((c j).length - fbn * BSIZE)
          (p.take n1))).freeblock = s1.freeblock := rfl
      rw [hfreed] at hroom
      omega

end Loop

end Xv6.Mkfs
