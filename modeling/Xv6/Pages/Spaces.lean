import Xv6.Pages.Uses

/-! What the functions of `vm.c` do to the uses of pages. A function that adds mappings only
takes pages from the free list (`Grows`); `deallocuvm` and `freevm` give pages back. -/

namespace Xv6.Pages

open Calls Segments Function

variable {L : Layout} {K : Nat → Prop} {o o' o1 o2 : Nat → Use} {s t s1 s2 : State}
  {d g k q r w pa perm lo hi j : Nat} {u : Use} {next : List Nat}

/-- The pages below `KERNBASE`. -/
def Below (k : Nat) : Prop := k < KERNBASE / PGSIZE

/-- From `s` to `t` the directory took free pages and touched no others. -/
structure Grows (L : Layout) (K : Nat → Prop) (d : Nat) (o : Nat → Use) (s : State)
    (o' : Nat → Use) (t : State) : Prop where
  space : Space L K o' t d
  kept : ∀ q, o q ≠ .free → o' q = o q
  fresh : ∀ q, o q = .free → o' q ≠ .other ∧ o' q ≠ .hand
  mem : ∀ q, (o q).data → t.mem q = s.mem q

theorem Grows.refl (h : Space L K o s d) : Grows L K d o s o s :=
  ⟨h, fun _ _ => rfl, fun q hq => by simp [hq], fun _ _ => rfl⟩

theorem Use.data_ne_free (h : u.data) : u ≠ .free := by rintro rfl; cases h

theorem Grows.trans (h : Grows L K d o s o1 s1) (h' : Grows L K d o1 s1 o2 s2) :
    Grows L K d o s o2 s2 := by
  refine ⟨h'.space, fun q hq => ?_, fun q hq => ?_, fun q hq => ?_⟩
  · rw [h'.kept q (by rwa [h.kept q hq]), h.kept q hq]
  · by_cases h1 : o1 q = .free
    · exact h'.fresh q h1
    · rw [h'.kept q h1]
      exact h.fresh q hq
  · rw [h'.mem q (by rwa [h.kept q (Use.data_ne_free hq)]), h.mem q hq]

theorem Grows.was_free (h : Grows L K d o s o' t) (hq : o' q = .free) : o q = .free := by
  by_contra hne
  exact hne ((h.kept q hne).symm.trans hq)

/-- The page tables of the directory are not data. -/
theorem Space.ne_table (h : Space L K o s d) {i : Nat} (hg : table s d i = some g)
    (hq : (o q).data) : q ≠ g := by
  rintro rfl
  rw [(h.maps.table q i).2 hg] at hq
  cases hq

theorem Space.ne_dir (h : Space L K o s d) (hq : (o q).data) : q ≠ d := by
  rintro rfl
  rw [(h.maps.dir q).2 rfl] at hq
  cases hq

/-! ## `walkpgdir` and `mappages` -/

theorem ends_kalloc {E : Stop → Prop} {Q : Option Nat → State → Prop} : Ends kalloc s E Q ↔
    (s.freelist = [] → Q none s) ∧ ∀ r next, s.freelist = r :: next → Q (some r) ⟨next, s.mem⟩ := by
  simp only [kalloc, ends_bind, ends_get]
  cases s.freelist with
  | nil | cons r next => simp

/-- With `alloc` set, `walkpgdir` finds or makes a page table and changes no mapping. -/
theorem walkpgdir_alloc (h : Space L K o s d) (hk : k < 2 ^ 20) :
    Ends (walkpgdir d (k * PGSIZE) true) s (fun _ => False) fun r t =>
      (r = none ∧ t = s ∧ s.freelist = []) ∨ ∃ g o', r = some (g, k % NPTENTRIES) ∧
        table t d (k / NPTENTRIES) = some g ∧ pte t d = pte s d ∧ Grows L K d o s o' t := by
  have hi : k / NPTENTRIES < NPDENTRIES := by simp only [NPTENTRIES, NPDENTRIES]; omega
  rw [walkpgdir, PDX_mul hk, PTX_mul, ends_bind, ends_get, ends_ite]
  refine ⟨fun hp => .inr ⟨_, o, rfl, if_pos ⟨hi, hp⟩, rfl, .refl h⟩, fun hp => ?_⟩
  have hnone : table s d (k / NPTENTRIES) = none := if_neg fun hc => hp hc.2
  simp only [if_true, ends_bind, ends_kalloc, fill, setWord, ends_modify, ends_pure]
  refine ⟨fun hf => .inl ⟨trivial, trivial, hf⟩, fun r next hf => ?_⟩
  obtain ⟨hr, hpool⟩ := Pool.take (hf ▸ h.pool) (u := .table (k / NPTENTRIES)) (by simp)
  have hlt : r < 2 ^ 20 := h.pool.lt (by rw [hr]; simp)
  obtain ⟨hg, hpte, hmaps⟩ := Maps.newTable (s := { s with freelist := next })
    ⟨h.maps.dir, h.maps.table, h.maps.page⟩ hi hnone hr hlt rfl
  refine .inr ⟨r, _, rfl, hg, hpte, ⟨hpool, hmaps⟩, fun q hq => ?_, fun q hq => ?_, fun q hq => ?_⟩
  · exact update_of_ne (by rintro rfl; exact hq hr) _ _
  · rcases eq_or_ne q r with rfl | hne
    · simp
    · simp [hne, hq]
  · rw [setWord_ne (h.ne_dir hq), fill_ne]
    rintro rfl
    rw [hr] at hq
    cases hq

theorem Pool.use {freelist : List Nat} (h : Pool L o freelist) (hr : o r ≠ .free)
    (hr' : o r ≠ .other) (hu : u ≠ .free) : Pool L (update o r u) freelist := by
  refine ⟨fun q => ?_, h.nodup, fun q hq => ?_⟩
  · rw [use_update hu.symm hr.symm, h.free]
  · rcases eq_or_ne q r with rfl | hne
    · exact h.range q hr'
    · exact h.range q (by simpa [hne] using hq)

/-- `mappages` does not find `PTE_P` where nothing is mapped. -/
theorem absent (hg : table s d (k / NPTENTRIES) = some g) (hnone : pte s d k = none) :
    ¬present (s.word g (k % NPTENTRIES)) := by
  intro hp
  rw [pte, hg, Option.bind_some, if_pos hp] at hnone
  cases hnone

/-- One turn of `mappages` for a page in hand. -/
theorem mappage_hand (hr : o r = .free) (h : Space L K (update o r .hand) s d)
    (hk : k < 2 ^ 20) (hK : K k) (hnone : pte s d k = none) (hperm : perm < PGSIZE) :
    Ends (mappage d (k * PGSIZE) r perm) s (fun _ => False) fun ok t =>
      (ok = false ∧ t = s ∧ s.freelist = []) ∨ (ok = true ∧ t.mem r = s.mem r ∧
        pte t d = update (pte s d) k (some (entry r perm)) ∧ ∃ o', Grows L K d o s o' t) := by
  have hlt : r < 2 ^ 20 := h.pool.lt (q := r) (by simp)
  refine (walkpgdir_alloc h hk).bind fun a s1 hw => ?_
  rcases hw with ⟨rfl, rfl, hfree⟩ | ⟨g, o1, rfl, hg, hpte, hgrow⟩
  · simp [hfree]
  have hr1 : o1 r = .hand := by rw [hgrow.kept r (by simp)]; simp
  have hno := absent hg (hpte ▸ hnone)
  have hg' {q : Nat} (hq : (o1 q).data) : q ≠ g := hgrow.space.ne_table hg hq
  simp only [setWord, ends_bind, ends_get, ends_ite, ends_modify, ends_pure]
  refine ⟨fun hp => absurd hp hno, fun _ => .inr
    ⟨trivial, ?_, ?_, _, ⟨hgrow.space.pool.use (u := .page k) ?_ ?_ ?_,
    hgrow.space.maps.map hg hK (by rw [hpte, hnone]) hr1 hlt hperm⟩,
    fun q hq => ?_, fun q hq => ?_, fun q hq => ?_⟩⟩
  · rw [setWord_ne (hg' (by rw [hr1]; rfl)), hgrow.mem r (by simp [Use.data])]
  · rw [hgrow.space.maps.pte_setWord hg (entry_lt hperm hlt), hpte, if_pos present_entry]
  · simp [hr1]
  · simp [hr1]
  · simp
  · have hne : q ≠ r := by rintro rfl; exact hq hr
    rw [update_of_ne hne, hgrow.kept q (by rwa [update_of_ne hne]), update_of_ne hne]
  · rcases eq_or_ne q r with rfl | hne
    · simp
    · rw [update_of_ne hne]
      exact hgrow.fresh q (by rwa [update_of_ne hne])
  · have hne : q ≠ r := by rintro rfl; rw [hr] at hq; cases hq
    have hq1 : (update o r .hand q).data := by rwa [update_of_ne hne]
    rw [setWord_ne, hgrow.mem q hq1]
    exact hg' (by rwa [hgrow.kept q (Use.data_ne_free hq1)])

/-! ## The mappings of the kernel -/

/-- The number of pages that begin below `sz`. -/
def npages (sz : Nat) : Nat := PGROUNDUP sz / PGSIZE

theorem roundup_eq (sz : Nat) : PGROUNDUP sz = npages sz * PGSIZE := by
  simp only [npages, PGROUNDUP, PGSIZE]
  omega

theorem lt_npages {sz : Nat} : k < npages sz ↔ k * PGSIZE < sz := by
  simp only [npages, PGROUNDUP, PGSIZE]
  omega

theorem npages_mono {a b : Nat} (h : a ≤ b) : npages a ≤ npages b := by
  simp only [npages, PGROUNDUP, PGSIZE]
  omega

/-- Only pages from `KERNBASE` to `b` are mapped, and not for the user. -/
def Kernel (b : Nat) (s : State) (d : Nat) : Prop :=
  ∀ i w, pte s d i = some w → (KERNBASE / PGSIZE ≤ i ∧ i < b) ∧ user w = false

theorem Kernel.mono {b b' : Nat} (h : Kernel b s d) (hb : b ≤ b') : Kernel b' s d :=
  fun i w hw => ⟨⟨(h i w hw).1.1, (h i w hw).1.2.trans_le hb⟩, (h i w hw).2⟩

theorem Kernel.none (h : Kernel k s d) : pte s d k = none :=
  Option.eq_none_iff_forall_ne_some.2 fun w hw => lt_irrefl k (h k w hw).1.2

/-- What was mapped stays mapped; a call that succeeds maps the pages `ks`, and one that fails
finds the free list empty. -/
def Mapping (d : Nat) (s t : State) (ok : Bool) (ks : List Nat) : Prop :=
  (∀ i, pte s d i ≠ none ∨ (ok = true ∧ i ∈ ks) → pte t d i ≠ none) ∧
    (ok = false → t.freelist = [])

theorem Mapping.trans {ok : Bool} {ks ks' : List Nat} (h : Mapping d s s1 true ks)
    (h' : Mapping d s1 t ok ks') : Mapping d s t ok (ks ++ ks') := by
  refine ⟨?_, h'.2⟩
  rintro i (hi | ⟨hok, hi⟩)
  · exact h'.1 i (.inl (h.1 i (.inl hi)))
  · rcases List.mem_append.1 hi with hi | hi
    · exact h'.1 i (.inl (h.1 i (.inr ⟨rfl, hi⟩)))
    · exact h'.1 i (.inr ⟨hok, hi⟩)

theorem Mapping.fail {ks : List Nat} (h : Mapping d s t false ks) (ks' : List Nat) :
    Mapping d s t false ks' :=
  ⟨fun i hi => h.1 i (.inl (hi.resolve_right fun hc => by simp at hc)), h.2⟩

theorem user_entry : user (entry pa perm) = perm.testBit 2 := by
  have hpa : (pa * PGSIZE).testBit 2 = false := by
    rw [show PGSIZE = 2 ^ 12 from rfl, Nat.testBit_mul_two_pow]
    rfl
  have hone : Nat.testBit 1 2 = false := rfl
  simp [user, entry, PTE_P, hpa, hone]

/-- One turn of `mappages` for a page of the kernel. -/
theorem mappage_kernel (h : Space L Below o s d) (hker : Kernel k s d) (hk : k < 2 ^ 20)
    (hlow : KERNBASE / PGSIZE ≤ k) (hpa : pa < 2 ^ 20) (hperm : perm < PGSIZE)
    (hu : perm.testBit 2 = false) :
    Ends (mappage d (k * PGSIZE) pa perm) s (fun _ => False) fun ok t =>
      ∃ o', Grows L Below d o s o' t ∧ Kernel (k + 1) t d ∧ Mapping d s t ok [k] := by
  refine (walkpgdir_alloc h hk).bind fun a s1 hw => ?_
  rcases hw with ⟨rfl, rfl, hfree⟩ | ⟨g, o1, rfl, hg, hpte, hgrow⟩
  · exact ⟨o, .refl h, hker.mono (Nat.le_succ k),
      fun i hi => hi.resolve_right fun hc => by simp at hc, fun _ => hfree⟩
  have hno := absent hg (hpte ▸ hker.none)
  have hset := hgrow.space.maps.pte_setWord hg (entry_lt hperm hpa)
  rw [hpte, if_pos present_entry] at hset
  simp only [setWord, ends_bind, ends_get, ends_ite, ends_modify, ends_pure]
  refine ⟨fun hp => absurd hp hno, fun _ => ⟨o1, hgrow.trans ⟨⟨hgrow.space.pool,
    hgrow.space.maps.setFlags hg (entry_lt hperm hpa) present_entry
      fun hK => absurd hK (not_lt.2 hlow)⟩,
    fun _ _ => rfl, fun q hq => by simp [hq], fun q hq => ?_⟩, fun i w hw => ?_, fun i hi => ?_,
    by simp⟩⟩
  · exact setWord_ne (hgrow.space.ne_table hg hq)
  · rw [hset] at hw
    rcases eq_or_ne i k with rfl | hne
    · rw [update_self] at hw
      cases hw
      exact ⟨⟨hlow, Nat.lt_succ_self i⟩, user_entry.trans hu⟩
    · rw [update_of_ne hne] at hw
      exact hker.mono (Nat.le_succ k) i w hw
  · rw [hset]
    rcases eq_or_ne i k with rfl | hne
    · simp
    · simpa [hne] using hi

/-- `mappages` for the kernel, by induction on the number of pages that follow. -/
theorem mapLoop_kernel {n : Nat} (h : Space L Below o s d) (hker : Kernel k s d)
    (hk : k + n < 2 ^ 20) (hlow : KERNBASE / PGSIZE ≤ k) (hpa : pa + n < 2 ^ 20)
    (hperm : perm < PGSIZE) (hu : perm.testBit 2 = false) :
    Ends (mapLoop d perm n (k * PGSIZE) pa) s (fun _ => False) fun ok t =>
      ∃ o', Grows L Below d o s o' t ∧ Kernel (k + n + 1) t d ∧ Mapping d s t ok [k] := by
  induction n generalizing k pa s o with
  | zero => exact mappage_kernel h hker hk hlow hpa hperm hu
  | succ n ih =>
    refine (mappage_kernel h hker (by omega) hlow (by omega) hperm hu).bind fun ok s1 hfirst => ?_
    obtain ⟨o1, hgrow, hker1, hmap⟩ := hfirst
    rw [ends_ite, ← Nat.succ_mul]
    refine ⟨fun hok => ?_, fun hok => ⟨o1, hgrow, hker1.mono (by omega), ?_⟩⟩
    · refine (ih hgrow.space hker1 (by omega) (by omega) (by omega)).post fun ok' t hrest => ?_
      obtain ⟨o2, hgrow2, hker2, hmap2⟩ := hrest
      refine ⟨o2, hgrow.trans hgrow2, hker2.mono (by omega), fun i hi => ?_, hmap2.2⟩
      rw [hok] at hmap
      exact (hmap.trans hmap2).1 i (hi.imp_right fun hc =>
        ⟨hc.1, by simp [List.mem_singleton.1 hc.2]⟩)
    · rw [Bool.not_eq_true] at hok
      rwa [hok] at hmap

/-- The mappings follow one another from `lo` on and are not for the user. -/
def Ordered : Nat → List Kmap → Prop
  | _, [] => True
  | lo, k :: ks => (lo ≤ k.virt ∧ k.virt % PGSIZE = 0 ∧ 0 < k.size ∧ k.virt + k.size ≤ 2 ^ 32 ∧
      k.physStart + k.size ≤ 2 ^ 32 ∧ k.perm < PGSIZE ∧ k.perm.testBit 2 = false) ∧
    Ordered (k.virt + k.size) ks

theorem Layout.kmap_ordered (L : Layout) : Ordered KERNBASE L.kmap := by
  have h1 := L.aligned
  have h2 := L.above
  have h3 := L.order
  have h4 := L.below
  simp only [KERNLINK, KERNBASE, EXTMEM, PHYSTOP, PGSIZE] at h1 h2 h4
  simp only [Ordered, kmap, Kmap.size, KERNLINK, KERNBASE, EXTMEM, PHYSTOP, DEVSPACE, PGSIZE,
    PTE_W, Nat.zero_testBit, show Nat.testBit 2 2 = false from rfl, and_true, true_and]
  omega

/-- The loop of `setupkvm`, by induction over the mappings. -/
theorem mapKernel_spec {ks : List Kmap} (h : Space L Below o s d) (hks : Ordered lo ks)
    (hlow : KERNBASE ≤ lo) (hker : Kernel (npages lo) s d) :
    Ends (mapKernel d ks) s (fun _ => False) fun ok t =>
      ∃ o' b, Grows L Below d o s o' t ∧ Kernel b t d ∧
        Mapping d s t ok (ks.map fun km => npages km.virt) := by
  induction ks generalizing lo s o with
  | nil =>
    exact ⟨o, _, .refl h, hker, fun i hi => hi.resolve_right fun hc => by simp at hc, by simp⟩
  | cons km ks ih =>
    obtain ⟨⟨hlo, hal, hpos, hvirt, hphys, hperm, hu⟩, hrest⟩ := hks
    have hn : (PGROUNDDOWN (km.virt + km.size - 1) - PGROUNDDOWN km.virt) / PGSIZE =
        (km.size - 1) / PGSIZE := by
      simp only [PGROUNDDOWN, PGSIZE] at hal ⊢
      omega
    have hdown : PGROUNDDOWN km.virt = npages km.virt * PGSIZE := by
      simp only [PGROUNDDOWN, npages, PGROUNDUP, PGSIZE] at hal ⊢
      omega
    have hlast : npages km.virt + (km.size - 1) / PGSIZE + 1 ≤ npages (km.virt + km.size) := by
      simp only [npages, PGROUNDUP, PGSIZE] at hal ⊢
      omega
    have hsmall : npages (km.virt + km.size) ≤ 2 ^ 20 := npages_mono (b := 2 ^ 32) hvirt
    rw [mapKernel, mappages, hn, hdown]
    refine (mapLoop_kernel h (hker.mono (npages_mono hlo)) (by omega)
      (npages_mono (a := KERNBASE) (hlow.trans hlo)) (by simp only [PGSIZE]; omega) hperm hu).bind
      fun ok s1 hfirst => ?_
    obtain ⟨o1, hgrow, hker1, hmap⟩ := hfirst
    cases ok with
    | true =>
      refine (ih hgrow.space hrest (hlow.trans (hlo.trans (Nat.le_add_right _ _)))
        (hker1.mono hlast)).post fun _ t ht => ?_
      obtain ⟨o2, b, hgrow2, hker2, hmap2⟩ := ht
      exact ⟨o2, b, hgrow.trans hgrow2, hker2, hmap.trans hmap2⟩
    | false => exact ⟨o1, _, hgrow, hker1, hmap.fail _⟩

/-! ## Giving pages back -/

section Release

variable {P P' : Use → Prop}

open Classical in
/-- The pages with a use in `P` become free. -/
noncomputable def release (P : Use → Prop) (o : Nat → Use) : Nat → Use :=
  fun q => if P (o q) then .free else o q

theorem release_congr (h : ∀ q, P' (o q) ↔ P (o q)) : release P' o = release P o := by
  funext q
  rw [release, release, propext (h q)]

theorem release_update (h : ∀ r, P' (o r) ↔ r = q ∨ P (o r)) :
    release P' o = update (release P o) q .free := by
  funext r
  rcases eq_or_ne r q with rfl | hne
  · rw [update_self, release, if_pos ((h r).2 (.inl rfl))]
  · rw [update_of_ne hne, release, release, propext ((h r).trans (or_iff_right hne))]

theorem release_eq (hu : u ≠ .free) : release P o q = u ↔ o q = u ∧ ¬P u := by
  rw [release]
  split
  · rename_i hP
    exact ⟨fun h => absurd h.symm hu, fun h => absurd (h.1 ▸ hP) h.2⟩
  · rename_i hP
    exact ⟨fun h => ⟨h, h ▸ hP⟩, And.left⟩

end Release

/-- What `kfree` leaves. -/
def State.freed (s : State) (q : Nat) : State :=
  { s.fill q (fun _ => 1) with freelist := q :: s.freelist }

theorem ends_kfree {E : Stop → Prop} {Q : Unit → State → Prop}
    (h : L.first ≤ q ∧ q < L.last) : Ends (kfree L q) s E Q ↔ Q () (s.freed q) := by
  rw [kfree, if_neg (by omega), ends_modify, State.freed]

theorem Layout.first_pos (L : Layout) : 0 < L.first := by
  have h1 := L.above
  have h2 := L.order
  simp only [KERNLINK, KERNBASE, EXTMEM] at h1
  simp only [first, PGROUNDUP, PGSIZE, KERNBASE]
  omega

/-- The uses that `deallocuvm` ends. -/
def Mapped (lo hi : Nat) (u : Use) : Prop := ∃ k, u = .page k ∧ lo ≤ k ∧ k < hi

theorem mapped_succ (hlo : lo ≤ j) : Mapped lo (j + 1) u ↔ u = .page j ∨ Mapped lo j u := by
  constructor
  · rintro ⟨k, hk, hl, hlt⟩
    rcases Nat.lt_succ_iff_lt_or_eq.1 hlt with hlt | rfl
    · exact .inr ⟨k, hk, hl, hlt⟩
    · exact .inl hk
  · rintro (h | ⟨k, hk, hl, hlt⟩)
    · exact ⟨j, h, hlo, Nat.lt_succ_self j⟩
    · exact ⟨k, hk, hl, hlt.trans (Nat.lt_succ_self j)⟩

/-- From `s` to `t` the pages from `lo` to `hi` were unmapped and freed. -/
structure Dropped (L : Layout) (K : Nat → Prop) (d lo hi : Nat) (o : Nat → Use) (s t : State) :
    Prop where
  space : Space L K (release (Mapped lo hi) o) t d
  gone : ∀ k, lo ≤ k → k < hi → pte t d k = none
  left : ∀ k, ¬(lo ≤ k ∧ k < hi) → pte t d k = pte s d k
  mem : ∀ q, (o q).data → ¬Mapped lo hi (o q) → t.mem q = s.mem q

theorem Dropped.uses (h : Dropped L K d lo j o s t) (hk : j ≤ k) :
    o q = .page k ↔ K k ∧ (Pages.pte t d k).map PTE_ADDR = some q := by
  rw [← h.space.maps.page, release_eq (by simp), iff_self_and]
  rintro - ⟨i, hi, -, hlt⟩
  cases hi
  exact absurd hk (not_le.2 hlt)

theorem dropped_refl (h : Space L K o s d) (hhi : hi ≤ lo) : Dropped L K d lo hi o s s := by
  have hsame : release (Mapped lo hi) o = o := by
    refine funext fun q => if_neg ?_
    rintro ⟨k, -, h₁, h₂⟩
    exact absurd (h₁.trans_lt h₂) (not_lt.2 hhi)
  exact ⟨by rwa [hsame], fun k _ _ => by omega, fun _ _ => rfl, fun _ _ _ => rfl⟩

/-- Nothing is mapped from `j` to `k`. -/
theorem Dropped.skip (h : Dropped L K d lo j o s t) (hk : j ≤ k)
    (hnone : ∀ i, j ≤ i → i < k → Pages.pte t d i = none) : Dropped L K d lo k o s t := by
  have hpages : ∀ q, Mapped lo k (o q) ↔ Mapped lo j (o q) := by
    refine fun q => exists_congr fun i => and_congr_right fun hi => and_congr_right fun _ => ?_
    refine ⟨fun hik => ?_, fun hij => hij.trans_le hk⟩
    by_contra hij
    have hp := (h.uses (not_lt.1 hij)).1 hi
    rw [hnone i (not_lt.1 hij) hik] at hp
    cases hp.2
  refine ⟨by rw [release_congr hpages]; exact h.space, fun i hi hik => ?_,
    fun i hi => h.left i fun hc => hi ⟨hc.1, hc.2.trans_le hk⟩,
    fun q hq hno => h.mem q hq (by rwa [← hpages])⟩
  by_cases hij : i < j
  · exact h.gone i hi hij
  · exact hnone i (not_lt.1 hij) hik

/-- A turn of `deallocuvm` that frees a page. -/
theorem Dropped.turn (h : Dropped L K d lo j o s t) (hlo : lo ≤ j) (hK : K j)
    (hg : table t d (j / NPTENTRIES) = some g) (hw : Pages.pte t d j = some w) :
    (L.first ≤ PTE_ADDR w ∧ PTE_ADDR w < L.last) ∧
      Dropped L K d lo (j + 1) o s ((t.freed (PTE_ADDR w)).setWord g (j % NPTENTRIES) 0) := by
  have hq : release (Mapped lo j) o (PTE_ADDR w) = .page j :=
    (h.space.maps.page _ j).2 ⟨hK, by rw [hw, Option.map_some]⟩
  have hoq : o (PTE_ADDR w) = .page j := ((release_eq (by simp)).1 hq).1
  have hpages (r : Nat) : Mapped lo (j + 1) (o r) ↔ r = PTE_ADDR w ∨ Mapped lo j (o r) := by
    rw [mapped_succ hlo, h.uses le_rfl, hw, Option.map_some, Option.some.injEq, and_iff_right hK,
      eq_comm]
  -- the page tables are not touched by `kfree`
  have hrest (r : Nat) (hr : r ≠ PTE_ADDR w) : (t.freed (PTE_ADDR w)).mem r = t.mem r := fill_ne hr
  have htables (r : Nat) (hr : release (Mapped lo j) o r = .dir ∨
      ∃ i, release (Mapped lo j) o r = .table i) : (t.freed (PTE_ADDR w)).mem r = t.mem r := by
    apply hrest
    rintro rfl
    rw [hq] at hr
    rcases hr with hr | ⟨i, hr⟩ <;> cases hr
  have hmaps := h.space.maps.congr htables
  have hg' : table (t.freed (PTE_ADDR w)) d (j / NPTENTRIES) = some g := by
    rw [← (hmaps.table g _), h.space.maps.table, hg]
  have hpte := h.space.maps.pte_same htables
  have hset := hmaps.pte_setWord hg' (show 0 < 2 ^ 32 by decide)
  rw [hpte, if_neg (by decide)] at hset
  refine ⟨h.space.pool.range _ (by rw [hq]; simp), ⟨?_, ?_⟩, fun i hi hij => ?_, fun i hi => ?_,
    fun r hr hno => ?_⟩
  · rw [release_update hpages]
    exact h.space.pool.give (by rw [hq]; simp) (by rw [hq]; simp)
  · rw [release_update hpages]
    exact hmaps.unmap hg' hq
  · rw [hset]
    rcases Nat.lt_succ_iff_lt_or_eq.1 hij with hlt | rfl
    · rw [update_of_ne hlt.ne, h.gone i hi hlt]
    · exact update_self ..
  · have hne : i ≠ j := by rintro rfl; exact hi ⟨hlo, Nat.lt_succ_self i⟩
    rw [hset, update_of_ne hne, h.left i (by omega)]
  · rw [hpages, not_or] at hno
    rw [setWord_ne, hrest r hno.1, h.mem r hr hno.2]
    refine h.space.ne_table hg ?_
    rwa [release, if_neg hno.2]

/-- The loop of `deallocuvm`, by induction on the turns that are left. -/
theorem deallocLoop_spec {oldsz fuel : Nat} (h : Dropped L K d lo (min j (npages oldsz)) o s t)
    (hlo : lo ≤ j) (hK : ∀ k, lo ≤ k → k < npages oldsz → K k) (hhi : npages oldsz ≤ 2 ^ 19)
    (hfuel : npages oldsz ≤ j + fuel) :
    Ends (deallocLoop L d oldsz fuel (j * PGSIZE)) t (fun _ => False) fun _ t' =>
      Dropped L K d lo (npages oldsz) o s t' := by
  induction fuel generalizing j t with
  | zero =>
    rw [min_eq_right (by omega)] at h
    exact h
  | succ fuel ih =>
    rw [deallocLoop, ends_ite]
    refine ⟨fun hlt => ?_, fun hge => ?_⟩
    · have hj : j < npages oldsz := lt_npages.2 hlt
      rw [min_eq_left hj.le] at h
      rw [ends_bind, walkpgdir_false (by omega)]
      cases hg : table t d (j / NPTENTRIES) with
      | none =>
        have hnext : PGADDR (PDX (j * PGSIZE) + 1) 0 0 =
            (j / NPTENTRIES + 1) * NPTENTRIES * PGSIZE := by
          rw [PDX_mul (by omega), PGADDR, Nat.mul_assoc]
          omega
        have hnone (i : Nat) (hi : j ≤ i) (hlt : i < (j / NPTENTRIES + 1) * NPTENTRIES) :
            pte t d i = none := by
          have hdiv : i / NPTENTRIES = j / NPTENTRIES := by
            simp only [NPTENTRIES] at hlt ⊢
            omega
          rw [pte, hdiv, hg]
          rfl
        have hjn : j < (j / NPTENTRIES + 1) * NPTENTRIES := by
          simp only [NPTENTRIES]
          omega
        simp only [Option.map_none, hnext]
        exact ih (h.skip (by omega) fun i hi hlt => hnone i hi (by omega)) (by omega) (by omega)
      | some g =>
        have hpte : pte t d j = if present (t.word g (j % NPTENTRIES)) then
            some (t.word g (j % NPTENTRIES)) else none := by rw [pte, hg, Option.bind_some]
        simp only [Option.map_some, ends_bind, ends_get, ends_ite, ← Nat.succ_mul]
        refine ⟨fun hp => ?_, fun hp => ?_⟩
        · rw [if_pos hp] at hpte
          obtain ⟨hrange, hturn⟩ := h.turn hlo (hK j hlo hj) hg hpte
          refine ⟨fun h0 => absurd hrange.1 (by rw [h0]; exact not_le.2 L.first_pos), fun _ => ?_⟩
          rw [ends_kfree hrange]
          simp only [setWord, ends_modify]
          exact ih (by rwa [min_eq_left (by omega)]) (by omega) (by omega)
        · rw [if_neg hp] at hpte
          refine ih (h.skip (by omega) fun i hi hlt => ?_) (by omega) (by omega)
          rwa [show i = j by omega]
    · rw [min_eq_right (not_lt.1 (mt lt_npages.1 hge))] at h
      exact h

theorem deallocuvm_spec {oldsz newsz : Nat} (h : Space L K o s d) (hhi : npages oldsz ≤ 2 ^ 19)
    (hK : ∀ k, npages newsz ≤ k → k < npages oldsz → K k) :
    Ends (deallocuvm L d oldsz newsz) s (fun _ => False) fun r t =>
      r = min oldsz newsz ∧ Dropped L K d (npages newsz) (npages oldsz) o s t := by
  rw [deallocuvm, ends_ite]
  refine ⟨fun hle => ?_, fun hlt => ?_⟩
  · exact ⟨(min_eq_left hle).symm, dropped_refl h (npages_mono hle)⟩
  · have hmono := npages_mono (not_le.1 hlt).le
    rw [roundup_eq, ends_bind]
    refine (deallocLoop_spec (dropped_refl h (by omega)) le_rfl hK hhi ?_).post fun _ t ht =>
      ⟨(min_eq_right (not_le.1 hlt).le).symm, ht⟩
    simp only [npages, PGROUNDUP, PGSIZE]
    omega

/-- The uses that the loop of `freevm` has ended before entry `i`. -/
def Tables (i : Nat) (u : Use) : Prop := ∃ j, u = .table j ∧ j < i

theorem tables_succ {i : Nat} : Tables (i + 1) u ↔ u = .table i ∨ Tables i u := by
  constructor
  · rintro ⟨j, hj, hlt⟩
    rcases Nat.lt_succ_iff_lt_or_eq.1 hlt with hlt | rfl
    · exact .inr ⟨j, hj, hlt⟩
    · exact .inl hj
  · rintro (h | ⟨j, hj, hlt⟩)
    · exact ⟨i, h, Nat.lt_succ_self i⟩
    · exact ⟨j, hj, hlt.trans (Nat.lt_succ_self i)⟩

/-- The loop of `freevm`, by induction on the entries that are left. -/
theorem freeTables_spec {i n : Nat} (hm : Maps K o s d) (hn : i + n = NPDENTRIES)
    (hpool : Pool L (release (Tables i) o) t.freelist)
    (hmem : ∀ q, (o q).data ∨ o q = .dir → t.mem q = s.mem q) :
    Ends (freeTables L d n i) t (fun _ => False) fun _ t' =>
      Pool L (release (Tables NPDENTRIES) o) t'.freelist ∧
        ∀ q, (o q).data ∨ o q = .dir → t'.mem q = s.mem q := by
  induction n generalizing i t with
  | zero =>
    rw [show i = NPDENTRIES by omega] at hpool
    exact ⟨hpool, hmem⟩
  | succ n ih =>
    have hword : t.word d i = s.word d i := word_congr (hmem d (.inr ((hm.dir d).2 rfl)))
    have htable : table s d i =
        if present (s.word d i) then some (PTE_ADDR (s.word d i)) else none := by
      simp only [table, show i < NPDENTRIES by omega, true_and]
    simp only [freeTables, ends_bind, ends_get, ends_ite, hword]
    refine ⟨fun hp => ?_, fun hp => ih (by omega) ?_ hmem⟩
    · rw [if_pos hp] at htable
      have hq : o (PTE_ADDR (s.word d i)) = .table i := (hm.table _ i).2 htable
      have hrel : release (Tables i) o (PTE_ADDR (s.word d i)) = .table i := by
        rw [release_eq (by simp)]
        exact ⟨hq, by simp [Tables]⟩
      rw [ends_kfree (hpool.range _ (by rw [hrel]; simp))]
      refine ih (by omega) ?_ fun q hq' => ?_
      · rw [release_update (q := PTE_ADDR (s.word d i)) (P := Tables i)]
        · exact hpool.give (by rw [hrel]; simp) (by rw [hrel]; simp)
        · intro r
          rw [tables_succ, hm.table, htable, Option.some.injEq, eq_comm]
      · rw [← hmem q hq']
        apply fill_ne
        rintro rfl
        rw [hq] at hq'
        rcases hq' with hq' | hq' <;> cases hq'
    · rw [if_neg hp] at htable
      rw [release_congr (P := Tables i)]
      · exact hpool
      · intro r
        rw [tables_succ, hm.table, htable]
        simp

/-- The uses that `freevm` ends. -/
def Owned (u : Use) : Prop := u ≠ .other ∧ u ≠ .hand

/-- `freevm` gives back everything that the directory has. -/
theorem freevm_spec (h : Space L Below o s d) :
    Ends (freevm L d) s (fun _ => False) fun _ t => Pool L (release Owned o) t.freelist ∧
      ∀ q, o q = .other → t.mem q = s.mem q := by
  rw [freevm, ends_bind]
  refine Ends.post (deallocuvm_spec h (by decide) fun k _ hk => (hk : Below k)) fun r t1 h₁ => ?_
  have hdrop := h₁.2
  rw [ends_bind]
  refine (freeTables_spec (i := 0) hdrop.space.maps rfl ?_ fun _ _ => rfl).post fun _ t2 h₂ => ?_
  · rw [show release (Tables 0) _ = _ from funext fun q => if_neg (by simp [Tables])]
    exact hdrop.space.pool
  obtain ⟨hpool, hmem⟩ := h₂
  have hd1 := (hdrop.space.maps.dir d).2 rfl
  have hd2 : release (Tables NPDENTRIES) (release (Mapped (npages 0) (npages KERNBASE)) o) d =
      .dir := (release_eq (by simp)).2 ⟨hd1, by simp [Tables]⟩
  rw [ends_kfree (hpool.range d (by rw [hd2]; simp))]
  have hall : update (release (Tables NPDENTRIES)
      (release (Mapped (npages 0) (npages KERNBASE)) o)) d .free = release Owned o := by
    funext q
    rcases eq_or_ne q d with rfl | hne
    · simp [release, Owned, (h.maps.dir q).2 rfl]
    · rw [update_of_ne hne]
      cases hq : o q with
      | other | free | hand => simp [release, hq, Mapped, Tables, Owned]
      | dir => exact absurd ((h.maps.dir q).1 hq) hne
      | table i =>
        have hi : i < NPDENTRIES := by
          by_contra hi
          have hg := (h.maps.table q i).1 hq
          rw [table, if_neg fun hc => hi hc.1] at hg
          cases hg
        simp [release, hq, Mapped, Tables, Owned, hi]
      | page k =>
        have hk : Mapped (npages 0) (npages KERNBASE) (.page k) :=
          ⟨k, rfl, Nat.zero_le k, ((h.maps.page q k).1 hq).1⟩
        simp [release, hq, Tables, Owned, hk]
  refine ⟨hall ▸ hpool.give (by rw [hd2]; simp) (by rw [hd2]; simp), fun q hq => ?_⟩
  have hq1 : release (Mapped (npages 0) (npages KERNBASE)) o q = .other :=
    (release_eq (by simp)).2 ⟨hq, by simp [Mapped]⟩
  rw [State.freed, fill_ne (hdrop.space.ne_dir (by rw [hq1]; rfl)),
    hmem q (by rw [hq1]; simp [Use.data]),
    hdrop.mem q (by rw [hq]; rfl) (by rw [hq]; simp [Mapped])]

/-- The free pages are those of `o` again, and no other page has changed. -/
def Restored (L : Layout) (o : Nat → Use) (s t : State) : Prop :=
  Pool L o t.freelist ∧ ∀ q, o q = .other → t.mem q = s.mem q

/-- A directory that was built from free pages is freed. -/
theorem freevm_grown (hc : ∀ q, o q = .other ∨ o q = .free) (h : Grows L Below d o s o' t) :
    Ends (freevm L d) t (fun _ => False) fun _ t' => Restored L o s t' := by
  have hsame : release Owned o' = o := by
    funext q
    rcases hc q with hq | hq
    · have hq' := h.kept q (by rw [hq]; simp)
      simp [release, Owned, hq', hq]
    · rw [hq]
      exact if_pos (h.fresh q hq)
  refine (freevm_spec h.space).post fun _ t' ht' => ⟨hsame ▸ ht'.1, fun q hq => ?_⟩
  rw [ht'.2 q (by rw [h.kept q (by rw [hq]; simp), hq]), h.mem q (by rw [hq]; rfl)]

/-- Where the directory maps only pages below `n` for the user, no more pages were free than are
free now, its page tables and those `n` pages. -/
theorem Grows.count {n : Nat} (hpool : Pool L o s.freelist) (h : Grows L Below d o s o' t)
    (hn : ∀ k w, Below k → pte t d k = some w → k < n) :
    s.freelist.length ≤ t.freelist.length + 1 + NPDENTRIES + n := by
  let tables := (List.range NPDENTRIES).filterMap (Pages.table t d)
  let pages := (List.range n).filterMap fun k => (pte t d k).map PTE_ADDR
  have hsub : s.freelist ⊆ t.freelist ++ d :: (tables ++ pages) := by
    intro q hq
    obtain ⟨hother, hhand⟩ := h.fresh q ((hpool.free q).2 hq)
    simp only [List.mem_append, List.mem_cons, tables, pages, List.mem_filterMap, List.mem_range]
    cases hu : o' q with
    | other => exact absurd hu hother
    | hand => exact absurd hu hhand
    | free => exact .inl ((h.space.pool.free q).1 hu)
    | dir => exact .inr (.inl ((h.space.maps.dir q).1 hu))
    | table i =>
      have htable := (h.space.maps.table q i).1 hu
      have hi : i < NPDENTRIES := by
        by_contra hi
        rw [Pages.table, if_neg fun hc => hi hc.1] at htable
        cases htable
      exact .inr (.inr (.inl ⟨i, hi, htable⟩))
    | page k =>
      obtain ⟨hk, hpte⟩ := (h.space.maps.page q k).1 hu
      obtain ⟨w, hw, -⟩ := Option.map_eq_some_iff.1 hpte
      exact .inr (.inr (.inr ⟨k, hn k w hk hw, hpte⟩))
  have hlen := (hpool.nodup.subperm hsub).length_le
  have htables : tables.length ≤ NPDENTRIES :=
    (List.length_filterMap_le _ _).trans_eq List.length_range
  have hpages : pages.length ≤ n := (List.length_filterMap_le _ _).trans_eq List.length_range
  simp only [List.length_append, List.length_cons] at hlen
  omega

/-- A page of zeros is a directory without mappings. -/
theorem newDir (hc : ∀ q, o q = .other ∨ o q = .free) (h : Pool L o (r :: next))
    (ht : t = (⟨next, s.mem⟩ : State).fill r fun _ => 0) :
    Grows L K r o s (update o r .dir) t ∧ ∀ k, pte t r k = none := by
  obtain ⟨hr, hpool⟩ := h.take (u := .dir) (by simp)
  have htable (i : Nat) : table t r i = none :=
    if_neg (by rw [word_zero (by rw [ht, fill_self])]; simp [present])
  have hpte (k : Nat) : pte t r k = none := by rw [pte, htable]; rfl
  have hno {u : Use} (h₁ : u ≠ .other) (h₂ : u ≠ .free) (h₃ : u ≠ .dir) (q : Nat) :
      update o r .dir q ≠ u := by
    rw [Ne, use_update h₃ (by rw [hr]; exact h₂)]
    rcases hc q with hq | hq
    · rw [hq]; exact h₁.symm
    · rw [hq]; exact h₂.symm
  refine ⟨⟨⟨by rw [ht]; exact hpool, fun q => ?_, fun q i => ?_, fun q k => ?_⟩, fun q hq => ?_,
    fun q hq => ?_, fun q hq => ?_⟩, hpte⟩
  · rcases eq_or_ne q r with rfl | hne
    · simp
    · rcases hc q with hq | hq <;> simp [hne, hq]
  · rw [htable]
    simpa using hno (by simp) (by simp) (by simp) q
  · rw [hpte]
    simpa using hno (by simp) (by simp) (by simp) q
  · exact update_of_ne (by rintro rfl; exact hq hr) _ _
  · rcases eq_or_ne q r with rfl | hne
    · simp
    · simp [hne, hq]
  · rw [ht, fill_ne]
    rintro rfl
    rw [hr] at hq
    cases hq

/-- `setupkvm` makes a directory without user mappings, or leaves the few free pages as they
were. -/
theorem setupkvm_spec (hc : ∀ q, o q = .other ∨ o q = .free) (h : Pool L o s.freelist) :
    Ends (setupkvm L) s (fun _ => False) fun r t =>
      (r = none ∧ Restored L o s t ∧ s.freelist.length ≤ 1 + NPDENTRIES) ∨
        ∃ d o' b, r = some d ∧ Grows L Below d o s o' t ∧ Kernel b t d ∧
          pte t d (KERNBASE / PGSIZE) ≠ none := by
  simp only [setupkvm, ends_bind, ends_kalloc, fill, ends_modify]
  refine ⟨fun hf => .inl ⟨rfl, ⟨h, fun _ _ => rfl⟩, by simp [hf]⟩, fun d next hf => ?_⟩
  obtain ⟨hgrow, hnone⟩ := newDir (K := Below) (s := s) hc (hf ▸ h) rfl
  rw [if_neg (by decide), ends_bind]
  refine (mapKernel_spec hgrow.space L.kmap_ordered le_rfl fun k w hw => ?_).post fun ok t ht => ?_
  · rw [hnone] at hw
    cases hw
  obtain ⟨o', b, hgrow', hker, hmap⟩ := ht
  rw [ends_ite]
  refine ⟨fun hok => .inr ⟨d, o', b, rfl, hgrow.trans hgrow', hker, hmap.1 _ (.inr ⟨hok, ?_⟩)⟩,
    fun hok => ?_⟩
  · exact List.mem_cons_self
  rw [ends_bind]
  refine (freevm_grown hc (hgrow.trans hgrow')).post fun _ t' ht' => .inl ⟨rfl, ht', ?_⟩
  have hcount := (hgrow.trans hgrow').count (n := 0) h fun k w hk hw =>
    absurd hk (not_lt.2 (hker k w hw).1.1)
  rwa [hmap.2 (by simpa using hok), List.length_nil, Nat.zero_add] at hcount

end Xv6.Pages
