import Xv6.Pages.Spaces

/-! `allocuvm`, `copyuvm` and `growproc`: what they add to a page directory, and that they take
everything back when memory runs out. -/

namespace Xv6.Pages

open Calls Segments Function

variable {L : Layout} {K : Nat → Prop} {o o1 : Nat → Use} {s t s1 s2 : State}
  {d q r sz oldsz newsz lo hi j : Nat} {next : List Nat} {perm : Nat → Nat}
  {data : Nat → Nat → BitVec 8}

/-- From `s` to `t` exactly the pages from `lo` to `hi` were mapped, each to a free page of its own
with the given flags and contents. -/
structure Filled (d : Nat) (s t : State) (lo hi : Nat) (perm : Nat → Nat)
    (data : Nat → Nat → BitVec 8) : Prop where
  added : ∀ k, lo ≤ k → k < hi → ∃ q ∈ s.freelist, pte t d k = some (entry q (perm k)) ∧
    t.mem q = data k
  left : ∀ k, ¬(lo ≤ k ∧ k < hi) → pte t d k = pte s d k

theorem pte_eq_some {k w : Nat} : pte s d k = some w ↔ ∃ g, table s d (k / NPTENTRIES) = some g ∧
    s.word g (k % NPTENTRIES) = w ∧ present w := by
  rw [pte, Option.bind_eq_some_iff]
  refine exists_congr fun g => and_congr_right fun _ => ?_
  rw [Option.ite_none_right_eq_some, Option.some.injEq]
  rw [and_comm, and_congr_right_iff]
  rintro rfl
  rfl

theorem mappages_page : mappages d (j * PGSIZE) PGSIZE r q = mappage d (j * PGSIZE) r q := by
  have h0 : (PGROUNDDOWN (j * PGSIZE + PGSIZE - 1) - PGROUNDDOWN (j * PGSIZE)) / PGSIZE = 0 := by
    simp only [PGROUNDDOWN, PGSIZE]
    omega
  have hdown : PGROUNDDOWN (j * PGSIZE) = j * PGSIZE := by
    rw [PGROUNDDOWN, Nat.mul_div_cancel j (by decide)]
  rw [mappages, h0, hdown, mapLoop]

/-- A page is taken from the free list and written. -/
theorem Space.taken (h : Space L K o1 s1 d) {f : Nat → BitVec 8} (hfree : s1.freelist = r :: next)
    (hs2 : s2 = (⟨next, s1.mem⟩ : State).fill r f) :
    o1 r = .free ∧ pte s2 d = pte s1 d ∧ Space L K (update o1 r .hand) s2 d := by
  obtain ⟨hr, hpool1⟩ := (hfree ▸ h.pool : Pool L o1 (r :: next)).take (u := .hand) (by simp)
  have htables (q : Nat) (hq : o1 q = .dir ∨ ∃ i, o1 q = .table i) : s2.mem q = s1.mem q := by
    rw [hs2]
    apply fill_ne
    rintro rfl
    rw [hr] at hq
    rcases hq with hq | ⟨i, hq⟩ <;> cases hq
  exact ⟨hr, h.maps.pte_same htables, by rw [hs2]; exact hpool1,
    (h.maps.congr htables).idle (.inl hr) (.inr rfl)⟩

/-- A page that was taken from the free list and written is mapped at `j`. -/
theorem newPage (hg : Grows L K d o s o1 s1) (hpool : Pool L o s.freelist)
    (hf : Filled d s s1 lo j perm data) (hfree : s1.freelist = r :: next) (hK : K j)
    (hj : j < 2 ^ 20) (hlo : lo ≤ j) (hKs : ∀ k, lo ≤ k → k < j → K k) (hnone : pte s d j = none)
    (hperm : ∀ k, perm k < PGSIZE) (hs2 : s2 = (⟨next, s1.mem⟩ : State).fill r (data j)) :
    Ends (mappages d (j * PGSIZE) PGSIZE r (perm j)) s2 (fun _ => False) fun ok t =>
      (ok = false ∧ t = s2 ∧ s2.freelist = []) ∨
        (ok = true ∧ (∃ o', Grows L K d o s o' t) ∧ Filled d s t lo (j + 1) perm data) := by
  obtain ⟨hr, hpte, hspace⟩ := hg.space.taken hfree hs2
  have hmem {q : Nat} (hq : o1 q ≠ .free) : s2.mem q = s1.mem q := by
    rw [hs2]
    exact fill_ne (by rintro rfl; exact hq hr)
  have hnone2 : pte s2 d j = none := by rw [hpte, hf.left j (by omega), hnone]
  rw [mappages_page]
  refine (mappage_hand hr hspace hj hK hnone2 (hperm j)).post fun ok t ht => ?_
  rcases ht with ht | ⟨hok, hrmem, hpt, o', hgrow⟩
  · exact .inl ht
  have hkept {q : Nat} (hq : (o1 q).data) : t.mem q = s1.mem q := by
    rw [hgrow.mem q hq, hmem (Use.data_ne_free hq)]
  refine .inr ⟨hok, ⟨o', hg.trans ⟨hgrow.space, hgrow.kept, hgrow.fresh, fun q => hkept⟩⟩,
    fun k hl hk => ?_, fun k hk => ?_⟩
  · rw [hpt, hpte]
    rcases Nat.lt_succ_iff_lt_or_eq.1 hk with hk | rfl
    · obtain ⟨q, hq, hw, hdata⟩ := hf.added k hl hk
      have hpage : o1 q = .page k := (hg.space.maps.page q k).2
        ⟨hKs k hl hk, by rw [hw, Option.map_some, addr_entry (hperm k)]⟩
      exact ⟨q, hq, by rw [update_of_ne hk.ne, hw], by rw [hkept (by rw [hpage]; rfl), hdata]⟩
    · refine ⟨r, (hpool.free r).1 (hg.was_free hr), update_self .., ?_⟩
      rw [hrmem, hs2, fill_self]
  · rw [hpt, hpte, update_of_ne (by rintro rfl; exact hk ⟨hlo, Nat.lt_succ_self k⟩),
      hf.left k (by omega)]

/-! ## `allocuvm` -/

theorem Space.freed (h : Space L K o s d) (hr : o r = .hand) :
    Space L K (update o r .free) (s.freed r) d ∧ pte (s.freed r) d = pte s d := by
  have htables (q : Nat) (hq : o q = .dir ∨ ∃ i, o q = .table i) : (s.freed r).mem q = s.mem q := by
    apply fill_ne
    rintro rfl
    rw [hr] at hq
    rcases hq with hq | ⟨i, hq⟩ <;> cases hq
  exact ⟨⟨h.pool.give (by rw [hr]; simp) (by rw [hr]; simp),
    (h.maps.congr htables).idle (.inr hr) (.inl rfl)⟩, h.maps.pte_same htables⟩

/-- What was added is unmapped again. -/
theorem Grows.rollback (h : Space L K o s d)
    (hnone : ∀ k, lo ≤ k → k < hi → pte s d k = none) (hg : Grows L K d o s o1 s1)
    (hspace : Space L K (release (Mapped lo hi) o1) t d)
    (hmem : ∀ q, (o1 q).data → ¬Mapped lo hi (o1 q) → t.mem q = s1.mem q) :
    Grows L K d o s (release (Mapped lo hi) o1) t := by
  have hold (q : Nat) : ¬Mapped lo hi (o q) := by
    rintro ⟨k, hk, hl, hlt⟩
    have hp := ((h.maps.page q k).1 hk).2
    rw [hnone k hl hlt] at hp
    cases hp
  refine ⟨hspace, fun q hq => ?_, fun q hq => ?_, fun q hq => ?_⟩
  · rw [release, hg.kept q hq, if_neg (hold q)]
  · rw [release]
    split
    · simp
    · exact hg.fresh q hq
  · have hsame := hg.kept q (Use.data_ne_free hq)
    rw [hmem q (by rwa [hsame]) (by rw [hsame]; exact hold q), hg.mem q hq]

theorem addrs_nil (h : npages sz ≤ j) : addrs (j * PGSIZE) sz = [] := by
  simp only [npages, PGROUNDUP, PGSIZE] at h
  rw [addrs, show (sz - j * PGSIZE + PGSIZE - 1) / PGSIZE = 0 by simp only [PGSIZE]; omega]
  rfl

theorem addrs_cons (h : j < npages sz) :
    addrs (j * PGSIZE) sz = j * PGSIZE :: addrs ((j + 1) * PGSIZE) sz := by
  simp only [npages, PGROUNDUP, PGSIZE] at h
  rw [addrs, addrs, show (sz - j * PGSIZE + PGSIZE - 1) / PGSIZE =
    (sz - (j + 1) * PGSIZE + PGSIZE - 1) / PGSIZE + 1 by simp only [PGSIZE]; omega,
    List.range_succ_eq_map, List.map_cons, List.map_map, Nat.zero_mul, Nat.add_zero]
  refine congrArg _ (List.map_congr_left fun k _ => ?_)
  simp only [Function.comp, Nat.succ_mul]
  omega

/-- A page that is mapped already. -/
theorem mappages_remap {pa p : Nat} (h : pte s d j ≠ none) (hj : j < 2 ^ 20) {E : Stop → Prop}
    {Q : Bool → State → Prop} : Ends (mappages d (j * PGSIZE) PGSIZE pa p) s E Q ↔ E .remap := by
  obtain ⟨w, hw⟩ := Option.ne_none_iff_exists'.1 h
  obtain ⟨g, hg, rfl, hp⟩ := pte_eq_some.1 hw
  obtain ⟨⟨-, hd⟩, ⟨⟩⟩ := Option.ite_none_right_eq_some.1 hg
  rw [mappages_page, mappage, ends_bind, walkpgdir, PDX_mul hj, PTX_mul]
  simp [hd, hp]

/-- The result of `allocuvm` when it does what it is asked for, and when memory runs out. -/
def Allocated (L : Layout) (K : Nat → Prop) (d lo hi newsz : Nat) (o : Nat → Use) (s : State)
    (r : Nat) (t : State) : Prop :=
  (∃ o', Grows L K d o s o' t) ∧ ((r = newsz ∧
    Filled d s t lo hi (fun _ => PTE_W ||| PTE_U) fun _ _ => 0) ∨ (r = 0 ∧ pte t d = pte s d))

/-- The loop of `allocuvm`, by induction on the pages that are left, when nothing is mapped from
`oldsz` up to page `m`. -/
theorem allocLoop_spec {n m : Nat} (h : Space L K o s d) (hn : j + n = npages newsz)
    (hhi : npages newsz ≤ 2 ^ 19) (hlo : npages oldsz ≤ j) (hj : j ≤ m) (hm : m ≤ npages newsz)
    (hK : ∀ k, npages oldsz ≤ k → k < npages newsz → K k)
    (hnone : ∀ k, npages oldsz ≤ k → k < m → pte s d k = none)
    (hmap : m < npages newsz → pte s d m ≠ none) (hg : Grows L K d o s o1 s1)
    (hf : Filled d s s1 (npages oldsz) j (fun _ => PTE_W ||| PTE_U) fun _ _ => 0) :
    Ends (allocLoop L d oldsz newsz (addrs (j * PGSIZE) newsz)) s1 (fun _ => m < npages newsz)
      fun r t => (m = npages newsz → Allocated L K d (npages oldsz) m newsz o s r t) ∧
        (m < npages newsz → r = 0 ∧ pte t d m = none) := by
  induction n generalizing j s1 o1 with
  | zero =>
    rw [addrs_nil (by omega)]
    rw [show j = m by omega] at hf
    exact ⟨fun _ => ⟨⟨o1, hg⟩, .inl ⟨rfl, hf⟩⟩, fun hlt => absurd hlt (by omega)⟩
  | succ n ih =>
    -- after the rollback the mappings are the old ones
    have hback {o2 : Nat → Use} {s2 t : State} (hm : m = npages newsz) (hpte : pte s2 d = pte s1 d)
        (hdrop : Dropped L K d (npages oldsz) (npages newsz) o2 s2 t) : pte t d = pte s d := by
      funext k
      by_cases hk : npages oldsz ≤ k ∧ k < npages newsz
      · rw [hdrop.gone k hk.1 hk.2, hnone k hk.1 (hk.2.trans_eq hm.symm)]
      · rw [hdrop.left k hk, hpte, hf.left k (by omega)]
    rw [addrs_cons (by omega)]
    simp only [allocLoop, ends_bind, ends_kalloc, fill, ends_modify]
    refine ⟨fun _ => ?_, fun r next hfree => ?_⟩
    · refine (deallocuvm_spec hg.space hhi hK).imp (fun _ hc => hc.elim) fun r t ht => ?_
      have hdrop := ht.2
      refine ⟨fun hm => ?_, fun hlt => ⟨rfl, hdrop.gone m (by omega) hlt⟩⟩
      subst hm
      exact ⟨⟨_, hg.rollback h hnone hdrop.space hdrop.mem⟩, .inr ⟨rfl, hback rfl rfl hdrop⟩⟩
    · obtain ⟨hr, hpte, hspace⟩ := hg.space.taken (f := fun _ => 0) hfree rfl
      rcases hj.lt_or_eq with hlt | rfl
      rotate_left
      · refine (mappages_remap ?_ (by omega)).2 (by omega)
        rw [hpte, hf.left j (by omega)]
        exact hmap (by omega)
      refine (newPage hg h.pool hf hfree (hK j hlo (by omega)) (by omega) hlo
        (fun k hl hk => hK k hl (by omega)) (hnone j hlo hlt) (fun _ => by decide)
        rfl).imp (fun _ hc => hc.elim) fun ok t ht => ?_
      rcases ht with ⟨rfl, rfl, -⟩ | ⟨rfl, ⟨o', hg'⟩, hf'⟩
      · simp only [Bool.false_eq_true, if_false, ends_bind]
        refine (deallocuvm_spec hspace hhi hK).imp (fun _ hc => hc.elim) fun _ t ht => ?_
        have hdrop := ht.2
        have hr' : release (Mapped (npages oldsz) (npages newsz)) (update o1 r .hand) r =
            .hand := (release_eq (by simp)).2 ⟨update_self .., by simp [Mapped]⟩
        have hsame : update (release (Mapped (npages oldsz) (npages newsz))
            (update o1 r .hand)) r .free =
            release (Mapped (npages oldsz) (npages newsz)) o1 := by
          funext q
          rcases eq_or_ne q r with rfl | hne
          · simp [release, hr]
          · rw [update_of_ne hne, release, release, update_of_ne hne]
        obtain ⟨hfreed, hptef⟩ := hdrop.space.freed hr'
        rw [hsame] at hfreed
        rw [ends_kfree (hdrop.space.pool.range r (by rw [hr']; simp))]
        refine ⟨fun hm => ?_, fun hlt => ⟨rfl, by rw [hptef, hdrop.gone m (by omega) hlt]⟩⟩
        subst hm
        refine ⟨⟨_, hg.rollback h hnone hfreed fun q hq hno => ?_⟩,
          .inr ⟨rfl, hptef.trans (hback rfl hpte hdrop)⟩⟩
        have hne : q ≠ r := by rintro rfl; rw [hr] at hq; cases hq
        rw [State.freed, fill_ne hne, hdrop.mem q (by rwa [update_of_ne hne])
          (by rwa [update_of_ne hne]), fill_ne hne]
      · exact ih (by omega) (by omega) hlt hg' hf'

theorem filled_refl : Filled d s s lo lo perm data :=
  ⟨fun _ hl hk => absurd (hl.trans_lt hk) (lt_irrefl _), fun _ _ => rfl⟩

theorem allocuvm_spec (h : Space L K o s d) (hle : oldsz ≤ newsz) (hK : newsz < KERNBASE →
      ∀ k, npages oldsz ≤ k → k < npages newsz → K k ∧ pte s d k = none) :
    Ends (allocuvm L d oldsz newsz) s (fun _ => False) fun r t =>
      Allocated L K d (npages oldsz) (npages newsz) newsz o s r t := by
  rw [allocuvm, ends_ite, ends_ite, roundup_eq]
  refine ⟨fun _ => ⟨⟨o, .refl h⟩, .inr ⟨rfl, rfl⟩⟩, fun hlt =>
    ⟨fun hlt => absurd hlt (not_lt.2 hle), fun _ => ?_⟩⟩
  have hmono := npages_mono hle
  have hhi : npages newsz ≤ 2 ^ 19 := npages_mono (b := KERNBASE) (not_le.1 hlt).le
  have hK := hK (not_le.1 hlt)
  exact (allocLoop_spec (n := npages newsz - npages oldsz) h (by omega) hhi le_rfl hmono le_rfl
    (fun k hl hk => (hK k hl hk).1) (fun k hl hk => (hK k hl hk).2)
    (fun hlt => absurd hlt (lt_irrefl _)) (.refl h) filled_refl).imp (fun _ => lt_irrefl _)
    fun r t ht => ht.1 rfl

/-- A page of the range is mapped: the call stops there, or fails and unmaps a page. -/
theorem allocuvm_mapped {k : Nat} (h : Space L Below o s d) (hlt : newsz < KERNBASE)
    (hl : npages oldsz ≤ k) (hk : k < npages newsz) (hmap : pte s d k ≠ none) :
    Ends (allocuvm L d oldsz newsz) s (fun _ => True) fun r t => r = 0 ∧ pte t d ≠ pte s d := by
  classical
  have hex : ∃ m, npages oldsz ≤ m ∧ pte s d m ≠ none := ⟨k, hl, hmap⟩
  have hfirst := Nat.find_spec hex
  have hm : Nat.find hex < npages newsz := (Nat.find_min' hex ⟨hl, hmap⟩).trans_lt hk
  have hhi : npages newsz ≤ 2 ^ 19 := npages_mono (b := KERNBASE) hlt.le
  have hle : oldsz ≤ newsz := by
    by_contra hc
    have := npages_mono (not_le.1 hc).le
    omega
  rw [allocuvm, if_neg (not_le.2 hlt), if_neg (not_lt.2 hle), roundup_eq]
  refine (allocLoop_spec (n := npages newsz - npages oldsz) (m := Nat.find hex) h (by omega) hhi
    le_rfl hfirst.1 hm.le (fun j _ hj => hj.trans_le hhi) (fun j hl hj => ?_)
    (fun _ => hfirst.2) (.refl h) filled_refl).imp (fun _ _ => trivial) fun r t ht => ?_
  · exact by_contra fun hc => Nat.find_min hex hj ⟨hl, hc⟩
  · exact ⟨(ht.2 hm).1, fun he => hfirst.2 ((congrFun he _).symm.trans (ht.2 hm).2)⟩

theorem Space.not_free {k w : Nat} (h : Space L K o s d) (hk : K k) (hw : pte s d k = some w) :
    PTE_ADDR w ∉ s.freelist := by
  rw [← h.pool.free, (h.maps.page (PTE_ADDR w) k).2 ⟨hk, by rw [hw, Option.map_some]⟩]
  simp

theorem Maps.inj {k k' w w' : Nat} (h : Maps K o s d) (hk : K k) (hk' : K k')
    (hw : pte s d k = some w) (hw' : pte s d k' = some w') (heq : PTE_ADDR w = PTE_ADDR w') :
    k = k' := by
  have h1 := (h.page (PTE_ADDR w) k).2 ⟨hk, by rw [hw, Option.map_some]⟩
  rw [(h.page (PTE_ADDR w) k').2 ⟨hk', by rw [hw', Option.map_some, heq]⟩] at h1
  exact (Use.page.inj h1).symm

/-- Free pages become page tables only. -/
theorem Grows.freelist (h : Grows L K d o s o1 t) (hs : Space L K o s d)
    (hK : ∀ k, K k → pte t d k = none) :
    q ∈ t.freelist ↔ q ∈ s.freelist ∧ ∀ i, table t d i ≠ some q := by
  rw [← h.space.pool.free, ← hs.pool.free]
  constructor
  · refine fun hq => ⟨h.was_free hq, fun i hi => ?_⟩
    rw [(h.space.maps.table q i).2 hi] at hq
    cases hq
  · rintro ⟨hq, hno⟩
    have hfresh := h.fresh q hq
    cases hu : o1 q with
    | free => rfl
    | other => exact absurd hu hfresh.1
    | hand => exact absurd hu hfresh.2
    | dir =>
      rw [(hs.maps.dir q).2 ((h.space.maps.dir q).1 hu)] at hq
      cases hq
    | table i => exact absurd ((h.space.maps.table q i).1 hu) (hno i)
    | page k =>
      have hp := (h.space.maps.page q k).1 hu
      rw [hK k hp.1] at hp
      cases hp.2

/-- `allocuvm` maps every page of the range to a zeroed page of its own, taken from the free
list, or none of them; then only page tables were taken from the free list. -/
theorem allocuvm_all_or_none (hle : oldsz ≤ newsz)
    (h : Space L (fun k => npages oldsz ≤ k ∧ k < npages newsz) o s d)
    (hnone : ∀ k, npages oldsz ≤ k → k < npages newsz → pte s d k = none) :
    Ends (allocuvm L d oldsz newsz) s (fun _ => False) fun r t => (r = newsz ∨ r = 0) ∧
      (r ≠ 0 → Filled d s t (npages oldsz) (npages newsz) (fun _ => PTE_W ||| PTE_U)
        (fun _ _ => 0) ∧ ∀ k w, (npages oldsz ≤ k ∧ k < npages newsz) → pte t d k = some w →
          PTE_ADDR w ∉ t.freelist ∧ ∀ k' w', (npages oldsz ≤ k' ∧ k' < npages newsz) →
            pte t d k' = some w' → PTE_ADDR w = PTE_ADDR w' → k = k') ∧
      (r = 0 → pte t d = pte s d ∧
        ∀ q, q ∈ t.freelist ↔ q ∈ s.freelist ∧ ∀ i, table t d i ≠ some q) := by
  refine (allocuvm_spec h hle fun _ k hl hk => ⟨⟨hl, hk⟩, hnone k hl hk⟩).post fun r t ht => ?_
  obtain ⟨⟨o', hgrow⟩, hr⟩ := ht
  refine ⟨hr.imp And.left And.left, fun h0 => ?_, fun h0 => ?_⟩
  · obtain ⟨rfl, hfill⟩ := hr.resolve_right fun hc => h0 hc.1
    exact ⟨hfill, fun k w hk hw => ⟨hgrow.space.not_free hk hw,
      fun k' w' hk' hw' => hgrow.space.maps.inj hk hk' hw hw'⟩⟩
  · have hpte : pte t d = pte s d := by
      rcases hr with ⟨rfl, hfill⟩ | ⟨-, hpte⟩
      · exact funext fun k => hfill.left k (by rw [h0]; simp [npages, PGROUNDUP, PGSIZE])
      · exact hpte
    exact ⟨hpte, fun q => hgrow.freelist h fun k hk => by rw [hpte, hnone k hk.1 hk.2]⟩

/-- A layout of the kernel, and memory with an empty directory at page 300. -/
def small : Layout := ⟨KERNLINK + PGSIZE, KERNLINK + PGSIZE, rfl, by decide, le_rfl, by decide⟩

def empty : State := ⟨[301, 302, 303], fun _ _ => 0⟩

theorem empty_space (K : Nat → Prop) :
    (∃ o, Space small K o empty 300) ∧ ∀ k, pte empty 300 k = none := by
  let o (q : Nat) : Use := if q ∈ [300, 301, 302, 303] then .free else .other
  have hc (q : Nat) : o q = .other ∨ o q = .free := by
    simp only [o]
    split <;> simp
  have hpool : Pool small o [300, 301, 302, 303] := by
    refine ⟨fun q => by simp only [o]; split <;> simp_all, by decide, fun q hq => ?_⟩
    have hall : ∀ q ∈ [300, 301, 302, 303], small.first ≤ q ∧ q < small.last := by decide
    exact hall q (by_contra fun hno => hq (if_neg hno))
  have hdir := newDir (K := K) (s := empty) (t := empty) hc hpool
    (by simp [empty, State.fill, update_eq_self])
  exact ⟨⟨_, hdir.1.space⟩, hdir.2⟩

theorem allocuvm_all_or_none_page : Ends (allocuvm small 300 0 PGSIZE) empty (fun _ => False)
    fun r t => r = PGSIZE ∧ ∃ q ∈ empty.freelist, pte t 300 0 = some (entry q 6) ∧
      t.mem q = fun _ => 0 := by
  obtain ⟨⟨o, ho⟩, hnone⟩ := empty_space fun k => npages 0 ≤ k ∧ k < npages PGSIZE
  have hrun : Ends (allocuvm small 300 0 PGSIZE) empty (fun _ => False) fun r _ => r = PGSIZE := by
    decide +kernel
  refine (hrun.and (allocuvm_all_or_none (Nat.zero_le _) ho fun k _ _ => hnone k)).imp
    (fun _ => And.left) fun r t ht => ⟨ht.1, ?_⟩
  exact (ht.2.2.1 (by rw [ht.1]; decide)).1.added 0 le_rfl (by decide)

/-! ## `growproc` -/

/-- What is asked of `growproc`: it returns, with the size asked for or with everything as it
was. -/
def Grown (L : Layout) (s : State) (d sz : Nat) (n : Int) : Prop :=
  Ends (growproc L d sz n) s (fun _ => False) fun r t =>
    (r.1 = -1 → r.2 = sz ∧ pte t d = pte s d) ∧
    (r.1 = 0 → (0 ≤ sz + n → sz + n < KERNBASE → (r.2 : Int) = sz + n) ∧
      ∀ k, k < npages r.2 → pte t d k ≠ none) ∧ (r.1 = -1 ∨ r.1 = 0)

section

variable {n : Int} (h : Space L Below o s d) (hsz : sz < KERNBASE)
  (hmap : ∀ k, k < npages sz → pte s d k ≠ none) (hn : -2 ^ 31 ≤ n ∧ n < 2 ^ 31)

include h hsz hmap hn

theorem grown_of (hall : n < 0 → sz + n ≠ 0) (hnone : 0 < n → sz + n < KERNBASE →
      ∀ k, npages sz ≤ k → k < npages (sz + n).toNat → pte s d k = none) :
    Grown L s d sz n := by
  have hkern : KERNBASE = 2 ^ 31 := rfl
  simp only [Grown, growproc, ends_ite, ends_bind, ends_pure]
  generalize hnew : ((sz + n) % 2 ^ 32).toNat = newsz
  refine ⟨fun hpos => ?_, fun hpos => ⟨fun hneg => ?_, fun hneg => ?_⟩⟩
  · refine (allocuvm_spec h (by omega) fun hlt k hl hk => ?_).post fun r t ht => ?_
    · exact ⟨hk.trans_le (npages_mono (b := KERNBASE) hlt.le), hnone hpos (by omega) k hl
        (by rwa [show (sz + n).toNat = newsz by omega])⟩
    rcases ht.2 with ⟨rfl, hfill⟩ | ⟨rfl, hpte⟩
    · rw [if_neg (by omega)]
      refine ⟨fun hc => by simp at hc, fun _ => ⟨fun _ _ => by simp only; omega, fun k hk => ?_⟩,
        .inr rfl⟩
      by_cases hl : npages sz ≤ k
      · obtain ⟨q, -, hq, -⟩ := hfill.added k hl hk
        simp [hq]
      · rw [hfill.left k fun hc => hl hc.1]
        exact hmap k (not_le.1 hl)
    · exact ⟨fun _ => ⟨rfl, hpte⟩, fun hc => by simp at hc, .inl rfl⟩
  · have hhi : npages sz ≤ 2 ^ 19 := npages_mono (b := KERNBASE) hsz.le
    refine (deallocuvm_spec h hhi fun k _ hk => hk.trans_le hhi).post fun r t ht => ?_
    obtain ⟨hr, hdrop⟩ := ht
    rcases Nat.eq_zero_or_pos r with h0 | h0
    -- nothing to give up
    · rw [if_pos h0]
      have h0 : sz = 0 := by omega
      refine ⟨fun _ => ⟨rfl, funext fun k => hdrop.left k ?_⟩, fun hc => by simp at hc, .inl rfl⟩
      simp [h0, npages, PGROUNDUP, PGSIZE]
    rw [if_neg h0.ne']
    refine ⟨fun hc => by simp at hc, fun _ => ⟨fun _ _ => by simp only; omega, fun k hk => ?_⟩,
      .inr rfl⟩
    have hk1 : k < npages sz := hk.trans_le (npages_mono (by simp only; omega))
    have hk2 : k < npages newsz := hk.trans_le (npages_mono (by simp only; omega))
    rw [hdrop.left k fun hc => not_lt.2 hc.1 hk2]
    exact hmap k hk1
  · exact ⟨fun hc => by simp at hc, fun _ => ⟨fun _ _ => by omega, hmap⟩, .inr trivial⟩

/-- `growproc` does what is asked of it, unless the process is to give up everything it has or
the pages to be added are mapped already. -/
theorem growproc_all_or_none : Grown L s d sz n ↔ (n < 0 → sz + n ≠ 0) ∧
    (0 < n → sz + n < KERNBASE →
      ∀ k, npages sz ≤ k → k < npages (sz + n).toNat → pte s d k = none) := by
  have hkern : KERNBASE = 2 ^ 31 := rfl
  refine ⟨fun hgrown => ⟨fun hneg h0 => ?_, fun hpos hlt k hl hk => ?_⟩,
    fun hc => grown_of h hsz hmap hn hc.1 hc.2⟩
  · have hhi : npages sz ≤ 2 ^ 19 := npages_mono (b := KERNBASE) hsz.le
    rw [Grown, growproc, if_neg (by omega), if_pos hneg, h0, ends_bind] at hgrown
    have hdealloc : Ends (deallocuvm L d sz 0) s (fun _ => False) _ :=
      deallocuvm_spec h hhi fun k _ hk => hk.trans_le hhi
    refine hgrown.absurd hdealloc (fun _ hc => hc.elim) fun r t ht hd => ?_
    rw [hd.1, Nat.min_zero, if_pos rfl] at ht
    have hzero : 0 < npages sz := lt_npages.2 (by omega)
    refine hmap 0 hzero ?_
    rw [← (ht.1 rfl).2]
    exact hd.2.gone 0 (Nat.zero_le _) hzero
  · by_contra hno
    have hnew : ((sz + n) % 2 ^ 32).toNat = (sz + n).toNat := by omega
    rw [Grown, growproc, if_pos hpos, ends_bind, hnew] at hgrown
    refine hgrown.absurd (allocuvm_mapped h (by omega) hl hk hno) (fun _ hc => hc.elim)
      fun r t ht hd => ?_
    rw [hd.1, if_pos rfl] at ht
    exact hd.2 (ht.1 rfl).2

end

theorem growproc_all_or_none_page : Ends (growproc small 300 0 4096) empty (fun _ => False)
    fun r t => r.1 = 0 ∧ r.2 = PGSIZE ∧ pte t 300 0 ≠ none := by
  obtain ⟨⟨o, ho⟩, hnone⟩ := empty_space Below
  have hgrown : Grown small empty 300 0 4096 :=
    (growproc_all_or_none ho (by decide) (fun k hk => absurd hk (by simp [npages, PGROUNDUP,
      PGSIZE])) (by decide)).2 ⟨by decide, fun _ _ k _ _ => hnone k⟩
  have hrun : Ends (growproc small 300 0 4096) empty (fun _ => False) fun r _ => r.1 = 0 := by
    decide +kernel
  refine (hrun.and hgrown).imp (fun _ => And.left) fun r t ht => ?_
  obtain ⟨hsz, hmap⟩ := ht.2.2.1 ht.1
  have hsz : r.2 = PGSIZE := by exact_mod_cast hsz (by decide) (by decide)
  exact ⟨ht.1, hsz, hmap 0 (by rw [hsz]; decide)⟩

/-- A process with one page asks for `-PGSIZE`: the call fails, but the page is gone. -/
theorem growproc_gives_up_everything : Ends (do
      let _ ← allocuvm small 300 0 PGSIZE
      let s ← get
      let r ← growproc small 300 PGSIZE (-4096)
      pure (pte s 300 0, r)) empty (fun _ => False)
    fun r t => r.1 ≠ none ∧ r.2 = (-1, PGSIZE) ∧ pte t 300 0 = none := by
  decide +kernel

/-! ## `copyuvm` -/

/-- The first `n` pages are mapped; neither they nor what leads to them is free. -/
structure Resident (s : State) (d n : Nat) : Prop where
  dir : d ∉ s.freelist
  table : ∀ k < n, ∀ g, table s d (k / NPTENTRIES) = some g → g ∉ s.freelist
  page : ∀ k < n, ∃ w, pte s d k = some w ∧ PTE_ADDR w ∉ s.freelist

/-- The flags and the contents of the page at `k`. -/
def flagsAt (s : State) (d k : Nat) : Nat := (pte s d k).elim 0 PTE_FLAGS

def contents (s : State) (d k : Nat) : Nat → BitVec 8 :=
  (pte s d k).elim (fun _ => 0) fun w => s.mem (PTE_ADDR w)

theorem flagsAt_lt (s : State) (d k : Nat) : flagsAt s d k < PGSIZE := by
  rw [flagsAt]
  cases pte s d k with
  | none => decide
  | some w => exact Nat.mod_lt w (by decide)

theorem flags_odd {w : Nat} (h : present w) : PTE_FLAGS w ||| 1 = PTE_FLAGS w := by
  apply Nat.eq_of_testBit_eq
  intro i
  rw [Nat.testBit_or, PTE_FLAGS, show PGSIZE = 2 ^ 12 from rfl, Nat.testBit_mod_two_pow]
  cases i with
  | zero => simp [show w.testBit 0 = true from h]
  | succ i => simp [Nat.testBit_succ]

/-- The loop of `copyuvm`, by induction on the pages that are left. `s` is the state before the
call and `s0` that after `setupkvm`. -/
theorem copyLoop_spec {pgdir b n : Nat} {o0 : Nat → Use} {s0 : State}
    (hc : ∀ q, o q = .other ∨ o q = .free) (hpool : Pool L o s.freelist)
    (hres : Resident s pgdir (npages sz)) (hs : Grows L Below d o s o0 s0)
    (hker : Kernel b s0 d) (htop : pte s0 d (KERNBASE / PGSIZE) ≠ none)
    (hn : j + n = npages sz) (hj : j ≤ KERNBASE / PGSIZE) (hg : Grows L Below d o0 s0 o1 s1)
    (hf : Filled d s0 s1 0 j (flagsAt s pgdir) (contents s pgdir)) :
    Ends (copyLoop L pgdir d (addrs (j * PGSIZE) sz)) s1
      (fun e => e = .remap ∧ KERNBASE < sz) fun ok t => (∃ o', Grows L Below d o0 s0 o' t) ∧
        (ok = false → s.freelist.length ≤ 1 + NPDENTRIES + npages sz) ∧
        (ok = true → npages sz ≤ KERNBASE / PGSIZE ∧
          Filled d s0 t 0 (npages sz) (flagsAt s pgdir) (contents s pgdir)) := by
  have hkern : KERNBASE / PGSIZE = 2 ^ 19 := rfl
  induction n generalizing j s1 o1 with
  | zero =>
    rw [addrs_nil (by omega)]
    rw [show j = npages sz by omega] at hf hj
    exact ⟨⟨o1, hg⟩, by simp, fun _ => ⟨hj, hf⟩⟩
  | succ n ih =>
    have hcount (hlen : s1.freelist.length ≤ 1) :
        s.freelist.length ≤ 1 + NPDENTRIES + npages sz := by
      have hall := (hs.trans hg).count (n := j) hpool fun k w hk hw => by
        by_contra hkj
        rw [hf.left k (by omega)] at hw
        exact absurd (hker k w hw).1.1 (not_le.2 hk)
      omega
    have hmem (q : Nat) (hq : q ∉ s.freelist) : s1.mem q = s.mem q := by
      refine (hs.trans hg).mem q ?_
      rw [(hc q).resolve_right (mt (hpool.free q).1 hq)]
      rfl
    obtain ⟨w, hw, hpage⟩ := hres.page j (by omega)
    obtain ⟨g, htable, hword, hp⟩ := pte_eq_some.1 hw
    have hword1 : s1.word g (j % NPTENTRIES) = w := by
      rw [word_congr (hmem g (hres.table j (by omega) g htable)), hword]
    have hdata : contents s pgdir j = s1.mem (PTE_ADDR w) := by
      rw [contents, hw, hmem _ hpage]
      rfl
    have hflags : flagsAt s pgdir j = PTE_FLAGS w := by rw [flagsAt, hw]; rfl
    rw [addrs_cons (by omega), copyLoop, ends_bind, walkpgdir_false (by omega),
      table_congr (hmem pgdir hres.dir), htable]
    simp only [Option.map_some, ends_bind, ends_get, hword1, hp, not_true_eq_false, if_false,
      ends_kalloc, fill, ends_modify]
    refine ⟨fun hfree => ⟨⟨o1, hg⟩, fun _ => hcount (by simp [hfree]), by simp⟩,
      fun r next hfree => ?_⟩
    obtain ⟨hr, hpte, hspace⟩ := hg.space.taken (f := s1.mem (PTE_ADDR w)) hfree rfl
    rcases hj.lt_or_eq with hlt | rfl
    · rw [← hflags]
      refine (newPage hg hs.space.pool hf hfree hlt (by omega) (Nat.zero_le j)
        (fun k _ hk => hk.trans hlt) ?_ (flagsAt_lt s pgdir) (by rw [hdata])).imp
        (fun _ hc => hc.elim) fun ok t ht => ?_
      · exact Option.eq_none_iff_forall_ne_some.2 fun w hw =>
          absurd (hker j w hw).1.1 (not_le.2 hlt)
      rcases ht with ⟨rfl, rfl, hnext⟩ | ⟨rfl, ⟨o', hg'⟩, hf'⟩
      · simp only [Bool.false_eq_true, if_false, ends_bind]
        rw [ends_kfree (hspace.pool.range r (by simp))]
        obtain ⟨hfreed, -⟩ := hspace.freed (r := r) (update_self ..)
        rw [update_idem, ← hr, update_eq_self] at hfreed
        refine ⟨⟨o1, hfreed, hg.kept, hg.fresh, fun q hq => ?_⟩, fun _ => hcount ?_, by simp⟩
        rotate_left
        · rw [hfree, show next = [] from hnext]
          rfl
        have hne : q ≠ r := by
          rintro rfl
          rw [hg.was_free hr] at hq
          cases hq
        rw [State.freed, fill_ne hne, fill_ne hne]
        exact hg.mem q hq
      · exact ih (by omega) hlt hg' hf'
    -- the first page of the kernel
    · refine (mappages_remap ?_ (by decide)).2 ⟨rfl, ?_⟩
      · rw [hpte, hf.left _ (by omega)]
        exact htop
      · have hlt : KERNBASE / PGSIZE < npages sz := by omega
        rw [lt_npages] at hlt
        exact hlt

/-- `copyuvm` copies every page below `sz`, or takes nothing because too few pages are free. -/
theorem copyuvm_all_or_none {pgdir : Nat} (hnodup : s.freelist.Nodup)
    (hrange : ∀ q ∈ s.freelist, L.first ≤ q ∧ q < L.last) (hres : Resident s pgdir (npages sz)) :
    Ends (copyuvm L pgdir sz) s (fun e => e = .remap ∧ KERNBASE < sz) fun r t =>
      (∀ q, q ∉ s.freelist → t.mem q = s.mem q) ∧
      (r = none → s.freelist.length ≤ 1 + NPDENTRIES + npages sz ∧
        ∀ q, q ∈ t.freelist ↔ q ∈ s.freelist) ∧ ∀ d, r = some d →
        (∀ k < npages sz, ∃ w w', pte s pgdir k = some w ∧ pte t d k = some w' ∧
          PTE_FLAGS w' = PTE_FLAGS w ∧ t.mem (PTE_ADDR w') = s.mem (PTE_ADDR w) ∧
          PTE_ADDR w' ∈ s.freelist ∧ PTE_ADDR w' ∉ t.freelist) ∧
        (∀ k k' w w', k < npages sz → k' < npages sz → pte t d k = some w →
          pte t d k' = some w' → PTE_ADDR w = PTE_ADDR w' → k = k') ∧
        ∀ k, npages sz ≤ k → k < KERNBASE / PGSIZE → pte t d k = none := by
  classical
  let o (q : Nat) : Use := if q ∈ s.freelist then .free else .other
  have hc (q : Nat) : o q = .other ∨ o q = .free := by
    simp only [o]
    split <;> simp
  have hpool : Pool L o s.freelist := ⟨fun q => by simp only [o]; split <;> simp_all, hnodup,
      fun q hq => hrange q (by_contra fun hno => hq (if_neg hno))⟩
  have hother {q : Nat} (hq : q ∉ s.freelist) : o q = .other := if_neg hq
  have hback {t : State} (h : Restored L o s t) :
      (∀ q, q ∉ s.freelist → t.mem q = s.mem q) ∧ ∀ q, q ∈ t.freelist ↔ q ∈ s.freelist :=
    ⟨fun q hq => h.2 q (hother hq), fun q => by rw [← h.1.free, hpool.free]⟩
  rw [copyuvm, ends_bind]
  refine (setupkvm_spec hc hpool).imp (fun _ hf => hf.elim) fun r s0 h₀ => ?_
  rcases h₀ with ⟨rfl, hres0, hlen⟩ | ⟨d, o0, b, rfl, hs, hker, htop⟩
  · exact ⟨(hback hres0).1, fun _ => ⟨hlen.trans (Nat.le_add_right _ _), (hback hres0).2⟩, by simp⟩
  have hloop := copyLoop_spec (n := npages sz) (j := 0) hc hpool hres hs hker htop (Nat.zero_add _)
    (Nat.zero_le _) (.refl hs.space) filled_refl
  rw [Nat.zero_mul] at hloop
  refine hloop.bind fun ok t ht => ?_
  obtain ⟨⟨o', hgrow⟩, hlen, hok⟩ := ht
  cases ok with
  | false =>
    simp only [Bool.false_eq_true, if_false, ends_bind]
    refine (freevm_grown hc (hs.trans hgrow)).imp (fun _ hf => hf.elim) fun _ t' ht' => ?_
    exact ⟨(hback ht').1, fun _ => ⟨hlen rfl, (hback ht').2⟩, by simp⟩
  | true =>
    obtain ⟨hlow, hfill⟩ := hok rfl
    refine ⟨fun q hq => (hs.trans hgrow).mem q (by rw [hother hq]; rfl), fun hc => by simp at hc,
      fun d' hd => ?_⟩
    obtain rfl := Option.some.inj hd
    refine ⟨fun k hk => ?_, fun k k' w w' hk hk' => ?_, fun k hk hlt => ?_⟩
    · obtain ⟨w, hw, -⟩ := hres.page k hk
      obtain ⟨q, hq, hpte, hdata⟩ := hfill.added k (Nat.zero_le k) hk
      have hlt := flagsAt_lt s pgdir k
      have hodd : PTE_FLAGS w ||| 1 = PTE_FLAGS w := flags_odd (pte_eq_some.1 hw).choose_spec.2.2
      refine ⟨w, _, hw, hpte, ?_, ?_, ?_, hgrow.space.not_free (hk.trans_le hlow) hpte⟩
      · rw [flags_entry hlt, flagsAt, hw]
        exact hodd
      · rw [addr_entry hlt, hdata, contents, hw]
        rfl
      · rw [addr_entry hlt]
        exact (hpool.free q).1 (hs.was_free ((hs.space.pool.free q).2 hq))
    · exact hgrow.space.maps.inj (hk.trans_le hlow) (hk'.trans_le hlow)
    · rw [hfill.left k (by omega)]
      exact Option.eq_none_iff_forall_ne_some.2 fun w hw =>
        absurd (hker k w hw).1.1 (not_le.2 hlt)

/-- One page is mapped at address 0 of the directory, and 2000 pages are free. -/
def paged : State :=
  ((⟨List.range' 303 2000, fun _ _ => 0⟩ : State).setWord 300 0 (entry 301 6)).setWord 301 0
    (entry 302 6)

section Page

-- The call is not to be evaluated.
attribute [local irreducible] Ends

theorem copyuvm_all_or_none_page : Ends (copyuvm small 300 PGSIZE) paged
    (fun e => e = .remap ∧ KERNBASE < PGSIZE)
    fun r t => ∃ d w, r = some d ∧ pte t d 0 = some w ∧ PTE_FLAGS w = 7 ∧
      t.mem (PTE_ADDR w) = paged.mem 302 := by
  have htable : table paged 300 0 = some 301 := by decide +kernel
  have hpte : pte paged 300 0 = some (entry 302 6) := by decide +kernel
  have hzero {k : Nat} (hk : k < npages PGSIZE) : k = 0 := Nat.lt_one_iff.1 hk
  have hfree (q : Nat) : q ∈ paged.freelist ↔ 303 ≤ q ∧ q < 303 + 2000 := List.mem_range'_1
  refine (copyuvm_all_or_none (L := small) (s := paged) List.nodup_range' (fun q hq => ?_)
    ⟨by simp [hfree], fun k hk g hg => ?_, fun k hk => ?_⟩).post fun r t ht => ?_
  · rw [hfree] at hq
    exact ⟨(show small.first ≤ 303 by decide).trans hq.1, hq.2.trans (by decide)⟩
  · rw [hzero hk, show 0 / NPTENTRIES = 0 from rfl, htable] at hg
    cases hg
    simp [hfree]
  · rw [hzero hk]
    exact ⟨_, hpte, by rw [addr_entry (by decide), hfree]; decide⟩
  obtain ⟨-, hnone, hsome⟩ := ht
  cases r with
  | none =>
    have hlen : paged.freelist.length = 2000 := List.length_range'
    exact absurd (hnone rfl).1 (by rw [hlen]; decide)
  | some d =>
    obtain ⟨w, w', hw, hw', hflags, hmem, -⟩ := (hsome d rfl).1 0 (by decide)
    cases hpte.symm.trans hw
    rw [addr_entry (by decide)] at hmem
    exact ⟨d, w', rfl, hw', hflags, hmem⟩

end Page

end Xv6.Pages
