import Xv6.Pages.Model

/-! What each page is used for while the functions of `vm.c` work on one page directory. A
function `o` assigns every page one use, so that no page can have two: `Space L K o s d` says
that these are the uses of the pages in state `s`, where the pages mapped at the virtual pages
`K` belong to the directory `d`. Each change that the functions make to memory is a change of
the use of one page. -/

namespace Xv6.Pages

open Calls Segments Function

variable {L : Layout} {K : Nat → Prop}

inductive Use
  /-- Not a page of the allocator, or a page of somebody else. -/
  | other
  | free
  /-- The result of `kalloc` that is not used yet. -/
  | hand
  | dir
  /-- The page table of entry `i` of the directory. -/
  | table (i : Nat)
  /-- The page at virtual page `k`. -/
  | page (k : Nat)
  deriving DecidableEq

/-- The uses in which the contents of a page are not a page table. -/
def Use.data : Use → Bool
  | .other | .hand | .page _ => true
  | _ => false

/-! ## Page tables as functions -/

/-- The page table of entry `i` of a directory. -/
def table (s : State) (d i : Nat) : Option Nat :=
  if i < NPDENTRIES ∧ present (s.word d i) then some (PTE_ADDR (s.word d i)) else none

/-- The entry for virtual page `k`, if it is present. -/
def pte (s : State) (d k : Nat) : Option Nat :=
  (table s d (k / NPTENTRIES)).bind fun g =>
    if present (s.word g (k % NPTENTRIES)) then some (s.word g (k % NPTENTRIES)) else none

section Words

variable {s t : State} {p q i j d k w pa perm : Nat} {f : Nat → BitVec 8}

theorem word_congr (h : t.mem p = s.mem p) : t.word p i = s.word p i := by
  rw [State.word, h, State.word]

theorem fill_ne (h : q ≠ p) : (s.fill p f).mem q = s.mem q := update_of_ne h _ _

theorem fill_self : (s.fill p f).mem p = f := update_self ..

theorem setWord_ne (h : q ≠ p) : (s.setWord p i w).mem q = s.mem q := fill_ne h

theorem word_setWord (hw : w < 2 ^ 32) :
    (s.setWord p i w).word p j = if j = i then w else s.word p j := by
  simp only [State.word, State.setWord, State.fill, update_self]
  split
  · rename_i h
    rw [h]
    exact Words.word_put_self hw
  · exact Words.word_put_outside (by rw [Words.bytes_length]; omega)

theorem word_zero (h : s.mem p = fun _ => 0) : s.word p i = 0 := by
  rw [State.word, h]
  exact Words.word_of_zero fun _ _ => rfl

theorem present_zero : present 0 = false := rfl

theorem entry_eq (h : perm < PGSIZE) : entry pa perm = pa * PGSIZE + (perm ||| 1) := by
  have hlt : perm ||| 1 < 2 ^ 12 := Nat.or_lt_two_pow h (by decide)
  rw [entry, PTE_P, Nat.lor_assoc, Nat.mul_comm]
  exact (Nat.two_pow_add_eq_or_of_lt hlt pa).symm

theorem flags_lt (h : perm < PGSIZE) : perm ||| 1 < PGSIZE :=
  Nat.or_lt_two_pow (n := 12) h (by decide)

theorem addr_entry (h : perm < PGSIZE) : PTE_ADDR (entry pa perm) = pa := by
  have hlt := flags_lt h
  rw [PTE_ADDR, entry_eq h, Nat.mul_comm, Nat.mul_add_div (by decide), Nat.div_eq_of_lt hlt,
    Nat.add_zero]

theorem flags_entry (h : perm < PGSIZE) : PTE_FLAGS (entry pa perm) = perm ||| 1 := by
  rw [PTE_FLAGS, entry_eq h, Nat.add_comm, Nat.add_mul_mod_self_right,
    Nat.mod_eq_of_lt (flags_lt h)]

theorem present_entry : present (entry pa perm) := by
  simp [present, entry, PTE_P]

theorem entry_lt (h : perm < PGSIZE) (hpa : pa < 2 ^ 20) : entry pa perm < 2 ^ 32 := by
  have hlt := flags_lt h
  rw [entry_eq h]
  simp only [PGSIZE] at hlt ⊢
  omega

theorem table_congr (h : t.mem d = s.mem d) : table t d i = table s d i := by
  rw [table, word_congr h, table]

theorem pte_congr (h : t.mem d = s.mem d)
    (hg : ∀ g, table s d (k / NPTENTRIES) = some g → t.mem g = s.mem g) :
    pte t d k = pte s d k := by
  rw [pte, pte, table_congr h]
  cases hk : table s d (k / NPTENTRIES) with
  | none => rfl
  | some g => simp only [Option.bind_some, word_congr (hg g hk)]

theorem PDX_mul (h : k < 2 ^ 20) : PDX (k * PGSIZE) = k / NPTENTRIES := by
  simp only [PDX, NPTENTRIES, PGSIZE, NPDENTRIES]
  omega

theorem PTX_mul : PTX (k * PGSIZE) = k % NPTENTRIES := by
  rw [PTX, Nat.mul_div_cancel k (by decide)]

theorem walkpgdir_false (hk : k < 2 ^ 20) {E : Stop → Prop}
    {Q : Option (Nat × Nat) → State → Prop} : Ends (walkpgdir d (k * PGSIZE) false) s E Q ↔
      Q ((table s d (k / NPTENTRIES)).map (·, k % NPTENTRIES)) s := by
  have hi : k / NPTENTRIES < NPDENTRIES := by simp only [NPTENTRIES, NPDENTRIES]; omega
  simp only [walkpgdir, PDX_mul hk, PTX_mul, ends_bind, ends_get, table, hi, true_and]
  split <;> simp

end Words

/-! ## Uses of pages -/

/-- The free list consists of the free pages, and all pages in use come from the allocator. -/
structure Pool (L : Layout) (o : Nat → Use) (freelist : List Nat) : Prop where
  free : ∀ q, o q = .free ↔ q ∈ freelist
  nodup : freelist.Nodup
  range : ∀ q, o q ≠ .other → L.first ≤ q ∧ q < L.last

/-- The directory, its page tables and the pages mapped at `K` have the uses `o`. -/
structure Maps (K : Nat → Prop) (o : Nat → Use) (s : State) (d : Nat) : Prop where
  dir : ∀ q, o q = .dir ↔ q = d
  table : ∀ q i, o q = .table i ↔ table s d i = some q
  page : ∀ q k, o q = .page k ↔ K k ∧ (pte s d k).map PTE_ADDR = some q

structure Space (L : Layout) (K : Nat → Prop) (o : Nat → Use) (s : State) (d : Nat) : Prop where
  pool : Pool L o s.freelist
  maps : Maps K o s d

variable {o o' o1 : Nat → Use} {s t s1 : State} {d g k q r w pa perm : Nat} {u : Use}
  {next freelist : List Nat}

theorem Pool.lt (h : Pool L o freelist) (hq : o q ≠ .other) : q < 2 ^ 20 :=
  (h.range q hq).2.trans_le (by decide : PHYSTOP / PGSIZE ≤ 2 ^ 20)

theorem Pool.take (h : Pool L o (r :: next)) (hu : u ≠ .free) :
    o r = .free ∧ Pool L (update o r u) next := by
  have hr : o r = .free := (h.free r).2 (List.mem_cons_self ..)
  have hnodup := List.nodup_cons.1 h.nodup
  refine ⟨hr, ?_, hnodup.2, ?_⟩
  · intro q
    rcases eq_or_ne q r with rfl | hne
    · simp [hu, hnodup.1]
    · simp [hne, h.free]
  · intro q hq
    rcases eq_or_ne q r with rfl | hne
    · exact h.range q (by rw [hr]; decide)
    · exact h.range q (by simpa [hne] using hq)

theorem Pool.give (h : Pool L o freelist) (hfree : o r ≠ .free) (hr : o r ≠ .other) :
    Pool L (update o r .free) (r :: freelist) := by
  refine ⟨fun q => ?_, List.nodup_cons.2 ⟨?_, h.nodup⟩, fun q hq => ?_⟩
  · rcases eq_or_ne q r with rfl | hne
    · simp
    · simp [hne, h.free]
  · exact fun hm => hfree ((h.free r).2 hm)
  · rcases eq_or_ne q r with rfl | hne
    · exact h.range q hr
    · exact h.range q (by simpa [hne] using hq)

theorem use_update {v : Use} (hu : v ≠ u) (hr : v ≠ o r) : update o r u q = v ↔ o q = v := by
  rcases eq_or_ne q r with rfl | hne
  · simp [hu.symm, hr.symm]
  · rw [update_of_ne hne]

section

variable (h : Maps K o s d)

include h

/-- A page that the directory has nothing to do with changes its use. -/
theorem Maps.idle (hr : o r = .free ∨ o r = .hand)
    (hu : u = .free ∨ u = .hand) : Maps K (update o r u) s d := by
  have hsame {v : Use} (q : Nat) (hf : v ≠ .free) (hh : v ≠ .hand) :
      update o r u q = v ↔ o q = v := by
    apply use_update
    · rcases hu with rfl | rfl
      · exact hf
      · exact hh
    · rcases hr with hr | hr
      · rwa [hr]
      · rwa [hr]
  exact ⟨fun q => by rw [hsame q (by decide) (by decide), h.dir],
    fun q i => by rw [hsame q (by simp) (by simp), h.table],
    fun q k => by rw [hsame q (by simp) (by simp), h.page]⟩

theorem Maps.pte_same
    (hm : ∀ q, o q = .dir ∨ (∃ i, o q = .table i) → t.mem q = s.mem q) : pte t d = pte s d := by
  funext k
  exact pte_congr (hm d (.inl ((h.dir d).2 rfl))) fun g hg =>
    hm g (.inr ⟨_, (h.table g _).2 hg⟩)

theorem Maps.congr
    (hm : ∀ q, o q = .dir ∨ (∃ i, o q = .table i) → t.mem q = s.mem q) : Maps K o t d := by
  have htable (i : Nat) : Pages.table t d i = Pages.table s d i :=
    table_congr (hm d (.inl ((h.dir d).2 rfl)))
  exact ⟨h.dir, fun q i => by rw [h.table, htable], fun q k => by rw [h.page, h.pte_same hm]⟩

theorem Maps.table_ne {i j g' : Nat} (hg : Pages.table s d i = some g)
    (hg' : Pages.table s d j = some g') (hij : i ≠ j) : g' ≠ g := by
  rintro rfl
  have hi := (h.table g' i).2 hg
  rw [(h.table g' j).2 hg'] at hi
  exact hij (Use.table.inj hi).symm

theorem Maps.table_ne_dir {i : Nat} (hg : Pages.table s d i = some g) : g ≠ d := by
  rintro rfl
  have hd := (h.dir g).2 rfl
  rw [(h.table g i).2 hg] at hd
  cases hd

/-- A word is stored in a page table. -/
theorem Maps.pte_setWord (hg : Pages.table s d (k / NPTENTRIES) = some g)
    (hw : w < 2 ^ 32) : pte (s.setWord g (k % NPTENTRIES) w) d =
      update (pte s d) k (if present w then some w else none) := by
  have hd : (s.setWord g (k % NPTENTRIES) w).mem d = s.mem d := setWord_ne (h.table_ne_dir hg).symm
  funext j
  rw [pte, table_congr hd]
  by_cases hj : j / NPTENTRIES = k / NPTENTRIES
  · rw [hj, hg, Option.bind_some, word_setWord hw]
    rcases eq_or_ne j k with rfl | hne
    · simp
    · have hmod : j % NPTENTRIES ≠ k % NPTENTRIES := by
        simp only [NPTENTRIES] at hj ⊢
        omega
      rw [update_of_ne hne, if_neg hmod, pte, hj, hg, Option.bind_some]
  · have hne : j ≠ k := by rintro rfl; exact hj rfl
    rw [update_of_ne hne, ← table_congr (i := j / NPTENTRIES) hd]
    exact pte_congr (d := d) hd fun g' hg' => setWord_ne (h.table_ne hg hg' (Ne.symm hj))

/-- A page of zeros becomes the page table of entry `i`. -/
theorem Maps.newTable {i : Nat} (hi : i < NPDENTRIES)
    (hnone : Pages.table s d i = none) (hr : o r = .free) (hlt : r < 2 ^ 20)
    (ht : t = (s.fill r fun _ => 0).setWord d i (entry r (PTE_W ||| PTE_U))) :
    Pages.table t d i = some r ∧ pte t d = pte s d ∧ Maps K (update o r (.table i)) t d := by
  have hperm : PTE_W ||| PTE_U < PGSIZE := by decide
  have hrd : r ≠ d := by
    rintro rfl
    rw [(h.dir r).2 rfl] at hr
    cases hr
  have hrest {q : Nat} (hd : q ≠ d) (hq : q ≠ r) : t.mem q = s.mem q := by
    rw [ht, setWord_ne hd, fill_ne hq]
  have htable (j : Nat) : Pages.table t d j = if j = i then some r else Pages.table s d j := by
    have hfill : (s.fill r fun _ => 0).word d j = s.word d j := word_congr (fill_ne hrd.symm)
    rw [ht, Pages.table, word_setWord (entry_lt hperm hlt)]
    split
    · rename_i hj
      rw [if_pos ⟨by rw [hj]; exact hi, present_entry⟩, addr_entry hperm]
    · rw [hfill, Pages.table]
  -- the new table is empty
  have hpte : pte t d = pte s d := by
    funext k
    rw [pte, pte, htable]
    split
    · rename_i hk
      have hzero : t.word r (k % NPTENTRIES) = 0 :=
        word_zero (by rw [ht, setWord_ne hrd, fill_self])
      rw [hk, hnone, Option.bind_some, hzero]
      rfl
    · cases hg : Pages.table s d (k / NPTENTRIES) with
      | none => rfl
      | some g =>
        have hgr : g ≠ r := by
          rintro rfl
          rw [(h.table g _).2 hg] at hr
          cases hr
        simp only [Option.bind_some, word_congr (hrest (h.table_ne_dir hg) hgr)]
  refine ⟨by rw [htable, if_pos rfl], hpte, ?_, ?_, ?_⟩
  · intro q
    rcases eq_or_ne q r with rfl | hne
    · simp [hrd]
    · rw [update_of_ne hne, h.dir]
  · intro q j
    rw [htable]
    rcases eq_or_ne q r with rfl | hne
    · have hj : Pages.table s d j ≠ some q := by rw [Ne, ← h.table, hr]; simp
      rw [update_self, Use.table.injEq, eq_comm]
      split
      · simpa
      · simpa [hj]
    · rw [update_of_ne hne, h.table]
      split
      · rename_i hj
        simp [hj, hnone, hne.symm]
      · rfl
  · intro q j
    rw [hpte]
    rcases eq_or_ne q r with rfl | hne
    · rw [← h.page, hr]
      simp
    · rw [update_of_ne hne, h.page]

section

variable (hg : Pages.table s d (k / NPTENTRIES) = some g)

include hg

/-- A word is stored in a page table, and the page that it maps becomes the page at `k`. -/
theorem Maps.map (hk : K k) (hnone : pte s d k = none) (hr : o r = .hand) (hlt : r < 2 ^ 20)
    (hperm : perm < PGSIZE) : Maps K (update o r (.page k))
      (s.setWord g (k % NPTENTRIES) (entry r perm)) d := by
  have hd : (s.setWord g (k % NPTENTRIES) (entry r perm)).mem d = s.mem d :=
    setWord_ne (h.table_ne_dir hg).symm
  have hne {v : Use} (q : Nat) (hv : v ≠ .hand) (hp : v ≠ .page k) :
      update o r (.page k) q = v ↔ o q = v := use_update hp (by rwa [hr])
  refine ⟨fun q => by rw [hne q (by decide) (by simp), h.dir],
    fun q i => by rw [hne q (by simp) (by simp), h.table, table_congr hd], fun q j => ?_⟩
  rw [h.pte_setWord hg (entry_lt hperm hlt)]
  rcases eq_or_ne j k with rfl | hj
  · rw [update_self, if_pos present_entry, Option.map_some, addr_entry hperm,
      Option.some.injEq, eq_comm (a := r)]
    rcases eq_or_ne q r with rfl | hq
    · simp [hk]
    · have hno := h.page q j
      rw [hnone] at hno
      simp [hq, hno]
  · rw [update_of_ne hj, hne q (by simp) (by simp [hj]), h.page]

/-- A word is stored in a page table that leaves the pages at `K` as they are. -/
theorem Maps.setFlags (hw : w < 2 ^ 32) (hp : present w)
    (hk : K k → (pte s d k).map PTE_ADDR = some (PTE_ADDR w)) :
    Maps K o (s.setWord g (k % NPTENTRIES) w) d := by
  have hd : (s.setWord g (k % NPTENTRIES) w).mem d = s.mem d := setWord_ne (h.table_ne_dir hg).symm
  refine ⟨h.dir, fun q i => by rw [h.table, table_congr hd], fun q j => ?_⟩
  rw [h.page, h.pte_setWord hg hw, if_pos hp]
  rcases eq_or_ne j k with rfl | hj
  · rw [update_self]
    exact and_congr_right fun hK => by rw [hk hK, Option.map_some]
  · rw [update_of_ne hj]

theorem Maps.unmap (hr : o r = .page k) :
    Maps K (update o r .free) (s.setWord g (k % NPTENTRIES) 0) d := by
  have hd : (s.setWord g (k % NPTENTRIES) 0).mem d = s.mem d := setWord_ne (h.table_ne_dir hg).symm
  have hne {v : Use} (q : Nat) (hv : v ≠ .free) (hp : v ≠ .page k) :
      update o r .free q = v ↔ o q = v := use_update hv (by rwa [hr])
  refine ⟨fun q => by rw [hne q (by decide) (by simp), h.dir],
    fun q i => by rw [hne q (by simp) (by simp), h.table, table_congr hd], fun q j => ?_⟩
  rw [h.pte_setWord hg (by decide)]
  rcases eq_or_ne j k with rfl | hj
  · have hq : update o r .free q ≠ .page j := by
      rcases eq_or_ne q r with rfl | hq
      · simp
      · rw [update_of_ne hq]
        intro hpage
        have h1 := ((h.page q j).1 hpage).2
        rw [((h.page r j).1 hr).2] at h1
        exact hq (Option.some.inj h1).symm
    simp [hq, present_zero]
  · rw [update_of_ne hj, hne q (by simp) (by simp [hj]), h.page]

end

end

end Xv6.Pages
