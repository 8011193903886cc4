import Xv6.Pages.Growth

/-! `copyout`: the bytes go to the user's pages and nowhere else, however the range lies in the
pages and wherever it ends. -/

namespace Xv6.Pages

open Calls Segments

variable {s t s1 : State} {d k q r va i : Nat} {buf : List (BitVec 8)}

/-- The page that the user reaches at virtual page `k`. -/
def translate (s : State) (d k : Nat) : Option Nat :=
  (pte s d k).bind fun w => if user w then some (PTE_ADDR w) else none

/-- The virtual page of byte `i` of a range that begins at `va`. -/
def pageAt (va i : Nat) : Nat := (va + i) % 2 ^ 32 / PGSIZE

/-- The user's pages are different from each other and from the page tables. -/
structure Separate (s : State) (d : Nat) : Prop where
  inj : ∀ k k' q, translate s d k = some q → translate s d k' = some q → k = k'
  dir : ∀ k, translate s d k ≠ some d
  table : ∀ k i q, translate s d k = some q → table s d i ≠ some q

/-- A store to one of the user's pages changes no mapping. -/
theorem Separate.fill (h : Separate s d) {f : Nat → BitVec 8} (hq : translate s d k = some q) :
    pte (s.fill q f) d = pte s d ∧ ∀ i, Pages.table (s.fill q f) d i = Pages.table s d i := by
  have hdir : (s.fill q f).mem d = s.mem d := fill_ne (by rintro rfl; exact h.dir k hq)
  refine ⟨funext fun j => pte_congr hdir fun g hg => fill_ne ?_, fun i => table_congr hdir⟩
  rintro rfl
  exact h.table k _ g hq hg

theorem Separate.translate_fill (h : Separate s d) {f : Nat → BitVec 8}
    (hq : translate s d k = some q) : translate (s.fill q f) d = translate s d :=
  funext fun j => by rw [translate, (h.fill hq).1, translate]

theorem Separate.congr (h : Separate s d) (hpte : pte t d = pte s d)
    (htable : ∀ i, Pages.table t d i = Pages.table s d i) : Separate t d := by
  have htr : translate t d = translate s d := funext fun k => by rw [translate, hpte, translate]
  exact ⟨htr ▸ h.inj, htr ▸ h.dir, fun k i q hq => by
    rw [htable]
    exact h.table k i q (htr ▸ hq)⟩

/-- What `copyout` returns and what it has changed. -/
structure Copied (s : State) (d va : Nat) (buf : List (BitVec 8)) (ok : Bool) (t : State) :
    Prop where
  freelist : t.freelist = s.freelist
  success : ok = true ↔ ∀ i < buf.length, translate s d (pageAt va i) ≠ none
  bytes : ok = true → ∀ i b q, buf[i]? = some b → translate s d (pageAt va i) = some q →
    t.mem q ((va + i) % PGSIZE) = b
  rest : ∀ q a, (∀ i < buf.length, translate s d (pageAt va i) = some q →
    (va + i) % PGSIZE ≠ a) → t.mem q a = s.mem q a

section Chunk

variable {n : Nat}

/-- The bytes up to the end of the first page. -/
theorem first_chunk (hva : va < 2 ^ 32) (hi : i < PGSIZE - va % PGSIZE) :
    pageAt va i = va / PGSIZE ∧ (va + i) % PGSIZE = va % PGSIZE + i := by
  simp only [pageAt, PGSIZE] at hi ⊢
  omega

/-- The bytes after the first page, as the next turn sees them. -/
theorem next_chunk (hn : n = PGSIZE - va % PGSIZE) (j : Nat) :
    pageAt ((PGROUNDDOWN va + PGSIZE) % 2 ^ 32) j = pageAt va (n + j) ∧
      ((PGROUNDDOWN va + PGSIZE) % 2 ^ 32 + j) % PGSIZE = (va + (n + j)) % PGSIZE := by
  simp only [pageAt, PGROUNDDOWN, PGSIZE] at hn ⊢
  omega

/-- A later byte is not at the place of a byte of the first page. -/
theorem chunk_ne {j : Nat} (hi : i < n) (hlen : n + j < 2 ^ 32)
    (hpage : pageAt va (n + j) = pageAt va i) : (va + (n + j)) % PGSIZE ≠ (va + i) % PGSIZE := by
  simp only [pageAt, PGSIZE] at hpage ⊢
  omega

end Chunk

/-- One turn of the loop, and what the turns after it do. -/
theorem Copied.turn {n : Nat} {ok : Bool} (hsep : Separate s d) (hva : va < 2 ^ 32)
    (hlen : buf.length ≤ 2 ^ 32) (hn : n = PGSIZE - va % PGSIZE)
    (hq : translate s d (va / PGSIZE) = some q)
    (hs1 : s1 = s.fill q (put (s.mem q) (va % PGSIZE) (buf.take n)))
    (h : Copied s1 d ((PGROUNDDOWN va + PGSIZE) % 2 ^ 32) (buf.drop n) ok t) :
    Copied s d va buf ok t := by
  have htr : translate s1 d = translate s d := by rw [hs1, hsep.translate_fill hq]
  have hfirst {i : Nat} (hi : i < n) := first_chunk hva (hn ▸ hi)
  have hnext := next_chunk hn
  -- byte `i` is in the first page, or byte `j` of the rest
  have hsplit (i : Nat) : i < n ∨ ∃ j, i = n + j :=
    (Nat.lt_or_ge i n).imp_right Nat.exists_eq_add_of_le
  refine ⟨by rw [h.freelist, hs1]; rfl, h.success.trans ⟨fun hall i hi => ?_, fun hall j hj => ?_⟩,
    fun hok i b r hb hr => ?_, fun r a hno => ?_⟩
  · rcases hsplit i with hlt | ⟨j, rfl⟩
    · rw [(hfirst hlt).1, hq]
      simp
    · have := hall j (by rw [List.length_drop]; omega)
      rwa [htr, (hnext j).1] at this
  · rw [htr, (hnext j).1]
    exact hall _ (by rw [List.length_drop] at hj; omega)
  · rcases hsplit i with hlt | ⟨j, rfl⟩
    · rw [(hfirst hlt).1, hq] at hr
      cases hr
      rw [h.rest, hs1, (hfirst hlt).2, fill_self]
      · exact has_put i b (by rw [List.getElem?_take_of_lt hlt, hb])
      · intro j hj hr
        rw [htr, (hnext j).1] at hr
        rw [(hnext j).2]
        rw [List.length_drop] at hj
        exact chunk_ne hlt (by omega) ((hsep.inj _ _ _ hr hq).trans (hfirst hlt).1.symm)
    · rw [← (hnext j).2]
      exact h.bytes hok j b r (by rwa [List.getElem?_drop]) (by rwa [htr, (hnext j).1])
  · rw [h.rest r a, hs1]
    · rcases eq_or_ne r q with rfl | hne
      · rw [fill_self]
        rcases Nat.lt_or_ge a (va % PGSIZE) with hlt | hge
        · exact put_of_lt hlt
        · obtain ⟨i, rfl⟩ := Nat.exists_eq_add_of_le hge
          refine put_of_ge (Nat.add_le_add_left (not_lt.1 fun hi => ?_) _)
          rw [List.length_take, lt_min_iff] at hi
          refine hno i hi.2 ?_ (hfirst hi.1).2
          rw [(hfirst hi.1).1, hq]
      · rw [fill_ne hne]
    · intro j hj hr
      rw [htr, (hnext j).1] at hr
      rw [(hnext j).2]
      rw [List.length_drop] at hj
      exact hno _ (by omega) hr

end Xv6.Pages
