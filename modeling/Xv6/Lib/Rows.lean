import Mathlib.Algebra.BigOperators.Fin
import Mathlib.Algebra.BigOperators.Group.Finset.Basic
import Mathlib.Algebra.Order.Group.Nat
import Mathlib.Tactic.Common

/-! Rows of references to numbered objects that are handed out in order. Row `j` has its first
`u j` cells filled, 0 marks an empty cell, and the filled cells of all rows are exactly the
numbers from `lo` to `hi - 1`, each in one cell. -/

namespace Rows

open Finset Function

/-- The rows below `N` are filled with the numbers from `lo` to `hi - 1`. -/
structure Filled (R : Nat → Nat → Nat) (u : Nat → Nat) (N lo hi : Nat) : Prop where
  pos : 0 < lo
  cell : ∀ j < N, ∀ k, R j k ≠ 0 ↔ k < u j
  range : ∀ j < N, ∀ k, R j k ≠ 0 → lo ≤ R j k ∧ R j k < hi
  distinct : ∀ j < N, ∀ j' < N, ∀ k k', R j k ≠ 0 → R j k = R j' k' → j = j' ∧ k = k'
  total : hi = lo + ∑ j ∈ Finset.range N, u j

variable {R R' : Nat → Nat → Nat} {u : Nat → Nat} {N lo hi j k : Nat}

theorem Filled.le (h : Filled R u N lo hi) : lo ≤ hi := by
  rw [h.total]
  exact Nat.le_add_right ..

/-- The next cell of a row takes the next number. -/
theorem Filled.push (h : Filled R u N lo hi) (hj : j < N) (hcell : R' j (u j) = hi)
    (hother : ∀ j' < N, ∀ k, (j' ≠ j ∨ k ≠ u j) → R' j' k = R j' k) :
    Filled R' (update u j (u j + 1)) N lo (hi + 1) := by
  have hpos : hi ≠ 0 := (Nat.lt_of_lt_of_le h.pos h.le).ne'
  -- a cell is the new one, or as it was
  have hcases : ∀ j' < N, ∀ k, (j' = j ∧ k = u j) ∨
      ((j' ≠ j ∨ k ≠ u j) ∧ R' j' k = R j' k) := by
    intro j' hj' k
    by_cases hnew : j' = j ∧ k = u j
    · exact .inl hnew
    · have hne : j' ≠ j ∨ k ≠ u j := by
        by_cases h1 : j' = j
        · exact .inr fun h2 => hnew ⟨h1, h2⟩
        · exact .inl h1
      exact .inr ⟨hne, hother j' hj' k hne⟩
  refine ⟨h.pos, ?_, ?_, ?_, ?_⟩
  · intro j' hj' k
    obtain ⟨rfl, rfl⟩ | ⟨hne, heq⟩ := hcases j' hj' k
    · rw [hcell, update_self]
      exact iff_of_true hpos (Nat.lt_succ_self _)
    · rw [heq, h.cell j' hj' k]
      by_cases hjj : j' = j
      · have hk : k ≠ u j := hne.resolve_left (fun h => h hjj)
        rw [hjj, update_self]
        omega
      · rw [update_of_ne hjj]
  · intro j' hj' k hk
    obtain ⟨rfl, rfl⟩ | ⟨-, heq⟩ := hcases j' hj' k
    · rw [hcell]
      exact ⟨h.le, Nat.lt_succ_self _⟩
    · rw [heq] at hk ⊢
      obtain ⟨hlo, hhi⟩ := h.range j' hj' k hk
      exact ⟨hlo, Nat.lt_succ_of_lt hhi⟩
  · intro a ha b hb k k' hk heq
    obtain ⟨rfl, rfl⟩ | ⟨-, hka⟩ := hcases a ha k <;> obtain ⟨rfl, rfl⟩ | ⟨-, hkb⟩ := hcases b hb k'
    · exact ⟨rfl, rfl⟩
    · rw [hcell, hkb] at heq
      have := (h.range b hb k' (heq ▸ hpos)).2
      omega
    · rw [hka] at hk
      rw [hka, hcell] at heq
      have := (h.range a ha k hk).2
      omega
    · rw [hka] at hk
      rw [hka, hkb] at heq
      exact h.distinct a ha b hb k k' hk heq
  · rw [h.total, sum_update_of_mem (mem_range.2 hj), sdiff_singleton_eq_erase,
      ← add_sum_erase _ u (mem_range.2 hj)]
    omega

/-- One more row, which is empty. -/
theorem Filled.row (h : Filled R u N lo hi) (hempty : ∀ k, R' N k = 0)
    (hother : ∀ j < N, ∀ k, R' j k = R j k) : Filled R' (update u N 0) (N + 1) lo hi := by
  have hold : ∀ j < N + 1, ∀ k, R' j k ≠ 0 → j < N := by
    intro j hj k hk
    refine Nat.lt_of_le_of_ne (Nat.le_of_lt_succ hj) ?_
    rintro rfl
    exact hk (hempty k)
  refine ⟨h.pos, ?_, ?_, ?_, ?_⟩
  · intro j hj k
    by_cases hjN : j = N
    · rw [hjN, update_self, hempty]
      simp
    · rw [update_of_ne hjN, hother j (by omega)]
      exact h.cell j (by omega) k
  · intro j hj k hk
    have hjN := hold j hj k hk
    rw [hother j hjN] at hk ⊢
    exact h.range j hjN k hk
  · intro a ha b hb k k' hk heq
    have haN := hold a ha k hk
    have hbN := hold b hb k' (heq ▸ hk)
    rw [hother a haN] at hk
    rw [hother a haN, hother b hbN] at heq
    exact h.distinct a haN b hbN k k' hk heq
  · rw [sum_range_succ, update_self, h.total, Nat.add_zero]
    refine congrArg (lo + ·) (sum_congr rfl fun j hj => ?_)
    rw [update_of_ne (mem_range.1 hj).ne]

/-- Only the filled rows count. -/
theorem Filled.congr (h : Filled R u N lo hi) (hsame : ∀ j < N, ∀ k, R' j k = R j k) :
    Filled R' u N lo hi where
  pos := h.pos
  cell := fun j hj k => by rw [hsame j hj, h.cell j hj]
  range := fun j hj k hk => by
    rw [hsame j hj] at hk ⊢
    exact h.range j hj k hk
  distinct := fun a ha b hb k k' hk heq => by
    rw [hsame a ha] at hk
    rw [hsame a ha, hsame b hb] at heq
    exact h.distinct a ha b hb k k' hk heq
  total := h.total

end Rows
