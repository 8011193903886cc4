import Mathlib.Algebra.BigOperators.Group.Finset.Piecewise
import Mathlib.Algebra.BigOperators.Ring.Finset
import Mathlib.Algebra.Order.BigOperators.Group.Finset
import Mathlib.Data.Fintype.Defs

/-! The total of a weight over finitely many agents, and how it changes when one of them
does. A count of agents is the total of a weight that is 0 or 1. References to an object are
counted by `one`, where an agent has at most one, and by `tally`, where it has a list. -/

namespace Totals

open Finset Function

variable {τ α : Type*} [Fintype τ]

/-- The total of the weight `w` over the agents. -/
def total (w : α → Int) (f : τ → α) : Int := ∑ t, w (f t)

variable {w : α → Int} {f : τ → α}

theorem total_congr {g : τ → α} (h : ∀ t, w (f t) = w (g t)) : total w f = total w g :=
  sum_congr rfl fun t _ => h t

theorem total_eq_zero (h : ∀ t, w (f t) = 0) : total w f = 0 := sum_eq_zero fun t _ => h t

theorem total_mono {v : α → Int} (h : ∀ t, w (f t) ≤ v (f t)) : total w f ≤ total v f :=
  sum_le_sum fun t _ => h t

theorem total_mul (m : Int) (w : α → Int) (f : τ → α) :
    total (fun x => m * w x) f = m * total w f :=
  (mul_sum univ (fun t => w (f t)) m).symm

theorem total_nonneg (h : ∀ t, 0 ≤ w (f t)) : 0 ≤ total w f := sum_nonneg fun t _ => h t

/-- No part exceeds the total. -/
theorem le_total (h : ∀ t, 0 ≤ w (f t)) (t : τ) : w (f t) ≤ total w f :=
  single_le_sum (fun u _ => h u) (mem_univ t)

/-- Where the total of a nonnegative weight is 0 every part is. -/
theorem eq_zero_of_total (h : ∀ t, 0 ≤ w (f t)) (h0 : total w f = 0) (t : τ) : w (f t) = 0 :=
  le_antisymm (h0 ▸ le_total h t) (h t)

variable [DecidableEq τ]

omit [Fintype τ] in
theorem sum_update {A : Finset τ} {t : τ} (ht : t ∈ A) (w : α → Int) (f : τ → α) (x : α) :
    ∑ u ∈ A, w (update f t x u) = ∑ u ∈ A, w (f u) - w (f t) + w x := by
  have hcomp : (fun u => w (update f t x u)) = update (fun u => w (f u)) t (w x) := by
    funext u
    by_cases h : u = t
    · subst h
      simp
    · simp [h]
  have hold := add_sum_erase A (fun u => w (f u)) ht
  rw [hcomp, sum_update_of_mem ht, sdiff_singleton_eq_erase]
  omega

theorem total_update (w : α → Int) (f : τ → α) (t : τ) (x : α) :
    total w (update f t x) = total w f - w (f t) + w x :=
  sum_update (mem_univ t) w f x

/-! ## Agents without end -/

section

variable {σ : Type*} {w : α → Int} {f : σ → α} {b b' : Int}

/-- Only finitely many agents have a weight, and together it is at most `b`. -/
def Bounded (w : α → Int) (f : σ → α) (b : Int) : Prop :=
  ∃ A : Finset σ, (∀ t, t ∉ A → w (f t) = 0) ∧ ∑ t ∈ A, w (f t) ≤ b

theorem Bounded.mono (h : Bounded w f b) (hle : b ≤ b') : Bounded w f b' := by
  obtain ⟨A, hout, hsum⟩ := h
  exact ⟨A, hout, hsum.trans hle⟩

theorem bounded_zero (h : ∀ t, w (f t) = 0) : Bounded w f 0 := ⟨∅, fun t _ => h t, by simp⟩

theorem Bounded.nonneg (h : Bounded w f b) (hw : ∀ x, 0 ≤ w x) : 0 ≤ b := by
  obtain ⟨A, _, hsum⟩ := h
  exact (sum_nonneg fun t _ => hw (f t)).trans hsum

theorem Bounded.set [DecidableEq σ] (h : Bounded w f b) (t : σ) (x : α) :
    Bounded w (update f t x) (b - w (f t) + w x) := by
  obtain ⟨A, hout, hsum⟩ := h
  refine ⟨insert t A, fun u hu => ?_, ?_⟩
  · rw [mem_insert, not_or] at hu
    rw [update_of_ne hu.1]
    exact hout u hu.2
  · -- `t` has no weight before if it is new in the set
    have hinsert : ∑ u ∈ insert t A, w (f u) = ∑ u ∈ A, w (f u) :=
      sum_insert_of_eq_zero_if_notMem (hout t)
    rw [sum_update (mem_insert_self t A), hinsert]
    omega

end

/-! ## References -/

section

variable {ε : Type*} [DecidableEq ε]

/-- 1 for a reference to `e`. -/
def one (e : ε) (o : Option ε) : Int := if o = some e then 1 else 0

/-- How many of the references are references to `e`. -/
def tally (e : ε) : List ε → Int
  | [] => 0
  | x :: l => tally e l + one e (some x)

theorem one_nonneg (e : ε) (o : Option ε) : 0 ≤ one e o := by
  unfold one
  split <;> omega

theorem tally_nonneg (e : ε) (l : List ε) : 0 ≤ tally e l := by
  induction l with
  | nil => exact Int.le_refl 0
  | cons x l ih => exact Int.add_nonneg ih (one_nonneg e (some x))

/-- A count that is kept for each object changes at `x` by `d`. -/
theorem update_add_apply (r : ε → Int) (x e : ε) (d : Int) :
    update r x (r x + d) e = r e + d * one e (some x) := by
  by_cases h : e = x
  · subst h
    rw [update_self, one, if_pos rfl, Int.mul_one]
  · rw [update_of_ne h, one, if_neg fun hx => h (Option.some.inj hx).symm, Int.mul_zero,
      Int.add_zero]

end

end Totals
