import Mathlib.Data.List.Basic
import Mathlib.Data.Nat.Log
import Mathlib.Tactic.Ring

/-! Positions of a complete binary tree that is stored in an array, root first:
the parent of position `p` is position `(p - 1) / 2`. In terms of `p + 1` going
up is halving, which is where the powers of two below come from. -/

namespace Heap

/-- The `k`-th ancestor of position `p`; the root counts as its own parent. -/
def anc (p : ℕ) : ℕ → ℕ
  | 0 => p
  | k + 1 => (anc p k - 1) / 2

/-- The first `k` proper ancestors of `p`, the topmost one first. -/
def path (p : ℕ) : ℕ → List ℕ
  | 0 => []
  | k + 1 => anc p (k + 1) :: path p k

variable {p k j : ℕ}

theorem two_le_div (h : 2 ^ (k + 1) ≤ p + 1) : 2 ≤ (p + 1) / 2 ^ k := by
  rw [Nat.le_div_iff_mul_le (Nat.two_pow_pos k)]
  rw [pow_succ] at h
  omega

theorem anc_add_one (h : 2 ^ k ≤ p + 1) : anc p k + 1 = (p + 1) / 2 ^ k := by
  induction k with
  | zero => simp [anc]
  | succ k ih =>
    have h2 := two_le_div h
    have ih := ih (by rw [pow_succ] at h; omega)
    rw [pow_succ, ← Nat.div_div_eq_div_mul, ← ih]
    simp only [anc]
    omega

/-- Above the root there is nothing: `p` has an ancestor of order `k + 1` only
if its ancestor of order `k` is not the root. -/
theorem anc_pos (h : 2 ^ (k + 1) ≤ p + 1) : 0 < anc p k := by
  have hk : 2 ^ k ≤ p + 1 := by rw [pow_succ] at h; omega
  have h1 := anc_add_one hk
  have h2 := two_le_div h
  omega

theorem anc_eq_zero (hk : 2 ^ k ≤ p + 1) (h : p + 1 < 2 ^ (k + 1)) : anc p k = 0 := by
  have h1 := anc_add_one hk
  have h2 : (p + 1) / 2 ^ k < 2 := by
    rw [Nat.div_lt_iff_lt_mul (Nat.two_pow_pos k)]
    rw [pow_succ] at h
    omega
  omega

theorem anc_le (p k : ℕ) : anc p k ≤ p := by
  induction k with
  | zero => exact le_refl _
  | succ k ih => simp only [anc]; omega

/-- Ancestors come before their descendants in the array. -/
theorem anc_lt (hjk : j < k) (h : 2 ^ k ≤ p + 1) : anc p k < anc p j := by
  induction k with
  | zero => omega
  | succ k ih =>
    have hpos := anc_pos h
    have hup : anc p (k + 1) < anc p k := by simp only [anc]; omega
    rcases Nat.lt_succ_iff_lt_or_eq.1 hjk with hlt | rfl
    · have := ih hlt (by rw [pow_succ] at h; omega)
      omega
    · exact hup

theorem mem_path {q : ℕ} : q ∈ path p k ↔ ∃ i, 0 < i ∧ i ≤ k ∧ q = anc p i := by
  induction k with
  | zero =>
    simp only [path, List.not_mem_nil, false_iff]
    rintro ⟨i, h0, h1, _⟩
    omega
  | succ k ih =>
    rw [path, List.mem_cons, ih]
    constructor
    · rintro (rfl | ⟨i, h0, h1, rfl⟩)
      · exact ⟨k + 1, by omega, le_refl _, rfl⟩
      · exact ⟨i, h0, by omega, rfl⟩
    · rintro ⟨i, h0, h1, rfl⟩
      rcases Nat.lt_succ_iff_lt_or_eq.1 (Nat.lt_succ_of_le h1) with hlt | rfl
      · exact .inr ⟨i, h0, by omega, rfl⟩
      · exact .inl rfl

/-- The next ancestor is new. -/
theorem anc_notMem_path (h : 2 ^ (k + 1) ≤ p + 1) : anc p (k + 1) ∉ path p k := by
  intro hm
  obtain ⟨i, _, hi, e⟩ := mem_path.1 hm
  have := anc_lt (show i < k + 1 by omega) h
  omega

@[simp] theorem path_length (p k : ℕ) : (path p k).length = k := by
  induction k with
  | zero => rfl
  | succ k ih => simp [path, ih]

theorem path_nodup (h : 2 ^ k ≤ p + 1) : (path p k).Nodup := by
  induction k with
  | zero => exact List.nodup_nil
  | succ k ih =>
    rw [path, List.nodup_cons]
    exact ⟨anc_notMem_path h, ih (by rw [pow_succ] at h; omega)⟩

/-- Going up is going to the next level. -/
theorem log_anc (h : 2 ^ k ≤ p + 1) : Nat.log 2 (anc p k + 1) + k = Nat.log 2 (p + 1) := by
  have hk : k ≤ Nat.log 2 (p + 1) := Nat.le_log_of_pow_le (by decide) h
  rw [anc_add_one h, Nat.log_div_base_pow]
  omega

/-- The children of position `q` are positions `2 * q + 1` and `2 * q + 2`. -/
theorem child_cases (h : 0 < anc p k) :
    anc p k = 2 * anc p (k + 1) + 1 ∨ anc p k = 2 * anc p (k + 1) + 2 := by
  simp only [anc]
  omega

/-- The C expression for the parent, on `int` positions. -/
theorem cast_anc_succ (p k : ℕ) : ((anc p k : ℤ) - 1).tdiv 2 = anc p (k + 1) := by
  simp only [anc]
  generalize anc p k = a
  rcases Nat.eq_zero_or_pos a with rfl | ha
  · rfl
  · rw [Int.tdiv_eq_ediv_of_nonneg (by omega)]
    omega

end Heap
