import Mathlib.Algebra.Group.Nat.Defs
import Mathlib.Logic.Function.Basic

/-! A queue in a ring of `N` cells. The two ends are free-running counters of `n` bits that
wrap at `2 ^ n`; a cell is the counter modulo `N`. Nothing goes wrong at the wrap because
`N` divides `2 ^ n`. -/

namespace Fifo

open Function

variable {α : Type*} {n N : Nat} {cells : Nat → α} {r w : BitVec n} {l : List α} {x : α}

/-- From counter `r` up to counter `w` the ring holds the list `l`. -/
structure Holds (N : Nat) (cells : Nat → α) (r w : BitVec n) (l : List α) : Prop where
  ends : w = r + BitVec.ofNat n l.length
  room : l.length ≤ N
  cell : ∀ (i : Nat) (h : i < l.length), cells ((r.toNat + i) % N) = l[i]

theorem Holds.nil (N : Nat) (cells : Nat → α) (r : BitVec n) : Holds N cells r r [] where
  ends := by simp
  room := Nat.zero_le N
  cell := fun i h => absurd h (Nat.not_lt_zero i)

/-- Less than `N` steps from a cell of the ring lie other cells. -/
theorem cell_ne {a i j : Nat} (hij : i < j) (hj : j < N) : (a + i) % N ≠ (a + j) % N := by
  intro he
  have hzero : (a + j - (a + i)) % N = 0 := Nat.sub_mod_eq_zero_of_mod_eq he.symm
  rw [Nat.add_sub_add_left, Nat.mod_eq_of_lt (Nat.lt_of_le_of_lt (Nat.sub_le j i) hj)] at hzero
  exact absurd (Nat.sub_eq_zero_iff_le.1 hzero) (Nat.not_le.2 hij)

/-- The cell of a counter is that of the sum that did not wrap. -/
theorem toNat_add_mod (hN : N ∣ 2 ^ n) (r : BitVec n) (k : Nat) :
    (r + BitVec.ofNat n k).toNat % N = (r.toNat + k) % N := by
  rw [BitVec.toNat_add, BitVec.toNat_ofNat, Nat.add_mod_mod, Nat.mod_mod_of_dvd _ hN]

theorem Holds.push (h : Holds N cells r w l) (hN : N ∣ 2 ^ n) (hroom : l.length < N) (x : α) :
    Holds N (update cells (w.toNat % N) x) r (w + 1) (l ++ [x]) where
  ends := by
    rw [h.ends, List.length_append, List.length_singleton, BitVec.ofNat_add, BitVec.add_assoc]
    rfl
  room := by
    rw [List.length_append, List.length_singleton]
    exact hroom
  cell := by
    intro i hi
    rw [h.ends, toNat_add_mod hN]
    rw [List.length_append, List.length_singleton] at hi
    obtain hlt | rfl := Nat.lt_succ_iff_lt_or_eq.1 hi
    · rw [update_of_ne (cell_ne hlt hroom), h.cell i hlt, List.getElem_append_left hlt]
    · rw [update_self, List.getElem_concat_length rfl]

theorem Holds.front (h : Holds N cells r w (x :: l)) : cells (r.toNat % N) = x :=
  h.cell 0 (Nat.succ_pos _)

theorem Holds.pop (h : Holds N cells r w (x :: l)) (hN : N ∣ 2 ^ n) :
    Holds N cells (r + 1) w l where
  ends := by
    rw [h.ends, List.length_cons, BitVec.add_assoc, Nat.add_comm, BitVec.ofNat_add]
    rfl
  room := Nat.le_of_succ_le h.room
  cell := by
    intro i hi
    have hcell : ((r + 1).toNat + i) % N = (r.toNat + (i + 1)) % N := by
      rw [← Nat.mod_add_mod, show (1 : BitVec n) = BitVec.ofNat n 1 from rfl, toNat_add_mod hN,
        Nat.mod_add_mod, Nat.add_assoc, Nat.add_comm 1 i]
    rw [hcell, h.cell (i + 1) (Nat.succ_lt_succ hi), List.getElem_cons_succ]

section

variable (h : Holds N cells r w l) (hN : N < 2 ^ n)

include h hN

theorem Holds.count : (w - r).toNat = l.length := by
  rw [h.ends, BitVec.add_comm, BitVec.add_sub_cancel, BitVec.toNat_ofNat]
  exact Nat.mod_eq_of_lt (Nat.lt_of_le_of_lt h.room hN)

/-- The counters differ by `k`, exactly when there are `k` elements. -/
theorem Holds.ends_iff {k : Nat} (hk : k ≤ N) : w = r + BitVec.ofNat n k ↔ l.length = k := by
  refine ⟨fun he => ?_, fun he => by rw [← he]; exact h.ends⟩
  rw [← h.count hN, he, BitVec.add_comm, BitVec.add_sub_cancel, BitVec.toNat_ofNat]
  exact Nat.mod_eq_of_lt (Nat.lt_of_le_of_lt hk hN)

theorem Holds.empty_iff : r = w ↔ l = [] := by
  have hends := h.ends_iff hN (Nat.zero_le N)
  rw [BitVec.add_zero, List.length_eq_zero_iff] at hends
  rw [eq_comm]
  exact hends

end

end Fifo
