import Mathlib.Tactic.Common
import Xv6.Lib.Segments

/-! Numbers in a memory of bytes, the lowest byte first: `bytes n x` are the `n` bytes of `x`
and `word m k n` is the number in the `n` cells from `k` on. -/

namespace Words

open Segments

def bytes : Nat → Nat → List (BitVec 8)
  | 0, _ => []
  | n + 1, x => BitVec.ofNat 8 x :: bytes n (x / 256)

def value : List (BitVec 8) → Nat
  | [] => 0
  | b :: l => b.toNat + 256 * value l

def word (m : Nat → BitVec 8) (k n : Nat) : Nat := value (get m k n)

variable {m m' : Nat → BitVec 8} {k n x : Nat}

@[simp] theorem bytes_length (n x : Nat) : (bytes n x).length = n := by
  induction n generalizing x with
  | zero => rfl
  | succ n ih => rw [bytes, List.length_cons, ih]

theorem value_bytes (n x : Nat) : value (bytes n x) = x % 256 ^ n := by
  induction n generalizing x with
  | zero => simp [bytes, value, Nat.mod_one]
  | succ n ih =>
    rw [bytes, value, ih, BitVec.toNat_ofNat]
    exact (Nat.mod_mul (x := x) (a := 256) (b := 256 ^ n)).symm.trans (by rw [Nat.pow_succ'])

theorem value_lt (l : List (BitVec 8)) : value l < 256 ^ l.length := by
  induction l with
  | nil => exact Nat.one_pos
  | cons b l ih =>
    have hb : b.toNat < 256 := b.isLt
    rw [value, List.length_cons, Nat.pow_succ']
    omega

theorem word_lt (m : Nat → BitVec 8) (k n : Nat) : word m k n < 256 ^ n := by
  have hlt := value_lt (get m k n)
  rwa [get_length] at hlt

theorem word_of_zero (h : ∀ i < n, m (k + i) = 0) : word m k n = 0 := by
  have hzero : get m k n = List.replicate n 0 := by
    refine List.eq_replicate_iff.2 ⟨get_length m k n, fun b hb => ?_⟩
    obtain ⟨i, hi, rfl⟩ := List.mem_map.1 hb
    exact h i (List.mem_range.1 hi)
  rw [word, hzero]
  clear h hzero
  induction n with
  | zero => rfl
  | succ n ih => rw [List.replicate_succ, value, ih]; rfl

/-- A number that was stored alone. -/
theorem word_put_self (h : x < 256 ^ n) : word (put m k (bytes n x)) k n = x := by
  have hget := get_put_inside (m := m) (k := k) (a := 0) (n := n) (l := bytes n x) (by simp)
  rw [Nat.add_zero] at hget
  rw [word, hget, List.drop_zero, List.take_of_length_le (by simp), value_bytes, Nat.mod_eq_of_lt h]

theorem word_put_outside {l : List (BitVec 8)} {a : Nat} (h : a + n ≤ k ∨ k + l.length ≤ a) :
    word (put m k l) a n = word m a n :=
  congrArg value (get_put_outside h)

/-- Number `i` of a list that was stored as numbers of `n` bytes. -/
theorem drop_take_flatMap (n : Nat) (l : List Nat) (i : Nat) (h : i < l.length) :
    ((l.flatMap (bytes n)).drop (n * i)).take n = bytes n l[i] :=
  Segments.drop_take_flatMap (bytes_length n) l i h

theorem flatMap_bytes_length (n : Nat) (l : List Nat) :
    (l.flatMap (bytes n)).length = n * l.length :=
  Segments.flatMap_length (bytes_length n) l

end Words
