import Mathlib.Algebra.BigOperators.Group.List.Basic
import Mathlib.Algebra.GroupWithZero.Nat
import Mathlib.Data.List.Basic

/-! Segments of a memory whose cells are numbered: lists of contents with the number of the
first cell. `put` stores a segment, `Has` says that it is there, and `Tiles a l b` that the
segments of `l` follow one another from cell `a` to cell `b`. -/

namespace Segments

variable {β : Type*}

/-- The memory after `l` was stored from cell `k` on. -/
def put (m : Nat → β) (k : Nat) (l : List β) : Nat → β :=
  fun j => if k ≤ j then l[j - k]?.getD (m j) else m j

/-- The cells from `k` on contain `l`. -/
def Has (m : Nat → β) (k : Nat) (l : List β) : Prop :=
  ∀ j b, l[j]? = some b → m (k + j) = b

variable {m : Nat → β} {k k' : Nat} {l l' : List β}

theorem has_nil : Has m k [] := by
  intro j b h
  rw [List.getElem?_nil] at h
  cases h

theorem has_put : Has (put m k l) k l := by
  intro j b h
  simp only [put, Nat.le_add_right, if_true, Nat.add_sub_cancel_left, h, Option.getD_some]

/-- A segment is not touched by a store behind it. -/
theorem Has.put_after (h : Has m k l) (hk : k + l.length ≤ k') : Has (put m k' l') k l := by
  intro j b hj
  have hlt : j < l.length := (List.getElem?_eq_some_iff.1 hj).1
  rw [put, if_neg (by omega)]
  exact h j b hj

theorem Has.append (h : Has m k l) (h' : Has m (k + l.length) l') : Has m k (l ++ l') := by
  intro j b hj
  rw [List.getElem?_append] at hj
  split at hj
  · exact h j b hj
  · have hb := h' (j - l.length) b hj
    rwa [show k + l.length + (j - l.length) = k + j by omega] at hb

/-- The contents of the `n` cells from `k` on. -/
def get (m : Nat → β) (k n : Nat) : List β := (List.range n).map fun i => m (k + i)

@[simp] theorem get_length (m : Nat → β) (k n : Nat) : (get m k n).length = n := by
  simp [get]

theorem get_congr {m m' : Nat → β} {n : Nat} (h : ∀ i < n, m (k + i) = m' (k + i)) :
    get m k n = get m' k n :=
  List.map_congr_left fun i hi => h i (List.mem_range.1 hi)

theorem put_of_lt {j : Nat} (h : j < k) : put m k l j = m j :=
  if_neg (Nat.not_le.2 h)

theorem put_of_ge {j : Nat} (h : k + l.length ≤ j) : put m k l j = m j := by
  rw [put, if_pos (by omega), List.getElem?_eq_none (by omega), Option.getD_none]

theorem put_inside {j : Nat} (h : j < l.length) : put m k l (k + j) = l[j] := by
  rw [put, if_pos (Nat.le_add_right k j), Nat.add_sub_cancel_left, List.getElem?_eq_getElem h,
    Option.getD_some]

/-- A part of the segment that was stored. -/
theorem get_put_inside {a n : Nat} (h : a + n ≤ l.length) :
    get (put m k l) (k + a) n = (l.drop a).take n := by
  refine List.ext_getElem (by simp; omega) fun i hi _ => ?_
  have hi : i < n := by simpa using hi
  simp only [get, List.getElem_map, List.getElem_range, List.getElem_take, List.getElem_drop]
  rw [Nat.add_assoc]
  exact put_inside (by omega)

/-- The store does not touch cells before or behind the segment. -/
theorem get_put_outside {a n : Nat} (h : a + n ≤ k ∨ k + l.length ≤ a) :
    get (put m k l) a n = get m a n := by
  refine get_congr fun i hi => ?_
  obtain h | h := h
  · exact put_of_lt (by omega)
  · exact put_of_ge (by omega)

section Records

variable {α : Type*} {f : α → List β} {w : Nat}

/-- Records of `w` cells, one after the other. -/
theorem flatMap_length (hf : ∀ a, (f a).length = w) (l : List α) :
    (l.flatMap f).length = w * l.length := by
  induction l with
  | nil => rfl
  | cons a l ih =>
    rw [List.flatMap_cons, List.length_append, ih, hf, List.length_cons, Nat.mul_succ, Nat.add_comm]

theorem drop_take_flatMap (hf : ∀ a, (f a).length = w) (l : List α) (i : Nat)
    (h : i < l.length) : ((l.flatMap f).drop (w * i)).take w = f l[i] := by
  induction l generalizing i with
  | nil => exact absurd h (Nat.not_lt_zero i)
  | cons a l ih =>
    rw [List.flatMap_cons]
    cases i with
    | zero => simp [hf]
    | succ i =>
      have hdrop : w * (i + 1) = (f a).length + w * i := by
        rw [hf, Nat.mul_succ, Nat.add_comm]
      rw [hdrop, List.drop_length_add_append, List.getElem_cons_succ]
      exact ih i (by simpa using h)

end Records

/-- Contents, and where they begin. -/
structure Segment (β : Type*) where
  start : Nat
  cells : List β
  deriving DecidableEq, Repr

def Segment.stop (c : Segment β) : Nat := c.start + c.cells.length

/-- The segments, in their order, cover the cells from `a` to `b` without gap or overlap. -/
def Tiles (a : Nat) : List (Segment β) → Nat → Prop
  | [], b => a = b
  | c :: l, b => c.start = a ∧ Tiles c.stop l b

variable {a b : Nat} {c : Segment β} {cs : List (Segment β)}

theorem Tiles.snoc (h : Tiles a cs b) (hc : c.start = b) : Tiles a (cs ++ [c]) c.stop := by
  induction cs generalizing a with
  | nil => exact ⟨hc.trans h.symm, rfl⟩
  | cons d cs ih => exact ⟨h.1, ih h.2⟩

theorem Tiles.length (h : Tiles a cs b) : b = a + (cs.map fun c => c.cells.length).sum := by
  induction cs generalizing a with
  | nil => exact h.symm
  | cons d cs ih =>
    have hrest := ih h.2
    rw [Segment.stop, h.1] at hrest
    rw [List.map_cons, List.sum_cons, hrest, Nat.add_assoc]

theorem Tiles.stop_le (h : Tiles a cs b) (hc : c ∈ cs) : a ≤ c.start ∧ c.stop ≤ b := by
  induction cs generalizing a with
  | nil => cases hc
  | cons d cs ih =>
    have hd : d.stop = a + d.cells.length := by rw [Segment.stop, h.1]
    have hlen := h.2.length
    rcases List.mem_cons.1 hc with rfl | hc
    · exact ⟨Nat.le_of_eq h.1.symm, by omega⟩
    · have hrest := ih h.2 hc
      exact ⟨by omega, hrest.2⟩

/-- No two segments overlap. -/
theorem Tiles.pairwise (h : Tiles a cs b) : cs.Pairwise fun c d => c.stop ≤ d.start := by
  induction cs generalizing a with
  | nil => exact .nil
  | cons d cs ih => exact .cons (fun e he => (h.2.stop_le he).1) (ih h.2)

end Segments
