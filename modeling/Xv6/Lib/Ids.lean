import Mathlib.Logic.Basic

/-! Ids that are drawn from a counter. A slot has an id or 0, no id is in two slots, and the
counter is above them all, so that its value is a new one. -/

namespace Ids

variable {ι : Type*} {id id' : ι → Int} {next next' : Int}

structure Distinct (id : ι → Int) (next : Int) : Prop where
  nonneg : ∀ i, 0 ≤ id i
  lt : ∀ i, id i < next
  inj : ∀ i j, id i = id j → id i ≠ 0 → i = j

/-- Slots keep their ids or lose them, and slot `t` may get the counter's value. -/
theorem Distinct.step (h : Distinct id next) (t : Option ι) (hle : next ≤ next')
    (hid : ∀ i, id' i = id i ∨ id' i = 0 ∨ t = some i ∧ id' i = next ∧ next < next') :
    Distinct id' next' := by
  have hrange : ∀ i, 0 ≤ id' i ∧ id' i < next' := by
    intro i
    have := h.nonneg i
    have := h.lt i
    rcases hid i with e | e | ⟨_, e, _⟩ <;> omega
  refine ⟨fun i => (hrange i).1, fun i => (hrange i).2, fun i j e h0 => ?_⟩
  have hi := h.lt i
  have hj := h.lt j
  rcases hid i with ei | ei | ⟨ti, ei, _⟩
  · rcases hid j with ej | ej | ⟨_, ej, _⟩
    · exact h.inj i j (by omega) (by omega)
    · omega
    · omega
  · exact absurd ei h0
  · rcases hid j with ej | ej | ⟨tj, _⟩
    · omega
    · omega
    · exact Option.some.inj (ti.symm.trans tj)

end Ids
