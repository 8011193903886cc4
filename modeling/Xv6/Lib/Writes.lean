import Mathlib.Logic.Function.Basic

/-! Sequences of writes to a memory, each of one cell. `after m ws` is the memory after
the writes `ws`; `Throughout P m ws` says that `P` holds of the memory at every point of
the sequence, and so of whatever a crash in the middle leaves. -/

namespace Writes

open Function

variable {α β : Type*} [DecidableEq α]

/-- The memory after the writes `ws`, in their order. -/
def after (m : α → β) : List (α × β) → α → β
  | [] => m
  | w :: ws => after (update m w.1 w.2) ws

variable {m : α → β} {ws ws' : List (α × β)} {w : α × β} {a : α} {b : β}

theorem after_append (m : α → β) (ws ws' : List (α × β)) :
    after m (ws ++ ws') = after (after m ws) ws' := by
  induction ws generalizing m with
  | nil => rfl
  | cons w ws ih => exact ih _

/-- A cell that is not written keeps its contents. -/
theorem after_of_notMem (h : ∀ w ∈ ws, w.1 ≠ a) : after m ws a = m a := by
  induction ws generalizing m with
  | nil => rfl
  | cons w ws ih =>
    have hw : a ≠ w.1 := (h w List.mem_cons_self).symm
    rw [after, ih fun v hv => h v (List.mem_cons_of_mem _ hv), update_of_ne hw]

/-- A cell to which nothing but `b` is written has the contents `b` if it had it before,
or is written. -/
theorem after_eq (h : ∀ w ∈ ws, w.1 = a → w.2 = b) (hb : m a = b ∨ ∃ w ∈ ws, w.1 = a) :
    after m ws a = b := by
  induction ws generalizing m with
  | nil =>
    rcases hb with hb | ⟨w, hw, -⟩
    · exact hb
    · exact absurd hw List.not_mem_nil
  | cons w ws ih =>
    refine ih (fun v hv => h v (List.mem_cons_of_mem _ hv)) ?_
    by_cases e : a = w.1
    · left
      rw [← e, update_self]
      exact h w List.mem_cons_self e.symm
    · rw [update_of_ne e]
      rcases hb with hb | ⟨v, hv, hva⟩
      · exact .inl hb
      · rcases List.mem_cons.1 hv with rfl | hv
        · exact absurd hva.symm e
        · exact .inr ⟨v, hv, hva⟩

/-- `P` holds after every prefix of the writes `ws`. -/
def Throughout (P : (α → β) → Prop) (m : α → β) (ws : List (α × β)) : Prop :=
  ∀ k, P (after m (ws.take k))

variable {P Q : (α → β) → Prop}

theorem Throughout.final (h : Throughout P m ws) : P (after m ws) := by
  have := h ws.length
  rwa [List.take_length] at this

theorem Throughout.mono (h : Throughout P m ws) (hPQ : ∀ m, P m → Q m) : Throughout Q m ws :=
  fun k => hPQ _ (h k)

theorem throughout_nil (h : P m) : Throughout P m [] := by
  intro k
  rw [List.take_nil]
  exact h

theorem throughout_cons (h : P m) (h' : Throughout P (update m w.1 w.2) ws) :
    Throughout P m (w :: ws) := by
  intro k
  cases k with
  | zero => exact h
  | succ k => exact h' k

theorem Throughout.append (h : Throughout P m ws) (h' : Throughout P (after m ws) ws') :
    Throughout P m (ws ++ ws') := by
  intro k
  rw [List.take_append, after_append]
  by_cases hk : k ≤ ws.length
  · have e : k - ws.length = 0 := by omega
    rw [e, List.take_zero]
    exact h k
  · have hle : ws.length ≤ k := by omega
    rw [List.take_of_length_le hle]
    exact h' (k - ws.length)

/-- What every single write keeps holds throughout. -/
theorem throughout_of_keep (h : P m)
    (hkeep : ∀ m, P m → ∀ w ∈ ws, P (update m w.1 w.2)) : Throughout P m ws := by
  induction ws generalizing m with
  | nil => exact throughout_nil h
  | cons w ws ih =>
    refine throughout_cons h (ih (hkeep m h w List.mem_cons_self) ?_)
    exact fun n hn v hv => hkeep n hn v (List.mem_cons_of_mem _ hv)

end Writes
