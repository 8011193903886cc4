import Mathlib.Logic.Basic

/-! Calls that change a state and return, or stop with an error; and rules for what holds
when they end. `Ends m s E Q`: started in `s`, the call `m` stops only with errors that `E`
admits and returns only with a value and a state that `Q` admits. Every rule is an
equivalence, so that `simp` follows a call statement by statement. -/

namespace Calls

variable {σ ε α β : Type}

abbrev Call (σ ε : Type) := StateT σ (Except ε)

/-- What holds when `m`, started in `s`, ends. -/
def Ends (m : Call σ ε α) (s : σ) (E : ε → Prop) (Q : α → σ → Prop) : Prop :=
  match m s with
  | .ok (a, t) => Q a t
  | .error e => E e

instance (m : Call σ ε α) (s : σ) (E : ε → Prop) (Q : α → σ → Prop) [∀ e, Decidable (E e)]
    [∀ a t, Decidable (Q a t)] : Decidable (Ends m s E Q) := by
  unfold Ends
  split <;> infer_instance

variable {m : Call σ ε α} {f : α → Call σ ε β} {s t : σ} {E E' : ε → Prop} {Q Q' : α → σ → Prop}

@[simp] theorem ends_pure (a : α) : Ends (pure a : Call σ ε α) s E Q ↔ Q a s := Iff.rfl

@[simp] theorem ends_throw (e : ε) : Ends (throw e : Call σ ε α) s E Q ↔ E e := Iff.rfl

@[simp] theorem ends_get {Q : σ → σ → Prop} : Ends (get : Call σ ε σ) s E Q ↔ Q s s := Iff.rfl

@[simp] theorem ends_modify {Q : Unit → σ → Prop} (g : σ → σ) :
    Ends (modify g : Call σ ε Unit) s E Q ↔ Q () (g s) := Iff.rfl

@[simp] theorem ends_bind {Q : β → σ → Prop} :
    Ends (m >>= f) s E Q ↔ Ends m s E fun a t => Ends (f a) t E Q := by
  show Ends (StateT.bind m f) s E Q ↔ _
  simp only [Ends, StateT.bind]
  cases hm : m s with
  | error e | ok r => simp [bind, Except.bind]

@[simp] theorem ends_map {g : α → β} {Q : β → σ → Prop} :
    Ends (g <$> m) s E Q ↔ Ends m s E fun a t => Q (g a) t := by
  show Ends (StateT.map g m) s E Q ↔ _
  simp only [Ends, StateT.map]
  cases hm : m s with
  | error e => simp [bind, Except.bind]
  | ok r => simp [bind, Except.bind, pure, Except.pure]

@[simp] theorem ends_ite {c : Prop} [Decidable c] {m' : Call σ ε α} :
    Ends (if c then m else m') s E Q ↔ (c → Ends m s E Q) ∧ (¬c → Ends m' s E Q) := by
  split <;> simp_all

theorem Ends.imp (h : Ends m s E Q) (hE : ∀ e, E e → E' e) (hQ : ∀ a t, Q a t → Q' a t) :
    Ends m s E' Q' := by
  unfold Ends at h ⊢
  split
  · rename_i a t hm
    rw [hm] at h
    exact hQ a t h
  · rename_i e hm
    rw [hm] at h
    exact hE e h

/-- Sequencing, by what is known after the first part. -/
theorem Ends.bind {R : α → σ → Prop} {Q : β → σ → Prop} (h : Ends m s E R)
    (hf : ∀ a t, R a t → Ends (f a) t E Q) : Ends (m >>= f) s E Q := by
  rw [ends_bind]
  exact h.imp (fun _ he => he) hf

theorem Ends.post (h : Ends m s E Q) (hQ : ∀ a t, Q a t → Q' a t) : Ends m s E Q' :=
  h.imp (fun _ he => he) hQ

/-- A call ends in one way. -/
theorem Ends.and (h : Ends m s E Q) (h' : Ends m s E' Q') :
    Ends m s (fun e => E e ∧ E' e) fun a t => Q a t ∧ Q' a t := by
  unfold Ends at h h' ⊢
  split
  · rename_i a t hm
    rw [hm] at h h'
    exact ⟨h, h'⟩
  · rename_i e hm
    rw [hm] at h h'
    exact ⟨h, h'⟩

theorem Ends.absurd (h : Ends m s E Q) (h' : Ends m s E' Q') (hE : ∀ e, E e → ¬E' e)
    (hQ : ∀ a t, Q a t → ¬Q' a t) : False := by
  have hno : Ends m s (fun _ => False) fun _ _ => False :=
    (h.and h').imp (fun e he => hE e he.1 he.2) fun a t hq => hQ a t hq.1 hq.2
  unfold Ends at hno
  split at hno <;> exact hno

/-- What is known of a call that has returned. -/
theorem Ends.of_ok {a : α} (h : Ends m s E Q) (hm : m s = .ok (a, t)) : Q a t := by
  rw [Ends, hm] at h
  exact h

/-- What is known of a call that has stopped. -/
theorem Ends.of_error {e : ε} (h : Ends m s E Q) (hm : m s = .error e) : E e := by
  rw [Ends, hm] at h
  exact h

end Calls
