import Mathlib.Algebra.GroupWithZero.Nat
import Mathlib.Logic.Basic

/-! Runs of a partial step function whose every step meets a guard. A guard
sees the state before the step, the label and the state after it; the guard
`free` admits every step. An invariant is proved once for one step and then
holds along the whole run (`Run.invariant`). -/

namespace Runs

variable {σ ι : Type*}

/-- A guard admits some of the steps. -/
abbrev Guard (σ ι : Type*) := σ → ι → σ → Prop

/-- The guard of unrestricted runs. -/
def free : Guard σ ι := fun _ _ _ => True

/-- `Run step G s t`: some sequence of steps, all admitted by `G`, leads from
`s` to `t`. -/
inductive Run (step : σ → ι → Option σ) (G : Guard σ ι) (s : σ) : σ → Prop
  | refl : Run step G s s
  | next {t u : σ} {l : ι} : Run step G s t → step t l = some u → G t l u → Run step G s u

variable {step : σ → ι → Option σ} {G G' : Guard σ ι} {s t u : σ}

/-- **Invariant rule.** What holds at the start and survives every admitted
step holds in every state of the run. -/
theorem Run.invariant {I : σ → Prop} (hr : Run step G s t) (h0 : I s)
    (hstep : ∀ a l b, I a → step a l = some b → G a l b → I b) : I t := by
  induction hr with
  | refl => exact h0
  | next _ hs hg ih => exact hstep _ _ _ ih hs hg

/-- The invariant rule relative to an invariant `J` already proved for the
same run. -/
theorem Run.invariant_with {I J : σ → Prop} (hr : Run step G s t)
    (hJ : ∀ b, Run step G s b → J b) (h0 : I s)
    (hstep : ∀ a l b, J a → I a → step a l = some b → G a l b → I b) : I t := by
  induction hr with
  | refl => exact h0
  | next hr hs hg ih => exact hstep _ _ _ (hJ _ hr) ih hs hg

theorem Run.mono (h : ∀ a l b, step a l = some b → G a l b → G' a l b)
    (hr : Run step G s t) : Run step G' s t := by
  induction hr with
  | refl => exact .refl
  | next _ hs hg ih => exact .next ih hs (h _ _ _ hs hg)

theorem Run.trans (h : Run step G s t) (h' : Run step G t u) : Run step G s u := by
  induction h' with
  | refl => exact h
  | next _ hs hg ih => exact .next ih hs hg

/-- The same steps with a log beside the state, latest entry first: `obs` says what a
step adds to it. -/
def logging {ω : Type*} (step : σ → ι → Option σ) (obs : σ → ι → σ → List ω) :
    σ × List ω → ι → Option (σ × List ω) :=
  fun s l => (step s.1 l).map fun t => (t, obs s.1 l t ++ s.2)

variable {ω : Type*} {obs : σ → ι → σ → List ω}

theorem logging_some {s t : σ × List ω} {l : ι}
    (h : logging step obs s l = some t) : step s.1 l = some t.1 ∧ t.2 = obs s.1 l t.1 ++ s.2 := by
  obtain ⟨u, hu, rfl⟩ := Option.map_eq_some_iff.1 h
  exact ⟨hu, rfl⟩

theorem Run.of_logging {G : Guard (σ × List ω) ι}
    {s t : σ × List ω} (hr : Run (logging step obs) G s t) : Run step free s.1 t.1 := by
  induction hr with
  | refl => exact .refl
  | next _ hs _ ih => exact .next ih (logging_some hs).1 trivial

/-- Steps that say themselves what they add to the log. -/
def recording {ω : Type*} (step : σ → ι → Option (σ × List ω)) :
    σ × List ω → ι → Option (σ × List ω) :=
  fun s l => (step s.1 l).map fun t => (t.1, t.2 ++ s.2)

theorem recording_some {step : σ → ι → Option (σ × List ω)} {s t : σ × List ω}
    {l : ι} (h : recording step s l = some t) :
    ∃ e, step s.1 l = some (t.1, e) ∧ t.2 = e ++ s.2 := by
  obtain ⟨⟨u, e⟩, hu, rfl⟩ := Option.map_eq_some_iff.1 h
  exact ⟨e, hu, rfl⟩

/-- Executed runs are often those of a few agents, `Fin 1` to `Fin 3`. -/
instance neZero_one : NeZero 1 := ⟨by decide⟩

instance neZero_two : NeZero 2 := ⟨by decide⟩

instance neZero_three : NeZero 3 := ⟨by decide⟩

/-- Execute a list of labels; `none` when one of the steps is not enabled or
fails the test `g`. -/
def exec (step : σ → ι → Option σ) (g : σ → ι → Bool) (s : σ) : List ι → Option σ
  | [] => some s
  | l :: ls => if g s l then (step s l).bind fun t => exec step g t ls else none

/-- The state after executing `ls`, where all steps are possible. -/
def final (step : σ → ι → Option σ) (s : σ) (ls : List ι) : σ :=
  (exec step (fun _ _ => true) s ls).getD s

variable {g : σ → ι → Bool} {ls : List ι}

/-- The test `g` decides enough of the guard on the executed steps. -/
theorem run_of_exec (hg : ∀ a l b, Run step G s a → g a l → step a l = some b → G a l b)
    (h : exec step g s ls = some t) : Run step G s t := by
  suffices ∀ a, Run step G s a → exec step g a ls = some t → Run step G s t from this s .refl h
  clear h
  intro a ha he
  induction ls generalizing a with
  | nil => cases he; exact ha
  | cons l ls ih =>
    simp only [exec] at he
    split at he
    · rename_i hgl
      obtain ⟨m, hm, ht⟩ := Option.bind_eq_some_iff.1 he
      exact ih m (.next ha hm (hg _ _ _ ha hgl hm)) ht
    · cases he

/-- A test only stops an execution, it does not change it. -/
theorem exec_weaken (h : exec step g s ls = some t) :
    exec step (fun _ _ => true) s ls = some t := by
  induction ls generalizing s with
  | nil => exact h
  | cons l ls ih =>
    simp only [exec] at h ⊢
    split at h
    · obtain ⟨m, hm, ht⟩ := Option.bind_eq_some_iff.1 h
      rw [if_pos trivial, hm]
      exact ih ht
    · cases h

theorem run_reaches (hg : ∀ a l b, Run step G s a → g a l → step a l = some b → G a l b)
    (h : (exec step g s ls).isSome) : Run step G s (final step s ls) := by
  obtain ⟨t, ht⟩ := Option.isSome_iff_exists.1 h
  have hfinal : final step s ls = t := by rw [final, exec_weaken ht]; rfl
  rw [hfinal]
  exact run_of_exec hg ht

theorem run_final (hg : ∀ {a l b}, g a l → G a l b)
    (h : (exec step g s ls).isSome := by decide +kernel) : Run step G s (final step s ls) :=
  run_reaches (fun _ _ _ _ h _ => hg h) h

theorem run_free (h : (exec step (fun _ _ => true) s ls).isSome := by decide +kernel) :
    Run step free s (final step s ls) :=
  run_final (fun _ => trivial) h

/-- The state after one possible step. -/
def next (step : σ → ι → Option σ) (s : σ) (l : ι) : σ := (step s l).getD s

theorem step_next (step : σ → ι → Option σ) (s : σ) (l : ι) (h : (step s l).isSome) :
    step s l = some (next step s l) := by
  obtain ⟨t, ht⟩ := Option.isSome_iff_exists.1 h
  rw [next, ht]
  rfl

end Runs
