import Xv6.Kernel.Lifetime

/-! What a step means to the threads that sleep, to those that are dead and to
those in `kill_other_threads` or past it. A thread that is asleep after a step was
asleep before it, on the same channel and at the same place, or it is the running
thread and has called `sleep` for one of four reasons (`Nap`). A thread becomes a
zombie by one of two sections (`Dies`), and both wake the threads that wait for it.
A thread comes to `kill_other_threads` from `exit` or `exec` (`Enters`). -/

namespace Xv6.Kernel

variable {k k' : Kernel} {l : Label} {c r s t : ThreadRef}

/-- Whoever is not woken sleeps on another channel. -/
theorem asleep_of_wake {x : Thread} {w : Chan} (h : (x.wake w).state = .TSLEEPING) :
    x.wake w = x ∧ x.state = .TSLEEPING ∧ x.chan ≠ some w := by
  unfold Thread.wake at h ⊢
  split
  · rename_i hw
    rw [if_pos hw] at h
    cases h
  · rename_i hw
    rw [if_neg hw] at h
    exact ⟨rfl, h, fun e => hw ⟨h, e⟩⟩

theorem Woken.eq_or_runnable {x y : Thread} (h : Woken x y) : y = x ∨ y.state = .TRUNNABLE := by
  induction h with
  | same => exact .inl rfl
  | wake w _ ih =>
    unfold Thread.wake
    split
    · exact .inr rfl
    · exact ih

theorem Dies.asleep (h : Dies k l t k') (hs : (k'.thread s).state = .TSLEEPING) :
    k'.thread s = k.thread s ∧ (s.1 = t.1 → (k.thread s).chan ≠ some (.thread t)) := by
  have hst : s ≠ t := by
    rintro rfl
    rw [h.state] at hs
    cases hs
  rcases h.other hst with ⟨e, hp⟩ | e
  · exact ⟨e, fun e' => absurd e' hp⟩
  · rw [e] at hs ⊢
    obtain ⟨e', _, hch⟩ := asleep_of_wake hs
    exact ⟨e', fun _ => hch⟩

section Step

variable (hi : Inv k) (h : k.step l = some k')

include hi h

/-- The state of a thread after a step: as before, one of three in which it is neither asleep
nor dead, or the thread has just gone to sleep or died. -/
theorem state_of_step (s : ThreadRef) :
    ((k'.thread s).state = (k.thread s).state ∧ (k'.thread s).chan = (k.thread s).chan ∧
      (k'.thread s).context = (k.thread s).context) ∨
    (k'.thread s).state ∈ [ThreadState.TUNUSED, .TRUNNABLE, .TRUNNING] ∨
    (∃ w y, k' = k.sleep s w y ∧ Nap k l s w y) ∨ Dies k l s k' := by
  cases seen hi (turn_of_step h) s with
  | woken h =>
    rcases h.eq_or_runnable with e | e
    · exact .inl (by rw [e]; exact ⟨rfl, rfl, rfl⟩)
    · exact .inr (.inl (by simp [e]))
  | goes h => exact .inr (.inl (by rcases h.state with e | e <;> simp [e]))
  | naps hrun hx why e => exact .inr (.inr (.inl ⟨_, _, e, why⟩))
  | acts ha hx tid killed state => exact .inr (.inl (by simp [state]))
  | @scans a x ha hx e =>
    refine .inr (.inl ?_)
    rw [e]
    rcases (killTurn_caller (a := a) hi ha.2.1).2.2 with e | e <;> simp [e]
  | marked ha hx e h => exact .inl (by rw [h]; exact ⟨rfl, rfl, rfl⟩)
  | dies ha hx hd => exact .inr (.inr (.inr hd))
  | starts hs => exact .inr (.inl (by rcases hs.state with e | ⟨e, _⟩ <;> simp [e]))
  | removed hm h => exact .inr (.inl (by simp [h, Thread.remove]))
  | exits ha e => exact .inr (.inl (by simp [e, safeExit_self ha.2.1]))

/-- Whoever is asleep after a step was so before it, on the same channel, or has just gone to
sleep. -/
theorem asleep_of_step (hst : (k'.thread s).state = .TSLEEPING) :
    ((k.thread s).state = .TSLEEPING ∧ (k'.thread s).chan = (k.thread s).chan ∧
      (k'.thread s).context = (k.thread s).context) ∨
    ∃ w y, k' = k.sleep s w y ∧ Nap k l s w y := by
  rcases state_of_step hi h s with ⟨e, hsame⟩ | hm | hnap | hd
  · exact .inl ⟨e ▸ hst, hsame⟩
  · simp [hst] at hm
  · exact .inr hnap
  · rw [hd.state] at hst
    cases hst

/-- A thread is a zombie after a step if it was one, or by one of the two sections. -/
theorem zombie_of_step (hz : (k'.thread t).state = .TZOMBIE) :
    (k.thread t).state = .TZOMBIE ∨ Dies k l t k' := by
  rcases state_of_step hi h t with ⟨e, _⟩ | hm | ⟨w, y, e, _⟩ | hd
  · exact .inl (e ▸ hz)
  · simp [hz] at hm
  · simp [e, sleep] at hz
  · exact .inr hd

/-- No record gets the state `TINVALID`. -/
theorem invalid_of_step (hv : (k'.thread s).state = .TINVALID) :
    (k.thread s).state = .TINVALID := by
  rcases state_of_step hi h s with ⟨e, _⟩ | hm | ⟨w, y, e, _⟩ | hd
  · exact e ▸ hv
  · simp [hv] at hm
  · simp [e, sleep] at hv
  · rw [hd.state] at hv
    cases hv

/-- A thread is in `kill_other_threads` or past it after a step if it was at the same
place before, or if it has made a scan. -/
theorem tearing_of_step (hx : (k'.thread r).context.tearing) :
    (k.thread r).context = (k'.thread r).context ∨
    ∃ a x, Acts k l r x ∧ Enters k r a x ∧ k' = k.killTurn r a := by
  have hcalm (hc : (k.thread r).Calm (k'.thread r)) :
      (k.thread r).context = (k'.thread r).context := by
    rcases hc.context with e | ⟨_, hp, _⟩
    · exact e.symm
    · rw [Context.tearing_of_plain hp] at hx
      cases hx
  cases seen hi (turn_of_step h) r with
  | woken h => exact .inl (hcalm h.calm)
  | goes h => exact .inl (hcalm h.calm)
  | naps hrun hkill why e =>
    simp only [e, sleep, setThread_thread, if_true] at hx ⊢
    cases why with
    | other => exact .inl rfl
    | lock | join | wait => cases hx
  | acts ha hx' tid killed state context =>
    rw [context] at hx
    cases hx
  | scans ha henters e => exact .inr ⟨_, _, ha, henters, e⟩
  | marked ha henters e h => exact .inl (by rw [h])
  | dies ha hends hd =>
    rw [hd.context] at hx
    cases hx
  | starts hs =>
    rcases hs.state with e | ⟨_, e⟩
    · rw [hs.context (by simp [e])] at hx
      cases hx
    · exact .inl e.symm
  | removed hm h => exact .inl (by rw [h]; rfl)
  | exits ha e =>
    rw [e, safeExit_self ha.2.1] at hx
    cases hx

end Step

theorem killTurn_context (k : Kernel) (c : ThreadRef) (a : Caller) :
    ((k.killTurn c a).thread c).context = .killLoop a ∨
    ((k.killTurn c a).thread c).context = a.resume := by
  rcases killTurn_cases k c a with ⟨_, e⟩ | ⟨_, e⟩ <;> rw [e, setThread_thread, if_pos rfl]
  · exact .inl rfl
  · exact .inr rfl

end Xv6.Kernel
