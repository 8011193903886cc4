import Xv6.Lib.Fifo
import Xv6.Pipes.Model

/-! A pipe delivers bytes in the order in which they are stored. The bytes that are stored
and not yet taken are what the ring holds between its two counters; that they wrap at `2^32`
does not matter because `PIPESIZE` divides `2^32`. -/

namespace Xv6.Pipes

open Runs Fifo Function

variable {T P : Type} {s s' : State T P} {t u : T}

/-- The bytes stored, in order; the history has its latest event first. -/
def stored : List (Event T) → List Byte
  | [] => []
  | .stored _ b :: l => stored l ++ [b]
  | _ :: l => stored l

/-- The bytes taken, in order. -/
def taken : List (Event T) → List Byte
  | [] => []
  | .taken _ b :: l => taken l ++ [b]
  | _ :: l => taken l

/-- The bytes that `t` has stored since it last called `pipewrite`. -/
def sinceCall [DecidableEq T] (t : T) : List (Event T) → List Byte
  | [] => []
  | .write u _ :: l => if u = t then [] else sinceCall t l
  | .stored u b :: l => if u = t then sinceCall t l ++ [b] else sinceCall t l
  | _ :: l => sinceCall t l

/-- What a thread at this place has stored in its call of `pipewrite`. -/
def Pc.progress : Pc → Option (List Byte)
  | .writeEnter _ => some []
  | .writeLoop buf i | .writeFull buf i | .writeWake buf i | .writeSleep buf i
  | .writeAsleep buf i | .writeWoken buf i => some (buf.take i)
  | .writeDone buf => some buf
  | .writeLeave buf ret => if ret = buf.length then some buf else none
  | _ => none

theorem Pc.progress_wake (c : Chan) (pc : Pc) : (pc.wake c).progress = pc.progress := by
  cases c <;> cases pc <;> rfl

/-! ## What a step does -/

/-- The counters and the data are the same. -/
def SameRing (s s' : State T P) : Prop :=
  s'.pipe.data = s.pipe.data ∧ s'.pipe.nread = s.pipe.nread ∧ s'.pipe.nwrite = s.pipe.nwrite

/-- A step of `t` as the other threads see it. -/
def Apart (t : T) (s s' : State T P) : Prop :=
  ∀ u, u ≠ t → (s'.thread u).progress = (s.thread u).progress

/-- What a step does to the ring and to the progress of the calls, with its events. -/
inductive Effect (s s' : State T P) : List (Event T) → Prop
  | silent (hring : SameRing s s')
      (hkeep : ∀ u x, (s'.thread u).progress = some x → (s.thread u).progress = some x) :
      Effect s s' []
  | call (t : T) (buf : List Byte) (hring : SameRing s s') (hapart : Apart t s s')
      (hnew : (s'.thread t).progress = some []) : Effect s s' [.write t buf]
  | store (t : T) (b : Byte) (x : List Byte) (hroom : s.pipe.full = false)
      (hpipe : s'.pipe = s.pipe.store b) (hapart : Apart t s s')
      (hold : (s.thread t).progress = some x) (hnew : (s'.thread t).progress = some (x ++ [b])) :
      Effect s s' [.stored t b]
  | take (t : T) (hsome : s.pipe.empty = false) (hpipe : s'.pipe = s.pipe.advance)
      (hapart : Apart t s s') (hnew : (s'.thread t).progress = none) :
      Effect s s' [.taken t s.pipe.next]
  | ret (t : T) (buf : List Byte) (ret : Int) (hring : SameRing s s') (hapart : Apart t s s')
      (hold : ret = buf.length → (s.thread t).progress = some buf)
      (hnew : (s'.thread t).progress = none) : Effect s s' [.wrote t buf ret]

section

variable [DecidableEq T]

theorem apart_goto (pc : Pc) : Apart t s (s.goto t pc) :=
  fun _ hu => congrArg Pc.progress (update_of_ne hu _ _)

theorem apart_wakeup (c : Chan) (pc : Pc) : Apart t s ((s.wakeup c).goto t pc) := by
  intro u hu
  show (update (s.wakeup c).thread t pc u).progress = _
  rw [update_of_ne hu]
  exact Pc.progress_wake c _

theorem goto_progress (pc : Pc) : ((s.goto t pc).thread t).progress = pc.progress :=
  congrArg Pc.progress (update_self ..)

variable {pc : Pc}

/-- Thread `t` goes on, and its call has not come further. -/
theorem Effect.quiet (hring : SameRing s s') (hapart : Apart t s s')
    (ht : s'.thread t = pc) (hpc : ∀ x, pc.progress = some x → (s.thread t).progress = some x) :
    Effect s s' [] := by
  refine .silent hring fun u x hx => ?_
  by_cases hu : u = t
  · subst hu
    rw [ht] at hx
    exact hpc x hx
  · rw [hapart u hu] at hx
    exact hx

theorem Effect.goto (hpc : ∀ x, pc.progress = some x → (s.thread t).progress = some x) :
    Effect s (s.goto t pc) [] :=
  .quiet ⟨rfl, rfl, rfl⟩ (apart_goto pc) (update_self ..) hpc

variable {e : List (Event T)}

theorem Effect.acquire (hpc : ∀ x, pc.progress = some x → (s.thread t).progress = some x)
    (h : (s.acquire t pc).map (·, []) = some (s', e)) : Effect s s' e := by
  obtain ⟨v, hv, he⟩ := Option.map_eq_some_iff.1 h
  cases he
  unfold State.acquire at hv
  split at hv
  · cases hv
    exact .quiet ⟨rfl, rfl, rfl⟩ (apart_goto pc) (update_self ..) hpc
  · cases hv

theorem Effect.release (hpc : ∀ x, pc.progress = some x → (s.thread t).progress = some x) :
    Effect s (s.release t pc) [] :=
  .quiet ⟨rfl, rfl, rfl⟩ (apart_goto pc) (update_self ..) hpc

theorem Effect.wakeup (c : Chan)
    (hpc : ∀ x, pc.progress = some x → (s.thread t).progress = some x) :
    Effect s ((s.wakeup c).goto t pc) [] :=
  .quiet ⟨rfl, rfl, rfl⟩ (apart_wakeup c pc) (update_self ..) hpc

theorem no_progress {o : Option (List Byte)} (h : pc.progress = none) :
    ∀ x, pc.progress = some x → o = some x := by
  intro x hx
  rw [h] at hx
  cases hx

theorem effect_of_run {proc : T → P} (h : s.run proc t = some (s', e)) : Effect s s' e := by
  unfold State.run at h
  split at h
  case h_1 | h_7 | h_15 => cases h
  case h_2 buf hpc | h_8 buf i hpc => exact Effect.acquire (by rw [hpc]; exact fun x hx => hx) h
  case h_3 buf i hpc =>
    split at h
    · rename_i b hb
      split at h
      · cases h
        exact Effect.goto (by rw [hpc]; exact fun x hx => hx)
      · rename_i hfull
        cases h
        refine .store t b (buf.take i) (by simpa using hfull) rfl (apart_goto _)
          (by rw [hpc]; rfl) ?_
        refine (goto_progress _).trans ?_
        show some (buf.take (i + 1)) = some (buf.take i ++ [b])
        rw [List.take_add_one, hb]
        rfl
    · rename_i hnone
      cases h
      refine Effect.goto fun x hx => ?_
      rw [hpc, ← hx]
      show some (buf.take i) = some buf
      rw [List.take_of_length_le (List.getElem?_eq_none_iff.1 hnone)]
  case h_4 buf i hpc =>
    split at h
    · cases h
      refine Effect.goto (no_progress ?_)
      show (if (-1 : Int) = buf.length then some buf else none) = none
      rw [if_neg (by omega)]
    · cases h
      exact Effect.goto (by rw [hpc]; exact fun x hx => hx)
  case h_5 buf i hpc =>
    cases h
    exact Effect.wakeup .nread (by rw [hpc]; exact fun x hx => hx)
  case h_6 buf i hpc =>
    cases h
    exact Effect.release (by rw [hpc]; exact fun x hx => hx)
  case h_9 buf hpc =>
    cases h
    refine Effect.wakeup .nread ?_
    rw [hpc]
    show ∀ x, (if (buf.length : Int) = buf.length then some buf else none) = some x →
      some buf = some x
    rw [if_pos rfl]
    exact fun x hx => hx
  case h_10 buf ret hpc =>
    cases h
    refine .ret t buf ret ⟨rfl, rfl, rfl⟩ (apart_goto _) (fun hret => ?_) (goto_progress _)
    rw [hpc]
    show (if ret = buf.length then some buf else none) = some buf
    rw [if_pos hret]
  case h_11 n hpc | h_16 n hpc | h_20 writable hpc => exact Effect.acquire (no_progress rfl) h
  case h_12 n hpc | h_13 n hpc => split at h <;> cases h <;> exact Effect.goto (no_progress rfl)
  case h_14 n hpc | h_19 ret hpc =>
    cases h
    exact Effect.release (no_progress rfl)
  case h_17 n i hpc =>
    split at h
    · rename_i hi
      cases h
      exact .take t hi.2 rfl (apart_goto _) (goto_progress _)
    · cases h
      exact Effect.goto (no_progress rfl)
  case h_18 i hpc =>
    cases h
    exact Effect.wakeup .nwrite (no_progress rfl)
  case h_21 writable hpc =>
    cases h
    refine .quiet ?_ (apart_goto _) (update_self ..) (no_progress rfl)
    cases writable <;> exact ⟨rfl, rfl, rfl⟩
  case h_22 writable hpc =>
    cases h
    exact Effect.wakeup _ (no_progress rfl)
  case h_23 hpc =>
    cases h
    exact .quiet ⟨rfl, rfl, rfl⟩ (apart_goto _) (update_self ..) (no_progress rfl)

theorem effect_of_step [DecidableEq P] {proc : T → P} {l : Label T P}
    (h : s.step proc l = some (s', e)) : Effect s s' e := by
  cases l with
  | write t buf =>
    obtain ⟨-, he⟩ := Option.ite_none_right_eq_some.1 h
    cases he
    exact .call t buf ⟨rfl, rfl, rfl⟩ (apart_goto _) (goto_progress _)
  | read t n | close t writable =>
    obtain ⟨-, he⟩ := Option.ite_none_right_eq_some.1 h
    cases he
    exact Effect.goto (no_progress rfl)
  | run t => exact effect_of_run h
  | kill p =>
    cases h
    exact .silent ⟨rfl, rfl, rfl⟩ fun _ _ hx => hx

end

/-! ## The order of bytes -/

theorem PIPESIZE_dvd : PIPESIZE ∣ 2 ^ 32 := by decide

theorem PIPESIZE_lt : PIPESIZE < 2 ^ 32 := by decide

/-- The ring of the pipe holds `l`. -/
def Pipe.Queue (p : Pipe) (l : List Byte) : Prop := Holds PIPESIZE p.data p.nread p.nwrite l

variable {l : List Byte}

theorem Pipe.Queue.full_iff {p : Pipe} (h : p.Queue l) : p.full = true ↔ l.length = PIPESIZE := by
  rw [Pipe.full, decide_eq_true_eq]
  exact h.ends_iff PIPESIZE_lt (Nat.le_refl _)

theorem Pipe.Queue.empty_iff {p : Pipe} (h : p.Queue l) : p.empty = true ↔ l = [] := by
  rw [Pipe.empty, decide_eq_true_eq]
  exact Holds.empty_iff h PIPESIZE_lt

structure OrderInv [DecidableEq T] (s : State T P × List (Event T)) : Prop where
  ring : ∃ l, s.1.pipe.Queue l ∧ stored s.2 = taken s.2 ++ l
  call : ∀ t x, (s.1.thread t).progress = some x → sinceCall t s.2 = x
  wrote : ∀ l1 l2 t buf ret, s.2 = l1 ++ .wrote t buf ret :: l2 → ret = buf.length →
    sinceCall t l2 = buf

theorem SameRing.queue (h : SameRing s s') (hq : s.pipe.Queue l) : s'.pipe.Queue l := by
  obtain ⟨h1, h2, h3⟩ := h
  unfold Pipe.Queue at hq ⊢
  rw [h1, h2, h3]
  exact hq

variable {log : List (Event T)}

variable [DecidableEq T]

theorem OrderInv.of_effect {e : List (Event T)} (hi : OrderInv (s, log))
    (he : Effect s s' e) : OrderInv (s', e ++ log) := by
  obtain ⟨q, hq, hs⟩ := hi.ring
  cases he with
  | silent hring hkeep =>
    exact ⟨⟨q, hring.queue hq, hs⟩, fun u x hx => hi.call u x (hkeep u x hx), hi.wrote⟩
  | call t buf hring hapart hnew =>
    refine ⟨⟨q, hring.queue hq, hs⟩, fun u x hx => ?_, fun l1 l2 u b r hl hr => ?_⟩
    · by_cases hu : u = t
      · subst hu
        rw [hnew] at hx
        cases hx
        exact if_pos rfl
      · rw [hapart u hu] at hx
        exact (if_neg (Ne.symm hu)).trans (hi.call u x hx)
    · obtain ⟨-, hf⟩ | ⟨l1', -, hl'⟩ := List.cons_eq_append_iff.1 hl
      · cases hf
      · exact hi.wrote l1' l2 u b r hl' hr
  | store t b x hroom hpipe hapart hold hnew =>
    have hlt : q.length < PIPESIZE := by
      refine Nat.lt_of_le_of_ne hq.room fun hlen => ?_
      rw [hq.full_iff.2 hlen] at hroom
      cases hroom
    refine ⟨⟨q ++ [b], ?_, ?_⟩, fun u y hy => ?_, fun l1 l2 u c r hl hr => ?_⟩
    · show s'.pipe.Queue (q ++ [b])
      rw [hpipe]
      exact hq.push PIPESIZE_dvd hlt b
    · show stored log ++ [b] = taken log ++ (q ++ [b])
      rw [show stored log = taken log ++ q from hs, List.append_assoc]
    · by_cases hu : u = t
      · subst hu
        rw [hnew] at hy
        cases hy
        exact (if_pos rfl).trans (congrArg (· ++ [b]) (hi.call u x hold))
      · rw [hapart u hu] at hy
        exact (if_neg (Ne.symm hu)).trans (hi.call u y hy)
    · obtain ⟨-, hf⟩ | ⟨l1', -, hl'⟩ := List.cons_eq_append_iff.1 hl
      · cases hf
      · exact hi.wrote l1' l2 u c r hl' hr
  | take t hsome hpipe hapart hnew =>
    cases q with
    | nil =>
      rw [hq.empty_iff.2 rfl] at hsome
      cases hsome
    | cons b q =>
      have hfront : s.pipe.next = b := Holds.front hq
      refine ⟨⟨q, ?_, ?_⟩, fun u y hy => ?_, fun l1 l2 u c r hl hr => ?_⟩
      · show s'.pipe.Queue q
        rw [hpipe]
        exact Holds.pop hq PIPESIZE_dvd
      · show stored log = taken log ++ [s.pipe.next] ++ q
        rw [hfront, show stored log = taken log ++ b :: q from hs, List.append_assoc]
        rfl
      · by_cases hu : u = t
        · subst hu
          rw [hnew] at hy
          cases hy
        · rw [hapart u hu] at hy
          exact hi.call u y hy
      · obtain ⟨-, hf⟩ | ⟨l1', -, hl'⟩ := List.cons_eq_append_iff.1 hl
        · cases hf
        · exact hi.wrote l1' l2 u c r hl' hr
  | ret t buf ret hring hapart hold hnew =>
    refine ⟨⟨q, hring.queue hq, hs⟩, fun u y hy => ?_, fun l1 l2 u c r hl hr => ?_⟩
    · by_cases hu : u = t
      · subst hu
        rw [hnew] at hy
        cases hy
      · rw [hapart u hu] at hy
        exact hi.call u y hy
    · obtain ⟨-, hf⟩ | ⟨l1', -, hl'⟩ := List.cons_eq_append_iff.1 hl
      · cases hf
        exact hi.call t buf (hold hr)
      · exact hi.wrote l1' l2 u c r hl' hr

theorem State.Fresh.orderInv (h : s.Fresh) : OrderInv (s, []) where
  ring := by
    refine ⟨[], ?_, rfl⟩
    show Holds PIPESIZE s.pipe.data s.pipe.nread s.pipe.nwrite []
    rw [h.empty]
    exact Holds.nil _ _ _
  call := by
    intro t x hx
    rw [show (s, ([] : List (Event T))).1.thread t = .out from h.thread t] at hx
    cases hx
  wrote := by
    intro l1 l2 t buf ret hl
    exact absurd hl (by simp)

/-- **The pipe is a queue.** In every run from a fresh pipe: what has been taken is a prefix
of what has been stored, at most `PIPESIZE` bytes are in between, and when `pipewrite` returns
`n` it has stored the `n` bytes of its buffer, in order. -/
theorem pipe_fifo [DecidableEq P] (proc : T → P) (s0 : State T P) (h0 : s0.Fresh)
    (s : State T P) (log : List (Event T))
    (hr : Run (recording (State.step proc)) free (s0, []) (s, log)) : taken log <+: stored log ∧
      (stored log).length = (taken log).length + (s.pipe.nwrite - s.pipe.nread).toNat ∧
      (s.pipe.nwrite - s.pipe.nread).toNat ≤ PIPESIZE ∧
      ∀ l1 l2 t buf ret, log = l1 ++ .wrote t buf ret :: l2 → ret = buf.length →
        sinceCall t l2 = buf := by
  have hinv : OrderInv (s, log) := by
    refine hr.invariant h0.orderInv fun a l b ha hs _ => ?_
    obtain ⟨e, he, hb⟩ := recording_some hs
    have hnext := ha.of_effect (effect_of_step he)
    rw [← hb] at hnext
    exact hnext
  obtain ⟨q, hq, hs⟩ := hinv.ring
  have hs : stored log = taken log ++ q := hs
  have hcount : (s.pipe.nwrite - s.pipe.nread).toNat = q.length := Holds.count hq PIPESIZE_lt
  rw [hcount]
  refine ⟨⟨q, hs.symm⟩, ?_, hq.room, hinv.wrote⟩
  rw [hs, List.length_append]

/-- A pipe whose counters are about to wrap. -/
def wornPipe : State (Fin 2) Unit where
  pipe := ⟨fun _ => 0, 0xFFFFFFFF, 0xFFFFFFFF, true, true⟩
  lock := none
  freed := false
  killed := fun _ => false
  thread := fun _ => .out

/-- Thread 0 writes two bytes, thread 1 reads them. -/
def passTwo : List (Label (Fin 2) Unit) :=
  .write 0 [7, 8] :: List.replicate 6 (.run 0) ++ .read 1 2 :: List.replicate 7 (.run 1)

theorem pipe_fifo_wrapping :
    let s := final (recording (State.step fun _ => ())) (wornPipe, []) passTwo
    stored s.2 = [7, 8] ∧ s.1.pipe.nwrite = 1 ∧ taken s.2 <+: stored s.2 ∧
      (stored s.2).length = (taken s.2).length + (s.1.pipe.nwrite - s.1.pipe.nread).toNat := by
  have hr : Run (recording (State.step fun _ => ())) free (wornPipe, [])
      (final (recording (State.step fun _ => ())) (wornPipe, []) passTwo) :=
    run_free
  have h := pipe_fifo (fun _ => ()) wornPipe ⟨rfl, rfl, rfl, rfl, fun _ => rfl⟩ _ _ hr
  exact ⟨by decide +kernel, by decide +kernel, h.1, h.2.1⟩

end Xv6.Pipes
