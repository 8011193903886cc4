import Xv6.Pipes.Model

/-! Who sleeps in a pipe sleeps for a reason: readers while it is empty, writers while it is
full. A thread that ends the reason holds `p->lock` and goes on to call `wakeup` before it
releases the lock. There is one exception: `pipewrite` returns an error without a `wakeup`
for the bytes that it has stored. -/

namespace Xv6.Pipes

open Runs Function

/-- The thread holds `p->lock`. -/
def Pc.inside : Pc → Bool
  | .writeLoop _ _ | .writeFull _ _ | .writeWake _ _ | .writeSleep _ _ | .writeDone _
  | .writeLeave _ _ | .readTest _ | .readEmpty _ | .readSleep _ | .readCopy _ _ | .readDone _
  | .readLeave _ | .closeShut _ | .closeWake _ | .closeLeave => true
  | _ => false

def Pc.asleep : Chan → Pc → Bool
  | .nread, .readAsleep _ => true
  | .nwrite, .writeAsleep _ _ => true
  | _, _ => false

/-- The thread goes on to call `wakeup` on the channel, or to the error of `pipewrite`. -/
def Pc.owes : Chan → Pc → Bool
  | .nread, .writeLoop _ _ | .nread, .writeFull _ _ | .nread, .writeWake _ _
  | .nread, .writeDone _ | .nread, .closeWake true => true
  | .nwrite, .readCopy _ _ | .nwrite, .readDone _ | .nwrite, .closeWake false => true
  | _, _ => false

/-- What a sleeper on the channel waits to end. -/
def Pipe.blocks (p : Pipe) : Chan → Bool
  | .nread => p.empty && p.writeopen
  | .nwrite => p.full && p.readopen

/-- What a thread has found out under the lock. -/
def Pipe.Fits (p : Pipe) : Pc → Prop
  | .writeFull _ _ => p.full = true
  | .writeWake _ _ | .writeSleep _ _ => p.blocks .nwrite = true
  | .readEmpty _ | .readSleep _ => p.blocks .nread = true
  | _ => True

/-- The effect on other threads of a step that calls `wakeup`, or does not. -/
def Pc.wakes : Option Chan → Pc → Pc
  | none, pc => pc
  | some c, pc => pc.wake c

variable {pc pc' : Pc}

theorem Pc.inside_wakes {o : Option Chan} (h : (pc.wakes o).inside = true) : pc.inside = true := by
  cases o with
  | none => exact h
  | some c => cases c <;> cases pc <;> exact h

variable {c : Chan}

theorem Pc.asleep_wakes {o : Option Chan}
    (h : (pc.wakes o).asleep c = true) : pc.asleep c = true ∧ o ≠ some c := by
  cases o with
  | none => exact ⟨h, by simp⟩
  | some d =>
    cases c <;> cases d <;> cases pc <;>
      first | exact absurd h Bool.false_ne_true | exact ⟨h, by simp⟩

theorem Pc.inside_of_owes (h : pc.owes c = true) : pc.inside = true := by
  cases c <;> cases pc <;> first | rfl | exact absurd h Bool.false_ne_true

theorem Pc.asleep_of_inside (h : pc.inside = true) : pc.asleep c = false := by
  cases c <;> cases pc <;> first | rfl | exact absurd h Bool.false_ne_true

theorem Pipe.fits_of_outside {p : Pipe} (h : pc.inside = false) : p.Fits pc := by
  cases pc <;> trivial

variable {T P : Type} {s s' : State T P} {t u : T}

structure Inv (s : State T P) : Prop where
  holder : ∀ t, (s.thread t).inside = true → s.lock = some t
  sleeper : ∀ t c, (s.thread t).asleep c = true →
    (∃ u, (s.thread u).owes c = true) ∨ s.pipe.blocks c = true
  fits : ∀ t, s.pipe.Fits (s.thread t)

theorem State.Fresh.inv (h : s.Fresh) : Inv s where
  holder := by
    intro t ht
    rw [h.thread t] at ht
    cases ht
  sleeper := by
    intro t c ht
    rw [h.thread t] at ht
    cases c <;> cases ht
  fits := by
    intro t
    rw [h.thread t]
    trivial

/-- While `t` has the lock nobody else does. -/
theorem Inv.outside (hi : Inv s) (hin : (s.thread t).inside = true) (hu : u ≠ t) :
    (s.thread u).inside = false := by
  rw [Bool.eq_false_iff]
  intro h
  have hlock := hi.holder t hin
  rw [hi.holder u h] at hlock
  exact hu (Option.some.inj hlock)

/-- A step of the thread that has the lock. What it has to see to, for each channel with
sleepers that it does not wake: a `wakeup` is still to come, or the sleepers' reason holds. -/
theorem Inv.inner (hi : Inv s) (o : Option Chan) (hpc : s.thread t = pc) (hin : pc.inside = true)
    (hself : s'.thread t = pc') (hothers : ∀ u, u ≠ t → s'.thread u = (s.thread u).wakes o)
    (hlock : pc'.inside = true → s'.lock = some t)
    (hasleep : ∀ c, pc'.asleep c = true → s'.pipe.blocks c = true) (hfits : s'.pipe.Fits pc')
    (hdue : ∀ c, o ≠ some c → (∃ u, (s.thread u).asleep c = true) →
      pc.owes c = true ∨ s.pipe.blocks c = true → pc'.owes c = true ∨ s'.pipe.blocks c = true) :
    Inv s' := by
  subst hpc hself
  refine ⟨fun u hu => ?_, fun u c hu => ?_, fun u => ?_⟩
  · by_cases hut : u = t
    · subst hut
      exact hlock hu
    · rw [hothers u hut] at hu
      have hout := hi.outside hin hut
      rw [Pc.inside_wakes hu] at hout
      cases hout
  · by_cases hut : u = t
    · subst hut
      exact .inr (hasleep c hu)
    · rw [hothers u hut] at hu
      obtain ⟨hold, hne⟩ := Pc.asleep_wakes hu
      have hcause : (s.thread t).owes c = true ∨ s.pipe.blocks c = true := by
        obtain ⟨v, hv⟩ | hb := hi.sleeper u c hold
        · have hvt : v = t := by
            refine Classical.byContradiction fun hvt => ?_
            have hout := hi.outside hin hvt
            rw [Pc.inside_of_owes hv] at hout
            cases hout
          rw [hvt] at hv
          exact .inl hv
        · exact .inr hb
      exact (hdue c hne ⟨u, hold⟩ hcause).imp_left fun howe => ⟨t, howe⟩
  · by_cases hut : u = t
    · subst hut
      exact hfits
    · rw [hothers u hut]
      refine Pipe.fits_of_outside ?_
      rw [Bool.eq_false_iff]
      intro h
      have hout := hi.outside hin hut
      rw [Pc.inside_wakes h] at hout
      cases hout

/-- A step of a thread that does not have the lock: it calls a function of the pipe, or
takes the lock. -/
theorem Inv.outer (hi : Inv s) (hpc : s.thread t = pc) (hout : pc.inside = false)
    (hself : s'.thread t = pc') (hothers : ∀ u, u ≠ t → s'.thread u = s.thread u)
    (hpipe : s'.pipe = s.pipe) (hlock : pc'.inside = true → s'.lock = some t)
    (hkeep : ∀ u, u ≠ t → s.lock = some u → s'.lock = some u)
    (hasleep : ∀ c, pc'.asleep c = false) (hfits : s.pipe.Fits pc') : Inv s' := by
  subst hpc hself
  rw [← hpipe] at hfits
  refine ⟨fun u hu => ?_, fun u c hu => ?_, fun u => ?_⟩
  · by_cases hut : u = t
    · subst hut
      exact hlock hu
    · rw [hothers u hut] at hu
      exact hkeep u hut (hi.holder u hu)
  · by_cases hut : u = t
    · subst hut
      rw [hasleep c] at hu
      cases hu
    · rw [hothers u hut] at hu
      rw [hpipe]
      refine (hi.sleeper u c hu).imp_left fun howes => ?_
      obtain ⟨v, hv⟩ := howes
      refine ⟨v, ?_⟩
      rw [hothers v ?_]
      · exact hv
      · rintro rfl
        rw [Pc.inside_of_owes hv] at hout
        cases hout
  · by_cases hut : u = t
    · subst hut
      exact hfits
    · rw [hothers u hut, hpipe]
      exact hi.fits u

section Steps

variable [DecidableEq T]

theorem goto_thread_ne (hu : u ≠ t) : (s.goto t pc).thread u = s.thread u := update_of_ne hu _ _

theorem goto_thread_self : (s.goto t pc).thread t = pc := update_self ..

section

variable (hi : Inv s) (hpc : s.thread t = pc)

include hi hpc

/-- The thread goes on under the lock. -/
theorem Inv.change {p : Pipe} (hfits : p.Fits pc')
    (hdue : ∀ c, (∃ u, (s.thread u).asleep c = true) → pc.owes c = true ∨ s.pipe.blocks c = true →
      pc'.owes c = true ∨ p.blocks c = true) (hin : pc.inside = true := by rfl)
    (hin' : pc'.inside = true := by rfl) : Inv { s.goto t pc' with pipe := p } := by
  refine hi.inner none hpc hin goto_thread_self (fun u hu => goto_thread_ne hu)
    (fun _ => hi.holder t (hpc ▸ hin)) (fun c hc => ?_) hfits fun c _ => hdue c
  rw [Pc.asleep_of_inside hin'] at hc
  cases hc

theorem Inv.goto (hfits : s.pipe.Fits pc')
    (hdue : ∀ c, pc.owes c = true → (∃ u, (s.thread u).asleep c = true) → pc'.owes c = true := by
      intro c hc _
      cases c <;> first | rfl | cases hc)
    (hin : pc.inside = true := by rfl) (hin' : pc'.inside = true := by rfl) : Inv (s.goto t pc') :=
  hi.change hpc hfits (fun c hex hor => hor.imp_left fun howe => hdue c howe hex) hin hin'

/-- The thread releases the lock, to sleep or to leave. -/
theorem Inv.release (b : Bool) (hasleep : ∀ c, pc'.asleep c = true → s.pipe.blocks c = true := by
      intro c hc
      cases c <;> cases hc)
    (howe : ∀ c, pc.owes c = false := by intro c; cases c <;> rfl)
    (hin : pc.inside = true := by rfl) (hout : pc'.inside = false := by rfl) :
    Inv { s.release t pc' with freed := b } := by
  refine hi.inner none hpc hin goto_thread_self (fun u hu => goto_thread_ne hu) (fun h => ?_)
    hasleep (Pipe.fits_of_outside hout) fun c _ _ hor => ?_
  · rw [hout] at h
    cases h
  · rw [howe c] at hor
    exact .inr (hor.resolve_left Bool.false_ne_true)

theorem Inv.wakeup (c : Chan) (hfits : s.pipe.Fits pc') (howe : ∀ d, d ≠ c → pc.owes d = false := by
      intro d hd
      cases d <;> first | rfl | exact absurd rfl hd)
    (hin : pc.inside = true := by rfl) (hin' : pc'.inside = true := by rfl) :
    Inv ((s.wakeup c).goto t pc') := by
  refine hi.inner (some c) hpc hin goto_thread_self (fun u hu => goto_thread_ne hu)
    (fun _ => hi.holder t (hpc ▸ hin)) (fun d hd => ?_) hfits fun d hne _ hor => ?_
  · rw [Pc.asleep_of_inside hin'] at hd
    cases hd
  · rw [howe d fun hd => hne (by rw [hd])] at hor
    exact .inr (hor.resolve_left Bool.false_ne_true)

theorem Inv.acquire {e : List (Event T)} (h : (s.acquire t pc').map (·, []) = some (s', e))
    (hout : pc.inside = false) (hin' : pc'.inside = true) (hfits : s.pipe.Fits pc') : Inv s' := by
  obtain ⟨v, hv, he⟩ := Option.map_eq_some_iff.1 h
  cases he
  unfold State.acquire at hv
  split at hv
  · rename_i hfree
    cases hv
    refine hi.outer hpc hout goto_thread_self (fun u hu => goto_thread_ne hu) rfl (fun _ => rfl)
      (fun u _ hu => ?_) (fun c => Pc.asleep_of_inside hin') hfits
    rw [hfree.1] at hu
    cases hu
  · cases hv

end

theorem Inv.call (hi : Inv s) (hpc : s.thread t = .out) (hout : pc'.inside = false)
    (hsleep : ∀ c, pc'.asleep c = false) : Inv (s.goto t pc') := by
  refine hi.outer hpc rfl goto_thread_self (fun u hu => goto_thread_ne hu) rfl (fun h => ?_)
    (fun u _ hu => hu) hsleep (Pipe.fits_of_outside hout)
  rw [hout] at h
  cases h

end Steps

/-- While a thread sleeps in `piperead`, a call of `pipewrite` that finds the pipe full does not
find the read end closed or its process killed. -/
def Announced (proc : T → P) (s : State T P) (l : Label T P) (_ : State T P) : Prop :=
  ∀ t buf i, l = .run t → s.thread t = .writeFull buf i →
    s.pipe.readopen = false ∨ s.killed (proc t) = true → ∀ u, (s.thread u).asleep .nread = false

variable [DecidableEq T] {proc : T → P} {e : List (Event T)}

theorem Inv.run (hi : Inv s) (h : s.run proc t = some (s', e))
    (hg : ∀ buf i, s.thread t = .writeFull buf i → s.pipe.readopen = false ∨
      s.killed (proc t) = true → ∀ u, (s.thread u).asleep .nread = false) : Inv s' := by
  have hfits := hi.fits t
  unfold State.run at h
  split at h
  case h_1 | h_7 | h_15 => cases h
  case h_2 buf hpc | h_8 buf i hpc | h_11 n hpc | h_16 n hpc | h_20 writable hpc =>
    exact hi.acquire hpc h rfl rfl trivial
  case h_3 buf i hpc =>
    split at h
    · rename_i b hb
      split at h
      · rename_i hfull
        cases h
        exact hi.goto hpc hfull
      · rename_i hfull
        cases h
        refine hi.change hpc trivial fun c hex hor => ?_
        cases c with
        | nread => exact .inl rfl
        | nwrite =>
          -- No writer sleeps while the pipe is not full.
          obtain hc | hc := hor
          · cases hc
          · simp only [Pipe.blocks, Bool.and_eq_true] at hc
            exact absurd hc.1 hfull
    · cases h
      exact hi.goto hpc trivial
  case h_4 buf i hpc =>
    rw [hpc] at hfits
    split at h
    · rename_i hstop
      cases h
      refine hi.goto hpc trivial fun c hc hex => ?_
      cases c with
      | nread =>
        obtain ⟨u, hu⟩ := hex
        rw [hg buf i hpc hstop u] at hu
        cases hu
      | nwrite => cases hc
    · rename_i hopen
      cases h
      refine hi.goto hpc ?_
      simp only [not_or, Bool.not_eq_false] at hopen
      show (s.pipe.full && s.pipe.readopen) = true
      rw [hopen.1, show s.pipe.full = true from hfits]
      rfl
  case h_5 buf i hpc =>
    rw [hpc] at hfits
    cases h
    exact hi.wakeup hpc .nread hfits
  case h_6 buf i hpc | h_14 n hpc =>
    rw [hpc] at hfits
    cases h
    refine hi.release hpc s.freed fun c hc => ?_
    cases c <;> first | exact absurd hc Bool.false_ne_true | exact hfits
  case h_9 buf hpc =>
    cases h
    exact hi.wakeup hpc .nread trivial
  case h_10 buf ret hpc | h_19 ret hpc =>
    cases h
    exact hi.release hpc s.freed
  case h_12 n hpc =>
    split at h
    · rename_i hempty
      cases h
      refine hi.goto hpc ?_
      show (s.pipe.empty && s.pipe.writeopen) = true
      rw [hempty.1, hempty.2]
      rfl
    · cases h
      exact hi.goto hpc trivial
  case h_13 n hpc =>
    rw [hpc] at hfits
    split at h
    · cases h
      exact hi.goto hpc trivial
    · cases h
      exact hi.goto hpc hfits
  case h_17 n i hpc =>
    split at h
    · rename_i hsome
      cases h
      refine hi.change hpc trivial fun c hex hor => ?_
      cases c with
      | nread =>
        -- No reader sleeps while there is data.
        obtain hc | hc := hor
        · cases hc
        · simp only [Pipe.blocks, Bool.and_eq_true, hsome.2] at hc
          cases hc.1
      | nwrite => exact .inl rfl
    · cases h
      exact hi.goto hpc trivial
  case h_18 i hpc =>
    cases h
    exact hi.wakeup hpc .nwrite trivial
  case h_21 writable hpc =>
    cases h
    refine hi.change hpc trivial fun c _ hor => ?_
    cases writable <;> cases c <;> first
      | exact .inl rfl
      | exact .inr (hor.resolve_left Bool.false_ne_true)
  case h_22 writable hpc =>
    cases h
    refine hi.wakeup hpc _ trivial fun c hc => ?_
    cases writable <;> cases c <;> first | rfl | exact absurd rfl hc
  case h_23 hpc =>
    cases h
    exact hi.release hpc _

/-- The steps without their events. -/
def State.next [DecidableEq P] (proc : T → P) (s : State T P) (l : Label T P) :
    Option (State T P) := (s.step proc l).map Prod.fst

theorem Inv.step [DecidableEq P] {l : Label T P} (hi : Inv s) (h : s.next proc l = some s')
    (hg : Announced proc s l s') : Inv s' := by
  obtain ⟨⟨v, e⟩, hv, rfl⟩ := Option.map_eq_some_iff.1 h
  cases l with
  | write t buf | read t n | close t writable =>
    obtain ⟨hpc, he⟩ := Option.ite_none_right_eq_some.1 hv
    cases he
    exact hi.call hpc rfl fun c => by cases c <;> rfl
  | run t => exact hi.run hv fun buf i => hg t buf i rfl
  | kill p =>
    cases hv
    exact ⟨hi.holder, hi.sleeper, hi.fits⟩

/-- **Nobody sleeps without a reason.** While `p->lock` is free, a thread asleep in `piperead`
finds the pipe empty and its write end open, and a thread asleep in `pipewrite` finds it full
and its read end open, if `pipewrite` does not return an error while a reader sleeps. -/
theorem pipe_sleepers [DecidableEq P] (proc : T → P) (s0 : State T P) (h0 : s0.Fresh)
    (s : State T P) (hr : Run (State.next proc) (Announced proc) s0 s) (hlock : s.lock = none) :
    (∀ t n, s.thread t = .readAsleep n → s.pipe.empty = true ∧ s.pipe.writeopen = true) ∧
      ∀ t buf i, s.thread t = .writeAsleep buf i → s.pipe.full = true ∧ s.pipe.readopen = true := by
  have hi : Inv s := hr.invariant h0.inv fun _ _ _ ha hs hg => ha.step hs hg
  -- A call of `wakeup` that is still to come is made under the lock.
  have hblocks (t : T) (c : Chan) (ht : (s.thread t).asleep c = true) : s.pipe.blocks c = true := by
    obtain ⟨u, hu⟩ | hb := hi.sleeper t c ht
    · rw [hi.holder u (Pc.inside_of_owes hu)] at hlock
      cases hlock
    · exact hb
  refine ⟨fun t n ht => ?_, fun t buf i ht => ?_⟩
  · have hb := hblocks t .nread (by rw [ht]; rfl)
    exact Bool.and_eq_true_iff.1 hb
  · have hb := hblocks t .nwrite (by rw [ht]; rfl)
    exact Bool.and_eq_true_iff.1 hb

/-- A new pipe, with two threads of two processes. -/
def newPipe : State (Fin 2) (Fin 2) where
  pipe := ⟨fun _ => 0, 0, 0, true, true⟩
  lock := none
  freed := false
  killed := fun _ => false
  thread := fun _ => .out

/-- The pipe after the steps `ls`. -/
abbrev ran (ls : List (Label (Fin 2) (Fin 2))) : State (Fin 2) (Fin 2) :=
  final (State.next id) newPipe ls

theorem newPipe_fresh : newPipe.Fresh := ⟨rfl, rfl, rfl, rfl, fun _ => rfl⟩

/-- Thread 1 reads and sleeps, thread 0 writes two bytes, thread 1 reads them and comes
back to sleep. -/
def backAsleep : List (Label (Fin 2) (Fin 2)) :=
  .read 1 2 :: List.replicate 4 (.run 1) ++ .write 0 [7, 8] :: List.replicate 6 (.run 0) ++
    List.replicate 7 (.run 1) ++ .read 1 2 :: List.replicate 4 (.run 1)

/-- `pipewrite` does not find the pipe full. -/
def roomy (s : State (Fin 2) (Fin 2)) : Label (Fin 2) (Fin 2) → Bool
  | .run t =>
    match s.thread t with
    | .writeFull _ _ => false
    | _ => true
  | _ => true

theorem pipe_sleepers_back : let s := ran backAsleep
    s.lock = none ∧ s.thread 1 = .readAsleep 2 ∧ s.pipe.nread = 2 ∧
      s.pipe.empty = true ∧ s.pipe.writeopen = true := by
  have hr : Run (State.next id) (Announced id) newPipe (ran backAsleep) := by
    refine run_final (g := roomy) (fun hg => ?_) (by decide +kernel)
    rintro t buf i rfl hpc
    simp only [roomy, hpc] at hg
    cases hg
  have hlock : (ran backAsleep).lock = none := by decide +kernel
  have hasleep : (ran backAsleep).thread 1 = .readAsleep 2 := by decide +kernel
  have h := (pipe_sleepers id newPipe newPipe_fresh _ hr hlock).1 1 2 hasleep
  exact ⟨hlock, hasleep, by decide +kernel, h.1, h.2⟩

/-- The state in which thread `t` has stored `k` bytes in its call. -/
def State.storing (s : State T P) (t : T) (buf : List Byte) (k : Nat) (data : Nat → Byte) :
    State T P :=
  { s.goto t (.writeLoop buf k) with
    pipe := { s.pipe with data := data, nwrite := s.pipe.nread + BitVec.ofNat 32 k } }

theorem full_storing (s : State T P) (t : T) (buf : List Byte) (data : Nat → Byte) {k : Nat}
    (hk : k ≤ PIPESIZE) : (s.storing t buf k data).pipe.full = decide (k = PIPESIZE) := by
  rw [Pipe.full, decide_eq_decide]
  show s.pipe.nread + BitVec.ofNat 32 k = s.pipe.nread + BitVec.ofNat 32 PIPESIZE ↔ k = PIPESIZE
  rw [BitVec.add_right_inj]
  refine ⟨fun he => ?_, fun he => by rw [he]⟩
  have hnat := congrArg BitVec.toNat he
  simp only [BitVec.toNat_ofNat, PIPESIZE] at hnat hk ⊢
  omega

/-- A writer with the lock fills an empty pipe. -/
theorem run_storing [DecidableEq P] (proc : T → P) {buf : List Byte} {k : Nat}
    (hpc : s.thread t = .writeLoop buf 0) (hempty : s.pipe.nwrite = s.pipe.nread)
    (hk : k ≤ PIPESIZE) (hlen : k ≤ buf.length) :
    ∃ data, Run (State.next proc) free s (s.storing t buf k data) := by
  induction k with
  | zero =>
    refine ⟨s.pipe.data, ?_⟩
    have hs : s.storing t buf 0 s.pipe.data = s := by
      unfold State.storing State.goto
      rw [← hpc, update_eq_self, BitVec.add_zero, ← hempty]
    rw [hs]
    exact .refl
  | succ k ih =>
    obtain ⟨data, hr⟩ := ih (Nat.le_of_succ_le hk) (Nat.le_of_succ_le hlen)
    have hself : (s.storing t buf k data).thread t = .writeLoop buf k := goto_thread_self
    have hfull : (s.storing t buf k data).pipe.full = false := by
      rw [full_storing s t buf data (Nat.le_of_succ_le hk), decide_eq_false_iff_not]
      exact Nat.ne_of_lt hk
    have hb : buf[k]? = some buf[k] := List.getElem?_eq_getElem hlen
    refine ⟨((s.storing t buf k data).pipe.store buf[k]).data, .next (l := .run t) hr ?_ trivial⟩
    simp only [State.next, State.step, State.run, hself, hb, hfull, Bool.false_eq_true, if_false,
      Option.map_some, Option.some.injEq]
    simp only [State.storing, State.goto, Pipe.store, update_idem, BitVec.ofNat_add,
      BitVec.add_assoc]
    rfl

/-- A writer whose process is killed leaves a full pipe without a `wakeup`. -/
theorem run_error [DecidableEq P] (proc : T → P) {buf : List Byte} {i : Nat} {b : Byte}
    (hpc : s.thread t = .writeLoop buf i) (hb : buf[i]? = some b) (hfull : s.pipe.full = true)
    (hkilled : s.killed (proc t) = true) : Run (State.next proc) free s (s.release t .out) := by
  have h1 : s.next proc (.run t) = some (s.goto t (.writeFull buf i)) := by
    simp only [State.next, State.step, State.run, hpc, hb, hfull, if_true, Option.map_some]
  have h2 : (s.goto t (.writeFull buf i)).next proc (.run t) =
      some (s.goto t (.writeLeave buf (-1))) := by
    have hor : s.pipe.readopen = false ∨ s.killed (proc t) = true := .inr hkilled
    simp only [State.next, State.step, State.run, State.goto, update_self,
      update_idem, hor, if_true, Option.map_some]
  have h3 : (s.goto t (.writeLeave buf (-1))).next proc (.run t) = some (s.release t .out) := by
    simp only [State.next, State.step, State.run, State.goto, State.release, update_self,
      update_idem, Option.map_some]
  exact .next (.next (.next .refl h1 trivial) h2 trivial) h3 trivial

/-- Thread 1 sleeps in `piperead`, thread 0 is in `pipewrite` with one byte more than the pipe
holds, and its process has been killed. -/
def killedWriter : List (Label (Fin 2) (Fin 2)) :=
  .read 1 1 :: List.replicate 4 (.run 1) ++ [.write 0 (List.replicate 513 7), .run 0, .kill 0]

/-- The writer fills the pipe and returns its error; the reader still sleeps. -/
theorem reader_not_woken : ∃ s, Run (State.next id) free newPipe s ∧ s.lock = none ∧
    s.thread 0 = .out ∧ s.thread 1 = .readAsleep 1 ∧ s.pipe.empty = false ∧ s.pipe.full = true := by
  have hr : Run (State.next id) free newPipe (ran killedWriter) := run_free
  have hpc : (ran killedWriter).thread 0 = .writeLoop (List.replicate 513 7) 0 := by
    decide +kernel
  have hreader : (ran killedWriter).thread 1 = .readAsleep 1 := by decide +kernel
  have hkilled : (ran killedWriter).killed 0 = true := by decide +kernel
  have hnread : (ran killedWriter).pipe.nread = 0 := by decide +kernel
  obtain ⟨data, hs⟩ := run_storing id (k := 512) hpc (by decide +kernel) (by decide)
    (by rw [List.length_replicate]; decide)
  have hfull := full_storing (ran killedWriter) 0 (List.replicate 513 7) data (k := 512) (by decide)
  have hb : (List.replicate 513 (7 : Byte))[512]? = some 7 :=
    List.getElem?_replicate_of_lt (by decide)
  refine ⟨_, (hr.trans hs).trans (run_error id goto_thread_self hb hfull hkilled), rfl, ?_, ?_, ?_,
    hfull⟩
  · rfl
  · exact hreader
  · rw [Pipe.empty, decide_eq_false_iff_not]
    show (ran killedWriter).pipe.nread ≠ (ran killedWriter).pipe.nread + BitVec.ofNat 32 512
    rw [hnread]
    decide

end Xv6.Pipes
