import Mathlib.Data.Bool.Count
import Mathlib.Logic.Function.Basic
import Xv6.Lib.Runs

/-! `pushcli` and `popcli`, and the switches between threads: `ncli` and `intena` are fields of
`struct cpu`, but what they say belongs to the thread that runs there. There are as many CPUs and
threads as the types `C` and `T` have elements. Locks are left out, so that more interleavings are
possible than with them; what counts is that sections are nested. -/

namespace Xv6.Interrupts

open Runs Function

/-! ## The model -/

/-- Where a thread or a scheduler is. -/
inductive Point
  | run
  /-- In `pushcli`, past `readeflags`. -/
  | read (eflags : Bool)
  /-- In `sched`, up to the end of `swtch`, with the local variable `intena`. -/
  | swtch (intena : Bool)
  deriving DecidableEq, Repr

/-- What a thread or a scheduler has begun and not ended. -/
inductive Frame
  /-- A section; `enabled` is what the flag was at the beginning of its `pushcli`. -/
  | pushcli (enabled : Bool)
  /-- The section of a scheduler in which a new thread starts and which `forkret` ends. -/
  | forkret
  /-- A trap, and where it was taken. The flag was set. -/
  | trap (p : Point)
  deriving DecidableEq, Repr

structure Flow where
  stack : List Frame
  point : Point
  deriving DecidableEq, Repr

structure Core (T : Type*) where
  ncli : Int
  intena : Bool
  /-- `FL_IF` -/
  enabled : Bool
  thread : Option T

inductive Panic
  | popcliInterruptible | popcli | schedLocks | schedInterruptible
  deriving DecidableEq, Repr

structure State (C T : Type*) where
  cpu : C → Core T
  flow : T ⊕ C → Flow
  /-- The thread is `TRUNNING`. -/
  running : T → Bool
  panic : Option Panic

inductive Act (T : Type*)
  | readeflags | cli | popcli
  /-- An interrupt, or a fault of the user. -/
  | trap
  | iret
  /-- At the top of the loop of `scheduler`. -/
  | sti
  | sched
  /-- `mycpu()->intena = intena` -/
  | restore
  /-- The scheduler switches to `t`. -/
  | dispatch (t : T)

def Frame.counts : Frame → Bool
  | .trap _ => false
  | _ => true

/-- The sections that have been begun. -/
def sections (l : List Frame) : Nat := l.countP Frame.counts

namespace State

variable {C T : Type*} (s : State C T) (c : C)

/-- Whom the CPU runs: a thread or its own scheduler. -/
def current : T ⊕ C :=
  match (s.cpu c).thread with
  | some t => .inl t
  | none => .inr c

variable [DecidableEq C] [DecidableEq T]

def put (x : Core T) (f : Flow) : State C T :=
  { s with cpu := update s.cpu c x, flow := update s.flow (s.current c) f }

def fail (e : Panic) : State C T := { s with panic := some e }

/-- `popcli` at the end of a section. -/
def popcli (x : Core T) (rest : List Frame) : State C T :=
  if x.enabled then s.fail .popcliInterruptible
  else if x.ncli - 1 < 0 then s.fail .popcli
  else s.put c { x with ncli := x.ncli - 1, enabled := x.ncli - 1 = 0 && x.intena } ⟨rest, .run⟩

/-- `sched` up to `swtch`. -/
def sched (x : Core T) (t : T) (l : List Frame) : State C T :=
  if x.ncli ≠ 1 then s.fail .schedLocks
  else if x.enabled then s.fail .schedInterruptible
  else { s with
    cpu := update s.cpu c { x with thread := none }
    flow := update s.flow (.inl t) ⟨l, .swtch x.intena⟩
    running := update s.running t false }

/-- What CPU `c` does next. A `popcli` ends the section begun last, and `sched` is called with one
lock held. -/
def act (x : Core T) (f : Flow) : Act T → Option (State C T)
  | .readeflags => if f.point = .run then some (s.put c x ⟨f.stack, .read x.enabled⟩) else none
  | .cli =>
    match f.point with
    | .read e => some (s.put c { x with
        enabled := false
        intena := if x.ncli = 0 then e else x.intena
        ncli := x.ncli + 1 } ⟨.pushcli e :: f.stack, .run⟩)
    | _ => none
  | .popcli =>
    match f with
    | ⟨.pushcli _ :: rest, .run⟩ | ⟨.forkret :: rest, .run⟩ => some (s.popcli c x rest)
    | _ => none
  | .trap =>
    if x.enabled then some (s.put c { x with enabled := false } ⟨.trap f.point :: f.stack, .run⟩)
    else none
  | .iret =>
    match f with
    | ⟨.trap p :: rest, .run⟩ => some (s.put c { x with enabled := true } ⟨rest, p⟩)
    | _ => none
  | .sti =>
    if x.thread.isNone ∧ f.stack = [] ∧ f.point = .run then
      some (s.put c { x with enabled := true } f)
    else none
  | .sched =>
    match x.thread, f with
    | some t, ⟨.pushcli e :: rest, .run⟩ =>
      if sections rest = 0 then some (s.sched c x t (.pushcli e :: rest)) else none
    | _, _ => none
  | .restore =>
    match f.point with
    | .swtch v => some (s.put c { x with intena := v } ⟨f.stack, .run⟩)
    | _ => none
  | .dispatch t =>
    match x.thread, f with
    | none, ⟨[.pushcli _], .run⟩ =>
      if s.running t then none
      else some { s with
        cpu := update s.cpu c { x with thread := some t }
        running := update s.running t true }
    | _, _ => none

end State

def State.step {C T : Type*} [DecidableEq C] [DecidableEq T] (s : State C T) (l : C × Act T) :
    Option (State C T) :=
  if s.panic.isSome then none else s.act l.1 (s.cpu l.1) (s.flow (s.current l.1)) l.2

/-- Before the CPUs enter `scheduler`. A new thread goes to user mode after `forkret`. -/
structure Booted {C T : Type*} (s : State C T) : Prop where
  cpu : ∀ c, s.cpu c = ⟨0, false, false, none⟩
  thread : ∀ t, s.flow (.inl t) = ⟨[.forkret, .trap .run], .run⟩
  scheduler : ∀ c, s.flow (.inr c) = ⟨[], .run⟩
  running : ∀ t, s.running t = false
  panic : s.panic = none

/-! ## The invariant -/

variable {C T : Type*} {s s' : State C T} {c d : C} {t : T} {x : Core T} {f : Flow}

/-- No section was open where a trap was taken. -/
def Nested : List Frame → Prop
  | [] => True
  | .trap _ :: l => sections l = 0 ∧ Nested l
  | _ :: l => Nested l

/-- The flag before the outermost section, if it is not that of `forkret`. -/
def outer : List Frame → Option Bool
  | [] | .trap _ :: _ => none
  | .pushcli e :: l => if sections l = 0 then some e else outer l
  | .forkret :: l => outer l

/-- What `intena` is when the thread goes on. -/
def Flow.intena (f : Flow) (x : Core T) : Bool :=
  match f.point with
  | .swtch v => v
  | _ => x.intena

/-- A CPU, and the thread or scheduler that it runs. -/
structure Fits (x : Core T) (f : Flow) : Prop where
  ncli : x.ncli = sections f.stack
  off : 0 < sections f.stack → x.enabled = false
  nested : Nested f.stack
  intena : x.thread ≠ none → ∀ e, outer f.stack = some e → f.intena x = e

/-- A thread that no CPU runs. -/
structure Parked (f : Flow) : Prop where
  sections : sections f.stack = 1
  nested : Nested f.stack
  intena : ∀ e, outer f.stack = some e → f.point = .swtch e

structure Inv (s : State C T) : Prop where
  panic : s.panic = none
  fits : ∀ c, Fits (s.cpu c) (s.flow (s.current c))
  parked : ∀ t, s.running t = false → Parked (s.flow (.inl t))
  suspended : ∀ c t, (s.cpu c).thread = some t → ∃ e, s.flow (.inr c) = ⟨[.pushcli e], .run⟩
  running : ∀ c t, (s.cpu c).thread = some t → s.running t = true
  single : ∀ c d t, (s.cpu c).thread = some t → (s.cpu d).thread = some t → c = d

theorem sections_cons {F : Frame} (l : List Frame) (hF : F.counts) :
    sections (F :: l) = sections l + 1 :=
  List.countP_cons_of_pos hF

theorem Booted.inv (h : Booted s) : Inv s := by
  refine ⟨h.panic, fun c => ?_, fun t _ => ?_, fun c t ht => ?_, fun c t ht => ?_,
    fun c d t ht => ?_⟩
  · have hcur : s.current c = .inr c := by rw [State.current, h.cpu]
    rw [hcur, h.cpu, h.scheduler]
    exact ⟨rfl, fun _ => rfl, trivial, fun hne => absurd rfl hne⟩
  · rw [h.thread]
    exact ⟨rfl, ⟨rfl, trivial⟩, fun e he => by cases he⟩
  all_goals
    rw [h.cpu] at ht
    cases ht

theorem current_inl : s.current c = .inl t ↔ (s.cpu c).thread = some t := by
  rw [State.current]
  split <;> simp_all

theorem current_inr (h : s.current c = .inr d) : c = d ∧ (s.cpu c).thread = none := by
  rw [State.current] at h
  split at h
  · cases h
  · exact ⟨Sum.inr.inj h, ‹_›⟩

theorem Inv.current_inj (h : Inv s) (hcur : s.current c = s.current d) : c = d := by
  cases hd : s.current d with
  | inl t =>
    rw [hd] at hcur
    exact h.single c d t (current_inl.1 hcur) (current_inl.1 hd)
  | inr e =>
    rw [hd] at hcur
    exact (current_inr hcur).1.trans (current_inr hd).1.symm

variable [DecidableEq C] [DecidableEq T]

/-- The thread or scheduler on a CPU goes on there. -/
theorem Inv.put (h : Inv s) (hthread : x.thread = (s.cpu c).thread) (hf : Fits x f) :
    Inv (s.put c x f) := by
  have hthreads (d : C) : ((s.put c x f).cpu d).thread = (s.cpu d).thread := by
    rcases eq_or_ne d c with rfl | hd
    · simp [State.put, hthread]
    · simp [State.put, hd]
  have hcurrent (d : C) : (s.put c x f).current d = s.current d := by
    rw [State.current, hthreads, State.current]
  have hflow (y : T ⊕ C) (hy : s.current c ≠ y) : (s.put c x f).flow y = s.flow y :=
    update_of_ne hy.symm ..
  refine ⟨h.panic, fun d => ?_, fun t ht => ?_, fun d t ht => ?_, fun d t ht => ?_,
    fun d d' t hd hd' => ?_⟩
  · rw [hcurrent]
    rcases eq_or_ne d c with rfl | hd
    · simpa [State.put] using hf
    · rw [hflow _ fun e => hd (h.current_inj e).symm]
      simpa [State.put, hd] using h.fits d
  · rw [hflow]
    · exact h.parked t ht
    · intro e
      exact absurd ((h.running c t (current_inl.1 e)).symm.trans ht) (by decide)
  · rw [hthreads] at ht
    rw [hflow]
    · exact h.suspended d t ht
    · intro e
      obtain ⟨rfl, hnone⟩ := current_inr e
      rw [hnone] at ht
      cases ht
  · exact h.running d t (hthreads d ▸ ht)
  · exact h.single d d' t (hthreads d ▸ hd) (hthreads d' ▸ hd')

/-- `popcli` at the end of a section does not panic. -/
theorem Fits.popcli {F : Frame} {l : List Frame} (h : Fits x ⟨F :: l, .run⟩) (hF : F.counts) :
    s.popcli c x l = s.put c { x with
      ncli := sections l
      enabled := decide (sections l = 0) && x.intena } ⟨l, .run⟩ := by
  have hncli : x.ncli - 1 = sections l := by
    rw [h.ncli, sections_cons l hF]
    omega
  have hoff : x.enabled = false := h.off (by rw [sections_cons l hF]; omega)
  rw [State.popcli, if_neg (by simp [hoff]), hncli, if_neg (by omega)]
  simp

theorem sections_of_outer {l : List Frame} {e : Bool} (h : outer l = some e) : sections l ≠ 0 := by
  cases l with
  | nil => cases h
  | cons F l =>
    cases F with
    | trap p => cases h
    | _ =>
      rw [sections_cons l rfl]
      exact Nat.succ_ne_zero _

/-- A section ends; if there is another one around it, that is the outermost as before. -/
theorem Inv.popcli (h : Inv s) {F : Frame} {l : List Frame} (hF : F.counts)
    (hfits : Fits (s.cpu c) ⟨F :: l, .run⟩)
    (houter : sections l ≠ 0 → outer (F :: l) = outer l) (hnested : Nested l) :
    Inv (s.popcli c (s.cpu c) l) := by
  rw [hfits.popcli hF]
  refine h.put rfl ⟨rfl, fun hpos => ?_, hnested, fun hthread e he => ?_⟩
  · simp [hpos.ne']
  · exact hfits.intena hthread e ((houter (sections_of_outer he)).trans he)

/-- CPU `c` begins or ends to run `t`, which no other one runs. -/
theorem Inv.switch (h : Inv s) {o : Option T} (ho : ∀ u, o = some u → u = t)
    (hother : ∀ d, d ≠ c → (s.cpu d).thread ≠ some t)
    (hfits : Fits { s.cpu c with thread := o } (o.elim (s.flow (.inr c)) fun _ => f))
    (hparked : o.isSome = false → Parked f)
    (hsuspended : ∃ e, s.flow (.inr c) = ⟨[.pushcli e], .run⟩) :
    Inv { s with
      cpu := update s.cpu c { s.cpu c with thread := o }
      flow := update s.flow (.inl t) f
      running := update s.running t o.isSome } := by
  refine ⟨h.panic, ?_, ?_, ?_, ?_, ?_⟩
  · intro d
    rcases eq_or_ne d c with rfl | hd
    · cases o with
      | none => simpa [State.current] using hfits
      | some u =>
        obtain rfl := ho u rfl
        simpa [State.current] using hfits
    · have hne : s.current d ≠ .inl t := fun e => hother d hd (current_inl.1 e)
      have hfit := h.fits d
      simp only [State.current] at hne hfit
      simpa [State.current, hd, hne] using hfit
  · exact (forall_update_iff s.running fun u b => b = false → Parked (update s.flow _ f (.inl u))).2
      ⟨by simpa using hparked, fun u hu hb => by simpa [hu] using h.parked u hb⟩
  · intro d u hu
    rcases eq_or_ne d c with rfl | hd
    · simpa using hsuspended
    · simpa using h.suspended d u (by simpa [hd] using hu)
  · intro d u hu
    rcases eq_or_ne d c with rfl | hd
    · simp only [update_self] at hu
      simp [ho u hu, hu]
    · have hu : (s.cpu d).thread = some u := by simpa [hd] using hu
      have hne : u ≠ t := fun e => hother d hd (e ▸ hu)
      simpa [hne] using h.running d u hu
  · intro d d' u hd hd'
    rcases eq_or_ne d c with rfl | hdc
    · by_contra hne
      have hd : o = some u := by simpa using hd
      exact hother d' (Ne.symm hne) (by simpa [Ne.symm hne, ho u hd] using hd')
    · rcases eq_or_ne d' c with rfl | hdc'
      · have hd' : o = some u := by simpa using hd'
        exact absurd (by simpa [hdc, ho u hd'] using hd) (hother d hdc)
      · exact h.single d d' u (by simpa [hdc] using hd) (by simpa [hdc'] using hd')

theorem Inv.sched (h : Inv s) {e : Bool} {l : List Frame} (ht : (s.cpu c).thread = some t)
    (hl : sections l = 0) (hf : s.flow (.inl t) = ⟨.pushcli e :: l, .run⟩) :
    Inv (s.sched c (s.cpu c) t (.pushcli e :: l)) := by
  have hfits := h.fits c
  rw [current_inl.2 ht, hf] at hfits
  have hone : sections (.pushcli e :: l) = 1 := by rw [sections_cons l rfl, hl]
  have hncli : (s.cpu c).ncli = 1 := by rw [hfits.ncli, hone]; rfl
  have hoff : (s.cpu c).enabled = false := hfits.off (by rw [hone]; decide)
  have hintena : (s.cpu c).intena = e := hfits.intena (by simp [ht]) e (if_pos hl)
  obtain ⟨e', hsched⟩ := h.suspended c t ht
  rw [State.sched, if_neg (by simp [hncli]), if_neg (by simp [hoff])]
  refine h.switch (o := none) (fun u hu => by cases hu) ?_ ?_ (fun _ => ?_) ⟨e', hsched⟩
  · exact fun d hd hdt => hd (h.single d c t hdt ht)
  · rw [Option.elim, hsched]
    exact ⟨hncli, fun _ => hoff, trivial, fun hne => absurd rfl hne⟩
  · refine ⟨hone, hfits.nested, fun e' he => ?_⟩
    rw [outer, if_pos hl] at he
    rw [hintena, Option.some.inj he]

theorem Inv.dispatch (h : Inv s) {e : Bool} (hnone : (s.cpu c).thread = none)
    (hf : s.flow (.inr c) = ⟨[.pushcli e], .run⟩) (ht : s.running t = false) :
    Inv { s with
      cpu := update s.cpu c { s.cpu c with thread := some t }
      running := update s.running t true } := by
  have hfits := h.fits c
  have hcur : s.current c = .inr c := by rw [State.current, hnone]
  rw [hcur, hf] at hfits
  have hparked := h.parked t ht
  have hinv := h.switch (c := c) (t := t) (o := some t) (f := s.flow (.inl t))
    (fun u hu => (Option.some.inj hu).symm) ?_ ?_ (fun he => by cases he) ⟨e, hf⟩
  · rwa [update_eq_self] at hinv
  · intro d _ hd
    rw [h.running d t hd] at ht
    cases ht
  · refine ⟨?_, fun _ => hfits.off (Nat.succ_pos 0), hparked.nested, fun _ e he => ?_⟩
    · rw [Option.elim, hparked.sections]
      exact hfits.ncli
    · rw [Option.elim, Flow.intena, hparked.intena e he]

theorem Inv.step {l : C × Act T} (h : Inv s) (hs : s.step l = some s') : Inv s' := by
  obtain ⟨c, a⟩ := l
  rw [State.step, if_neg (by simp [h.panic])] at hs
  have hfits := h.fits c
  dsimp only at hs
  generalize hf : s.flow (s.current c) = f at hs hfits
  obtain ⟨l, p⟩ := f
  cases a with
  | readeflags =>
    obtain ⟨rfl, hs⟩ := Option.ite_none_right_eq_some.1 hs
    cases hs
    exact h.put rfl ⟨hfits.ncli, hfits.off, hfits.nested, hfits.intena⟩
  | cli =>
    cases p with
    | read e =>
      cases hs
      refine h.put rfl ⟨?_, fun _ => rfl, hfits.nested, fun hthread e' he => ?_⟩
      · rw [sections_cons l rfl]
        exact congrArg (· + 1) hfits.ncli
      · have hzero : (s.cpu c).ncli = 0 ↔ sections l = 0 := by rw [hfits.ncli, Int.natCast_eq_zero]
        simp only [outer, ← hzero] at he
        simp only [Flow.intena]
        split at he
        · rw [if_pos ‹_›]
          exact Option.some.inj he
        · rw [if_neg ‹_›]
          exact hfits.intena hthread e' he
    | _ => cases hs
  | popcli =>
    simp only [State.act] at hs
    split at hs
    · rename_i e rest hl
      cases hl
      cases hs
      exact h.popcli rfl hfits (fun hne => if_neg hne) hfits.nested
    · rename_i rest hl
      cases hl
      cases hs
      exact h.popcli rfl hfits (fun _ => rfl) hfits.nested
    · cases hs
  | trap =>
    obtain ⟨hon, hs⟩ := Option.ite_none_right_eq_some.1 hs
    cases hs
    have hnone : sections l = 0 := by
      by_contra hne
      exact absurd (hfits.off (Nat.pos_of_ne_zero hne)) (by simp [hon])
    exact h.put rfl ⟨hfits.ncli, fun _ => rfl, ⟨hnone, hfits.nested⟩, fun _ e he => by cases he⟩
  | iret =>
    simp only [State.act] at hs
    split at hs
    · rename_i q rest hl
      cases hl
      cases hs
      obtain ⟨hnone, hnested⟩ := hfits.nested
      refine h.put rfl ⟨hfits.ncli, fun hpos => absurd hnone hpos.ne', hnested, fun _ e he => ?_⟩
      exact absurd hnone (sections_of_outer he)
    · cases hs
  | sti =>
    obtain ⟨⟨hnone, rfl, rfl⟩, hs⟩ := Option.ite_none_right_eq_some.1 hs
    cases hs
    exact h.put rfl ⟨hfits.ncli, fun hpos => absurd hpos (lt_irrefl 0), trivial,
      fun _ e he => by cases he⟩
  | sched =>
    simp only [State.act] at hs
    split at hs
    · rename_i t e rest ht hl
      cases hl
      obtain ⟨hl, hs⟩ := Option.ite_none_right_eq_some.1 hs
      cases hs
      rw [current_inl.2 ht] at hf
      exact h.sched ht hl hf
    · cases hs
  | restore =>
    cases p with
    | swtch v =>
      cases hs
      exact h.put rfl ⟨hfits.ncli, hfits.off, hfits.nested, hfits.intena⟩
    | _ => cases hs
  | dispatch t =>
    simp only [State.act] at hs
    split at hs
    · rename_i e hnone hl
      cases hl
      split at hs
      · cases hs
      · rename_i ht
        cases hs
        have hcur : s.current c = .inr c := by rw [State.current, hnone]
        rw [hcur] at hf
        exact h.dispatch hnone hf (by simpa using ht)
    · cases hs

/-- **`popcli`** gives a thread back the flag that it had before its outermost section, on whatever
CPU it runs then: when that section ends, `ncli` is 0 and the flag is what it was at the beginning
of its `pushcli`. No panic is reached, and interrupts are off wherever `ncli` is positive. -/
theorem popcli_restores {l : List Frame} {e : Bool} (h0 : Booted s)
    (hr : Run State.step free s s') :
    s'.panic = none ∧ (∀ c, 0 < (s'.cpu c).ncli → (s'.cpu c).enabled = false) ∧
    ∀ c t s'', (s'.cpu c).thread = some t → s'.flow (.inl t) = ⟨.pushcli e :: l, .run⟩ →
      sections l = 0 → s'.step (c, .popcli) = some s'' →
      (s''.cpu c).ncli = 0 ∧ (s''.cpu c).enabled = e := by
  have h : Inv s' := hr.invariant h0.inv fun _ _ _ h hs _ => h.step hs
  refine ⟨h.panic, fun c hpos => (h.fits c).off ?_, fun c t s'' ht hf hl hs => ?_⟩
  · rw [(h.fits c).ncli] at hpos
    exact Int.natCast_pos.1 hpos
  · have hfits := h.fits c
    rw [current_inl.2 ht, hf] at hfits
    have hintena : (s'.cpu c).intena = e := hfits.intena (by simp [ht]) e (if_pos hl)
    rw [State.step, if_neg (by simp [h.panic])] at hs
    simp only [State.act, current_inl.2 ht, hf, hfits.popcli rfl] at hs
    cases hs
    simp [State.put, hl, hintena]

def booted : State (Fin 2) (Fin 2) where
  cpu _ := ⟨0, false, false, none⟩
  flow
    | .inl _ => ⟨[.forkret, .trap .run], .run⟩
    | .inr _ => ⟨[], .run⟩
  running _ := false
  panic := none

/-- A scheduler switches to thread 0. -/
def picks (c : Fin 2) : List (Fin 2 × Act (Fin 2)) :=
  [(c, .sti), (c, .readeflags), (c, .cli), (c, .dispatch 0)]

/-- Thread 0 goes to user mode, and from a system call it goes to sleep and to the other CPU. -/
def migration : List (Fin 2 × Act (Fin 2)) :=
  picks 0 ++ [(0, .popcli), (0, .iret), (0, .readeflags), (0, .cli), (0, .sched)] ++ picks 1 ++
    [(1, .restore)]

theorem popcli_restores_migrated :
    ((next State.step (final State.step booted migration) (1, .popcli)).cpu 1).ncli = 0 ∧
    ((next State.step (final State.step booted migration) (1, .popcli)).cpu 1).enabled = true := by
  have h0 : Booted booted := ⟨fun _ => rfl, fun _ => rfl, fun _ => rfl, fun _ => rfl, rfl⟩
  have hr : Run State.step free booted (final State.step booted migration) := run_free
  exact (popcli_restores (l := []) h0 hr).2.2 1 0 _ (by decide +kernel) (by decide +kernel) rfl
    (step_next _ _ _ (by decide +kernel))

end Xv6.Interrupts
