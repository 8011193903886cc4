import Xv6.Killing.Model

/-! Who is asleep when its process is killed. A kill that comes before the test of `killed` is
seen by it. `kill` itself wakes nobody, and the scheduler looks at `t->killed`: a kill that comes
after the test leaves the thread asleep. -/

namespace Xv6.Killing

open Runs Function

variable {B T : Type}

/-- The thread has passed the test of `killed` and is going to sleep, or asleep. -/
def Pc.unaware : Pc B → Bool
  | .wakeEnter _ | .wakeBody _ | .sleepEnter _ | .sleepBoth _ | .sleepBody _ | .asleep _ => true
  | _ => false

/-- `kill` finds no process with a thread that has passed the test of `killed` and has not been
woken since. -/
def Spares (proc : T → ProcIx) : Guard (State B T) (Label B T) := fun s l _ =>
  ∀ t next pid p, l = .run t next → s.thread t = .killScan pid → s.target pid = some p →
    ∀ u, proc u = p → (s.thread u).unaware = false

/-- No thread that has passed the test belongs to a process that is killed. -/
def Inv (proc : T → ProcIx) (s : State B T) : Prop :=
  ∀ t, (s.thread t).unaware = true → s.killed (proc t) = false

variable {proc : T → ProcIx} {s s' : State B T} {t u : T} {l : Loop B} {pc : Pc B}

theorem Pc.unaware_wake [DecidableEq B] {p : ProcIx} {c : Chan B}
    (h : (pc.wake p c).unaware = true) : pc.unaware = true := by
  cases pc <;> first | rfl | exact h

variable [DecidableEq T]

theorem Inv.goto {thread : T → Pc B} (hi : Inv proc s) (hthread : s'.thread = update thread t pc)
    (ht : pc.unaware = true → (s.thread t).unaware = true ∨ s.killed (proc t) = false := by
      exact fun h => absurd h Bool.false_ne_true)
    (hothers : ∀ u, (thread u).unaware = true → (s.thread u).unaware = true := by
      exact fun _ h => h)
    (hkilled : s'.killed = s.killed := by rfl) : Inv proc s' := by
  unfold Inv
  rw [hthread, hkilled]
  refine (forall_update_iff thread fun u pc => pc.unaware = true → _).2
    ⟨fun h => (ht h).elim (hi t) id, fun u _ h => hi u (hothers u h)⟩

variable [DecidableEq B]

theorem Inv.acquire {k : Lock B} (hi : Inv proc s) (h : s.acquire t k pc = some s')
    (ht : pc.unaware = true → (s.thread t).unaware = true := by
      exact fun h => absurd h Bool.false_ne_true) : Inv proc s' := by
  obtain ⟨-, hs⟩ := Option.ite_none_right_eq_some.1 h
  cases hs
  exact hi.goto rfl fun h => .inl (ht h)

theorem Inv.run {next : Bool} (hi : Inv proc s)
    (hg : ∀ pid p, s.thread t = .killScan pid → s.target pid = some p →
      ∀ u, proc u = p → (s.thread u).unaware = false)
    (h : s.run proc t next = some s') : Inv proc s' := by
  unfold State.run at h
  split at h
  · cases h
  · exact hi.acquire h
  · cases h
    refine hi.goto rfl fun h => ?_
    split at h <;> cases h
  · next l ht =>
    split at h
    · cases h
      exact hi.goto rfl
    · next hk =>
      cases h
      refine hi.goto rfl fun _ => .inr ?_
      simpa using (not_or.1 hk).2
  · next l ht => exact hi.acquire h fun _ => by rw [ht]; rfl
  · next l ht =>
    split at h
    · cases h
      exact hi.goto rfl (fun _ => .inl (by rw [ht]; rfl)) fun u => Pc.unaware_wake
    · cases h
  · next l ht => exact hi.acquire h fun _ => by rw [ht]; rfl
  · next l ht =>
    cases h
    exact hi.goto rfl fun _ => .inl (by rw [ht]; rfl)
  · next l ht =>
    cases h
    exact hi.goto rfl fun _ => .inl (by rw [ht]; rfl)
  · cases h
  · exact hi.acquire h
  · split at h <;> cases h <;> exact hi.goto rfl
  · exact hi.acquire h
  · cases h
    refine hi.goto rfl fun h => ?_
    split at h <;> cases h
  · cases h
    exact hi.goto rfl
  · exact hi.acquire h
  · next pid ht =>
    split at h
    · next p hp =>
      cases h
      have hspared := hg pid p ht hp
      refine (forall_update_iff s.thread fun u pc => pc.unaware = true →
        update s.killed p true (proc u) = false).2
        ⟨fun h => absurd h Bool.false_ne_true, fun u _ hu => ?_⟩
      rw [update_of_ne]
      · exact hi u hu
      · intro hpu
        rw [hspared u hpu] at hu
        cases hu
    · cases h
      exact hi.goto rfl
  · cases h
    exact hi.goto rfl

theorem Inv.step {x : Label B T} (hi : Inv proc s) (hg : Spares proc s x s')
    (h : s.step proc x = some s') : Inv proc s' := by
  cases x with
  | call t l | kill t pid =>
    obtain ⟨-, hs⟩ := Option.ite_none_right_eq_some.1 h
    cases hs
    exact hi.goto rfl
  | run t next => exact hi.run (fun pid p => hg t next pid p rfl) h
  | visit t =>
    simp only [State.step] at h
    split at h
    · obtain ⟨-, hs⟩ := Option.ite_none_right_eq_some.1 h
      cases hs
      exact hi.goto rfl
    · cases h
  | killThread t | take p pid =>
    obtain ⟨-, hs⟩ := Option.ite_none_right_eq_some.1 h
    cases hs
    exact hi
  | wakeup c =>
    obtain ⟨-, hs⟩ := Option.ite_none_right_eq_some.1 h
    cases hs
    exact fun u hu => hi u (Pc.unaware_wake hu)
  | change d =>
    cases h
    exact hi
  | free p =>
    obtain ⟨-, hs⟩ := Option.ite_none_right_eq_some.1 h
    cases hs
    intro u hu
    show update s.killed p false (proc u) = false
    by_cases hp : proc u = p
    · rw [hp, update_self]
    · rw [update_of_ne hp]
      exact hi u hu

/-- **Killed sleepers.** When `kill` finds only processes without a thread that has passed the
test of `killed` (guard `Spares`), no thread of a killed process is asleep in one of the five
loops, whether or not locks are held. -/
theorem killed_awake (proc : T → ProcIx) (s0 : State B T) (h0 : ∀ t, s0.thread t = .out)
    (s : State B T) (hr : Run (State.step proc) (Spares proc) s0 s) (t : T) (l : Loop B)
    (hasleep : s.thread t = .asleep l) : s.killed (proc t) = false := by
  have hi : Inv proc s := by
    refine hr.invariant (fun t ht => ?_) fun a x b ha hs hg => ha.step hg hs
    rw [h0 t] at ht
    cases ht
  refine hi t ?_
  rw [hasleep]
  rfl

/-- Thread `i` is the one of process `i`, and process 1 is a child of process 0. Pipe 0 is empty
and pipe 1 full. -/
def threeProcesses : State (Fin 2) (Fin 3) where
  data :=
    { pipe := fun b => ⟨fun _ => 0, 0, if b = 0 then 0 else 512, true, true⟩
      inputR := 0
      inputW := 0
      ticks := 0
      parent := fun q => if q = 1 then some 0 else none
      state := fun _ => .PUSED }
  pid := fun p => p.val + 1
  killed := fun _ => false
  threadKilled := fun _ => false
  lock := fun _ => none
  thread := fun _ => .out

def procOf (t : Fin 3) : ProcIx := Fin.ofNat NPROC t.val

/-- The state after the steps `ls`. -/
abbrev ran (ls : List (Label (Fin 2) (Fin 3))) : State (Fin 2) (Fin 3) :=
  final (State.step procOf) threeProcesses ls

/-- Thread `t` calls and goes on for `n` steps. -/
def into (t : Fin 3) (l : Loop (Fin 2)) (n : Nat) : List (Label (Fin 2) (Fin 3)) :=
  .call t l :: List.replicate n (.run t false)

/-- Thread 1 kills process 0. -/
def kill0 : List (Label (Fin 2) (Fin 3)) := .kill 1 1 :: List.replicate 3 (.run 1 false)

/-- Thread 2 falls asleep in `sys_sleep`; thread 0 is killed when it has found the pipe empty. -/
def killInTime : List (Label (Fin 2) (Fin 3)) :=
  into 2 (.sleep 0 5) 6 ++ into 0 (.piperead 0) 2 ++ kill0 ++ List.replicate 2 (.run 0 false)

def isSpared (s : State (Fin 2) (Fin 3)) : Label (Fin 2) (Fin 3) → Bool
  | .run t _ =>
    match s.thread t with
    | .killScan pid => (List.finRange 3).all fun u =>
        s.target pid ≠ some (procOf u) || !(s.thread u).unaware
    | _ => true
  | _ => true

theorem isSpared_guard {s s' : State (Fin 2) (Fin 3)} {l : Label (Fin 2) (Fin 3)}
    (h : isSpared s l) : Spares procOf s l s' := by
  rintro t next pid p rfl ht hp u rfl
  simp only [isSpared, ht, List.all_eq_true] at h
  simpa [hp] using h u (List.mem_finRange u)

theorem killed_awake_inTime : (ran killInTime).killed 0 = true ∧
    (ran killInTime).thread 0 = .out ∧ (ran killInTime).killed 2 = false := by
  refine ⟨by decide +kernel, by decide +kernel, ?_⟩
  refine killed_awake procOf threeProcesses (fun _ => rfl) _ ?_ 2 (.sleep 0 5) (by decide +kernel)
  exact run_final isSpared_guard

/-- Each of the loops, with the number of steps until a thread that has to wait is asleep. -/
def loops : List (Loop (Fin 2) × Nat) :=
  [(.wait, 4), (.piperead 0, 6), (.pipewrite 1, 8), (.consoleread, 6), (.sleep 0 5, 6)]

/-- Thread 0 belongs to a killed process and is asleep in the loop, and no lock is held. -/
def Stuck (l : Loop (Fin 2)) (s : State (Fin 2) (Fin 3)) : Prop :=
  s.killed 0 = true ∧ s.thread 0 = .asleep l ∧ s.lock .ptable = none ∧ s.lock l.lk = none
  deriving Decidable

/-- In each of the five loops a thread that is killed while it sleeps goes on sleeping. -/
theorem killed_asleep : loops.Forall fun x =>
    Run (State.step procOf) free threeProcesses
        (ran (into 0 x.1 x.2 ++ kill0)) ∧
      Stuck x.1 (ran (into 0 x.1 x.2 ++ kill0)) := by
  rw [List.forall_iff_forall_mem]
  intro x hx
  refine ⟨run_free ?_, ?_⟩ <;> revert x <;> decide +kernel

end Xv6.Killing
