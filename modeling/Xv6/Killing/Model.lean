import Mathlib.Data.Fintype.Basic
import Xv6.Kernel.State
import Xv6.Pipes.Model

/-! `kill` and the five loops that test `myproc()->killed` before they sleep: in `wait`,
`piperead`, `pipewrite`, `consoleread` and `sys_sleep`. A step is an `acquire`, a `release`, a
test, or a section under `ptable.lock`. What the loops wait for is changed by other code, at any
time and in any way; so are the threads woken that sleep on a channel. -/

namespace Xv6.Killing

open Runs Function

/-- The loops; `B` are the pipes. -/
inductive Loop (B : Type)
  | wait
  | piperead (b : B)
  | pipewrite (b : B)
  | consoleread
  /-- `sys_sleep` has read `ticks0` and the argument `n`. -/
  | sleep (ticks0 n : BitVec 32)
  deriving DecidableEq, Repr

inductive Lock (B : Type)
  | ptable
  | pipe (b : B)
  | cons
  | tickslock
  deriving DecidableEq, Repr

inductive Chan (B : Type)
  | proc (p : ProcIx)
  | nread (b : B)
  | nwrite (b : B)
  | input
  | ticks
  deriving DecidableEq, Repr

/-- What the loops look at: the pipes, `input.r` and `input.w`, `ticks`, and the family of a
process. -/
structure Data (B : Type) where
  pipe : B → Pipes.Pipe
  inputR : BitVec 32
  inputW : BitVec 32
  ticks : BitVec 32
  parent : ProcIx → Option ProcIx
  state : ProcIx → ProcState

variable {B : Type}

def Data.havekids (d : Data B) (p : ProcIx) : Bool := ∃ q, d.parent q = some p

def Data.exited (d : Data B) (p : ProcIx) : Bool :=
  ∃ q, d.parent q = some p ∧ d.state q = .PZOMBIE

namespace Loop

/-- The lock of the loop, which it gives to `sleep`. -/
def lk : Loop B → Lock B
  | .wait => .ptable
  | .piperead b | .pipewrite b => .pipe b
  | .consoleread => .cons
  | .sleep _ _ => .tickslock

/-- The channel that a thread of process `p` sleeps on. -/
def chan (p : ProcIx) : Loop B → Chan B
  | .wait => .proc p
  | .piperead b => .nread b
  | .pipewrite b => .nwrite b
  | .consoleread => .input
  | .sleep _ _ => .ticks

/-- The condition of the loop. -/
def cond (d : Data B) (p : ProcIx) : Loop B → Bool
  | .wait => !d.exited p
  | .piperead b => (d.pipe b).empty && (d.pipe b).writeopen
  | .pipewrite b => (d.pipe b).full
  | .consoleread => d.inputR = d.inputW
  | .sleep ticks0 n => (d.ticks - ticks0).toNat < n.toNat

/-- What is tested together with `killed`. -/
def stop (d : Data B) (p : ProcIx) : Loop B → Bool
  | .wait => !d.havekids p
  | .pipewrite b => !(d.pipe b).readopen
  | _ => false

/-- `pipewrite` calls `wakeup(&p->nread)` between the test and `sleep`. -/
def wakes : Loop B → Option (Chan B)
  | .pipewrite b => some (.nread b)
  | _ => none

/-- The loops of `pipewrite` and `consoleread` are entered again for the next byte. -/
def repeats : Loop B → Bool
  | .pipewrite _ | .consoleread => true
  | _ => false

end Loop

/-- Where a thread is. -/
inductive Pc (B : Type)
  | out
  /-- Before `acquire(lk)`; at the condition of the loop; at the test of `killed`. -/
  | enter (l : Loop B)
  | test (l : Loop B)
  | ifKilled (l : Loop B)
  /-- In the `wakeup` of `pipewrite`: before `acquire(&ptable.lock)`, and under it. -/
  | wakeEnter (l : Loop B)
  | wakeBody (l : Loop B)
  /-- In `sleep`: before `acquire(&ptable.lock)`, before `release(lk)`, before the thread is put
  to sleep. -/
  | sleepEnter (l : Loop B)
  | sleepBoth (l : Loop B)
  | sleepBody (l : Loop B)
  /-- `TSLEEPING`; then `TRUNNABLE`; then running again, with `ptable.lock`; before
  `acquire(lk)`. -/
  | asleep (l : Loop B)
  | woken (l : Loop B)
  | resumed (l : Loop B)
  | sleepAgain (l : Loop B)
  /-- The loop is left and what it waited for is used; before `release(lk)`. -/
  | use (l : Loop B)
  | leave (l : Loop B)
  /-- In `kill`: before `acquire(&ptable.lock)`, in the loop over the table, before the
  `release`. -/
  | killEnter (pid : Int)
  | killScan (pid : Int)
  | killLeave
  deriving DecidableEq, Repr

structure State (B T : Type) where
  data : Data B
  pid : ProcIx → Int
  /-- `p->killed` -/
  killed : ProcIx → Bool
  /-- `t->killed` -/
  threadKilled : T → Bool
  lock : Lock B → Option T
  thread : T → Pc B

inductive Label (B T : Type)
  | call (t : T) (l : Loop B)
  | kill (t : T) (pid : Int)
  /-- `t` goes on; `next` says whether there is another byte to wait for. -/
  | run (t : T) (next : Bool)
  /-- `scheduler` comes to the record of `t`. -/
  | visit (t : T)
  /-- `t->killed = 1` in `kill_other_threads`. -/
  | killThread (t : T)
  /-- Other code calls `wakeup`, or changes the data. -/
  | wakeup (c : Chan B)
  | change (d : Data B)
  /-- `wait` frees the entry; `allocthread` takes it. -/
  | free (p : ProcIx)
  | take (p : ProcIx) (pid : Int)

variable {T : Type}

/-- A thread of process `p` that sleeps on `c` becomes runnable. -/
def Pc.wake [DecidableEq B] (p : ProcIx) (c : Chan B) : Pc B → Pc B
  | .asleep l => if l.chan p = c then .woken l else .asleep l
  | pc => pc

namespace State

variable [DecidableEq B] [DecidableEq T] (proc : T → ProcIx)

def goto (s : State B T) (t : T) (pc : Pc B) : State B T :=
  { s with thread := update s.thread t pc }

def setLock (s : State B T) (l : Lock B) (o : Option T) : State B T :=
  { s with lock := update s.lock l o }

def acquire (s : State B T) (t : T) (l : Lock B) (pc : Pc B) : Option (State B T) :=
  if s.lock l = none then some ((s.setLock l (some t)).goto t pc) else none

def release (s : State B T) (t : T) (l : Lock B) (pc : Pc B) : State B T :=
  (s.setLock l none).goto t pc

/-- `wakeup1(c)` -/
def wakeup1 (s : State B T) (c : Chan B) : State B T :=
  { s with thread := fun t => (s.thread t).wake (proc t) c }

/-- The entry that `kill(pid)` finds. -/
def target (s : State B T) (pid : Int) : Option ProcIx :=
  (List.finRange NPROC).find? fun p => s.pid p = pid

/-- `sleep(chan, lk)` is called. -/
def sleep (l : Loop B) : Pc B := if l.lk = .ptable then .sleepBody l else .sleepEnter l

/-- Thread `t` goes on. -/
def run (s : State B T) (t : T) (next : Bool) : Option (State B T) :=
  match s.thread t with
  | .out => none
  | .enter l => s.acquire t l.lk (.test l)
  | .test l => some (s.goto t (if l.cond s.data (proc t) then .ifKilled l else .use l))
  | .ifKilled l =>
    if l.stop s.data (proc t) ∨ s.killed (proc t) then some (s.goto t (.leave l))
    else some (s.goto t (if l.wakes = none then sleep l else .wakeEnter l))
  | .wakeEnter l => s.acquire t .ptable (.wakeBody l)
  | .wakeBody l =>
    match l.wakes with
    | some c => some ((s.wakeup1 proc c).release t .ptable (sleep l))
    | none => none
  | .sleepEnter l => s.acquire t .ptable (.sleepBoth l)
  | .sleepBoth l => some (s.release t l.lk (.sleepBody l))
  -- `sched` leaves `ptable.lock` to the scheduler
  | .sleepBody l => some (s.release t .ptable (.asleep l))
  | .asleep _ => none
  | .woken l => s.acquire t .ptable (.resumed l)
  | .resumed l =>
    if l.lk = .ptable then some (s.goto t (.test l))
    else some (s.release t .ptable (.sleepAgain l))
  | .sleepAgain l => s.acquire t l.lk (.test l)
  | .use l => some (s.goto t (if l.repeats ∧ next then .test l else .leave l))
  | .leave l => some (s.release t l.lk .out)
  | .killEnter pid => s.acquire t .ptable (.killScan pid)
  | .killScan pid =>
    match s.target pid with
    | some p => some ({ s with killed := update s.killed p true }.goto t .killLeave)
    | none => some (s.goto t .killLeave)
  | .killLeave => some (s.release t .ptable .out)

/-- `proc` says to which process a thread belongs. -/
def step (s : State B T) : Label B T → Option (State B T)
  | .call t l => if s.thread t = .out then some (s.goto t (.enter l)) else none
  | .kill t pid => if s.thread t = .out then some (s.goto t (.killEnter pid)) else none
  | .run t next => s.run proc t next
  | .visit t =>
    match s.thread t with
    | .asleep l =>
      if s.lock .ptable = none ∧ s.threadKilled t then some (s.goto t (.woken l)) else none
    | _ => none
  | .killThread t =>
    if s.lock .ptable = none then
      some { s with threadKilled := update s.threadKilled t true }
    else none
  | .wakeup c => if s.lock .ptable = none then some (s.wakeup1 proc c) else none
  | .change d => some { s with data := d }
  | .free p =>
    if s.lock .ptable = none then
      some { s with
        pid := update s.pid p 0
        killed := update s.killed p false }
    else none
  | .take p pid =>
    if s.lock .ptable = none then some { s with pid := update s.pid p pid } else none

end State
end Xv6.Killing
