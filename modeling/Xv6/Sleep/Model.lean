import Xv6.Kernel.State
import Xv6.Lib.Locks
import Xv6.Lib.Runs

/-! `sleep` and `wakeup` with the spinlocks of their callers, cut at every `acquire` and
`release` and at every turn of the loop in `wakeup1`. `L` are the spinlocks beside
`ptable.lock`, `D` is the data they protect, `H` the channels, `W` the reasons to wait:
a thread that waits for `w` tests a condition on the data and sleeps on the channel of
`w` under the lock of `w`. The locks belong to CPUs, as in `spinlock.c`; a thread that
calls `sched` leaves `ptable.lock` to the scheduler of its CPU, and a thread that the
scheduler switches to finds it held. -/

namespace Xv6.Sleep

open Runs Function

inductive Spinlock (L : Type*) where
  | ptable
  | lk (l : L)
  deriving DecidableEq, Repr

/-- The callers of `sleep`: `while(!cond) sleep(chan, lk)`. -/
structure Waits (D W H L : Type*) where
  cond : W → D → Bool
  chan : W → H
  lk : W → Spinlock L

/-- Where a thread is. -/
inductive Pc (W H T : Type*) where
  /-- In its own code. -/
  | body
  /-- In `sleep`: before `acquire(&ptable.lock)`, before `release(lk)`, before the thread
  is put to sleep, in `sched`, before `release(&ptable.lock)`, before `acquire(lk)`. -/
  | sleepEnter (w : W)
  | sleepBoth (w : W)
  | sleepBody (w : W)
  | asleep (w : W)
  | sleepLeave (w : W)
  | sleepAgain (w : W)
  /-- In `wakeup`: before `acquire(&ptable.lock)`, and before the `release`. -/
  | wakeEnter (a : H)
  | wakeLeave
  /-- In the loop of `wakeup1` with the records `ts` ahead; `locked` when it was `wakeup`
  that took the lock. -/
  | wakeScan (a : H) (ts : List T) (locked : Bool)
  /-- In `yield`: before `acquire(&ptable.lock)`, and before `sched`. -/
  | yieldEnter
  | yieldBody
  /-- After the `sched` of `yield`, and in `forkret`: before `release(&ptable.lock)`. -/
  | leave
  deriving DecidableEq, Repr

structure Thread (W H T : Type*) where
  state : ThreadState
  chan : Option H
  killed : Bool
  pc : Pc W H T
  /-- The calls of `wakeup` that its code has still to make, for conditions it has made
  true. -/
  owes : List H

structure State (D W H L T C : Type*) where
  data : D
  lock : Locks.Table (Spinlock L) C
  ncli : C → Nat
  /-- `c->thread`; `none` while CPU `c` is in `scheduler`. -/
  run : C → Option T
  thread : T → Thread W H T

/-- What a CPU does next. -/
inductive Act (D W H L T : Type*) where
  /-- Goes on in `sleep`, `wakeup` or `yield`; the scheduler takes or leaves its lock. -/
  | go
  | acquire (l : Spinlock L)
  | release (l : Spinlock L)
  /-- Writes the data; the code goes on to call `wakeup` on the channels `as`. -/
  | update (f : D → D) (as : List H)
  /-- `while(!cond) sleep(chan, lk)`: the test, and the call of `sleep`. -/
  | test (w : W)
  | wakeup (a : H)
  | wakeup1 (a : H)
  | yield
  /-- `t->killed = 1` in `kill_other_threads`. -/
  | kill (t : T)
  /-- The scheduler comes to the record of `t`. -/
  | visit (t : T)

/-- The body of the loop of `wakeup1`. -/
def Thread.wake {W H T : Type*} [DecidableEq H] (x : Thread W H T) (a : H) : Thread W H T :=
  if x.state = .TSLEEPING ∧ x.chan = some a then { x with state := .TRUNNABLE } else x

/-- `scheduler` makes a killed sleeper runnable. -/
def Thread.rouse {W H T : Type*} (x : Thread W H T) : Thread W H T :=
  if x.state = .TSLEEPING ∧ x.killed then { x with state := .TRUNNABLE } else x

namespace State

variable {D W H L T C : Type*} [DecidableEq H] [DecidableEq L] [DecidableEq T] [DecidableEq C]

def set (s : State D W H L T C) (t : T) (f : Thread W H T → Thread W H T) : State D W H L T C :=
  { s with thread := update s.thread t (f (s.thread t)) }

def goto (s : State D W H L T C) (t : T) (p : Pc W H T) : State D W H L T C :=
  s.set t fun x => { x with pc := p }

/-- Thread `t` writes the data. -/
def write (s : State D W H L T C) (t : T) (f : D → D) (as : List H) : State D W H L T C :=
  { s.set t fun x => { x with owes := x.owes ++ as } with data := f s.data }

/-- `acquire(l)`, with its `pushcli`; `none` while it spins, and for its panic. -/
def acquire (s : State D W H L T C) (c : C) (l : Spinlock L) : Option (State D W H L T C) :=
  match Locks.lock s.lock c l with
  | some (0, lock) => some { s with lock, ncli := update s.ncli c (s.ncli c + 1) }
  | _ => none

/-- `release(l)`, with its `popcli`; `none` is its panic. -/
def release (s : State D W H L T C) (c : C) (l : Spinlock L) : Option (State D W H L T C) :=
  match Locks.unlock s.lock c l with
  | (0, lock) => some { s with lock, ncli := update s.ncli c (s.ncli c - 1) }
  | _ => none

/-- `sched`, which panics without `ptable.lock` or with another lock. -/
def sched (s : State D W H L T C) (c : C) : Option (State D W H L T C) :=
  if s.lock .ptable = .locked c ∧ s.ncli c = 1 then
    some { s with run := update s.run c none }
  else none

/-- `scheduler` switches to `t`. -/
def dispatch (s : State D W H L T C) (c : C) (t : T) : State D W H L T C :=
  { s.set t fun x => { x with state := .TRUNNING } with run := update s.run c (some t) }

/-- The body of the loop of `scheduler` over the threads. -/
def visit (s : State D W H L T C) (c : C) (t : T) : State D W H L T C :=
  let s' := s.set t Thread.rouse
  if (s'.thread t).state = .TRUNNABLE then s'.dispatch c t else s'

variable (E : Waits D W H L) (table : List T)

/-- CPU `c`, which runs `t`, goes on in the function that `t` is in. -/
def go (s : State D W H L T C) (c : C) (t : T) : Option (State D W H L T C) :=
  match (s.thread t).pc with
  | .body => none
  | .sleepEnter w => (s.acquire c .ptable).map (goto · t (.sleepBoth w))
  | .sleepBoth w => (s.release c (E.lk w)).map (goto · t (.sleepBody w))
  | .sleepBody w =>
    (s.set t fun x =>
      { x with chan := some (E.chan w), state := .TSLEEPING, pc := .asleep w }).sched c
  | .asleep w =>
    some (s.set t fun x =>
      { x with chan := none, pc := if E.lk w = .ptable then .body else .sleepLeave w })
  | .sleepLeave w => (s.release c .ptable).map (goto · t (.sleepAgain w))
  | .sleepAgain w => (s.acquire c (E.lk w)).map (goto · t .body)
  | .wakeEnter a => (s.acquire c .ptable).map (goto · t (.wakeScan a table true))
  | .wakeScan a (r :: ts) locked => some ((s.set r (·.wake a)).goto t (.wakeScan a ts locked))
  | .wakeScan a [] locked =>
    some (s.set t fun x =>
      { x with owes := x.owes.erase a, pc := if locked then .wakeLeave else .body })
  | .wakeLeave => (s.release c .ptable).map (goto · t .body)
  | .yieldEnter => (s.acquire c .ptable).map (goto · t .yieldBody)
  | .yieldBody => (s.set t fun x => { x with state := .TRUNNABLE, pc := .leave }).sched c
  | .leave => (s.release c .ptable).map (goto · t .body)

/-- The own code of thread `t`, which CPU `c` runs. -/
def act (s : State D W H L T C) (c : C) (t : T) : Act D W H L T → Option (State D W H L T C)
  | .acquire l => s.acquire c l
  | .release l => s.release c l
  | .update f as => some (s.write t f as)
  | .test w =>
    if E.cond w s.data then some s
    else some (s.goto t (if E.lk w = .ptable then .sleepBody w else .sleepEnter w))
  | .wakeup a => some (s.goto t (.wakeEnter a))
  | .wakeup1 a => some (s.goto t (.wakeScan a table false))
  | .yield => some (s.goto t .yieldEnter)
  | .kill r => some (s.set r fun x => { x with killed := true })
  | .go | .visit _ => none

/-- `scheduler` on CPU `c`. -/
def schedule (s : State D W H L T C) (c : C) : Act D W H L T → Option (State D W H L T C)
  | .go => if s.lock .ptable = .locked c then s.release c .ptable else s.acquire c .ptable
  | .visit t => if s.lock .ptable = .locked c then some (s.visit c t) else none
  | _ => none

def step (s : State D W H L T C) : C × Act D W H L T → Option (State D W H L T C)
  | (c, a) =>
    match s.run c with
    | none => s.schedule c a
    | some t =>
      match (s.thread t).pc, a with
      | .body, a => s.act E table c t a
      | _, .go => s.go E table c t
      | _, _ => none

/-- The discipline: a condition is tested under its lock; it is made true under its lock,
by code that goes on to call `wakeup` on its channel; `wakeup1` runs under
`ptable.lock`. -/
def Disciplined : Guard (State D W H L T C) (C × Act D W H L T)
  | s, (c, .test w), _ => s.lock (E.lk w) = .locked c
  | s, (c, .update f as), _ => ∀ t w, s.run c = some t → E.cond w s.data = false →
      E.cond w (f s.data) = true → s.lock (E.lk w) = .locked c ∧
        E.chan w ∈ (s.thread t).owes ++ as
  | s, (c, .wakeup1 _), _ => s.lock .ptable = .locked c
  | _, _, _ => True

/-- No lock is held, no thread has run, and each goes on in `forkret`. -/
structure Booted (s : State D W H L T C) : Prop where
  lock : ∀ l, s.lock l = .unlocked
  ncli : ∀ c, s.ncli c = 0
  run : ∀ c, s.run c = none
  thread : ∀ t, (s.thread t).state = .TRUNNABLE ∧ (s.thread t).pc = .leave ∧
    (s.thread t).owes = []

end State
end Xv6.Sleep
