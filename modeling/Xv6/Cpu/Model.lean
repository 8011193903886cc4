import Mathlib.Logic.Function.Basic
import Xv6.Kernel.Stacks

/-! The CPUs over the tables of `Kernel`: `struct cpu`, the loops of `scheduler`, the
handover of `ptable.lock` through `swtch`, and the list of free pages that kernel stacks
come from. There are as many CPUs as the type `C` has elements. A thread runs a section
of `proc.c` with the lock held; it then releases the lock, or it has called `sched` and
its CPU is back in `scheduler`, with the lock. -/

namespace Xv6

/-- Where the `scheduler` of a CPU is. -/
inductive Place where
  /-- Past `sti`, before `acquire(&ptable.lock)`. -/
  | idle
  /-- In the loop over the processes, at index `p`. -/
  | procs (p : Nat)
  /-- In the loop over the threads of process `p`, at index `i`. -/
  | threads (p : ProcIx) (i : Nat)
  /-- In `swtch`: the CPU runs thread `t`. -/
  | switched (t : ThreadRef)
  /-- Back from `swtch` to thread `t`. -/
  | back (t : ThreadRef)
  deriving DecidableEq, Repr

/-- `struct cpu`, with the place of its scheduler. -/
structure Cpu where
  proc : Option ProcIx
  thread : Option ThreadRef
  place : Place
  deriving DecidableEq, Repr

structure Machine (C : Type*) where
  kernel : Kernel
  cpu : C → Cpu
  /-- The CPU that holds `ptable.lock`. -/
  lock : Option C
  /-- `kmem.freelist`, by page. -/
  freelist : List Nat
  /-- The pages in use elsewhere: page tables, user memory, pipes. -/
  pages : List Nat

/-- What a CPU does next. -/
inductive Act where
  | acquire | release
  /-- The scheduler goes on in its loops. -/
  | schedule
  /-- The thread runs its next section; `copied` is whether `copyuvm` succeeds. -/
  | run (copied : Bool)
  | yield | timer | fault | syscall (y : Call) | block (a : Nat)
  /-- A `wakeup` from outside `proc.c`, by the thread or by an interrupt of an idle CPU. -/
  | wakeup (a : Nat)
  /-- `kalloc` and `kfree` from outside `proc.c`. -/
  | kalloc | kfree (a : Nat)
  deriving DecidableEq, Repr

/-- The step of `Kernel` that an action of thread `t` is; `page` is what `kalloc`
returns. -/
def Act.label (t : ThreadRef) (page : Option Nat) : Act → Option Label
  | .run copied => some (.run t page copied)
  | .yield => some (.yield t)
  | .timer => some (.timer t)
  | .fault => some (.fault t)
  | .syscall y => some (.syscall t y)
  | .block a => some (.block t a)
  | _ => none

/-- The system calls that take `ptable.lock` first. -/
def Call.locks : Call → Bool
  | .fork | .exit | .wait | .exec | .kill _ | .kthreadCreate | .kthreadExit | .kthreadJoin _ => true
  | _ => false

namespace Kernel

/-- The action takes `ptable.lock`: `kthread_mutex_lock` only to sleep, a timer interrupt
in user mode only to `yield`. -/
def needsLock (k : Kernel) (t : ThreadRef) : Act → Bool
  | .run _ =>
    match (k.thread t).context with
    | .call (.mutexLock mid) =>
      match k.findMutex mid with
      | some m => (k.mutex m).state = .MLOCKED ∧ (k.mutex m).mythread ≠ some t
      | none => false
    | .lockLoop m _ => (k.mutex m).state = .MLOCKED
    | .call y => y.locks
    | .kexit | .exit | .killLoop _ | .safeExit | .unlockWake _ | .joinLoop _ _ | .waitLoop => true
    | .user | .resumed | .ret _ | .execBody | .dead => false
  | .timer => !(k.proc t.1).killed && !(k.thread t).killed
  | .yield | .block _ => true
  | _ => false

/-- The pages that a step frees, in the order of the calls of `remove_thread`. -/
def freed (k : Kernel) (l : Label) : List Nat :=
  (k.removals l).filterMap fun t => (k.thread t).kstack

/-- `scheduler` looks at thread `t` and makes a killed sleeper runnable. -/
def roused (k : Kernel) (t : ThreadRef) : Kernel :=
  if (k.thread t).state = .TSLEEPING ∧ (k.thread t).killed then
    k.setThread t fun x => { x with state := .TRUNNABLE }
  else k

/-- `scheduler` switches to `t`; with the tidy up of `sleep`, which the thread does
first. -/
def dispatched (k : Kernel) (t : ThreadRef) : Kernel :=
  (k.roused t).setThread t fun x => { x with state := .TRUNNING, chan := none }

end Kernel

namespace Machine

variable {C : Type*} [DecidableEq C]

def setCpu (m : Machine C) (c : C) (x : Cpu) : Machine C :=
  { m with cpu := Function.update m.cpu c x }

/-- `kmem.freelist` after a step: a new kernel stack is taken from its head, and freed
ones are put there. -/
def freelistAfter (m : Machine C) (l : Label) : List Nat :=
  (m.kernel.freed l).reverse ++ if m.kernel.allocates l then m.freelist.tail else m.freelist

/-- The body of the loop over the threads. -/
def visit (m : Machine C) (c : C) (t : ThreadRef) : Machine C :=
  if ((m.kernel.roused t).thread t).state = .TRUNNABLE then
    { m.setCpu c { m.cpu c with thread := some t, place := .switched t } with
      kernel := m.kernel.dispatched t }
  else
    { m.setCpu c { m.cpu c with place := .threads t.1 (t.2 + 1) } with
      kernel := m.kernel.roused t }

/-- `scheduler` on CPU `c`, which holds the lock, goes on. -/
def schedule (m : Machine C) (c : C) : Option (Machine C) :=
  match (m.cpu c).place with
  | .procs p =>
    if h : p < NPROC then
      if (m.kernel.proc ⟨p, h⟩).state = .PUSED then
        some (m.setCpu c { m.cpu c with proc := some ⟨p, h⟩, place := .threads ⟨p, h⟩ 0 })
      else some (m.setCpu c { m.cpu c with place := .procs (p + 1) })
    else some { m.setCpu c { m.cpu c with place := .idle } with lock := none }
  | .threads p i =>
    if h : i < NTHREAD then some (m.visit c (p, ⟨i, h⟩))
    else some (m.setCpu c ⟨none, none, .procs (p + 1)⟩)
  | .back t =>
    if (m.kernel.proc t.1).state = .PUSED then
      some (m.setCpu c { m.cpu c with thread := none, place := .threads t.1 (t.2 + 1) })
    else some (m.setCpu c ⟨none, none, .procs (t.1 + 1)⟩)
  | .idle | .switched _ => none

/-- The thread that CPU `c` runs does `a`. -/
def act (m : Machine C) (c : C) (a : Act) : Option (Machine C) :=
  match (m.cpu c).place, (m.cpu c).thread with
  | .switched r, some t =>
    if m.lock = some c ∨ m.kernel.needsLock t a = false then
      (a.label t m.freelist.head?).bind fun l => (m.kernel.step l).map fun k =>
        { m.setCpu c { m.cpu c with
            place := if (k.thread t).state = .TRUNNING then .switched r else .back r } with
          kernel := k, freelist := m.freelistAfter l }
    else none
  | _, _ => none

def acquire (m : Machine C) (c : C) : Option (Machine C) :=
  if m.lock = none then
    match (m.cpu c).place with
    | .idle => some { m.setCpu c { m.cpu c with place := .procs 0 } with lock := some c }
    | .switched _ => some { m with lock := some c }
    | _ => none
  else none

def release (m : Machine C) (c : C) : Option (Machine C) :=
  match (m.cpu c).place with
  | .switched _ => if m.lock = some c then some { m with lock := none } else none
  | _ => none

def wakeup (m : Machine C) (c : C) (a : Nat) : Option (Machine C) :=
  match (m.cpu c).place with
  | .switched _ =>
    if m.lock = some c then some { m with kernel := m.kernel.wakeup1 (.other a) } else none
  | .idle => if m.lock = none then some { m with kernel := m.kernel.wakeup1 (.other a) } else none
  | _ => none

def kalloc (m : Machine C) : Option (Machine C) :=
  match m.freelist with
  | a :: rest => some { m with freelist := rest, pages := a :: m.pages }
  | [] => none

def kfree (m : Machine C) (a : Nat) : Option (Machine C) :=
  if a ∈ m.pages then some { m with freelist := a :: m.freelist, pages := m.pages.erase a }
  else none

def step (m : Machine C) : C × Act → Option (Machine C)
  | (c, .acquire) => m.acquire c
  | (c, .release) => m.release c
  | (c, .schedule) => m.schedule c
  | (c, .wakeup a) => m.wakeup c a
  | (_, .kalloc) => m.kalloc
  | (_, .kfree a) => m.kfree a
  | (c, a) => m.act c a

/-- After `userinit`: every CPU is about to enter the loop of `scheduler`, and no page is
in two places. -/
structure Booted (m : Machine C) : Prop where
  kernel : m.kernel = boot
  cpu : ∀ c, m.cpu c = ⟨none, none, .idle⟩
  lock : m.lock = none
  pages : (m.freelist ++ m.pages).Nodup
  stack : ∀ a, (boot.thread (initproc, 0)).kstack = some a → a ∉ m.freelist ++ m.pages

end Machine
end Xv6
