import Mathlib.Algebra.GroupWithZero.Nat
import Mathlib.Data.Fin.Basic
import Mathlib.Data.List.FinRange

/-! The process, thread and mutex tables of `proc.h` and `proc.c`. A pointer
into a table is the index of the entry it points at, the null pointer is
`none`. What a saved `context` and trap frame make a thread do next is the
field `context`. The C counters are signed: their overflow is undefined, so
`nextpid`, `nexttid` and `nextmid` never wrap here. -/

namespace Xv6

abbrev NPROC : Nat := 64
abbrev NTHREAD : Nat := 16
abbrev MAX_MUTEXES : Nat := 64

instance : NeZero NPROC := ⟨by decide⟩

instance : NeZero NTHREAD := ⟨by decide⟩

abbrev ProcIx := Fin NPROC
abbrev MutexIx := Fin MAX_MUTEXES
/-- `&ptable.proc[p].threads[i]`. -/
abbrev ThreadRef := ProcIx × Fin NTHREAD

inductive ProcState where
  | PUNUSED | PEMBRYO | PUSED | PZOMBIE
  deriving DecidableEq, Repr

inductive ThreadState where
  | TUNUSED | TEMBRYO | TSLEEPING | TRUNNABLE | TRUNNING | TZOMBIE | TINVALID
  deriving DecidableEq, Repr

inductive MutexState where
  | MUNLOCKED | MLOCKED
  deriving DecidableEq, Repr

/-- What a thread can sleep on: a mutex entry (`kthread_mutex_lock`), a thread
record (`kthread_join`), a process record (`wait`), or an address that belongs
to another part of the kernel (buffers, inodes, the log, pipes, ticks). -/
inductive Chan where
  | mutex (m : MutexIx)
  | thread (t : ThreadRef)
  | proc (p : ProcIx)
  | other (a : Nat)
  deriving DecidableEq, Repr

/-- The system calls of `proc.c`; `other` is any system call that lives in
another part of the kernel. -/
inductive Call where
  | fork | exit | wait | exec | kill (pid : Int)
  | kthreadCreate | kthreadId | kthreadExit | kthreadJoin (tid : Int)
  | mutexAlloc | mutexDealloc (mid : Int) | mutexLock (mid : Int) | mutexUnlock (mid : Int)
  | other
  deriving DecidableEq, Repr

/-- Who called `kill_other_threads`. -/
inductive Caller where
  | exit | exec
  deriving DecidableEq, Repr

/-- Where a thread stands between two of its atomic sections.
`user`: in user mode; `resumed`: back from the `yield` of a timer interrupt;
`call c`: in the kernel, past the killed checks of `trap`, before the first
lock of `c`; `ret v`: about to leave the kernel with `%eax = v`. -/
inductive Context where
  | user | resumed | call (c : Call) | ret (v : Int)
  /-- About to run `kthread_exit`. -/
  | kexit
  /-- About to run `exit`. -/
  | exit
  /-- In the `for(;;)` of `kill_other_threads`, waiting to scan again. -/
  | killLoop (a : Caller)
  /-- Past `kill_other_threads`, in `safe_exit`. -/
  | safeExit
  /-- Past `kill_other_threads`, in `exec`. -/
  | execBody
  /-- In the `while(xchg(..))` of `kthread_mutex_lock(mid)` on entry `m`. -/
  | lockLoop (m : MutexIx) (mid : Int)
  /-- In `kthread_mutex_unlock`, past `release(&mtable.mlock)`, before `wakeup(m)`. -/
  | unlockWake (m : MutexIx)
  /-- In the `for(;;)` of `kthread_join(tid)` on record `i` of its process. -/
  | joinLoop (i : Fin NTHREAD) (tid : Int)
  /-- In the `for(;;)` of `wait`. -/
  | waitLoop
  /-- Switched away from for good. -/
  | dead
  deriving DecidableEq, Repr

structure Thread where
  tid : Int
  state : ThreadState
  kstack : Option Nat
  parent : Option ProcIx
  chan : Option Chan
  killed : Bool
  mutex : Option MutexIx
  context : Context
  deriving DecidableEq, Repr

structure Proc where
  state : ProcState
  pid : Int
  parent : Option ProcIx
  killed : Bool
  deriving DecidableEq, Repr

structure Mutex where
  mythread : Option ThreadRef
  myproc : Option ProcIx
  mid : Int
  state : MutexState
  deriving DecidableEq, Repr

/-- What the system calls on mutexes and `wait` have returned so far. No
modelled function reads the history; only statements do. -/
inductive Event where
  /-- `kthread_mutex_alloc` of thread `tid` in process `pid` returned `mid`. -/
  | alloc (tid pid mid : Int)
  /-- A `kthread_mutex_dealloc(mid)` call returned 0. -/
  | dealloc (mid : Int)
  /-- `kthread_mutex_lock(mid)` of thread `tid` returned 0, with entry `m`. -/
  | lock (tid mid : Int) (m : MutexIx)
  /-- `kthread_mutex_unlock(mid)` of thread `tid` cleared the mutex; it returns 0. -/
  | unlock (tid mid : Int)
  /-- `remove_thread` on thread `tid` of process `pid` deallocated mutex `mid`. -/
  | reclaim (tid pid mid : Int)
  /-- `wait` reaped process `pid`. -/
  | reaped (pid : Int)
  deriving DecidableEq, Repr

structure Kernel where
  proc : ProcIx → Proc
  thread : ThreadRef → Thread
  mutex : MutexIx → Mutex
  nextpid : Int
  nexttid : Int
  nextmid : Int
  /-- Where `allocthread` starts looking for a free process. -/
  helper : ProcIx
  /-- Latest event first. -/
  hist : List Event

/-- Static storage is zero. -/
def Thread.zero : Thread := ⟨0, .TUNUSED, none, none, none, false, none, .dead⟩
def Proc.zero : Proc := ⟨.PUNUSED, 0, none, false⟩
def Mutex.zero : Mutex := ⟨none, none, 0, .MUNLOCKED⟩

/-- The static `initproc`: `userinit` runs on an empty table and gets its first entry. -/
def initproc : ProcIx := 0

/-- The tables after `userinit`: process 1 with one runnable thread. -/
def boot : Kernel where
  proc p := if p = initproc then ⟨.PUSED, 1, none, false⟩ else .zero
  thread r := if r = (initproc, 0) then
    ⟨1, .TRUNNABLE, some 0, some initproc, none, false, none, .user⟩ else .zero
  mutex _ := .zero
  nextpid := 2
  nexttid := 2
  nextmid := 1
  helper := 1
  hist := []

namespace Kernel

def setThread (k : Kernel) (r : ThreadRef) (f : Thread → Thread) : Kernel :=
  { k with thread := fun s => if s = r then f (k.thread s) else k.thread s }

def setProc (k : Kernel) (p : ProcIx) (f : Proc → Proc) : Kernel :=
  { k with proc := fun q => if q = p then f (k.proc q) else k.proc q }

def setMutex (k : Kernel) (m : MutexIx) (f : Mutex → Mutex) : Kernel :=
  { k with mutex := fun n => if n = m then f (k.mutex n) else k.mutex n }

def log (k : Kernel) (e : Event) : Kernel := { k with hist := e :: k.hist }

end Kernel
end Xv6
