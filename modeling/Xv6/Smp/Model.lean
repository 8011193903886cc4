import Xv6.Kernel.Step
import Xv6.Lib.Locks

/-! The sections of `proc.c` on several CPUs, cut at every `acquire` and `release`
of `mtable.mlock` and `ptable.lock`. The tables are those of `Kernel`; in addition
each CPU has a point in the code, and each spinlock an owner. A thread that calls
`sched` leaves `ptable.lock` to the scheduler of its CPU, and a thread that the
scheduler switches to finds it held. -/

namespace Xv6

inductive Spinlock where
  | mlock
  | ptable
  deriving DecidableEq, Repr

/-- The functions that run under `mtable.mlock`; `relock` is the rest of
`kthread_mutex_lock` after a `sleep`. -/
inductive MutexCall where
  | alloc | dealloc (mid : Int) | lock (mid : Int) | unlock (mid : Int)
  | relock (m : MutexIx) (mid : Int)
  deriving DecidableEq, Repr

/-- The functions that run under `ptable.lock`. -/
inductive TableCall where
  | join (tid : Int) | killOtherThreads (a : Caller) | wait | yield
  deriving DecidableEq, Repr

/-- Where the caller of `remove_thread` goes on. -/
inductive After where
  | scan (a : Caller) (ts : List ThreadRef)
  | join
  | reap (p : ProcIx) (ts : List ThreadRef)
  deriving DecidableEq, Repr

/-- Where a CPU is; `r` is the thread it runs. -/
inductive CpuPc where
  /-- At the top of the loop of `scheduler`. -/
  | scheduler
  /-- In `scheduler`, with `ptable.lock`. -/
  | picking
  /-- Outside the two locks. -/
  | thread (r : ThreadRef)
  | mutexEnter (r : ThreadRef) (c : MutexCall)
  | mutexBody (r : ThreadRef) (c : MutexCall)
  | mutexLeave (r : ThreadRef)
  /-- In `sleep(m, &mtable.mlock)`: before `acquire(&ptable.lock)`, before
  `release(lk)`, before `sched`, and after it. -/
  | sleepEnter (r : ThreadRef) (m : MutexIx) (mid : Int)
  | sleepBoth (r : ThreadRef) (m : MutexIx) (mid : Int)
  | sleepBody (r : ThreadRef) (m : MutexIx) (mid : Int)
  | sleepDone (r : ThreadRef) (m : MutexIx) (mid : Int)
  /-- `kthread_mutex_unlock` before `release(&mtable.mlock)`, and its `wakeup(m)`. -/
  | unlockLeave (r : ThreadRef) (m : MutexIx)
  | wakeEnter (r : ThreadRef) (m : MutexIx)
  | wakeBody (r : ThreadRef) (m : MutexIx)
  | tableEnter (r : ThreadRef) (c : TableCall)
  | tableBody (r : ThreadRef) (c : TableCall)
  | joinTurn (r : ThreadRef) (i : Fin NTHREAD) (tid : Int)
  | waitTurn (r : ThreadRef)
  /-- In the scan of `kill_other_threads`, with the records `ts` ahead. -/
  | scan (r : ThreadRef) (a : Caller) (found : Bool) (ts : List ThreadRef)
  /-- In the scan of `wait` over the threads of process `p`. -/
  | reap (r : ThreadRef) (p : ProcIx) (ts : List ThreadRef)
  /-- In `remove_thread(t)`, and in the `kthread_mutex_dealloc(mid)` it calls. -/
  | remove (r t : ThreadRef) (k : After)
  | removeEnter (r t : ThreadRef) (mid : Int) (k : After)
  | removeBody (r t : ThreadRef) (mid : Int) (k : After)
  | removeLeave (r t : ThreadRef) (k : After)
  | tableLeave (r : ThreadRef)
  deriving DecidableEq, Repr

structure Smp (C : Type*) where
  kernel : Kernel
  lock : Locks.Table Spinlock C
  pc : C → CpuPc

/-- What a CPU does next, where the code leaves it open. -/
inductive Choice where
  | go
  | mutex (c : MutexCall)
  | table (c : TableCall)
  | pick (r : ThreadRef)
  deriving DecidableEq, Repr

def After.pc (r : ThreadRef) : After → CpuPc
  | .scan a ts => .scan r a true ts
  | .join => .tableLeave r
  | .reap p ts => .reap r p ts

/-- Where a thread goes on that the scheduler has switched to. -/
def Context.resume (r : ThreadRef) : Context → CpuPc
  | .lockLoop m mid => .sleepDone r m mid
  | .killLoop a => .scan r a false (Kernel.slots r.1)
  | .joinLoop i tid => .joinTurn r i tid
  | .waitLoop => .waitTurn r
  | _ => .tableLeave r

namespace Smp

variable {C : Type*} [DecidableEq C]

def goto (s : Smp C) (c : C) (p : CpuPc) : Smp C := { s with pc := Function.update s.pc c p }

def act (s : Smp C) (c : C) (k : Kernel) (p : CpuPc) : Smp C := { s.goto c p with kernel := k }

/-- `acquire(l)`; `none` while it spins. -/
def acquire (s : Smp C) (c : C) (l : Spinlock) (p : CpuPc) : Option (Smp C) :=
  match Locks.lock s.lock c l with
  | some (0, lock) => some { s.goto c p with lock }
  | _ => none

/-- `release(l)`; `none` is its panic. -/
def release (s : Smp C) (c : C) (l : Spinlock) (p : CpuPc) : Option (Smp C) :=
  match Locks.unlock s.lock c l with
  | (0, lock) => some { s.goto c p with lock }
  | _ => none

/-- The exchange of `kthread_mutex_lock`. -/
def lockBody (s : Smp C) (c : C) (r : ThreadRef) (m : MutexIx) (mid : Int) : Smp C :=
  if (s.kernel.mutex m).state = .MUNLOCKED then
    s.act c (s.kernel.takeEntry r m mid) (.mutexLeave r)
  else s.goto c (.sleepEnter r m mid)

def mutexBody (s : Smp C) (c : C) (r : ThreadRef) : MutexCall → Smp C
  | .alloc => s.act c (s.kernel.kthreadMutexAlloc r) (.mutexLeave r)
  | .dealloc mid => s.act c (s.kernel.kthreadMutexDealloc r mid) (.mutexLeave r)
  | .lock mid =>
    match s.kernel.findMutex mid with
    | some m =>
      if (s.kernel.mutex m).state = .MLOCKED ∧ (s.kernel.mutex m).mythread = some r then
        s.act c (s.kernel.sysret r (-1)) (.mutexLeave r)
      else s.lockBody c r m mid
    | none => s.act c (s.kernel.sysret r (-1)) (.mutexLeave r)
  | .relock m mid => s.lockBody c r m mid
  | .unlock mid =>
    match s.kernel.findMutex mid with
    | some m =>
      if (s.kernel.mutex m).state = .MUNLOCKED ∨
          (s.kernel.mutex m).mythread.map (fun o => (s.kernel.thread o).tid) ≠
            some (s.kernel.thread r).tid then
        s.act c (s.kernel.sysret r (-1)) (.mutexLeave r)
      else s.act c (s.kernel.clearEntry r m mid) (.unlockLeave r m)
    | none => s.act c (s.kernel.sysret r (-1)) (.mutexLeave r)

def tableBody (s : Smp C) (c : C) (r : ThreadRef) : TableCall → Smp C
  | .yield =>
    s.act c (s.kernel.setThread r fun t => { t with state := .TRUNNABLE }) .picking
  | .killOtherThreads a =>
    if (s.kernel.thread r).killed then
      s.act c ((s.kernel.wakeup1 (.thread r)).setThread r
        fun t => { t with state := .TZOMBIE, context := .dead }) .picking
    else s.goto c (.scan r a false (Kernel.slots r.1))
  | .join tid =>
    match (List.finRange NTHREAD).find? fun i => (s.kernel.thread (r.1, i)).tid = tid with
    | some i => s.goto c (.joinTurn r i tid)
    | none => s.act c (s.kernel.sysret r (-1)) (.tableLeave r)
  | .wait => s.goto c (.waitTurn r)

def joinTurn (s : Smp C) (c : C) (r : ThreadRef) (i : Fin NTHREAD) (tid : Int) : Smp C :=
  let t := s.kernel.thread (r.1, i)
  if t.tid = tid ∧ t.state ≠ .TZOMBIE ∧ t.state ≠ .TUNUSED then
    s.act c (s.kernel.sleep r (.thread (r.1, i)) (.joinLoop i tid)) .picking
  else if t.state = .TZOMBIE then
    s.act c (s.kernel.sysret r 0) (.remove r (r.1, i) .join)
  else s.act c (s.kernel.sysret r (-1)) (.tableLeave r)

def waitTurn (s : Smp C) (c : C) (r : ThreadRef) : Smp C :=
  match s.kernel.zombieChild r.1 with
  | some p => s.goto c (.reap r p (Kernel.slots p))
  | none =>
    if !s.kernel.haveKids r.1 || (s.kernel.proc r.1).killed then
      s.act c (s.kernel.sysret r (-1)) (.tableLeave r)
    else s.act c (s.kernel.sleep r (.proc r.1) .waitLoop) .picking

/-- The scan of `kill_other_threads` visits a record, or is over. -/
def scan (s : Smp C) (c : C) (r : ThreadRef) (a : Caller) (found : Bool) :
    List ThreadRef → Smp C
  | [] =>
    if found then
      s.act c (s.kernel.setThread r fun t => { t with state := .TRUNNABLE, context := .killLoop a })
        .picking
    else s.act c (s.kernel.setThread r fun t => { t with context := a.resume }) (.tableLeave r)
  | t :: ts =>
    if s.kernel.doomed r t then
      s.act c (s.kernel.setThread t fun x => { x with killed := true })
        (if s.kernel.victim r t then .remove r t (.scan a ts) else .scan r a true ts)
    else s.goto c (.scan r a found ts)

def reap (s : Smp C) (c : C) (r : ThreadRef) (p : ProcIx) : List ThreadRef → Smp C
  | [] =>
    s.act c (((s.kernel.setProc p
      fun q => { q with pid := 0, parent := none, killed := false, state := .PUNUSED }).log
      (.reaped (s.kernel.proc p).pid)).sysret r (s.kernel.proc p).pid) (.tableLeave r)
  | t :: ts => s.goto c (.remove r t (.reap p ts))

/-- `remove_thread(t)` up to the `kthread_mutex_dealloc` in it. -/
def remove (s : Smp C) (c : C) (r t : ThreadRef) (k : After) : Smp C :=
  match (s.kernel.thread t).mutex with
  | some m => s.goto c (.removeEnter r t (s.kernel.mutex m).mid k)
  | none => s.act c (s.kernel.setThread t Thread.remove) (k.pc r)

def removeBody (s : Smp C) (c : C) (r t : ThreadRef) (mid : Int) (k : After) : Smp C :=
  match s.kernel.mutexFree r mid with
  | some k' =>
    s.act c (k'.log (.reclaim (s.kernel.thread t).tid (s.kernel.proc t.1).pid mid))
      (.removeLeave r t k)
  | none => s.goto c (.removeLeave r t k)

/-- CPU `c` goes on in the code it is in. -/
def go (s : Smp C) (c : C) : Option (Smp C) :=
  match s.pc c with
  | .thread _ => none
  | .scheduler => s.acquire c .ptable .picking
  | .picking => s.release c .ptable .scheduler
  | .mutexEnter r x => s.acquire c .mlock (.mutexBody r x)
  | .mutexBody r x => some (s.mutexBody c r x)
  | .mutexLeave r => s.release c .mlock (.thread r)
  | .sleepEnter r m mid => s.acquire c .ptable (.sleepBoth r m mid)
  | .sleepBoth r m mid => s.release c .mlock (.sleepBody r m mid)
  | .sleepBody r m mid =>
    some (s.act c (s.kernel.sleep r (.mutex m) (.lockLoop m mid)) .picking)
  | .sleepDone r m mid => s.release c .ptable (.mutexEnter r (.relock m mid))
  | .unlockLeave r m => s.release c .mlock (.wakeEnter r m)
  | .wakeEnter r m => s.acquire c .ptable (.wakeBody r m)
  | .wakeBody r m => some (s.act c ((s.kernel.wakeup1 (.mutex m)).sysret r 0) (.tableLeave r))
  | .tableEnter r x => s.acquire c .ptable (.tableBody r x)
  | .tableBody r x => some (s.tableBody c r x)
  | .joinTurn r i tid => some (s.joinTurn c r i tid)
  | .waitTurn r => some (s.waitTurn c r)
  | .scan r a found ts => some (s.scan c r a found ts)
  | .reap r p ts => some (s.reap c r p ts)
  | .remove r t k => some (s.remove c r t k)
  | .removeEnter r t mid k => s.acquire c .mlock (.removeBody r t mid k)
  | .removeBody r t mid k => some (s.removeBody c r t mid k)
  | .removeLeave r t k =>
    (s.release c .mlock (k.pc r)).map fun s' =>
      { s' with kernel := s'.kernel.setThread t Thread.remove }
  | .tableLeave r => s.release c .ptable (.thread r)

/-- CPU `c` takes its next step: in the code it is in, into a system call of the
thread it runs, or, in `scheduler`, to the thread it picks. -/
def step (s : Smp C) : C × Choice → Option (Smp C)
  | (c, .go) => s.go c
  | (_, .mutex (.relock ..)) => none
  | (c, .mutex x) =>
    match s.pc c with
    | .thread r => some (s.goto c (.mutexEnter r x))
    | _ => none
  | (c, .table x) =>
    match s.pc c with
    | .thread r => some (s.goto c (.tableEnter r x))
    | _ => none
  | (c, .pick r) =>
    match s.pc c with
    | .picking =>
      (s.kernel.step (.dispatch r)).map fun k => s.act c k ((s.kernel.thread r).context.resume r)
    | _ => none

end Smp
end Xv6
