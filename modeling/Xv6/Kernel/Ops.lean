import Xv6.Kernel.State

/-! The functions of `proc.c`, each as one atomic section: the code between
`acquire` and `release` of `ptable.lock` or `mtable.mlock`, with the sections
nested in it. A function that sleeps in a loop is one definition per turn of
the loop; `r` or `c` is the thread that runs it (`mythread()`), and its process
is `r.1` (`myproc()`). A section ends by saving the context to go on from. -/

namespace Xv6

/-- One thread's part of `wakeup1`. -/
def Thread.wake (c : Chan) (t : Thread) : Thread :=
  if t.state = .TSLEEPING ∧ t.chan = some c then { t with state := .TRUNNABLE } else t

/-- What `remove_thread` stores; `mutex` and `chan` keep their values. -/
def Thread.remove (t : Thread) : Thread :=
  { t with kstack := none, tid := 0, state := .TUNUSED, parent := none, killed := false }

/-- What `kthread_mutex_dealloc` stores; `myproc` keeps its value. -/
def Mutex.free (x : Mutex) : Mutex :=
  { x with mid := 0, mythread := none, state := .MUNLOCKED }

/-- Where the caller of `kill_other_threads` goes on. -/
def Caller.resume : Caller → Context
  | .exit => .safeExit
  | .exec => .execBody

namespace Kernel

/-- The thread records of process `p`, in array order. -/
def slots (p : ProcIx) : List ThreadRef := (List.finRange NTHREAD).map fun i => (p, i)

/-- The system call of `r` returns `v` to `trap`. -/
def sysret (k : Kernel) (r : ThreadRef) (v : Int) : Kernel :=
  k.setThread r fun t => { t with context := .ret v }

/-! ## Sleep and wakeup -/

def wakeup1 (k : Kernel) (c : Chan) : Kernel :=
  { k with thread := fun r => (k.thread r).wake c }

def wakeup2 (k : Kernel) (p : ProcIx) (c : Chan) : Kernel :=
  { k with thread := fun r => if r.1 = p then (k.thread r).wake c else k.thread r }

/-- `sleep(chan, lk)`, up to the switch to the scheduler; `next` is where the
caller goes on. -/
def sleep (k : Kernel) (r : ThreadRef) (chan : Chan) (next : Context) : Kernel :=
  k.setThread r fun t => { t with chan := some chan, state := .TSLEEPING, context := next }

/-! ## Mutexes -/

/-- The scan of `mtable` for an entry with `m->mid == mid`. -/
def findMutex (k : Kernel) (mid : Int) : Option MutexIx :=
  (List.finRange MAX_MUTEXES).find? fun m => (k.mutex m).mid = mid

/-- `kthread_mutex_alloc` with the free entry `m`. -/
def allocEntry (k : Kernel) (r : ThreadRef) (m : MutexIx) : Kernel :=
  ((({ k with nextmid := k.nextmid + 1 }.setMutex m
    fun _ => ⟨none, some r.1, k.nextmid, .MUNLOCKED⟩).setThread r
    fun t => { t with mutex := some m }).log
    (.alloc (k.thread r).tid (k.proc r.1).pid k.nextmid)).sysret r k.nextmid

def kthreadMutexAlloc (k : Kernel) (r : ThreadRef) : Kernel :=
  match k.findMutex 0 with
  | some m => k.allocEntry r m
  | none => k.sysret r (-1)

/-- `kthread_mutex_dealloc` run by `r` on entry `m`, which is not locked. -/
def freeEntry (k : Kernel) (r : ThreadRef) (m : MutexIx) : Kernel :=
  (k.setMutex m Mutex.free).setThread r fun t => { t with mutex := none }

/-- `kthread_mutex_dealloc(mid)` run by `r`, up to its return: `none` where it
returns -1. -/
def mutexFree (k : Kernel) (r : ThreadRef) (mid : Int) : Option Kernel :=
  match k.findMutex mid with
  | some m => if (k.mutex m).state = .MLOCKED then none else some (k.freeEntry r m)
  | none => none

def kthreadMutexDealloc (k : Kernel) (r : ThreadRef) (mid : Int) : Kernel :=
  match k.mutexFree r mid with
  | some k' => (k'.log (.dealloc mid)).sysret r 0
  | none => k.sysret r (-1)

/-- `kthread_mutex_lock(mid)` after an exchange that found entry `m` unlocked. -/
def takeEntry (k : Kernel) (r : ThreadRef) (m : MutexIx) (mid : Int) : Kernel :=
  ((k.setMutex m fun x => { x with state := .MLOCKED, mythread := some r }).log
    (.lock (k.thread r).tid mid m)).sysret r 0

/-- One turn of `while(xchg(&m->state, MLOCKED) != 0) sleep(m, &mtable.mlock)`
and, when the exchange finds the mutex unlocked, the code after the loop. -/
def lockTurn (k : Kernel) (r : ThreadRef) (m : MutexIx) (mid : Int) : Kernel :=
  if (k.mutex m).state = .MUNLOCKED then k.takeEntry r m mid
  else k.sleep r (.mutex m) (.lockLoop m mid)

def kthreadMutexLock (k : Kernel) (r : ThreadRef) (mid : Int) : Kernel :=
  match k.findMutex mid with
  | some m =>
    if (k.mutex m).state = .MLOCKED ∧ (k.mutex m).mythread = some r then k.sysret r (-1)
    else k.lockTurn r m mid
  | none => k.sysret r (-1)

/-- `kthread_mutex_unlock(mid)` on entry `m` by its owner, up to
`release(&mtable.mlock)`. -/
def clearEntry (k : Kernel) (r : ThreadRef) (m : MutexIx) (mid : Int) : Kernel :=
  ((k.setMutex m fun x => { x with mythread := none, state := .MUNLOCKED }).log
    (.unlock (k.thread r).tid mid)).setThread r fun t => { t with context := .unlockWake m }

/-- `kthread_mutex_unlock`. A locked entry always has an owner
(`MutexInv.locked_owned`), so the null owner below is never dereferenced. -/
def kthreadMutexUnlock (k : Kernel) (r : ThreadRef) (mid : Int) : Kernel :=
  match k.findMutex mid with
  | some m =>
    if (k.mutex m).state = .MUNLOCKED ∨
        (k.mutex m).mythread.map (fun o => (k.thread o).tid) ≠ some (k.thread r).tid then
      k.sysret r (-1)
    else k.clearEntry r m mid
  | none => k.sysret r (-1)

/-! ## Threads -/

/-- `remove_thread(t)` run by `c`. -/
def removeThread (k : Kernel) (c t : ThreadRef) : Kernel :=
  let k' := match (k.thread t).mutex with
    | some m =>
      match k.mutexFree c (k.mutex m).mid with
      | some k' => k'.log (.reclaim (k.thread t).tid (k.proc t.1).pid (k.mutex m).mid)
      | none => k
    | none => k
  k'.setThread t Thread.remove

/-- `kthread_create` and `allocthread` after a successful `kalloc`: record `t`
of process `p` becomes a thread about to enter user mode. -/
def startThread (k : Kernel) (t : ThreadRef) (page : Nat) : Kernel :=
  { k with nexttid := k.nexttid + 1 }.setThread t fun x => { x with
    tid := k.nexttid, parent := some t.1, kstack := some page, state := .TRUNNABLE,
    context := .user }

/-- The same after a failed `kalloc` or `copyuvm`: the tid is spent and stays in
the record. -/
def spoilThread (k : Kernel) (t : ThreadRef) : Kernel :=
  { k with nexttid := k.nexttid + 1 }.setThread t fun x => { x with
    tid := k.nexttid, parent := some t.1, kstack := none, state := .TUNUSED }

/-- The first unused thread record of process `p`. -/
def freeSlot (k : Kernel) (p : ProcIx) : Option ThreadRef :=
  (slots p).find? fun t => (k.thread t).state = .TUNUSED

/-- `kthread_create`; `page` is what `kalloc` returns. -/
def kthreadCreate (k : Kernel) (c : ThreadRef) (page : Option Nat) : Kernel :=
  match k.freeSlot c.1 with
  | some t =>
    match page with
    | some a => (k.startThread t a).sysret c k.nexttid
    | none => (k.spoilThread t).sysret c (-1)
  | none => k.sysret c (-1)

/-- The thread records other than `c` that are neither unused nor zombies. -/
def othersAlive (k : Kernel) (c : ThreadRef) : Bool :=
  (slots c.1).any fun t =>
    t ≠ c ∧ (k.thread t).state ≠ .TUNUSED ∧ (k.thread t).state ≠ .TZOMBIE

def kthreadExit (k : Kernel) (c : ThreadRef) : Kernel :=
  if k.othersAlive c then
    (k.setThread c fun t => { t with state := .TZOMBIE, context := .dead }).wakeup2 c.1 (.thread c)
  else k.setThread c fun t => { t with context := .exit }

/-- One turn of the `for(;;)` of `kthread_join(tid)` on record `i` of the
process, and the code after the loop. -/
def joinTurn (k : Kernel) (c : ThreadRef) (i : Fin NTHREAD) (tid : Int) : Kernel :=
  let t := k.thread (c.1, i)
  if t.tid = tid ∧ t.state ≠ .TZOMBIE ∧ t.state ≠ .TUNUSED then
    k.sleep c (.thread (c.1, i)) (.joinLoop i tid)
  else if t.state = .TZOMBIE then (k.removeThread c (c.1, i)).sysret c 0
  else k.sysret c (-1)

/-- `kthread_join(tid)`. When no record has the tid, the scan stops one past the
array, on `num_of_threads` and `invalid`; both are zero, an unused record. -/
def kthreadJoin (k : Kernel) (c : ThreadRef) (tid : Int) : Kernel :=
  match (List.finRange NTHREAD).find? fun i => (k.thread (c.1, i)).tid = tid with
  | some i => k.joinTurn c i tid
  | none => k.sysret c (-1)

/-! ## Teardown -/

/-- The test of the scan of `kill_other_threads`. -/
def doomed (k : Kernel) (c t : ThreadRef) : Bool :=
  (k.thread t).tid ≠ (k.thread c).tid ∧ (k.thread t).state ≠ .TUNUSED

/-- A doomed thread that the scan removes at once. -/
def victim (k : Kernel) (c t : ThreadRef) : Bool :=
  k.doomed c t ∧ ((k.thread t).state = .TSLEEPING ∨ (k.thread t).state = .TZOMBIE)

/-- The body of the scan of `kill_other_threads`, with its flag `found`. -/
def killVisit (c : ThreadRef) (s : Bool × Kernel) (t : ThreadRef) : Bool × Kernel :=
  if s.2.doomed c t then
    let k := s.2.setThread t fun x => { x with killed := true }
    (true, if s.2.victim c t then k.removeThread c t else k)
  else s

def killScan (k : Kernel) (c : ThreadRef) : Bool × Kernel :=
  (slots c.1).foldl (killVisit c) (false, k)

/-- One turn of the `for(;;)` of `kill_other_threads`. -/
def killTurn (k : Kernel) (c : ThreadRef) (a : Caller) : Kernel :=
  let s := k.killScan c
  if s.1 then
    s.2.setThread c fun t => { t with state := .TRUNNABLE, context := .killLoop a }
  else s.2.setThread c fun t => { t with context := a.resume }

def killOtherThreads (k : Kernel) (c : ThreadRef) (a : Caller) : Kernel :=
  if (k.thread c).killed then
    (k.wakeup1 (.thread c)).setThread c fun t => { t with state := .TZOMBIE, context := .dead }
  else k.killTurn c a

/-- `exit`; `none` is the panic "init exiting". -/
def exit (k : Kernel) (c : ThreadRef) : Option Kernel :=
  if c.1 = initproc then none else some (k.killOtherThreads c .exit)

/-! ## Processes -/

/-- `q->parent == p`. -/
def childOf (k : Kernel) (p q : ProcIx) : Bool := (k.proc q).parent = some p

/-- The first child of `p` that is a zombie. -/
def zombieChild (k : Kernel) (p : ProcIx) : Option ProcIx :=
  (List.finRange NPROC).find? fun q => k.childOf p q ∧ (k.proc q).state = .PZOMBIE

def haveKids (k : Kernel) (p : ProcIx) : Bool := (List.finRange NPROC).any (k.childOf p)

/-- `safe_exit` passes the children of `p` to init. -/
def reparent (k : Kernel) (p : ProcIx) : Kernel :=
  let k' := { k with proc := fun q =>
    { k.proc q with parent := bif k.childOf p q then some initproc else (k.proc q).parent } }
  if (k.zombieChild p).isSome then k'.wakeup1 (.proc initproc) else k'

/-- `wakeup1(curproc->parent)`: the parent might be sleeping in `wait`. -/
def wakeParent (k : Kernel) (p : ProcIx) : Kernel :=
  match (k.proc p).parent with
  | some q => k.wakeup1 (.proc q)
  | none => k

/-- The last section of `safe_exit`. -/
def safeExit (k : Kernel) (c : ThreadRef) : Kernel :=
  (((k.wakeParent c.1).reparent c.1).setProc c.1 fun p => { p with state := .PZOMBIE }).setThread c
    fun t => { t with state := .TUNUSED, context := .dead }

/-- What `wait` does with a zombie child `p`. -/
def reap (k : Kernel) (c : ThreadRef) (p : ProcIx) : Kernel :=
  (((slots p).foldl (fun k t => k.removeThread c t) k).setProc p
    fun q => { q with pid := 0, parent := none, killed := false, state := .PUNUSED }).log
    (.reaped (k.proc p).pid)

/-- One turn of the `for(;;)` of `wait`. -/
def waitTurn (k : Kernel) (c : ThreadRef) : Kernel :=
  match k.zombieChild c.1 with
  | some p => (k.reap c p).sysret c (k.proc p).pid
  | none =>
    if !k.haveKids c.1 || (k.proc c.1).killed then k.sysret c (-1)
    else k.sleep c (.proc c.1) .waitLoop

/-- The two scans of `allocthread`: from `helper` on, then from the start. -/
def freeProc (k : Kernel) : Option ProcIx :=
  ((List.finRange NPROC).find? fun p => k.helper ≤ p ∧ (k.proc p).state = .PUNUSED).or
    ((List.finRange NPROC).find? fun p => (k.proc p).state = .PUNUSED)

/-- `allocthread` takes process `p`. -/
def takeProc (k : Kernel) (p : ProcIx) : Kernel :=
  { k with helper := k.helper + 1, nextpid := k.nextpid + 1 }.setProc p
    fun q => { q with pid := k.nextpid }

/-- `fork`, with the `allocthread` in it. `page` is what `kalloc` returns and
`copied` whether `copyuvm` succeeds; on a failure the process entry is unused
again, with its new pid. -/
def fork (k : Kernel) (c : ThreadRef) (page : Option Nat) (copied : Bool) : Kernel :=
  match k.freeProc with
  | some p =>
    match page, copied with
    | some a, true =>
      (((k.takeProc p).setProc p fun q => { q with
        state := .PUSED, parent := some c.1 }).startThread (p, 0) a).sysret c k.nextpid
    | _, _ => ((k.takeProc p).spoilThread (p, 0)).sysret c (-1)
  | none => k.sysret c (-1)

def kill (k : Kernel) (c : ThreadRef) (pid : Int) : Kernel :=
  match (List.finRange NPROC).find? fun p => (k.proc p).pid = pid with
  | some p => (k.setProc p fun q => { q with killed := true }).sysret c 0
  | none => k.sysret c (-1)

end Kernel
end Xv6
