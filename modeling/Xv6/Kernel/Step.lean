import Xv6.Kernel.Ops

/-! The kernel as a transition system. A label names the thread that runs and
what the outside contributes: the next system call, the page `kalloc` returns,
whether `copyuvm` succeeds. Any number of threads can be `TRUNNING`, so every
number of CPUs is covered. -/

namespace Xv6

inductive Label where
  /-- `scheduler` switches to `r`. -/
  | dispatch (r : ThreadRef)
  /-- `scheduler` makes a killed sleeper runnable. -/
  | rouse (r : ThreadRef)
  /-- A timer interrupt while `r` is in the kernel. -/
  | yield (r : ThreadRef)
  /-- A timer interrupt while `r` is in user mode. -/
  | timer (r : ThreadRef)
  /-- An exception in user mode. -/
  | fault (r : ThreadRef)
  /-- `r` executes `int T_SYSCALL`. -/
  | syscall (r : ThreadRef) (c : Call)
  /-- `r` runs its next atomic section. -/
  | run (r : ThreadRef) (page : Option Nat) (copied : Bool)
  /-- `r` sleeps in a part of the kernel outside `proc.c`. -/
  | block (r : ThreadRef) (a : Nat)
  /-- A `wakeup` from outside `proc.c`. -/
  | notify (a : Nat)
  deriving DecidableEq, Repr

/-- The labels of a system call of `r` that does not sleep: into the kernel, its
section, and back to user mode. -/
def Label.calls (r : ThreadRef) (c : Call) : List Label :=
  [.syscall r c, .run r (some 0) true, .run r none true]

/-- The contexts in which a thread can sleep outside `proc.c`. -/
def Context.elsewhere : Context → Bool
  | .call .other | .safeExit | .execBody => true
  | _ => false

namespace Kernel

/-- The two tests of `trap`, before and after a system call. -/
def trapCheck (k : Kernel) (r : ThreadRef) (next : Context) : Kernel :=
  k.setThread r fun t => { t with context :=
    if t.killed then .kexit else if (k.proc r.1).killed then .exit else next }

/-- The first section of system call `c`. -/
def runCall (k : Kernel) (r : ThreadRef) (page : Option Nat) (copied : Bool) :
    Call → Option Kernel
  | .fork => some (k.fork r page copied)
  | .exit => k.exit r
  | .wait => some (k.waitTurn r)
  | .exec => some (k.killOtherThreads r .exec)
  | .kill pid => some (k.kill r pid)
  | .kthreadCreate => some (k.kthreadCreate r page)
  | .kthreadId => some (k.sysret r (k.thread r).tid)
  | .kthreadExit => some (k.kthreadExit r)
  | .kthreadJoin tid => some (k.kthreadJoin r tid)
  | .mutexAlloc => some (k.kthreadMutexAlloc r)
  | .mutexDealloc mid => some (k.kthreadMutexDealloc r mid)
  | .mutexLock mid => some (k.kthreadMutexLock r mid)
  | .mutexUnlock mid => some (k.kthreadMutexUnlock r mid)
  | .other => some (k.sysret r 0)

/-- The section thread `r` goes on with from its saved context. -/
def runContext (k : Kernel) (r : ThreadRef) (page : Option Nat) (copied : Bool) :
    Context → Option Kernel
  | .user => none
  | .resumed => some (k.setThread r fun t => { t with
      context := if t.killed then .exit else .user })
  | .call c => k.runCall r page copied c
  | .ret _ => some (k.trapCheck r .user)
  | .kexit => some (k.kthreadExit r)
  | .exit => k.exit r
  | .killLoop a => some (k.killTurn r a)
  | .safeExit => some (k.safeExit r)
  | .execBody => some (k.sysret r 0)
  | .lockLoop m mid => some (k.lockTurn r m mid)
  | .unlockWake m => some ((k.wakeup1 (.mutex m)).sysret r 0)
  | .joinLoop i tid => some (k.joinTurn r i tid)
  | .waitLoop => some (k.waitTurn r)
  | .dead => none

def step (k : Kernel) : Label → Option Kernel
  | .dispatch r =>
    if (k.proc r.1).state = .PUSED ∧ (k.thread r).state = .TRUNNABLE then
      -- the tidy up of `sleep` (`chan = 0`) is the first thing a woken sleeper does
      some (k.setThread r fun t => { t with state := .TRUNNING, chan := none })
    else none
  | .rouse r =>
    if (k.proc r.1).state = .PUSED ∧ (k.thread r).state = .TSLEEPING ∧ (k.thread r).killed then
      some (k.setThread r fun t => { t with state := .TRUNNABLE })
    else none
  | .yield r =>
    if (k.thread r).state = .TRUNNING ∧ (k.thread r).context ≠ .user then
      some (k.setThread r fun t => { t with state := .TRUNNABLE })
    else none
  | .timer r =>
    if (k.thread r).state = .TRUNNING ∧ (k.thread r).context = .user then
      if (k.proc r.1).killed then some (k.setThread r fun t => { t with context := .exit })
      else if (k.thread r).killed then some (k.setThread r fun t => { t with context := .kexit })
      else some (k.setThread r fun t => { t with state := .TRUNNABLE, context := .resumed })
    else none
  | .fault r =>
    if (k.thread r).state = .TRUNNING ∧ (k.thread r).context = .user then
      some ((k.setProc r.1 fun p => { p with killed := true }).setThread r
        fun t => { t with context := .exit })
    else none
  | .syscall r c =>
    if (k.thread r).state = .TRUNNING ∧ (k.thread r).context = .user then
      some (k.trapCheck r (.call c))
    else none
  | .run r page copied =>
    if (k.thread r).state = .TRUNNING then k.runContext r page copied (k.thread r).context
    else none
  | .block r a =>
    if (k.thread r).state = .TRUNNING ∧ (k.thread r).context.elsewhere then
      some (k.sleep r (.other a) (k.thread r).context)
    else none
  | .notify a => some (k.wakeup1 (.other a))

end Kernel
end Xv6
