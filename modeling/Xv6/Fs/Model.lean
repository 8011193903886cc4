import Xv6.Kernel.Step

/-! The kernel with its file system: sleeplocks (`sleeplock.c`), the log
(`log.c`), the buffers (`bio.c`) and the disk queue (`ide.c`). A system call is
the list of the operations it performs; which one that is depends on arguments and
on the contents of the disk, so any list is allowed that gives back the sleeplocks
and the transaction it takes (`FsCall`). The operations of a thread live on its
kernel stack and are gone when `remove_thread` has freed it. -/

namespace Xv6

open Function

abbrev MAXOPBLOCKS : Nat := 10
abbrev LOGSIZE : Nat := MAXOPBLOCKS * 3
def NBUF : Nat := MAXOPBLOCKS * 3

/-- A sleeplock is that of an inode or that of the buffer of a block. -/
inductive SleepLock where
  | inode (i : Nat)
  | buf (b : Nat)
  deriving DecidableEq, Repr

structure Sleeplock where
  locked : Bool
  pid : Int
  deriving DecidableEq, Repr

structure Log where
  start : Nat
  size : Nat
  outstanding : Int
  committing : Bool
  /-- `lh.block[0..lh.n-1]`. -/
  lh : List Nat
  deriving DecidableEq, Repr

/-- `B_VALID` and `B_DIRTY`. -/
structure BufFlags where
  valid : Bool
  dirty : Bool
  deriving DecidableEq, Repr

/-- The operations of a file system call, each one atomic section or, where it
sleeps in a loop, one turn of the loop. -/
inductive FsOp where
  | acquiresleep (l : SleepLock)
  | releasesleep (l : SleepLock)
  | beginOp
  | endOp
  | logWrite (b : Nat)
  /-- The rest of `bread` on the locked buffer `b`: `iderw` unless it is valid. -/
  | fill (b : Nat)
  | bwrite (b : Nat)
  /-- In the `while` of `iderw(b)`. -/
  | ideWait (b : Nat)
  /-- `sleep` on an address outside the file system. -/
  | sleep (a : Nat)
  | commit
  /-- The `for(tail..)` of `write_log` and of `install_trans`. -/
  | writeLog (tail : Nat)
  | installTrans (tail : Nat)
  /-- `log.lh.n = 0`. -/
  | clearHead
  /-- The last section of `end_op` after a commit. -/
  | commitDone
  deriving DecidableEq, Repr

namespace FsOp

/-- What an operation does to the sleeplocks and the transaction of its thread;
`none` gives back something the thread does not have. -/
def track : FsOp → List SleepLock × Bool → Option (List SleepLock × Bool)
  | .acquiresleep l, (held, inOp) => some (l :: held, inOp)
  | .releasesleep l, (held, inOp) => if l ∈ held then some (held.erase l, inOp) else none
  | .beginOp, (held, inOp) => if inOp then none else some (held, true)
  | .endOp, (held, inOp) => if inOp then some (held, false) else none
  | _, h => some h

def trackAll : List FsOp → List SleepLock × Bool → Option (List SleepLock × Bool)
  | [], h => some h
  | op :: ops, h => (op.track h).bind (trackAll ops)

def bread (b : Nat) : List FsOp := [.acquiresleep (.buf b), .fill b]
def brelse (b : Nat) : List FsOp := [.releasesleep (.buf b)]
def writeHead (start : Nat) : List FsOp := bread start ++ [.bwrite start] ++ brelse start

end FsOp

/-- A file system call. -/
structure FsCall where
  ops : List FsOp
  balanced : FsOp.trackAll ops ([], false) = some ([], false)

/-- A `filewrite` into block `b` of inode `i`, whose copy in memory is valid. -/
def FsCall.filewrite (i b : Nat) : FsCall where
  ops := [.beginOp, .acquiresleep (.inode i)] ++ FsOp.bread b ++ [.logWrite b] ++ FsOp.brelse b ++
    [.releasesleep (.inode i), .endOp]
  balanced := by simp [FsOp.trackAll, FsOp.track, FsOp.bread, FsOp.brelse]

/-- What is on the kernel stack of a thread: the operations ahead of it, the
sleeplocks it holds, and whether it is between `begin_op` and `end_op`. -/
structure FsThread where
  todo : List FsOp
  held : List SleepLock
  inOp : Bool
  deriving DecidableEq, Repr

def FsThread.idle : FsThread := ⟨[], [], false⟩

structure Sys where
  kernel : Kernel
  sleeplock : SleepLock → Sleeplock
  log : Log
  buf : Nat → BufFlags
  idequeue : List Nat
  fs : ThreadRef → FsThread

inductive SysLabel where
  /-- A step of the rest of the kernel. -/
  | kernel (l : Label)
  /-- Thread `r` begins a file system call. -/
  | start (r : ThreadRef) (c : FsCall)
  /-- Thread `r` performs its next operation. -/
  | op (r : ThreadRef)
  | ideintr
  /-- `bget` takes the buffer of block `b` for another block. -/
  | recycle (b : Nat)

/-- The addresses that are slept on. -/
def SleepLock.addr : SleepLock → Nat
  | .inode i => 4 * i + 1
  | .buf b => 4 * b + 2
def bufAddr (b : Nat) : Nat := 4 * b + 3
def logAddr : Nat := 0
def otherAddr (a : Nat) : Nat := 4 * a + 4

namespace Sys

def boot (start size : Nat) : Sys where
  kernel := Xv6.boot
  sleeplock _ := ⟨false, 0⟩
  log := ⟨start, size, 0, false, []⟩
  buf _ := ⟨false, false⟩
  idequeue := []
  fs _ := .idle

def setFs (s : Sys) (r : ThreadRef) (f : FsThread) : Sys :=
  { s with fs := update s.fs r f }

/-- Thread `r` goes on with `rest`. -/
def goOn (s : Sys) (r : ThreadRef) (rest : List FsOp) : Sys :=
  s.setFs r { s.fs r with todo := rest }

def wakeup (s : Sys) (a : Nat) : Sys := { s with kernel := s.kernel.wakeup1 (.other a) }

/-- Thread `r` sleeps on `a`, with `rest` still to do. -/
def block (s : Sys) (r : ThreadRef) (a : Nat) (rest : List FsOp) : Option Sys :=
  (s.kernel.step (.block r a)).map fun k => { s.goOn r rest with kernel := k }

def setLock (s : Sys) (l : SleepLock) (x : Sleeplock) : Sys :=
  { s with sleeplock := update s.sleeplock l x }

def setBuf (s : Sys) (b : Nat) (x : BufFlags) : Sys := { s with buf := update s.buf b x }

def holdingsleep (s : Sys) (r : ThreadRef) (l : SleepLock) : Bool :=
  (s.sleeplock l).locked && (s.sleeplock l).pid == (s.kernel.proc r.1).pid

/-- `iderw(b)`, up to its first sleep; `none` is a panic. -/
def iderw (s : Sys) (r : ThreadRef) (b : Nat) (rest : List FsOp) : Option Sys :=
  if !s.holdingsleep r (.buf b) then none
  else if (s.buf b).valid && !(s.buf b).dirty then none
  else { s with idequeue := s.idequeue ++ [b] }.block r (bufAddr b) (.ideWait b :: rest)

/-- The loops of `commit`, one round at a time. -/
def expand (log : Log) : FsOp → List FsOp
  | .commit =>
    if log.lh.length > 0 then
      [.writeLog 0] ++ FsOp.writeHead log.start ++ [.installTrans 0, .clearHead] ++
        FsOp.writeHead log.start
    else []
  | .writeLog tail =>
    match log.lh[tail]? with
    | some b =>
      FsOp.bread (log.start + tail + 1) ++ FsOp.bread b ++ [.bwrite (log.start + tail + 1)] ++
        FsOp.brelse b ++ FsOp.brelse (log.start + tail + 1) ++ [.writeLog (tail + 1)]
    | none => []
  | .installTrans tail =>
    match log.lh[tail]? with
    | some b =>
      FsOp.bread (log.start + tail + 1) ++ FsOp.bread b ++ [.bwrite b] ++
        FsOp.brelse (log.start + tail + 1) ++ FsOp.brelse b ++ [.installTrans (tail + 1)]
    | none => []
  | _ => []

def acquiresleep (s : Sys) (r : ThreadRef) (l : SleepLock) (rest : List FsOp) : Option Sys :=
  if (s.sleeplock l).locked then s.block r l.addr (.acquiresleep l :: rest)
  else some ((s.setLock l ⟨true, (s.kernel.proc r.1).pid⟩).setFs r
    ⟨rest, l :: (s.fs r).held, (s.fs r).inOp⟩)

def releasesleep (s : Sys) (r : ThreadRef) (l : SleepLock) (rest : List FsOp) : Sys :=
  ((s.setLock l ⟨false, 0⟩).setFs r ⟨rest, (s.fs r).held.erase l, (s.fs r).inOp⟩).wakeup l.addr

def beginOp (s : Sys) (r : ThreadRef) (rest : List FsOp) : Option Sys :=
  if s.log.committing ∨ s.log.lh.length + (s.log.outstanding + 1) * MAXOPBLOCKS > LOGSIZE then
    s.block r logAddr (.beginOp :: rest)
  else some { s.setFs r ⟨rest, (s.fs r).held, true⟩ with
    log := { s.log with outstanding := s.log.outstanding + 1 } }

/-- `end_op`, up to the commit; `none` is the panic "log.committing". -/
def endOp (s : Sys) (r : ThreadRef) (rest : List FsOp) : Option Sys :=
  if s.log.committing then none
  else if s.log.outstanding - 1 = 0 then
    some { s.setFs r ⟨.commit :: .commitDone :: rest, (s.fs r).held, false⟩ with
      log := { s.log with outstanding := s.log.outstanding - 1, committing := true } }
  else some (Sys.wakeup { s.setFs r ⟨rest, (s.fs r).held, false⟩ with
    log := { s.log with outstanding := s.log.outstanding - 1 } } logAddr)

/-- `log_write`; `none` is one of its panics. -/
def logWrite (s : Sys) (r : ThreadRef) (b : Nat) (rest : List FsOp) : Option Sys :=
  if s.log.lh.length ≥ LOGSIZE ∨ (s.log.lh.length : Int) ≥ s.log.size - 1 then none
  else if s.log.outstanding < 1 then none
  else some { (s.setBuf b { s.buf b with dirty := true }).goOn r rest with
    log := { s.log with lh := if b ∈ s.log.lh then s.log.lh else s.log.lh ++ [b] } }

/-- Thread `r` performs `op`, with `rest` after it. -/
def runOp (s : Sys) (r : ThreadRef) (op : FsOp) (rest : List FsOp) : Option Sys :=
  match op with
  | .acquiresleep l => s.acquiresleep r l rest
  | .releasesleep l => some (s.releasesleep r l rest)
  | .beginOp => s.beginOp r rest
  | .endOp => s.endOp r rest
  | .logWrite b => s.logWrite r b rest
  | .fill b => if (s.buf b).valid then some (s.goOn r rest) else s.iderw r b rest
  | .bwrite b =>
    if !s.holdingsleep r (.buf b) then none
    else (s.setBuf b { s.buf b with dirty := true }).iderw r b rest
  | .ideWait b =>
    if (s.buf b).valid && !(s.buf b).dirty then some (s.goOn r rest)
    else s.block r (bufAddr b) (.ideWait b :: rest)
  | .sleep a => s.block r (otherAddr a) rest
  | .commit | .writeLog _ | .installTrans _ => some (s.goOn r (expand s.log op ++ rest))
  | .clearHead => some { s.goOn r rest with log := { s.log with lh := [] } }
  | .commitDone =>
    some (Sys.wakeup { s.goOn r rest with log := { s.log with committing := false } } logAddr)

/-- A thread that has operations ahead of it is inside the file system: it takes
no other step than being scheduled. -/
def admits (s : Sys) : Label → Bool
  | .run r _ _ | .syscall r _ | .timer r | .fault r => (s.fs r).todo = []
  | .block _ _ => false
  | _ => true

/-- After a step of the rest of the kernel: an unused record has no stack. -/
def settle (s : Sys) (k : Kernel) : Sys :=
  { s with kernel := k, fs := fun r => if (k.thread r).state = .TUNUSED then .idle else s.fs r }

def step (s : Sys) : SysLabel → Option Sys
  | .kernel l => if s.admits l then (s.kernel.step l).map s.settle else none
  | .start r c =>
    if (s.kernel.thread r).state = .TRUNNING ∧ (s.kernel.thread r).context.elsewhere ∧
        (s.fs r).todo = [] then some (s.goOn r c.ops)
    else none
  | .op r =>
    if (s.kernel.thread r).state = .TRUNNING then
      match (s.fs r).todo with
      | op :: rest => s.runOp r op rest
      | [] => none
    else none
  | .ideintr =>
    match s.idequeue with
    | b :: bs => some (({ s with idequeue := bs }.setBuf b ⟨true, false⟩).wakeup (bufAddr b))
    | [] => some s
  | .recycle b =>
    if !(s.sleeplock (.buf b)).locked && !(s.buf b).dirty then some (s.setBuf b ⟨false, false⟩)
    else none

end Sys
end Xv6
