import Mathlib.Logic.Function.Basic
import Xv6.Lib.Runs

/-! One pipe (`pipe.c`) and any number of threads that read it, write it and close its ends.
A step is one statement of `pipewrite`, `piperead` or `pipeclose`, or a `kill`. What `sleep`
and `wakeup` do is one step each: both hold `ptable.lock`. `kill` sets the flag of a process
and wakes nobody. -/

namespace Xv6.Pipes

open Runs Function

def PIPESIZE : Nat := 512

abbrev Byte := BitVec 8

structure Pipe where
  /-- `data[i]`, for `i` below `PIPESIZE` -/
  data : Nat → Byte
  nread : BitVec 32
  nwrite : BitVec 32
  readopen : Bool
  writeopen : Bool

/-- `p->nwrite == p->nread + PIPESIZE` -/
def Pipe.full (p : Pipe) : Bool := p.nwrite = p.nread + BitVec.ofNat 32 PIPESIZE

/-- `p->nread == p->nwrite` -/
def Pipe.empty (p : Pipe) : Bool := p.nread = p.nwrite

/-- `p->data[p->nwrite++ % PIPESIZE] = b` -/
def Pipe.store (p : Pipe) (b : Byte) : Pipe :=
  { p with
    data := update p.data (p.nwrite.toNat % PIPESIZE) b
    nwrite := p.nwrite + 1 }

/-- The byte `p->data[p->nread % PIPESIZE]`. -/
def Pipe.next (p : Pipe) : Byte := p.data (p.nread.toNat % PIPESIZE)

/-- `p->nread++` -/
def Pipe.advance (p : Pipe) : Pipe := { p with nread := p.nread + 1 }

/-- One end is closed. -/
def Pipe.shut (p : Pipe) (writable : Bool) : Pipe :=
  if writable then { p with writeopen := false } else { p with readopen := false }

/-- Where a thread is. `buf` are the bytes that `pipewrite` is given at `addr`, `n` is the
size that `piperead` is given, `i` the loop variable. -/
inductive Pc
  | out
  /-- In `pipewrite`: before `acquire`, at the test of the `for`, at the test of `readopen`
  and `killed`, before `wakeup`, before `sleep`. -/
  | writeEnter (buf : List Byte)
  | writeLoop (buf : List Byte) (i : Nat)
  | writeFull (buf : List Byte) (i : Nat)
  | writeWake (buf : List Byte) (i : Nat)
  | writeSleep (buf : List Byte) (i : Nat)
  /-- Asleep on `&p->nwrite`; made runnable by `wakeup`, before `acquire` in `sleep`. -/
  | writeAsleep (buf : List Byte) (i : Nat)
  | writeWoken (buf : List Byte) (i : Nat)
  /-- Before the last `wakeup`; before `release`, with the value to be returned. -/
  | writeDone (buf : List Byte)
  | writeLeave (buf : List Byte) (ret : Int)
  /-- In `piperead`: before `acquire`, at the test of the `while`, at the test of `killed`,
  before `sleep`. -/
  | readEnter (n : Nat)
  | readTest (n : Nat)
  | readEmpty (n : Nat)
  | readSleep (n : Nat)
  /-- Asleep on `&p->nread`; made runnable by `wakeup`, before `acquire` in `sleep`. -/
  | readAsleep (n : Nat)
  | readWoken (n : Nat)
  /-- At the test of the `for`; before the last `wakeup`; before `release`. -/
  | readCopy (n i : Nat)
  | readDone (i : Nat)
  | readLeave (ret : Int)
  /-- In `pipeclose`: before `acquire`, before the flag is cleared, before `wakeup`, at the
  test of both flags. -/
  | closeEnter (writable : Bool)
  | closeShut (writable : Bool)
  | closeWake (writable : Bool)
  | closeLeave
  deriving DecidableEq, Repr

inductive Chan
  | nread
  | nwrite
  deriving DecidableEq, Repr

/-- A sleeper on the channel becomes runnable. -/
def Pc.wake : Chan → Pc → Pc
  | .nread, .readAsleep n => .readWoken n
  | .nwrite, .writeAsleep buf i => .writeWoken buf i
  | _, pc => pc

structure State (T P : Type) where
  pipe : Pipe
  /-- The holder of `p->lock`. -/
  lock : Option T
  /-- Both ends are closed and `kfree` was called. -/
  freed : Bool
  killed : P → Bool
  thread : T → Pc

/-- What threads do to the pipe, as they see it. -/
inductive Event (T : Type)
  /-- `pipewrite(p, addr, n)` is called with the bytes `buf` at `addr`. -/
  | write (t : T) (buf : List Byte)
  | stored (t : T) (b : Byte)
  | taken (t : T) (b : Byte)
  /-- `pipewrite` returns. -/
  | wrote (t : T) (buf : List Byte) (ret : Int)
  deriving DecidableEq, Repr

inductive Label (T P : Type)
  | write (t : T) (buf : List Byte)
  | read (t : T) (n : Nat)
  | close (t : T) (writable : Bool)
  | run (t : T)
  | kill (p : P)
  deriving DecidableEq, Repr

namespace State

variable {T P : Type} [DecidableEq T]

def goto (s : State T P) (t : T) (pc : Pc) : State T P :=
  { s with thread := update s.thread t pc }

/-- `acquire(&p->lock)`. The pipe must not have been freed. -/
def acquire (s : State T P) (t : T) (pc : Pc) : Option (State T P) :=
  if s.lock = none ∧ s.freed = false then some { s.goto t pc with lock := some t } else none

/-- `release(&p->lock)`, also in `sleep`. -/
def release (s : State T P) (t : T) (pc : Pc) : State T P := { s.goto t pc with lock := none }

def wakeup (s : State T P) (c : Chan) : State T P :=
  { s with thread := fun t => (s.thread t).wake c }

/-- Thread `t` goes on; `proc` says to which process it belongs. -/
def run (proc : T → P) (s : State T P) (t : T) : Option (State T P × List (Event T)) :=
  match s.thread t with
  | .out => none
  | .writeEnter buf => (s.acquire t (.writeLoop buf 0)).map (·, [])
  | .writeLoop buf i =>
    match buf[i]? with
    | some b =>
      if s.pipe.full then some (s.goto t (.writeFull buf i), [])
      else some ({ s.goto t (.writeLoop buf (i + 1)) with pipe := s.pipe.store b }, [.stored t b])
    | none => some (s.goto t (.writeDone buf), [])
  | .writeFull buf i =>
    if s.pipe.readopen = false ∨ s.killed (proc t) then some (s.goto t (.writeLeave buf (-1)), [])
    else some (s.goto t (.writeWake buf i), [])
  | .writeWake buf i => some ((s.wakeup .nread).goto t (.writeSleep buf i), [])
  | .writeSleep buf i => some (s.release t (.writeAsleep buf i), [])
  | .writeAsleep _ _ => none
  | .writeWoken buf i => (s.acquire t (.writeLoop buf i)).map (·, [])
  | .writeDone buf => some ((s.wakeup .nread).goto t (.writeLeave buf buf.length), [])
  | .writeLeave buf ret => some (s.release t .out, [.wrote t buf ret])
  | .readEnter n => (s.acquire t (.readTest n)).map (·, [])
  | .readTest n =>
    if s.pipe.empty ∧ s.pipe.writeopen then some (s.goto t (.readEmpty n), [])
    else some (s.goto t (.readCopy n 0), [])
  | .readEmpty n =>
    if s.killed (proc t) then some (s.goto t (.readLeave (-1)), [])
    else some (s.goto t (.readSleep n), [])
  | .readSleep n => some (s.release t (.readAsleep n), [])
  | .readAsleep _ => none
  | .readWoken n => (s.acquire t (.readTest n)).map (·, [])
  | .readCopy n i =>
    if i < n ∧ s.pipe.empty = false then
      some ({ s.goto t (.readCopy n (i + 1)) with pipe := s.pipe.advance }, [.taken t s.pipe.next])
    else some (s.goto t (.readDone i), [])
  | .readDone i => some ((s.wakeup .nwrite).goto t (.readLeave i), [])
  | .readLeave _ => some (s.release t .out, [])
  | .closeEnter writable => (s.acquire t (.closeShut writable)).map (·, [])
  | .closeShut writable =>
    some ({ s.goto t (.closeWake writable) with pipe := s.pipe.shut writable }, [])
  | .closeWake writable =>
    some ((s.wakeup (if writable then .nread else .nwrite)).goto t .closeLeave, [])
  | .closeLeave =>
    some ({ s.release t .out with
      freed := s.pipe.readopen = false ∧ s.pipe.writeopen = false }, [])

def step (proc : T → P) [DecidableEq P] (s : State T P) :
    Label T P → Option (State T P × List (Event T))
  | .write t buf =>
    if s.thread t = .out then some (s.goto t (.writeEnter buf), [.write t buf]) else none
  | .read t n => if s.thread t = .out then some (s.goto t (.readEnter n), []) else none
  | .close t writable =>
    if s.thread t = .out then some (s.goto t (.closeEnter writable), []) else none
  | .run t => s.run proc t
  | .kill p => some ({ s with killed := update s.killed p true }, [])

/-- After `pipealloc`, which starts both counters at 0. -/
structure Fresh (s : State T P) : Prop where
  empty : s.pipe.nread = s.pipe.nwrite
  readopen : s.pipe.readopen = true
  writeopen : s.pipe.writeopen = true
  lock : s.lock = none
  thread : ∀ t, s.thread t = .out

end State
end Xv6.Pipes
