import Xv6.Fs.Model
import Xv6.Lib.Runs

/-! `begin_op`, `log_write`, `end_op` and `commit` of `log.c`, by any number of threads. A
step is a section under `log.lock`, the tests that `log_write` makes before it takes the
lock, or one of the block writes of `commit`, which runs without the lock. -/

namespace Xv6.Transactions

/-- The calls of `panic`. -/
inductive Panic
  | logCommitting
  | tooBig
  | outsideOfTrans
  /-- In `bget`, called by `bread`. -/
  | noBuffers
  deriving DecidableEq, Repr

inductive Pc
  /-- Outside `begin_op` .. `end_op`. -/
  | out
  /-- At the top of the loop of `begin_op`. -/
  | beginOp
  /-- `TSLEEPING` in `begin_op`. -/
  | asleep
  /-- Between `begin_op` and `end_op`. -/
  | inOp
  /-- In `log_write(b)`, between the tests and `acquire(&log.lock)`. -/
  | logWrite (b : Nat)
  /-- In `end_op`, with `do_commit` set. -/
  | commit
  /-- The loops of `write_log` and `install_trans`. -/
  | writeLog (tail : Nat)
  | installTrans (tail : Nat)
  /-- The two calls of `write_head`, and the assignment between them. -/
  | writeHead
  | clearHead
  | eraseHead
  /-- Before the last section of `end_op`. -/
  | commitDone
  | panic (p : Panic)
  /-- A write past the end of `log.lh.block`. -/
  | overrun
  deriving DecidableEq, Repr

/-- A thread, with the distinct blocks it has logged since its last `begin_op`. -/
structure Thread where
  pc : Pc
  logged : List Nat
  deriving DecidableEq, Repr

def Thread.goto (x : Thread) (p : Pc) : Thread := { x with pc := p }

structure State (τ : Type*) where
  log : Log
  thread : τ → Thread

inductive Act
  | beginOp
  | logWrite (b : Nat)
  | endOp
  /-- The next step of the thread. -/
  | go
  /-- The scheduler makes a sleeping thread runnable because it has been killed. -/
  | rouse
  deriving DecidableEq, Repr

/-- The log after `initlog`, all threads outside. -/
def start (τ : Type*) (first size : Nat) : State τ where
  log := ⟨first, size, 0, false, []⟩
  thread := fun _ => ⟨.out, []⟩

/-- The test of `begin_op`: the operation might exhaust log space. -/
def Full (log : Log) : Prop :=
  (log.lh.length : Int) + (log.outstanding + 1) * MAXOPBLOCKS > LOGSIZE

/-- The test of `log_write`. -/
def TooBig (log : Log) : Prop :=
  log.lh.length ≥ LOGSIZE ∨ (log.lh.length : Int) ≥ log.size - 1

instance (log : Log) : Decidable (Full log) :=
  inferInstanceAs
    (Decidable ((log.lh.length : Int) + (log.outstanding + 1) * MAXOPBLOCKS > LOGSIZE))

instance (log : Log) : Decidable (TooBig log) :=
  inferInstanceAs (Decidable (log.lh.length ≥ LOGSIZE ∨ (log.lh.length : Int) ≥ log.size - 1))

/-- The block of the disk that `write_log` writes at `tail`. -/
def logBlock (log : Log) (tail : Nat) : Nat := log.start + tail + 1

/-- `wakeup(&log)`, as a sleeping thread sees it. -/
def Thread.wake (x : Thread) : Thread := if x.pc = .asleep then x.goto .beginOp else x

namespace State

variable {τ : Type*}

def wakeup (s : State τ) : State τ := { s with thread := fun t => (s.thread t).wake }

variable [DecidableEq τ]

def set (s : State τ) (t : τ) (x : Thread) : State τ :=
  { s with thread := Function.update s.thread t x }

def goto (s : State τ) (t : τ) (p : Pc) : State τ := s.set t ((s.thread t).goto p)

/-- One turn of the loop of `begin_op`. -/
def beginOp (s : State τ) (t : τ) : State τ :=
  if s.log.committing ∨ Full s.log then s.goto t .asleep
  else { s.set t ⟨.inOp, []⟩ with log := { s.log with outstanding := s.log.outstanding + 1 } }

/-- `log_write(b)` up to `acquire(&log.lock)`. -/
def testLogWrite (s : State τ) (t : τ) (b : Nat) : State τ :=
  if TooBig s.log then s.goto t (.panic .tooBig)
  else if s.log.outstanding < 1 then s.goto t (.panic .outsideOfTrans)
  else s.goto t (.logWrite b)

/-- The section of `log_write(b)`. -/
def logWrite (s : State τ) (t : τ) (b : Nat) : State τ :=
  if b ∈ s.log.lh then s.set t ⟨.inOp, (s.thread t).logged.insert b⟩
  else if s.log.lh.length < LOGSIZE then
    { s.set t ⟨.inOp, (s.thread t).logged.insert b⟩ with
      log := { s.log with lh := s.log.lh ++ [b] } }
  else s.goto t .overrun

/-- The first section of `end_op`. -/
def endOp (s : State τ) (t : τ) : State τ :=
  let log := { s.log with outstanding := s.log.outstanding - 1 }
  if log.committing then { s.goto t (.panic .logCommitting) with log := log }
  else if log.outstanding = 0 then { s.goto t .commit with log := { log with committing := true } }
  else { s.goto t .out with log := log }.wakeup

/-- The last section of `end_op`. -/
def commitDone (s : State τ) (t : τ) : State τ :=
  { s.goto t .out with log := { s.log with committing := false } }.wakeup

/-- The loop of `write_log` or `install_trans` at `tail`: `bread` of the block of the log
needs a buffer beside the `dirty` ones. -/
def copies (s : State τ) (tail dirty : Nat) (next done : Pc) : Pc :=
  if tail < s.log.lh.length then if dirty < NBUF then next else .panic .noBuffers else done

def go (s : State τ) (t : τ) : Option (State τ) :=
  match (s.thread t).pc with
  | .beginOp => some (s.beginOp t)
  | .logWrite b => some (s.logWrite t b)
  | .commit => some (s.goto t (if s.log.lh.length > 0 then .writeLog 0 else .commitDone))
  | .writeLog tail =>
    some (s.goto t (s.copies tail s.log.lh.length (.writeLog (tail + 1)) .writeHead))
  | .writeHead => some (s.goto t (.installTrans 0))
  | .installTrans tail =>
    some (s.goto t (s.copies tail (s.log.lh.length - tail) (.installTrans (tail + 1)) .clearHead))
  | .clearHead => some { s.goto t .eraseHead with log := { s.log with lh := [] } }
  | .eraseHead => some (s.goto t .commitDone)
  | .commitDone => some (s.commitDone t)
  | _ => none

def step (s : State τ) : τ × Act → Option (State τ)
  | (t, .beginOp) => if (s.thread t).pc = .out then some (s.goto t .beginOp) else none
  | (t, .logWrite b) => if (s.thread t).pc = .inOp then some (s.testLogWrite t b) else none
  | (t, .endOp) => if (s.thread t).pc = .inOp then some (s.endOp t) else none
  | (t, .go) => s.go t
  | (t, .rouse) => if (s.thread t).pc = .asleep then some (s.goto t .beginOp) else none

end State

/-! ## What has happened -/

/-- What is written down of a run. -/
inductive Event (τ : Type*)
  | logged (t : τ) (b : Nat)
  | ended (t : τ)
  /-- The header with these block numbers is written: the transaction is committed. -/
  | committed (bs : List Nat)

/-- What one step adds. -/
def events {τ : Type*} (s : State τ) (l : τ × Act) (s' : State τ) : List (Event τ) :=
  match (s.thread l.1).pc, l.2 with
  | .inOp, .endOp => [.ended l.1]
  | .logWrite b, .go => if (s'.thread l.1).pc = .inOp then [.logged l.1 b] else []
  | .writeHead, .go => [.committed s.log.lh]
  | _, _ => []

end Xv6.Transactions
