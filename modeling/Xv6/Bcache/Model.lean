import Xv6.Fs.Model
import Xv6.Lib.Rings
import Xv6.Lib.Runs

/-! The buffer cache (`bio.c`) over the disk driver (`ide.c`), used by any number of threads.
A step is a section under `bcache.lock`, an `acquiresleep` or `releasesleep`, an entry of
`iderw` into the queue of the driver, an interrupt of the disk, or a change of a buffer by
the thread that holds it. -/

namespace Xv6.Bcache

open Rings Function

def FSSIZE : Nat := 1000

/-- A block of one of the two disks: `idestart` selects the disk by `b->dev & 1`. -/
structure BlockId where
  dev : Fin 2
  blockno : Nat
  deriving DecidableEq, Repr

/-- The identity of a buffer that was never used. -/
def BlockId.unused : BlockId := ⟨0, 0⟩

/-- An index into `bcache.buf`. -/
abbrev Ix := Fin NBUF

instance : NeZero NBUF := ⟨Nat.succ_ne_zero 29⟩

/-- A node of the list of buffers; `none` is `bcache.head`. -/
abbrev Node := Option Ix

structure Buf (τ D : Type*) where
  id : BlockId
  /-- `B_VALID` -/
  valid : Bool
  /-- `B_DIRTY` -/
  dirty : Bool
  /-- The holder of the sleeplock. -/
  locked : Option τ
  refcnt : Nat
  data : D

/-- Where a thread is. -/
inductive Pc
  | out
  /-- In `bget(dev, blockno)`, before `acquire(&bcache.lock)`. -/
  | bget (id : BlockId)
  /-- At `acquiresleep(&b->lock)` in `bget`. -/
  | acquire (i : Ix) (id : BlockId)
  /-- In `bread`, before the test of `B_VALID`. -/
  | got (i : Ix) (id : BlockId)
  /-- In the loop of `iderw`, called by `bread`. -/
  | reading (i : Ix) (id : BlockId)
  /-- In the loop of `iderw`, called by `bwrite`. -/
  | writing (i : Ix)
  /-- In `brelse`, after `releasesleep(&b->lock)`. -/
  | release (i : Ix)
  /-- `panic("bget: no buffers")` -/
  | noBuffers
  deriving DecidableEq, Repr

/-- A thread, with the buffers that `bread` has returned to it and that it has not released,
and those of them whose data it has changed since `bread`, `log_write` or `bwrite`. -/
structure Thread where
  pc : Pc
  held : Ix → Bool
  changed : Ix → Bool

structure State (τ D : Type*) where
  buf : Ix → Buf τ D
  links : Links Node
  idequeue : List Ix
  disk : BlockId → D
  thread : τ → Thread

/-- What a thread does next. -/
inductive Act (D : Type*)
  | bread (id : BlockId)
  /-- The thread writes into `b->data`. -/
  | modify (i : Ix) (d : D)
  | logWrite (i : Ix)
  | bwrite (i : Ix)
  | brelse (i : Ix)
  /-- The next step of the call it is in. -/
  | go

inductive Label (τ D : Type*)
  | thread (t : τ) (a : Act D)
  | ideintr

/-- What is seen of the cache from outside: `bread` returns, and a changed block is handed
in by `log_write` or `bwrite`. -/
inductive Event (τ D : Type*)
  | read (t : τ) (id : BlockId) (d : D)
  | store (t : τ) (id : BlockId) (d : D)
  deriving DecidableEq

/-- The list of `binit`. -/
def binit : Links Node :=
  (List.finRange NBUF).foldl (fun k i => k.pushFront none (some i)) ⟨fun _ => none, fun _ => none⟩

/-- The state after `binit`. -/
def boot (τ : Type*) {D : Type*} (disk : BlockId → D) (zero : D) : State τ D where
  buf := fun _ => ⟨.unused, false, false, none, 0, zero⟩
  links := binit
  idequeue := []
  disk := disk
  thread := fun _ => ⟨.out, fun _ => false, fun _ => false⟩

def Thread.goto (x : Thread) (p : Pc) : Thread := { x with pc := p }

/-- `bread` returns buffer `i`. -/
def Thread.take (x : Thread) (i : Ix) : Thread :=
  { x with pc := .out, held := update x.held i true }

/-- `brelse(b)` for buffer `i` is called. -/
def Thread.drop (x : Thread) (i : Ix) : Thread :=
  { x with pc := .release i, held := update x.held i false }

def Thread.mark (x : Thread) (i : Ix) (c : Bool) : Thread :=
  { x with changed := update x.changed i c }

namespace State

variable {τ D : Type*}

/-- The first loop of `bget`. -/
def lookup (s : State τ D) (id : BlockId) : Option Ix :=
  (search s.links.next none (fun n => n.any fun i => (s.buf i).id = id) (NBUF + 1)
    (s.links.next none)).join

/-- The second loop of `bget`. -/
def victim (s : State τ D) : Option Ix :=
  (search s.links.prev none
    (fun n => n.any fun i => (s.buf i).refcnt == 0 && !(s.buf i).dirty) (NBUF + 1)
    (s.links.prev none)).join

/-- Write buffer `i`. -/
def put (s : State τ D) (i : Ix) (b : Buf τ D) : State τ D :=
  { s with buf := update s.buf i b }

/-- `iderw(b)` up to the loop. -/
def iderw (s : State τ D) (i : Ix) : State τ D := { s with idequeue := s.idequeue ++ [i] }

/-- The interrupt handler: the active request is the first of the queue. The transfer between
the disk and the buffer is made here; the holder of the buffer waits for it. A request for
a block beyond the disk stops the kernel in `idestart`. -/
def ideintr (s : State τ D) : Option (State τ D) :=
  match s.idequeue with
  | [] => some s
  | i :: q =>
    let b := s.buf i
    if b.id.blockno ≥ FSSIZE then none
    else if b.dirty then
      some { s.put i { b with valid := true, dirty := false } with
        idequeue := q, disk := update s.disk b.id b.data }
    else
      some { s.put i { b with data := s.disk b.id, valid := true, dirty := false } with
        idequeue := q }

variable [DecidableEq τ]

def set (s : State τ D) (t : τ) (x : Thread) : State τ D :=
  { s with thread := update s.thread t x }

def goto (s : State τ D) (t : τ) (p : Pc) : State τ D := s.set t ((s.thread t).goto p)

/-- The section of `bget`. -/
def bget (s : State τ D) (t : τ) (id : BlockId) : State τ D :=
  match s.lookup id with
  | some i =>
    let b := s.buf i
    (s.put i { b with refcnt := b.refcnt + 1 }).goto t (.acquire i id)
  | none =>
    match s.victim with
    | some i =>
      let b := s.buf i
      (s.put i { b with id := id, valid := false, dirty := false, refcnt := 1 }).goto t
        (.acquire i id)
    | none => s.goto t .noBuffers

/-- The section of `brelse`. -/
def release (s : State τ D) (t : τ) (i : Ix) : State τ D :=
  let b := s.buf i
  let s' := (s.put i { b with refcnt := b.refcnt - 1 }).goto t .out
  if b.refcnt - 1 = 0 then { s' with links := (s.links.unlink (some i)).pushFront none (some i) }
  else s'

/-- `bread` returns buffer `i`. -/
def returns (s : State τ D) (t : τ) (i : Ix) (id : BlockId) : State τ D × List (Event τ D) :=
  (s.set t ((s.thread t).take i), [.read t id (s.buf i).data])

def go (s : State τ D) (t : τ) : Option (State τ D × List (Event τ D)) :=
  match (s.thread t).pc with
  | .bget id => some (s.bget t id, [])
  | .acquire i id =>
    let b := s.buf i
    if b.locked = none then some ((s.put i { b with locked := some t }).goto t (.got i id), [])
    else none
  | .got i id =>
    if (s.buf i).valid then some (s.returns t i id)
    else some ((s.iderw i).goto t (.reading i id), [])
  | .reading i id =>
    let b := s.buf i
    if b.valid && !b.dirty then some (s.returns t i id) else none
  | .writing i =>
    let b := s.buf i
    if b.valid && !b.dirty then some (s.goto t .out, []) else none
  | .release i => some (s.release t i, [])
  | _ => none

/-- The calls that take a buffer are made by its holder; otherwise they panic, or the data
belongs to another thread. -/
def step (s : State τ D) : Label τ D → Option (State τ D × List (Event τ D))
  | .thread t (.bread id) =>
    if (s.thread t).pc = .out then some (s.goto t (.bget id), []) else none
  | .thread t (.modify i d) =>
    let b := s.buf i
    let x := s.thread t
    if x.pc = .out ∧ x.held i then
      some ((s.put i { b with data := d }).set t (x.mark i true), [])
    else none
  | .thread t (.logWrite i) =>
    let b := s.buf i
    let x := s.thread t
    if x.pc = .out ∧ x.held i then
      some ((s.put i { b with dirty := true }).set t (x.mark i false), [.store t b.id b.data])
    else none
  | .thread t (.bwrite i) =>
    let b := s.buf i
    let x := s.thread t
    if x.pc = .out ∧ x.held i then
      some (((s.put i { b with dirty := true }).iderw i).set t
        ((x.mark i false).goto (.writing i)), [.store t b.id b.data])
    else none
  | .thread t (.brelse i) =>
    let b := s.buf i
    let x := s.thread t
    if x.pc = .out ∧ x.held i then some ((s.put i { b with locked := none }).set t (x.drop i), [])
    else none
  | .thread t .go => s.go t
  | .ideintr => s.ideintr.map fun s' => (s', [])

end State

/-- Block (0,0) is not asked for, and a buffer is released only when its changes have been
handed in. -/
def Disciplined {τ D : Type*} (s : State τ D) : Label τ D → Prop
  | .thread _ (.bread id) => id ≠ .unused
  | .thread t (.brelse i) => (s.thread t).changed i = false
  | _ => True

instance {τ D : Type*} (s : State τ D) (l : Label τ D) : Decidable (Disciplined s l) :=
  match l with
  | .thread _ (.bread id) => inferInstanceAs (Decidable (id ≠ .unused))
  | .thread t (.brelse i) => inferInstanceAs (Decidable ((s.thread t).changed i = false))
  | .thread _ (.modify _ _) | .thread _ (.logWrite _) | .thread _ (.bwrite _) | .thread _ .go
  | .ideintr => inferInstanceAs (Decidable True)

end Xv6.Bcache
