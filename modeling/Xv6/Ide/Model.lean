import Xv6.Format.Dirents
import Xv6.Lib.Runs

/-! The interrupt-driven disk driver of `ide.c`, its disk, and the in-memory driver of
`memide.c`. A request is a buffer with one call of `iderw` on it; `ρ` are the requests and `D`
is what a block holds. A step is one access to the queue, to a buffer or to the disk, an
`acquire` or a `release` of `idelock`; between two steps of one agent any other agent may
step. -/

namespace Xv6.Ide

open Format Function

variable {ρ D : Type*}

structure Buf (D : Type*) where
  /-- `holdingsleep(&b->lock)` of the caller. -/
  locked : Bool
  /-- `B_VALID`. -/
  valid : Bool
  /-- `B_DIRTY`. -/
  dirty : Bool
  dev : Nat
  blockno : Nat
  data : D

/-- `(b->flags & (B_VALID|B_DIRTY)) == B_VALID`. -/
def Buf.upToDate (b : Buf D) : Bool := b.valid && !b.dirty

inductive Panic
  /-- iderw: buf not locked -/
  | bufNotLocked
  /-- iderw: nothing to do -/
  | nothingToDo
  /-- iderw: ide disk 1 not present -/
  | ideDisk1NotPresent
  /-- incorrect blockno -/
  | incorrectBlockno
  /-- iderw: request not for disk 1 -/
  | requestNotForDisk1
  /-- iderw: block out of range -/
  | blockOutOfRange
  deriving DecidableEq, Repr

/-! ### `memide.c` -/

namespace Memide

/-- `iderw` of `memide.c` on one buffer. -/
def iderw (disksize : Nat) (b : Buf D) (memdisk : Nat → D) :
    Except Panic (Buf D × (Nat → D)) :=
  if !b.locked then .error .bufNotLocked
  else if b.upToDate then .error .nothingToDo
  else if b.dev ≠ 1 then .error .requestNotForDisk1
  else if b.blockno ≥ disksize then .error .blockOutOfRange
  else if b.dirty then
    .ok ({ b with dirty := false, valid := true }, update memdisk b.blockno b.data)
  else .ok ({ b with data := memdisk b.blockno, valid := true }, memdisk)

structure State (ρ D : Type*) where
  buf : ρ → Buf D
  memdisk : Nat → D

variable [DecidableEq ρ]

def State.iderw (disksize : Nat) (m : State ρ D) (r : ρ) : Except Panic (State ρ D) :=
  (Memide.iderw disksize (m.buf r) m.memdisk).map fun p =>
    { buf := update m.buf r p.1, memdisk := p.2 }

/-- `iderw` for one request after the other. -/
def State.run (disksize : Nat) (m : State ρ D) (l : List ρ) : Except Panic (State ρ D) :=
  l.foldlM (State.iderw disksize) m

end Memide

/-! ### The disk -/

inductive Cmd (D : Type*)
  | read (drive sector : Nat)
  | write (drive sector : Nat) (data : D)

/-- The disk carries out one command at a time. When it has finished a command it raises one
interrupt; what it has read waits at the data port. -/
structure Disk (D : Type*) where
  sectors : Nat → Nat → D
  cmd : Option (Cmd D)
  irq : Bool
  port : D

/-- The disk finishes its command, without an error. -/
def Disk.finish (d : Disk D) : Option (Disk D) :=
  match d.cmd with
  | none => none
  | some (.read drive sector) =>
    some { d with cmd := none, irq := true, port := d.sectors drive sector }
  | some (.write drive sector data) =>
    some { d with
      sectors := update d.sectors drive (update (d.sectors drive) sector data)
      cmd := none, irq := true }

/-! ### `ide.c` -/

/-- A caller of `iderw`. -/
inductive Pc
  | idle
  | acquire
  | append
  | start
  /-- Before the test of the loop. -/
  | test
  /-- In `sleep(b, &idelock)`. -/
  | asleep
  /-- Woken, and about to take `idelock` again. -/
  | woken
  | release
  | returned
  deriving DecidableEq, Repr

/-- `ideintr`; `b` is the buffer that it has taken from the queue. -/
inductive Handler (ρ : Type*)
  | idle
  | acquire
  | take
  | insl (b : ρ)
  | flags (b : ρ)
  | wakeup (b : ρ)
  | next
  | release

inductive Holder (ρ : Type*)
  | caller (r : ρ)
  | handler

structure State (ρ D : Type*) where
  buf : ρ → Buf D
  idelock : Option (Holder ρ)
  idequeue : List ρ
  disk : Disk D
  pc : ρ → Pc
  handler : Handler ρ
  panic : Option Panic

inductive Event (ρ : Type*)
  | appended (r : ρ)
  | started (r : ρ)
  deriving DecidableEq

inductive Label (ρ : Type*)
  /-- A thread calls `iderw`. -/
  | call (r : ρ)
  | caller (r : ρ)
  /-- The interrupt is delivered. -/
  | interrupt
  | ideintr
  | disk
  /-- A sleeper is woken for another reason than its request, as a killed thread is. -/
  | wake (r : ρ)

namespace State

variable [DecidableEq ρ] (s : State ρ D)

def goto (r : ρ) (c : Pc) : State ρ D := { s with pc := update s.pc r c }

def setBuf (r : ρ) (b : Buf D) : State ρ D := { s with buf := update s.buf r b }

end State

/-- The command that `idestart` gives to the disk. One sector is one block, and the registers
hold 28 bits of its number. -/
def command (b : Buf D) : Cmd D :=
  let sector := b.blockno * (BSIZE / 512)
  if b.dirty then .write (b.dev % 2) (sector % 2 ^ 28) b.data
  else .read (b.dev % 2) (sector % 2 ^ 28)

/-- `idestart`; while the disk is busy `idewait` does not return. -/
def idestart (s : State ρ D) (r : ρ) : Option (State ρ D × List (Event ρ)) :=
  if (s.buf r).blockno ≥ FSSIZE then some ({ s with panic := some .incorrectBlockno }, [])
  else if s.disk.cmd.isSome then none
  else some ({ s with disk := { s.disk with cmd := some (command (s.buf r)) } }, [.started r])

variable [DecidableEq ρ]

/-- The checks of `iderw`, before it takes `idelock`. -/
def call (havedisk1 : Bool) (s : State ρ D) (r : ρ) : Option (State ρ D) :=
  if s.pc r ≠ .idle then none
  else if !(s.buf r).locked then some { s with panic := some .bufNotLocked }
  else if (s.buf r).upToDate then some { s with panic := some .nothingToDo }
  else if (s.buf r).dev ≠ 0 && !havedisk1 then some { s with panic := some .ideDisk1NotPresent }
  else some (s.goto r .acquire)

/-- One step of `iderw`. -/
def iderw (s : State ρ D) (r : ρ) : Option (State ρ D × List (Event ρ)) :=
  match s.pc r with
  | .idle | .asleep | .returned => none
  | .acquire =>
    if s.idelock.isNone then some ({ s.goto r .append with idelock := some (.caller r) }, [])
    else none
  | .append =>
    some ({ s.goto r .start with idequeue := s.idequeue ++ [r] }, [.appended r])
  | .start =>
    if s.idequeue.head? = some r then idestart (s.goto r .test) r
    else some (s.goto r .test, [])
  | .test =>
    if (s.buf r).upToDate then some (s.goto r .release, [])
    else some ({ s.goto r .asleep with idelock := none }, [])
  | .woken =>
    if s.idelock.isNone then some ({ s.goto r .test with idelock := some (.caller r) }, [])
    else none
  | .release => some ({ s.goto r .returned with idelock := none }, [])

/-- One step of `ideintr`. -/
def ideintr (s : State ρ D) : Option (State ρ D × List (Event ρ)) :=
  match s.handler with
  | .idle => none
  | .acquire =>
    if s.idelock.isNone then some ({ s with idelock := some .handler, handler := .take }, [])
    else none
  | .take =>
    match s.idequeue with
    | [] => some ({ s with handler := .release }, [])
    | b :: q => some ({ s with idequeue := q, handler := .insl b }, [])
  | .insl b =>
    if (s.buf b).dirty then some ({ s with handler := .flags b }, [])
    else some ({ s.setBuf b { s.buf b with data := s.disk.port } with handler := .flags b }, [])
  | .flags b =>
    some ({ s.setBuf b { s.buf b with valid := true, dirty := false } with
      handler := .wakeup b }, [])
  | .wakeup b =>
    if s.pc b = .asleep then some ({ s.goto b .woken with handler := .next }, [])
    else some ({ s with handler := .next }, [])
  | .next =>
    match s.idequeue with
    | [] => some ({ s with handler := .release }, [])
    | b :: _ => idestart { s with handler := .release } b
  | .release => some ({ s with idelock := none, handler := .idle }, [])

/-- One step of the system; after a `panic` there is none. -/
def step (havedisk1 : Bool) (s : State ρ D) (l : Label ρ) :
    Option (State ρ D × List (Event ρ)) :=
  if s.panic.isSome then none
  else match l with
  | .call r => (call havedisk1 s r).map fun t => (t, [])
  | .caller r => iderw s r
  | .interrupt =>
    match s.handler with
    | .idle =>
      if s.disk.irq then
        some ({ s with disk := { s.disk with irq := false }, handler := .acquire }, [])
      else none
    | _ => none
  | .ideintr => ideintr s
  | .disk => s.disk.finish.map fun d => ({ s with disk := d }, [])
  | .wake r => if s.pc r = .asleep then some (s.goto r .woken, []) else none

/-- No request has been made and the disk is idle. -/
def start (buf : ρ → Buf D) (sectors : Nat → Nat → D) (port : D) : State ρ D where
  buf := buf
  idelock := none
  idequeue := []
  disk := { sectors := sectors, cmd := none, irq := false, port := port }
  pc := fun _ => .idle
  handler := .idle
  panic := none

end Xv6.Ide
