import Xv6.Lib.Runs
import Xv6.Lib.Segments

/-! `filewrite` (`file.c`) on one writable `struct file` of a regular file that any number of
threads and processes share, with `writei` (`fs.c`). A step is one statement of `filewrite`,
or one turn of the loop of `writei`, where `bmap`, `bread` and `log_write` may sleep. The file
is given by the contents of its blocks; which disk blocks they are does not matter here. -/

namespace Xv6.Filewrite

open Runs Segments Function

def BSIZE : Nat := 512

def NDIRECT : Nat := 12

def NINDIRECT : Nat := BSIZE / 4

def MAXFILE : Nat := NDIRECT + NINDIRECT

def MAXOPBLOCKS : Nat := 10

/-- `max`: how much one transaction writes. -/
def maxChunk : Nat := ((MAXOPBLOCKS - 1 - 1 - 2) / 2) * 512

abbrev Byte := BitVec 8

/-- `n1`, when `i` of the bytes of `buf` are written. -/
def n1 (buf : List Byte) (i : Nat) : Nat :=
  if buf.length - i > maxChunk then maxChunk else buf.length - i

/-- The `n1` bytes at `addr + i`. -/
def src (buf : List Byte) (i : Nat) : List Byte := (buf.drop i).take (n1 buf i)

/-- Where a thread is. `buf` are the bytes that `filewrite` is given at `addr`. -/
inductive Pc
  | out
  /-- At the test of the `while`; before `begin_op`, `ilock` and the call of `writei`. -/
  | loop (buf : List Byte) (i : Nat)
  | begin (buf : List Byte) (i : Nat)
  | ilock (buf : List Byte) (i : Nat)
  | writei (buf : List Byte) (i : Nat)
  /-- In `writei`, called with `off`: at the test of the `for`, at the test of the size. The
  variable `off` of `writei` is by now `off + tot`. -/
  | copy (buf : List Byte) (i : Nat) (off : BitVec 32) (tot : Nat)
  | grow (buf : List Byte) (i : Nat) (off : BitVec 32)
  /-- `writei` has returned `r`; before `iunlock`, before `end_op`. -/
  | got (buf : List Byte) (i : Nat) (off : BitVec 32) (r : Int)
  | iunlock (buf : List Byte) (i : Nat) (r : Int)
  | endOp (buf : List Byte) (i : Nat) (r : Int)
  deriving DecidableEq, Repr

/-- `f->off`, `ip->size`, and the contents of the blocks that the file has. -/
structure File where
  off : BitVec 32
  size : BitVec 32
  blocks : Nat → Option (Nat → Byte)

namespace File

/-- `bread(ip->dev, bmap(ip, bn))`: `bmap` gives the file a block, and `balloc` clears it. -/
def bread (f : File) (bn : Nat) : Nat → Byte := (f.blocks bn).getD fun _ => 0

/-- The contents of the file. -/
def byte (f : File) (k : Nat) : Byte := f.bread (k / BSIZE) (k % BSIZE)

/-- `memmove` of `bytes` into the block of the offset `pos`. -/
def fill (f : File) (pos : Nat) (bytes : List Byte) : File :=
  { f with
    blocks := update f.blocks (pos / BSIZE)
      (some (put (f.bread (pos / BSIZE)) (pos % BSIZE) bytes)) }

/-- `writei` refuses to write `n` bytes at `off`. -/
def refuses (f : File) (off n : BitVec 32) : Bool :=
  f.size < off || off + n < off || BitVec.ofNat 32 (MAXFILE * BSIZE) < off + n

/-- The end of `writei`, which has written `n` bytes up to `off`. -/
def grow (f : File) (off : BitVec 32) (n : Nat) : File :=
  if 0 < n ∧ f.size < off then { f with size := off } else f

/-- `f->off += r` -/
def advance (f : File) (r : Int) : File := { f with off := f.off + BitVec.ofInt 32 r }

end File

structure State (T : Type) where
  file : File
  /-- The holder of `ip->lock`. -/
  lock : Option T
  thread : T → Pc

inductive Event (T : Type)
  /-- `filewrite` is called. -/
  | call (t : T) (buf : List Byte)
  /-- `writei` was called with `off`, has written `bytes`, and `f->off` is advanced. -/
  | chunk (t : T) (off : Nat) (bytes : List Byte)
  /-- `filewrite` returns. -/
  | wrote (t : T) (buf : List Byte) (ret : Int)
  deriving DecidableEq, Repr

inductive Label (T : Type)
  | call (t : T) (buf : List Byte)
  | run (t : T)
  deriving DecidableEq, Repr

namespace State

variable {T : Type} [DecidableEq T]

def goto (s : State T) (t : T) (pc : Pc) : State T :=
  { s with thread := update s.thread t pc }

/-- `return i == n ? n : -1` -/
def finish (s : State T) (t : T) (buf : List Byte) (i : Nat) : State T × List (Event T) :=
  (s.goto t .out, [.wrote t buf (if i = buf.length then buf.length else -1)])

/-- Thread `t` goes on. A panic stops it. -/
def run (s : State T) (t : T) : Option (State T × List (Event T)) :=
  match s.thread t with
  | .out => none
  | .loop buf i =>
    if i < buf.length then some (s.goto t (.begin buf i), []) else some (s.finish t buf i)
  | .begin buf i => some (s.goto t (.ilock buf i), [])
  | .ilock buf i =>
    if s.lock = none then some ({ s.goto t (.writei buf i) with lock := some t }, []) else none
  | .writei buf i =>
    if s.file.refuses s.file.off (BitVec.ofNat 32 (n1 buf i)) then
      some (s.goto t (.got buf i s.file.off (-1)), [])
    else some (s.goto t (.copy buf i s.file.off 0), [])
  | .copy buf i off tot =>
    if tot < n1 buf i then
      let pos := (off + BitVec.ofNat 32 tot).toNat
      let m := min (n1 buf i - tot) (BSIZE - pos % BSIZE)
      -- `bmap` panics out of range
      if pos / BSIZE < MAXFILE then
        some ({ s.goto t (.copy buf i off (tot + m)) with
          file := s.file.fill pos (((src buf i).drop tot).take m) }, [])
      else none
    else some (s.goto t (.grow buf i off), [])
  | .grow buf i off =>
    some ({ s.goto t (.got buf i off (n1 buf i)) with
      file := s.file.grow (off + BitVec.ofNat 32 (n1 buf i)) (n1 buf i) }, [])
  | .got buf i off r =>
    if 0 < r then
      some ({ s.goto t (.iunlock buf i r) with file := s.file.advance r },
        [.chunk t off.toNat (src buf i)])
    else some (s.goto t (.iunlock buf i r), [])
  | .iunlock buf i r => some ({ s.goto t (.endOp buf i r) with lock := none }, [])
  | .endOp buf i r =>
    if r < 0 then some (s.finish t buf i)
    else if r ≠ n1 buf i then none
    else some (s.goto t (.loop buf (i + r.toNat)), [])

def step (s : State T) : Label T → Option (State T × List (Event T))
  | .call t buf =>
    if s.thread t = .out then some (s.goto t (.loop buf 0), [.call t buf]) else none
  | .run t => s.run t

/-- Nobody is in `filewrite`. -/
structure Idle (s : State T) : Prop where
  lock : s.lock = none
  thread : ∀ t, s.thread t = .out

end State
end Xv6.Filewrite
