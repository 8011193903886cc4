import Xv6.Fs.Model
import Xv6.Lib.Writes

/-! The redo log of `log.c`: `commit`, and the recovery that `initlog` runs. Block numbers
and the words of a block are 32-bit. `Store` is the disk with the buffer cache over it;
beside them it has the list of the block writes made so far, of which a crash leaves a
prefix. -/

namespace Xv6.DiskLog

open Writes Function

def BSIZE : Nat := 512

/-- The number of blocks of the log area, as `mkfs` sets it. -/
def nlog : Nat := LOGSIZE

abbrev Word := BitVec 32

/-- The data of a buffer, by words. -/
abbrev Block := Fin (BSIZE / 4) → Word

abbrev Disk := Word → Block

/-- `struct logheader` in memory. -/
structure LogHeader where
  n : Int
  block : Fin LOGSIZE → Word
  n_le : n ≤ LOGSIZE

namespace LogHeader

/-- The values of `tail` in a loop `for (tail = 0; tail < log.lh.n; tail++)`. -/
def tails (lh : LogHeader) : List (Fin LOGSIZE) :=
  (List.finRange LOGSIZE).filter fun tail => (tail : Int) < lh.n

/-- The block numbers of the transaction. -/
def blocks (lh : LogHeader) : List Word := lh.tails.map lh.block

/-- `log.lh.n = 0`. -/
def clear (lh : LogHeader) : LogHeader where
  n := 0
  block := lh.block
  n_le := Int.natCast_nonneg LOGSIZE

end LogHeader

/-- The words of `n` and of `block[i]` in a header block. -/
def nSlot : Fin (BSIZE / 4) := ⟨0, by decide⟩

def slot (i : Fin LOGSIZE) : Fin (BSIZE / 4) :=
  ⟨i + 1, Nat.lt_of_le_of_lt (Nat.succ_le_of_lt i.isLt) (by decide)⟩

/-- `lh->n` of a header block. -/
def headN (b : Block) : Int := (b nSlot).toInt

/-- The header block `b` after `write_head` has filled in `n` and that many entries of
`block`: the rest of `b` stays. -/
def LogHeader.fill (lh : LogHeader) (b : Block) : Block :=
  after (update b nSlot (BitVec.ofInt 32 lh.n))
    (lh.tails.map fun i => (slot i, lh.block i))

/-- `read_head` on a header block; `none` when it would write past `log.lh.block`. -/
def readHead (b : Block) : Option LogHeader :=
  if h : headN b ≤ LOGSIZE then
    some
      { n := headN b
        block := fun i => if (i : Int) < headN b then b (slot i) else 0
        n_le := h }
  else none

/-- Log block number `tail`. -/
def logBlock (start : Word) (tail : Fin LOGSIZE) : Word := start + BitVec.ofNat 32 tail + 1

structure Store where
  disk : Disk
  /-- What `bread` returns. -/
  buf : Disk
  /-- The calls of `bwrite`, in order. -/
  writes : List (Word × Block)

namespace Store

/-- The cache is empty. -/
def boot (d : Disk) : Store := ⟨d, d, []⟩

/-- The blocks `bs` have been modified in the cache. -/
def modified (d : Disk) (bs : List Word) (new : Disk) : Store :=
  ⟨d, fun b => if b ∈ bs then new b else d b, []⟩

def bwrite (s : Store) (b : Word) : Store :=
  { s with disk := update s.disk b (s.buf b), writes := s.writes ++ [(b, s.buf b)] }

/-- The caller changes the data of its buffer. -/
def setData (s : Store) (b : Word) (data : Block) : Store :=
  { s with buf := update s.buf b data }

/-- The loop of `write_log` and of `install_trans`: blocks are copied in the cache, and
the copies are written. -/
def copyBlocks (s : Store) (src dst : Fin LOGSIZE → Word) : List (Fin LOGSIZE) → Store
  | [] => s
  | i :: is => copyBlocks ((s.setData (dst i) (s.buf (src i))).bwrite (dst i)) src dst is

def writeLog (s : Store) (start : Word) (lh : LogHeader) : Store :=
  s.copyBlocks lh.block (logBlock start) lh.tails

def installTrans (s : Store) (start : Word) (lh : LogHeader) : Store :=
  s.copyBlocks (logBlock start) lh.block lh.tails

def writeHead (s : Store) (start : Word) (lh : LogHeader) : Store :=
  (s.setData start (lh.fill (s.buf start))).bwrite start

def commit (s : Store) (start : Word) (lh : LogHeader) : Store :=
  if 0 < lh.n then
    (((s.writeLog start lh).writeHead start lh).installTrans start lh).writeHead start lh.clear
  else s

def recoverFromLog (s : Store) (start : Word) : Option Store :=
  (readHead (s.buf start)).map fun lh => (s.installTrans start lh).writeHead start lh.clear

end Store

/-- Recovery on disk `d`: for each number in the list it crashes after that many writes
and the machine boots again, then it completes. -/
def recover (start : Word) : List Nat → Disk → Option Disk
  | [], d => ((Store.boot d).recoverFromLog start).map Store.disk
  | k :: ks, d => ((Store.boot d).recoverFromLog start).bind fun s =>
      recover start ks (after d (s.writes.take k))

/-- The log area: the header and the log blocks. -/
def InLog (start b : Word) : Prop := (b - start).toNat < nlog

instance (start b : Word) : Decidable (InLog start b) :=
  inferInstanceAs (Decidable ((b - start).toNat < nlog))

end Xv6.DiskLog
