import Xv6.Format.Dirents
import Xv6.Lib.Runs
import Xv6.Lib.Segments

/-! One directory, as a file of bytes: `dirlookup` and `dirlink` (`fs.c`) and the part of
`sys_unlink` (`sysfile.c`) that removes an entry, each made while the inode of the directory
is locked. `readi` and `writei` are for an inode of type `T_DIR`; they go from block to block,
but an entry lies in one block, and which disk blocks the directory has does not matter. -/

namespace Xv6.Dirs

open Format Runs Segments

/-- `dp->size`, and the contents of the blocks of the directory. -/
structure Dir where
  size : Nat
  data : Nat → Byte

namespace Dir

/-- The bytes that `readi(dp, dst, off, n)` copies, none if it returns -1. -/
def readi (d : Dir) (off n : Nat) : Option (List Byte) :=
  if d.size < off ∨ (off + n) % 2 ^ 32 < off then none
  else some ((List.range (if d.size < off + n then d.size - off else n)).map fun i =>
    d.data (off + i))

/-- `writei(dp, src, off, n)` with the `n` bytes of `src`. The blocks below the size are there;
`room` is whether `balloc` finds a block for a new one. -/
def writei (d : Dir) (room : Bool) (src : List Byte) (off : Nat) : Except Panic (Int × Dir) :=
  if d.size < off ∨ (off + src.length) % 2 ^ 32 < off then .ok (-1, d)
  else if MAXFILE * BSIZE < off + src.length then .ok (-1, d)
  else if d.size ≤ off / BSIZE * BSIZE ∧ room = false then .error .outOfBlocks
  else .ok (src.length, ⟨max d.size (off + src.length), put d.data off src⟩)

/-- `dirlookup(dp, name, &off)`: the offset and the number of the entry. -/
def dirlookup (d : Dir) (name : Chars) : Except Panic (Option (Nat × Nat)) :=
  Format.dirlookup d.readi d.size name

/-- The loop of `dirlink` that looks for an empty entry, from `off` on. -/
def emptyLoop (d : Dir) : Nat → Nat → Except Panic Nat
  | 0, off => .ok off
  | k + 1, off =>
    if off < d.size then
      match d.readi off direntSize with
      | none => .error .dirlinkRead
      | some de =>
        if de.length ≠ direntSize then .error .dirlinkRead
        else if inumOf de = 0 then .ok off
        else d.emptyLoop k (off + direntSize)
    else .ok off

def dirlink (d : Dir) (room : Bool) (name : Chars) (inum : Nat) : Except Panic (Int × Dir) := do
  match ← d.dirlookup name with
  | some _ => pure (-1, d)
  | none =>
    let off ← d.emptyLoop (d.size + 1) 0
    let (r, d') ← d.writei room (direntBytes inum (strncpy DIRSIZ name)) off
    if r ≠ direntSize then throw .dirlink
    else pure (0, d')

def dot : Chars := Chars.lit [46]
def dotdot : Chars := Chars.lit [46, 46]

/-- `sys_unlink` from `ilock(dp)` on. `ok` is whether the inode of the entry may be unlinked: it
is not a directory, or an empty one. -/
def unlink (d : Dir) (name : Chars) (ok : Bool) : Except Panic (Int × Dir) := do
  if namecmp name dot = 0 ∨ namecmp name dotdot = 0 then pure (-1, d)
  else
    match ← d.dirlookup name with
    | none => pure (-1, d)
    | some (off, _) =>
      if ok = false then pure (-1, d)
      else
        let (r, d') ← d.writei false (List.replicate direntSize 0) off
        if r ≠ direntSize then throw .unlinkWritei
        else pure (0, d')

end Dir

/-- The operations on the directory, in the order in which its lock is taken. -/
inductive Op
  | lookup (name : Chars)
  | link (room : Bool) (name : Chars) (inum : Nat)
  | unlink (name : Chars) (ok : Bool)

/-- An operation and its result. `looked` has the number that `dirlookup` finds, or 0. -/
inductive Event
  | looked (name : Chars) (inum : Nat)
  | linked (name : Chars) (inum : Nat) (r : Int)
  | unlinked (name : Chars) (r : Int)

/-- An operation; a panic is the end. -/
def step (d : Dir) : Op → Option (Dir × List Event)
  | .lookup name =>
    match d.dirlookup name with
    | .ok (some (_, inum)) => some (d, [.looked name inum])
    | .ok none => some (d, [.looked name 0])
    | .error _ => none
  | .link room name inum =>
    match d.dirlink room name inum with
    | .ok (r, d') => some (d', [.linked name inum r])
    | .error _ => none
  | .unlink name ok =>
    match d.unlink name ok with
    | .ok (r, d') => some (d', [.unlinked name r])
    | .error _ => none

end Xv6.Dirs
