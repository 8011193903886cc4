import Xv6.Format.Image

/-! `mkfs.c`: the program that makes the image of a file system from a list of host files. The
image is a host file too; it has `FSSIZE` blocks when `main` begins to fill it, and a read
behind its end fails. -/

namespace Xv6.Mkfs

open Format Segments Words Function

def NINODES : Nat := 200
/-- `LOGSIZE` (`param.h`) -/
def nlog : Nat := 30
def nbitmap : Nat := FSSIZE / (BSIZE * 8) + 1
def ninodeblocks : Nat := NINODES / IPB + 1
/-- The number of meta blocks. -/
def nmeta : Nat := 2 + nlog + ninodeblocks + nbitmap
def nblocks : Nat := FSSIZE - nmeta

def sb : Superblock where
  size := FSSIZE
  nblocks := nblocks
  ninodes := NINODES
  nlog := nlog
  logstart := 2
  inodestart := 2 + nlog
  bmapstart := 2 + nlog + ninodeblocks

/-- Where `mkfs` ends before its `exit(0)`. -/
inductive Exit
  /-- `assert(index(argv[i], '/') == 0)` -/
  | index
  /-- `assert(rootino == ROOTINO)` -/
  | rootino
  /-- `assert(fbn < MAXFILE)` -/
  | maxfile
  /-- `assert(used < BSIZE*8)` -/
  | used
  /-- `perror("read")` in `rsect` -/
  | read
  deriving DecidableEq, Repr

/-- The image, the number of blocks that the host has of it, and the counters. -/
structure State where
  img : Img
  blocks : Nat
  freeinode : Nat
  freeblock : Nat

namespace State

def wsect (s : State) (sec : Nat) (buf : Nat → Byte) : State :=
  { s with img := update s.img sec buf, blocks := max s.blocks (sec + 1) }

def rsect (s : State) (sec : Nat) : Except Exit (Nat → Byte) :=
  if sec < s.blocks then .ok (s.img sec) else .error .read

def winode (s : State) (inum : Nat) (ip : Dinode) : Except Exit State := do
  let bn := IBLOCK inum sb
  let buf ← s.rsect bn
  return s.wsect bn (put buf (inum % IPB * dinodeSize) ip.bytes)

def rinode (s : State) (inum : Nat) : Except Exit Dinode := do
  let bn := IBLOCK inum sb
  let buf ← s.rsect bn
  return dinodeAt buf (inum % IPB * dinodeSize)

/-- The inode of an empty file. -/
def newDinode (type : Nat) : Dinode where
  type := type
  major := 0
  minor := 0
  nlink := 1
  size := 0
  addrs _ := 0

def ialloc (s : State) (type : Nat) : Except Exit (Nat × State) := do
  let inum := s.freeinode
  let s := { s with freeinode := s.freeinode + 1 }
  let s ← s.winode inum (newDinode type)
  return (inum, s)

/-- The block with bits 0 to `used - 1` set. -/
def bits (used : Nat) : Nat → Byte :=
  (List.range used).foldl
    (fun buf i => update buf (i / 8) (buf (i / 8) ||| (1#8 <<< (i % 8)))) fun _ => 0

def balloc (s : State) (used : Nat) : Except Exit State :=
  if used < BSIZE * 8 then .ok (s.wsect sb.bmapstart (bits used)) else .error .used

/-- `freeblock++`, entered as address `i` of the inode. -/
def takeAddr (s : State) (din : Dinode) (i : Fin (NDIRECT + 1)) : State × Dinode :=
  ({ s with freeblock := s.freeblock + 1 },
    { din with addrs := update din.addrs i s.freeblock })

/-- The part of the loop of `iappend` that looks into the indirect block. -/
def indirectBlock (s : State) (din : Dinode) (fbn : Nat) : Except Exit (State × Dinode × Nat) := do
  let a := din.addrs (Fin.last NDIRECT)
  let indirect ← s.rsect a
  if uint indirect (fbn - NDIRECT) = 0 then
    let x := s.freeblock
    let s := { s with freeblock := s.freeblock + 1 }
    return (s.wsect a (put indirect (4 * (fbn - NDIRECT)) (bytes 4 x)), din, x)
  else return (s, din, uint indirect (fbn - NDIRECT))

/-- The part of the loop of `iappend` that finds the block number `fbn` of the file, or takes a
new one; the number of the block is the last component. -/
def fileBlock (s : State) (din : Dinode) (fbn : Nat) : Except Exit (State × Dinode × Nat) :=
  if h : fbn < NDIRECT then
    let i : Fin (NDIRECT + 1) := ⟨fbn, Nat.lt_succ_of_lt h⟩
    if din.addrs i = 0 then
      let (s, din) := s.takeAddr din i
      .ok (s, din, din.addrs i)
    else .ok (s, din, din.addrs i)
  else if din.addrs (Fin.last NDIRECT) = 0 then
    let (s, din) := s.takeAddr din (Fin.last NDIRECT)
    s.indirectBlock din fbn
  else s.indirectBlock din fbn

/-- The loop of `iappend`; `p` are the bytes that are left. -/
def iappendLoop (s : State) (din : Dinode) (off : Nat) (p : List Byte) :
    Except Exit (State × Dinode × Nat) :=
  if p = [] then .ok (s, din, off)
  else
    let fbn := off / BSIZE
    if fbn < MAXFILE then
      match s.fileBlock din fbn with
      | .error e => .error e
      | .ok (s, din, x) =>
        let n1 := min p.length ((fbn + 1) * BSIZE - off)
        match s.rsect x with
        | .error e => .error e
        | .ok buf =>
          iappendLoop (s.wsect x (put buf (off - fbn * BSIZE) (p.take n1))) din (off + n1)
            (p.drop n1)
    else .error .maxfile
termination_by p.length
decreasing_by
  have hp : p.length ≠ 0 := by simpa using ‹¬ p = []›
  have hoff : off < (off / BSIZE + 1) * BSIZE := by
    simp only [BSIZE]
    omega
  rw [List.length_drop]
  omega

def iappend (s : State) (inum : Nat) (p : List Byte) : Except Exit State := do
  let din ← s.rinode inum
  let (s, din, off) ← s.iappendLoop din din.size p
  s.winode inum { din with size := off }

end State

/-- A file of the host: its name, a C string, and the pieces in which `read` returns it. -/
structure HostFile where
  name : List Byte
  pieces : List (List Byte)
  isString : ∀ c ∈ name, c ≠ 0
  isRead : ∀ p ∈ pieces, 0 < p.length ∧ p.length ≤ BSIZE

def HostFile.contents (f : HostFile) : List Byte := f.pieces.flatten

/-- The name without a leading `_`. -/
def HostFile.target (f : HostFile) : Chars :=
  if f.name.head? = some 95 then Chars.lit f.name.tail else Chars.lit f.name

namespace State

/-- One turn of the loop over `argv`. -/
def addFile (rootino : Nat) (s : State) (f : HostFile) : Except Exit State :=
  if (47 : Byte) ∈ f.name then .error .index
  else do
    let (inum, s) ← s.ialloc T_FILE
    let s ← s.iappend rootino (direntBytes inum (strncpy DIRSIZ f.target))
    f.pieces.foldlM (fun s p => s.iappend inum p) s

/-- All blocks are zero, except the super block. -/
def init : State where
  img := update (fun _ _ => 0) 1 (put (fun _ => 0) 0 sb.bytes)
  blocks := FSSIZE
  freeinode := 1
  freeblock := nmeta

end State

def dot : Chars := Chars.lit [46]
def dotdot : Chars := Chars.lit [46, 46]

def main (files : List HostFile) : Except Exit State := do
  let (rootino, s) ← State.init.ialloc T_DIR
  if rootino ≠ ROOTINO then throw .rootino
  let s ← s.iappend rootino (direntBytes rootino (strncpy DIRSIZ dot))
  let s ← s.iappend rootino (direntBytes rootino (strncpy DIRSIZ dotdot))
  let s ← files.foldlM (State.addFile rootino) s
  -- the size of the root directory is rounded
  let din ← s.rinode rootino
  let s ← s.winode rootino { din with size := (din.size / BSIZE + 1) * BSIZE }
  s.balloc s.freeblock

end Xv6.Mkfs
