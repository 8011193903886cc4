import Xv6.Format.Dirents
import Xv6.Lib.Words

/-! A file system as the kernel reads it (`fs.c`, `fs.h`): the super block, the inodes, and
`bmap`, `readi` and `dirlookup` on an image whose blocks are in place. Where `bmap` finds no
block it would go on with `balloc`, which changes the image; the functions here stop at that
point and say so. -/

namespace Xv6.Format

open Segments Words

/-- The bytes of the image, by block and offset. -/
abbrev Img := Nat → Nat → Byte

def ROOTINO : Nat := 1
def T_DIR : Nat := 1
def T_FILE : Nat := 2
def T_DEV : Nat := 3

/-- A `uint` of a block that is an array of them. -/
def uint (block : Nat → Byte) (i : Nat) : Nat := word block (4 * i) 4

structure Superblock where
  size : Nat
  nblocks : Nat
  ninodes : Nat
  nlog : Nat
  logstart : Nat
  inodestart : Nat
  bmapstart : Nat
  deriving DecidableEq, Repr

def Superblock.bytes (sb : Superblock) : List Byte :=
  [sb.size, sb.nblocks, sb.ninodes, sb.nlog, sb.logstart, sb.inodestart, sb.bmapstart].flatMap
    (Words.bytes 4)

/-- `readsb` -/
def readsb (img : Img) : Superblock where
  size := uint (img 1) 0
  nblocks := uint (img 1) 1
  ninodes := uint (img 1) 2
  nlog := uint (img 1) 3
  logstart := uint (img 1) 4
  inodestart := uint (img 1) 5
  bmapstart := uint (img 1) 6

structure Dinode where
  type : Nat
  major : Nat
  minor : Nat
  nlink : Nat
  size : Nat
  addrs : Fin (NDIRECT + 1) → Nat

/-- `sizeof(struct dinode)` -/
def dinodeSize : Nat := 64

/-- Inodes per block. -/
def IPB : Nat := BSIZE / dinodeSize

def IBLOCK (i : Nat) (sb : Superblock) : Nat := i / IPB + sb.inodestart

/-- Bitmap bits per block. -/
def BPB : Nat := BSIZE * 8

def BBLOCK (b : Nat) (sb : Superblock) : Nat := b / BPB + sb.bmapstart

def Dinode.bytes (d : Dinode) : List Byte :=
  ([d.type, d.major, d.minor, d.nlink].flatMap (Words.bytes 2) ++ Words.bytes 4 d.size) ++
    (List.ofFn d.addrs).flatMap (Words.bytes 4)

/-- The `struct dinode` at offset `k` of a block. -/
def dinodeAt (block : Nat → Byte) (k : Nat) : Dinode where
  type := word block k 2
  major := word block (k + 2) 2
  minor := word block (k + 4) 2
  nlink := word block (k + 6) 2
  size := word block (k + 8) 4
  addrs i := word block (k + (12 + 4 * i)) 4

/-- The inode as `ilock` reads it. -/
def ilock (img : Img) (inum : Nat) : Dinode :=
  dinodeAt (img (IBLOCK inum (readsb img))) (inum % IPB * dinodeSize)

/-- Whether block `b` is marked as used (`balloc`, `bfree`). -/
def inUse (img : Img) (b : Nat) : Bool :=
  (img (BBLOCK b (readsb img)) (b % BPB / 8)).getLsbD (b % BPB % 8)

/-- Where `readi` does not come to its end. -/
inductive Stop
  /-- `bmap` calls `balloc`. -/
  | balloc
  /-- panic: bmap: out of range -/
  | outOfRange
  /-- The inode is a device, and `devsw` is called. -/
  | devsw
  deriving DecidableEq, Repr

def bmap (img : Img) (ip : Dinode) (bn : Nat) : Except Stop Nat :=
  if h : bn < NDIRECT then
    let addr := ip.addrs ⟨bn, Nat.lt_succ_of_lt h⟩
    if addr = 0 then .error .balloc else .ok addr
  else if bn - NDIRECT < NINDIRECT then
    if ip.addrs (Fin.last NDIRECT) = 0 then .error .balloc
    else
      let addr := uint (img (ip.addrs (Fin.last NDIRECT))) (bn - NDIRECT)
      if addr = 0 then .error .balloc else .ok addr
  else .error .outOfRange

/-- The loop of `readi` with `n` bytes to go. -/
def readiLoop (img : Img) (ip : Dinode) (off n : Nat) : Except Stop (List Byte) :=
  if n = 0 then .ok []
  else
    match bmap img ip (off / BSIZE) with
    | .error e => .error e
    | .ok b =>
      let m := min n (BSIZE - off % BSIZE)
      (readiLoop img ip (off + m) (n - m)).map (get (img b) (off % BSIZE) m ++ ·)
termination_by n
decreasing_by
  have := Nat.mod_lt off (show 0 < BSIZE by decide)
  omega

/-- The bytes that `readi` copies, none if it returns -1. -/
def readi (img : Img) (ip : Dinode) (off n : Nat) : Except Stop (Option (List Byte)) :=
  if ip.type = T_DEV then .error .devsw
  else if off > ip.size ∨ (off + n) % 2 ^ 32 < off then .ok none
  else
    (readiLoop img ip off (if off + n > ip.size then ip.size - off else n)).map some

/-- `dirlookup` in a directory `dp`: the offset and the number of the entry. A read that stops
counts as one that fails. -/
def lookup (img : Img) (dp : Dinode) (name : Chars) : Except Panic (Option (Nat × Nat)) :=
  dirlookup (fun off n => (readi img dp off n).toOption.join) dp.size name

/-! ## What is written is read back -/

theorem Dinode.bytes_length (d : Dinode) : d.bytes.length = dinodeSize := by
  simp only [bytes, List.length_append, flatMap_bytes_length, Words.bytes_length, List.length_ofFn]
  rfl

/-- The fields fit into their words. -/
structure Dinode.Fits (d : Dinode) : Prop where
  type : d.type < 2 ^ 16
  major : d.major < 2 ^ 16
  minor : d.minor < 2 ^ 16
  nlink : d.nlink < 2 ^ 16
  size : d.size < 2 ^ 32
  addrs : ∀ i, d.addrs i < 2 ^ 32

section RoundTrip

variable {block : Nat → Byte} {k a n : Nat} {l : List Byte}

theorem word_put_inside (h : a + n ≤ l.length) :
    word (put block k l) (k + a) n = value ((l.drop a).take n) :=
  congrArg value (get_put_inside h)

theorem Dinode.addrs_bytes (d : Dinode) (i : Fin (NDIRECT + 1)) :
    (d.bytes.drop (12 + 4 * i)).take 4 = Words.bytes 4 (d.addrs i) := by
  have hhead : ([d.type, d.major, d.minor, d.nlink].flatMap (Words.bytes 2) ++
      Words.bytes 4 d.size).length = 12 := by
    simp only [List.length_append, flatMap_bytes_length, Words.bytes_length]
    rfl
  have hi : (i : Nat) < (List.ofFn d.addrs).length := by
    rw [List.length_ofFn]
    exact i.isLt
  rw [bytes, ← hhead, List.drop_length_add_append, drop_take_flatMap 4 _ i hi, List.getElem_ofFn]

theorem dinodeAt_put {d : Dinode} (h : d.Fits) : dinodeAt (put block k d.bytes) k = d := by
  have hlen := d.bytes_length
  rw [dinodeSize] at hlen
  have hword : ∀ a n, a + n ≤ 64 →
      word (put block k d.bytes) (k + a) n = value ((d.bytes.drop a).take n) :=
    fun a n ha => word_put_inside (by omega)
  have htype := hword 0 2 (by decide)
  rw [Nat.add_zero] at htype
  have hshort : ∀ x, x < 2 ^ 16 → value (Words.bytes 2 x) = x := fun x hx => by
    rw [value_bytes]
    exact Nat.mod_eq_of_lt hx
  have hlong : ∀ x, x < 2 ^ 32 → value (Words.bytes 4 x) = x := fun x hx => by
    rw [value_bytes]
    exact Nat.mod_eq_of_lt hx
  have haddrs : (dinodeAt (put block k d.bytes) k).addrs = d.addrs := by
    funext i
    have hi := i.isLt
    simp only [NDIRECT] at hi
    show word _ _ _ = _
    rw [hword _ _ (by omega), d.addrs_bytes i, hlong _ (h.addrs i)]
  have hother : ∀ d' : Dinode, d'.type = d.type → d'.major = d.major → d'.minor = d.minor →
      d'.nlink = d.nlink → d'.size = d.size → d'.addrs = d.addrs → d' = d := by
    intro d' h1 h2 h3 h4 h5 h6
    cases d'
    cases d
    simp_all
  refine hother _ ?_ ?_ ?_ ?_ ?_ haddrs
  · exact htype.trans (hshort _ h.type)
  · exact (hword 2 2 (by decide)).trans (hshort _ h.major)
  · exact (hword 4 2 (by decide)).trans (hshort _ h.minor)
  · exact (hword 6 2 (by decide)).trans (hshort _ h.nlink)
  · exact (hword 8 4 (by decide)).trans (hlong _ h.size)

theorem dinodeAt_put_outside (h : a + dinodeSize ≤ k ∨ k + l.length ≤ a) :
    dinodeAt (put block k l) a = dinodeAt block a := by
  have hword : ∀ b n, b + n ≤ dinodeSize →
      word (put block k l) (a + b) n = word block (a + b) n := by
    intro b n hb
    exact word_put_outside (by omega)
  have haddrs : (dinodeAt (put block k l) a).addrs = (dinodeAt block a).addrs := by
    funext i
    have hi := i.isLt
    simp only [NDIRECT] at hi
    exact hword _ _ (by simp only [dinodeSize]; omega)
  simp only [dinodeAt, Dinode.mk.injEq] at haddrs ⊢
  refine ⟨hword 0 2 (by decide), hword 2 2 (by decide), hword 4 2 (by decide),
    hword 6 2 (by decide), hword 8 4 (by decide), haddrs⟩

end RoundTrip

end Xv6.Format
