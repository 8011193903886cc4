import Mathlib.Algebra.GroupWithZero.Nat
import Mathlib.Data.Fintype.Basic
import Xv6.Lib.Calls

/-! Inodes, directories and the file system calls (`fs.c`, `file.c`, `sysfile.c`), one call
after another. An inode is known by its number; a directory is its list of entries. The
cached copy of an inode and the inode on disk are one record here, and file contents other
than directories are left out. A sleeplock that is taken twice is never released. -/

namespace Xv6.Links

open Calls Function

/-- `T_DIR`, `T_FILE`, `T_DEV`, and 0 for a free inode. -/
inductive Ty
  | free
  | dir
  | file
  | dev
  deriving DecidableEq, Repr

/-- A path element. -/
abbrev Name := List Char

def dot : Name := ['.']
def dotdot : Name := ['.', '.']

/-- The elements that `skipelem` finds in a path, and whether it starts with a slash. -/
structure Path where
  absolute : Bool
  elems : List Name
  deriving DecidableEq, Repr

/-- Inode numbers below `sb.ninodes`, here `n + 2`. Inode 0 is not used. -/
abbrev Inum (n : Nat) := Fin (n + 2)

scoped instance (priority := 2000) neZero_inum (n : Nat) : NeZero (n + 2) :=
  ⟨Nat.succ_ne_zero (n + 1)⟩

def ROOTINO {n : Nat} : Inum n := 1

structure Dirent (n : Nat) where
  inum : Inum n
  name : Name
  deriving DecidableEq, Repr

/-- What is stored of an inode on the disk. -/
structure Node (n : Nat) where
  type : Ty
  nlink : Int
  /-- The contents of a directory. -/
  ents : List (Dirent n)
  deriving DecidableEq, Repr

/-- An inode with its entry in the inode cache. -/
structure Inode (n : Nat) where
  node : Node n
  ref : Nat
  valid : Bool
  locked : Bool
  deriving DecidableEq, Repr

def NINODE : Nat := 50
def NFILE : Nat := 100
def NOFILE : Nat := 16

/-- `MAXFILE * BSIZE / sizeof(struct dirent)` -/
def MAXENTS : Nat := (12 + 128) * 512 / 16

/-- An open file; `ip` is `none` for a pipe. -/
structure File (n : Nat) where
  ref : Nat
  ip : Option (Inum n)
  readable : Bool
  writable : Bool
  deriving DecidableEq, Repr

structure State (n : Nat) (π : Type) where
  inode : Inum n → Inode n
  file : Fin NFILE → File n
  /-- `none` for a process that does not exist. -/
  cwd : π → Option (Inum n)
  ofile : π × Fin NOFILE → Option (Fin NFILE)

/-- The calls of `panic`, and a sleep without end. -/
inductive Stop
  | ilock
  | noType
  | noInodes
  | iallocNoInodes
  | iunlock
  | notDir
  | dirlink
  | nlink
  | createDots
  | createDirlink
  | filedup
  | fileclose
  | sleeps
  deriving DecidableEq, Repr

variable {n : Nat} {π : Type}

abbrev Sys (n : Nat) (π : Type) := Calls.Call (State n π) Stop

def State.setInode (s : State n π) (i : Inum n) (x : Inode n) : State n π :=
  { s with inode := update s.inode i x }

def State.setNode (s : State n π) (i : Inum n) (x : Node n) : State n π :=
  s.setInode i { s.inode i with node := x }

def State.setFile (s : State n π) (f : Fin NFILE) (x : File n) : State n π :=
  { s with file := update s.file f x }

/-- The inode `i`, read by the thread that has locked it. -/
def inode (i : Inum n) : Sys n π (Inode n) := do
  let s ← get
  pure (s.inode i)

def setInode (i : Inum n) (x : Inode n) : Sys n π Unit := modify fun s => s.setInode i x

/-- Change the stored part of inode `i`; the change is followed by `iupdate`. -/
def setNode (i : Inum n) (x : Node n) : Sys n π Unit := modify fun s => s.setNode i x

/-! ## Inodes -/

def acquiresleep (i : Inum n) : Sys n π Unit := do
  let x ← inode i
  if x.locked then throw .sleeps else setInode i { x with locked := true }

def releasesleep (i : Inum n) : Sys n π Unit := do
  let x ← inode i
  setInode i { x with locked := false }

/-- The entries of the inode cache in use. -/
def State.cached (s : State n π) : Nat :=
  (List.finRange (n + 2)).countP fun i => 0 < (s.inode i).ref

def iget (i : Inum n) : Sys n π Unit := do
  let s ← get
  let x ← inode i
  if 0 < x.ref then setInode i { x with ref := x.ref + 1 }
  else if NINODE ≤ s.cached then throw .noInodes
  else setInode i { x with ref := 1, valid := false }

def idup (i : Inum n) : Sys n π Unit := do
  let x ← inode i
  setInode i { x with ref := x.ref + 1 }

def ilock (i : Inum n) : Sys n π Unit := do
  let x ← inode i
  if x.ref < 1 then throw .ilock
  else do
    acquiresleep i
    let x ← inode i
    if x.valid then pure ()
    else do
      setInode i { x with valid := true }
      if x.node.type = .free then throw .noType else pure ()

def iunlock (i : Inum n) : Sys n π Unit := do
  let x ← inode i
  if x.locked ∧ 1 ≤ x.ref then releasesleep i else throw .iunlock

def itrunc (i : Inum n) : Sys n π Unit := do
  let x ← inode i
  setNode i { x.node with ents := [] }

def iput (i : Inum n) : Sys n π Unit := do
  acquiresleep i
  let x ← inode i
  if x.valid ∧ x.node.nlink = 0 ∧ x.ref = 1 then do
    itrunc i
    let x ← inode i
    setNode i { x.node with type := .free }
    let x ← inode i
    setInode i { x with valid := false }
  else pure ()
  releasesleep i
  let x ← inode i
  setInode i { x with ref := x.ref - 1 }

def iunlockput (i : Inum n) : Sys n π Unit := do
  iunlock i
  iput i

/-- The first free inode, in the order in which `ialloc` looks. -/
def State.freeInode (s : State n π) : Option (Inum n) :=
  (List.finRange (n + 2)).find? fun i => i ≠ 0 ∧ (s.inode i).node.type = .free

def ialloc (ty : Ty) : Sys n π (Inum n) := do
  let s ← get
  match s.freeInode with
  | some i => do
    setNode i ⟨ty, 0, []⟩
    iget i
    pure i
  | none => throw .iallocNoInodes

/-! ## Directories -/

/-- The first live entry with the name, and where it is. -/
def findEnt (es : List (Dirent n)) (name : Name) : Option (Inum n × Nat) :=
  match es.findIdx? fun e => e.inum ≠ 0 ∧ e.name = name with
  | some k => (es[k]?).map fun e => (e.inum, k)
  | none => none

/-- The entries after an entry is written to the first free place. -/
def addEnt (es : List (Dirent n)) (e : Dirent n) : List (Dirent n) :=
  match es.findIdx? fun e => e.inum = 0 with
  | some k => es.set k e
  | none => es ++ [e]

/-- The entries after entry `k` is cleared. -/
def clearEnt (es : List (Dirent n)) (k : Nat) : List (Dirent n) := es.set k ⟨0, []⟩

def dirlookup (dp : Inum n) (name : Name) : Sys n π (Option (Inum n × Nat)) := do
  let x ← inode dp
  if x.node.type = .dir then
    match findEnt x.node.ents name with
    | some (i, k) => do
      iget i
      pure (some (i, k))
    | none => pure none
  else throw .notDir

/-- `false` is the result -1. -/
def dirlink (dp : Inum n) (name : Name) (inum : Inum n) : Sys n π Bool := do
  match ← dirlookup dp name with
  | some (i, _) => do
    iput i
    pure false
  | none => do
    let x ← inode dp
    let es := addEnt x.node.ents ⟨inum, name⟩
    if MAXENTS < es.length then throw .dirlink
    else do
      setNode dp { x.node with ents := es }
      pure true

/-! ## Paths -/

/-- The loop of `namex`. -/
def namexLoop (parent : Bool) : List Name → Inum n → Sys n π (Option (Inum n × Name))
  | [], ip =>
    if parent then do
      iput ip
      pure none
    else pure (some (ip, []))
  | name :: path, ip => do
    ilock ip
    let x ← inode ip
    if x.node.type ≠ .dir then do
      iunlockput ip
      pure none
    else if parent ∧ path = [] then do
      iunlock ip
      pure (some (ip, name))
    else
      match ← dirlookup ip name with
      | none => do
        iunlockput ip
        pure none
      | some (next, _) => do
        iunlockput ip
        namexLoop parent path next

/-- A process without a current directory does not exist. -/
def cwd (p : π) : Sys n π (Inum n) := do
  let s ← get
  pure ((s.cwd p).getD ROOTINO)

def namex (p : π) (parent : Bool) (path : Path) : Sys n π (Option (Inum n × Name)) := do
  if path.absolute then do
    iget ROOTINO
    namexLoop parent path.elems ROOTINO
  else do
    let d ← cwd p
    idup d
    namexLoop parent path.elems d

/-! ## System calls -/

/-- Is the directory empty except for "." and ".."? -/
def isdirempty (es : List (Dirent n)) : Bool := (es.drop 2).all fun e => e.inum = 0

def create (p : π) (path : Path) (ty : Ty) : Sys n π (Option (Inum n)) := do
  match ← namex p true path with
  | none => pure none
  | some (dp, name) => do
    ilock dp
    match ← dirlookup dp name with
    | some (ip, _) => do
      iunlockput dp
      ilock ip
      let x ← inode ip
      if ty = .file ∧ x.node.type = .file then pure (some ip)
      else do
        iunlockput ip
        pure none
    | none => do
      let ip ← ialloc ty
      ilock ip
      let x ← inode ip
      setNode ip { x.node with nlink := 1 }
      if ty = .dir then do
        let x ← inode dp
        setNode dp { x.node with nlink := x.node.nlink + 1 }
        if ← dirlink ip dot ip then
          if ← dirlink ip dotdot dp then pure () else throw .createDots
        else throw .createDots
      else pure ()
      if ← dirlink dp name ip then do
        iunlockput dp
        pure (some ip)
      else throw .createDirlink

variable [DecidableEq π]

def setOfile (p : π) (fd : Fin NOFILE) (f : Option (Fin NFILE)) : Sys n π Unit :=
  modify fun s => { s with ofile := update s.ofile (p, fd) f }

def setCwd (p : π) (i : Option (Inum n)) : Sys n π Unit :=
  modify fun s => { s with cwd := update s.cwd p i }

def filealloc : Sys n π (Option (Fin NFILE)) := do
  let s ← get
  match (List.finRange NFILE).find? fun f => (s.file f).ref = 0 with
  | some f => do
    modify fun s => s.setFile f { s.file f with ref := 1 }
    pure (some f)
  | none => pure none

def fdalloc (p : π) (f : Fin NFILE) : Sys n π (Option (Fin NOFILE)) := do
  let s ← get
  match (List.finRange NOFILE).find? fun fd => s.ofile (p, fd) = none with
  | some fd => do
    setOfile p fd (some f)
    pure (some fd)
  | none => pure none

def filedup (f : Fin NFILE) : Sys n π Unit := do
  let s ← get
  let x := s.file f
  if x.ref < 1 then throw .filedup
  else modify fun s => s.setFile f { x with ref := x.ref + 1 }

def fileclose (f : Fin NFILE) : Sys n π Unit := do
  let s ← get
  let x := s.file f
  if x.ref < 1 then throw .fileclose
  else if 0 < x.ref - 1 then modify fun s => s.setFile f { x with ref := x.ref - 1 }
  else do
    modify fun s => s.setFile f { x with ref := 0, ip := none }
    match x.ip with
    | some i => iput i
    | none => pure ()

def O_WRONLY : Nat := 0x001
def O_RDWR : Nat := 0x002
def O_CREATE : Nat := 0x200

/-- The rest of `sys_open`, with `ip` locked. -/
def openInode (p : π) (ip : Inum n) (omode : Nat) : Sys n π Bool := do
  match ← filealloc with
  | none => do
    iunlockput ip
    pure false
  | some f =>
    match ← fdalloc p f with
    | none => do
      fileclose f
      iunlockput ip
      pure false
    | some _ => do
      iunlock ip
      modify fun s => s.setFile f { s.file f with
        ip := some ip
        readable := omode &&& O_WRONLY = 0
        writable := omode &&& O_WRONLY ≠ 0 ∨ omode &&& O_RDWR ≠ 0 }
      pure true

def sysOpen (p : π) (path : Path) (omode : Nat) : Sys n π Bool := do
  if omode &&& O_CREATE ≠ 0 then
    match ← create p path .file with
    | none => pure false
    | some ip => openInode p ip omode
  else
    match ← namex p false path with
    | none => pure false
    | some (ip, _) => do
      ilock ip
      let x ← inode ip
      if x.node.type = .dir ∧ omode ≠ 0 then do
        iunlockput ip
        pure false
      else openInode p ip omode

/-- `sys_mkdir` and `sys_mknod`. -/
def sysMake (p : π) (path : Path) (ty : Ty) : Sys n π Bool := do
  match ← create p path ty with
  | none => pure false
  | some ip => do
    iunlockput ip
    pure true

def sysMkdir (p : π) (path : Path) : Sys n π Bool := sysMake p path .dir

def sysMknod (p : π) (path : Path) : Sys n π Bool := sysMake p path .dev

/-- The label `bad` of `sys_link`. -/
def linkBad (ip : Inum n) : Sys n π Bool := do
  ilock ip
  let x ← inode ip
  setNode ip { x.node with nlink := x.node.nlink - 1 }
  iunlockput ip
  pure false

def sysLink (p : π) (old new : Path) : Sys n π Bool := do
  match ← namex p false old with
  | none => pure false
  | some (ip, _) => do
    ilock ip
    let x ← inode ip
    if x.node.type = .dir then do
      iunlockput ip
      pure false
    else do
      setNode ip { x.node with nlink := x.node.nlink + 1 }
      iunlock ip
      match ← namex p true new with
      | none => linkBad ip
      | some (dp, name) => do
        ilock dp
        if ← dirlink dp name ip then do
          iunlockput dp
          iput ip
          pure true
        else do
          iunlockput dp
          linkBad ip

/-- The label `bad` of `sys_unlink`. -/
def unlinkBad (dp : Inum n) : Sys n π Bool := do
  iunlockput dp
  pure false

def sysUnlink (p : π) (path : Path) : Sys n π Bool := do
  match ← namex p true path with
  | none => pure false
  | some (dp, name) => do
    ilock dp
    if name = dot ∨ name = dotdot then unlinkBad dp
    else
      match ← dirlookup dp name with
      | none => unlinkBad dp
      | some (ip, k) => do
        ilock ip
        let x ← inode ip
        if x.node.nlink < 1 then throw .nlink
        else if x.node.type = .dir ∧ !isdirempty x.node.ents then do
          iunlockput ip
          unlinkBad dp
        else do
          let d ← inode dp
          setNode dp { d.node with ents := clearEnt d.node.ents k }
          if x.node.type = .dir then do
            let d ← inode dp
            setNode dp { d.node with nlink := d.node.nlink - 1 }
          else pure ()
          iunlockput dp
          let x ← inode ip
          setNode ip { x.node with nlink := x.node.nlink - 1 }
          iunlockput ip
          pure true

def sysChdir (p : π) (path : Path) : Sys n π Bool := do
  match ← namex p false path with
  | none => pure false
  | some (ip, _) => do
    ilock ip
    let x ← inode ip
    if x.node.type ≠ .dir then do
      iunlockput ip
      pure false
    else do
      iunlock ip
      let d ← cwd p
      iput d
      setCwd p (some ip)
      pure true

def sysClose (p : π) (fd : Fin NOFILE) : Sys n π Bool := do
  let s ← get
  match s.ofile (p, fd) with
  | none => pure false
  | some f => do
    setOfile p fd none
    fileclose f
    pure true

def sysDup (p : π) (fd : Fin NOFILE) : Sys n π Bool := do
  let s ← get
  match s.ofile (p, fd) with
  | none => pure false
  | some f =>
    match ← fdalloc p f with
    | none => pure false
    | some _ => do
      filedup f
      pure true

/-- `filestat`, and `fileread` after its test: the inode of the file is locked and unlocked. -/
def lookAt (s : State n π) (f : Fin NFILE) : Sys n π Bool :=
  match (s.file f).ip with
  | none => pure false
  | some i => do
    ilock i
    iunlock i
    pure true

def sysFstat (p : π) (fd : Fin NOFILE) : Sys n π Bool := do
  let s ← get
  match s.ofile (p, fd) with
  | none => pure false
  | some f => lookAt s f

def sysRead (p : π) (fd : Fin NOFILE) : Sys n π Bool := do
  let s ← get
  match s.ofile (p, fd) with
  | none => pure false
  | some f => if (s.file f).readable then lookAt s f else pure false

/-- `filewrite`; what a write to a directory would leave there is `es`. -/
def sysWrite (p : π) (fd : Fin NOFILE) (es : List (Dirent n)) : Sys n π Bool := do
  let s ← get
  match s.ofile (p, fd) with
  | none => pure false
  | some f =>
    if (s.file f).writable then
      match (s.file f).ip with
      | none => pure false
      | some i => do
        ilock i
        let x ← inode i
        if x.node.type = .dir then setNode i { x.node with ents := es } else pure ()
        iunlock i
        pure true
    else pure false

/-- The inodes that `exec` reads. -/
def sysExec (p : π) (path : Path) : Sys n π Bool := do
  match ← namex p false path with
  | none => pure false
  | some (ip, _) => do
    ilock ip
    iunlockput ip
    pure true

/-- The loop of `fork` over the open files. -/
def forkFiles (p q : π) : List (Fin NOFILE) → Sys n π Unit
  | [] => pure ()
  | fd :: fds => do
    let s ← get
    match s.ofile (p, fd) with
    | some f => do
      filedup f
      setOfile q fd (some f)
    | none => pure ()
    forkFiles p q fds

/-- `fork`, where `q` is the new process. -/
def sysFork (p q : π) : Sys n π Bool := do
  forkFiles p q (List.finRange NOFILE)
  let d ← cwd p
  idup d
  setCwd q (some d)
  pure true

/-- The loop of `exit` over the open files. -/
def closeFiles (p : π) : List (Fin NOFILE) → Sys n π Unit
  | [] => pure ()
  | fd :: fds => do
    let s ← get
    match s.ofile (p, fd) with
    | some f => do
      fileclose f
      setOfile p fd none
    | none => pure ()
    closeFiles p fds

def sysExit (p : π) : Sys n π Bool := do
  closeFiles p (List.finRange NOFILE)
  let d ← cwd p
  iput d
  setCwd p none
  pure true

inductive Syscall (n : Nat) (π : Type)
  | open (path : Path) (omode : Nat)
  | mkdir (path : Path)
  | mknod (path : Path)
  | link (old new : Path)
  | unlink (path : Path)
  | chdir (path : Path)
  | close (fd : Fin NOFILE)
  | dup (fd : Fin NOFILE)
  | fstat (fd : Fin NOFILE)
  | read (fd : Fin NOFILE)
  | write (fd : Fin NOFILE) (es : List (Dirent n))
  | exec (path : Path)
  | fork (q : π)
  | exit

def Syscall.run (p : π) : Syscall n π → Sys n π Bool
  | .open path omode => sysOpen p path omode
  | .mkdir path => sysMkdir p path
  | .mknod path => sysMknod p path
  | .link old new => sysLink p old new
  | .unlink path => sysUnlink p path
  | .chdir path => sysChdir p path
  | .close fd => sysClose p fd
  | .dup fd => sysDup p fd
  | .fstat fd => sysFstat p fd
  | .read fd => sysRead p fd
  | .write fd es => sysWrite p fd es
  | .exec path => sysExec p path
  | .fork q => sysFork p q
  | .exit => sysExit p

/-- Process `p` can make the call. -/
def Syscall.possible (s : State n π) (p : π) : Syscall n π → Bool
  | .fork q => (s.cwd p).isSome && (s.cwd q).isNone &&
      (List.finRange NOFILE).all fun fd => (s.ofile (q, fd)).isNone
  | _ => (s.cwd p).isSome

/-- A call that returns. -/
def State.step (s : State n π) (l : π × Syscall n π) : Option (State n π) :=
  if l.2.possible s l.1 then
    match l.2.run l.1 s with
    | .ok (_, t) => some t
    | .error _ => none
  else none

end Xv6.Links
