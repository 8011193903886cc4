import Mathlib.Data.List.FinRange
import Mathlib.Logic.Function.Basic
import Xv6.Lib.Runs

/-! The current directory of a process and the reference counts of the inode cache: `sys_chdir`,
`namex` with `iget`, `idup` and `iput`, and the copy of `cwd` in `fork`, with any number of
threads in a process. A step is one access to `cwd`, one critical section of `icache.lock`, or
one operation on an inode's sleeplock; nothing protects `cwd`. `fork` holds `ptable.lock`. -/

namespace Xv6.Cwd

open Runs Function

abbrev NINODE : Nat := 50

/-- A `struct inode` of `icache`. -/
abbrev Entry := Fin NINODE

/-- What a call does with the inode that its path leads to. -/
inductive Use
  | chdir
  /-- `sys_open`: an open file keeps it. -/
  | file
  /-- The call drops it in the end, as `exec` does; `parent` is set when it calls
  `nameiparent`. -/
  | drop (parent : Bool)
  deriving DecidableEq, Repr

def Use.nameiparent : Use → Bool
  | .drop parent => parent
  | _ => false

/-- What follows an `iput`. -/
inductive Next
  /-- The call returns. -/
  | ret
  /-- `namex` goes on at `ip`, with `n` elements of the path left. -/
  | loop (u : Use) (n : Nat) (ip : Entry)
  /-- `sys_chdir` goes on to `curproc->cwd = ip`. -/
  | store (ip : Entry)
  deriving DecidableEq, Repr

/-- Where a thread is; `P` are the processes. -/
inductive Pc (P : Type)
  | out
  /-- At the start of `namex`, for a path of `n` elements. -/
  | namex (u : Use) (absolute : Bool) (n : Nat)
  /-- `namex` has read `cwd`, before `idup`. -/
  | idup (u : Use) (n : Nat) (cwd : Entry)
  /-- At the head of the loop of `namex`, with `n` elements left. -/
  | loop (u : Use) (n : Nat) (ip : Entry)
  /-- `ip` is locked, `n` elements follow the one that is looked up. -/
  | look (u : Use) (n : Nat) (ip : Entry)
  /-- `dirlookup` has returned `next`, before `iunlockput(ip)`. -/
  | found (u : Use) (n : Nat) (ip next : Entry)
  /-- `namex` has returned `ip`. -/
  | got (u : Use) (ip : Entry)
  /-- In `sys_chdir`: `ip` is locked; before `curproc->cwd` is read for `iput`; before
  `curproc->cwd = ip`. -/
  | isDir (ip : Entry)
  | oldCwd (ip : Entry)
  | store (ip : Entry)
  /-- In `iput(ip)`: before `acquiresleep`, before `releasesleep`, before `ip->ref--`. -/
  | iput (ip : Entry) (k : Next)
  | iputHeld (ip : Entry) (k : Next)
  | iputDrop (ip : Entry) (k : Next)
  /-- In `fork` into the entry `q`: before `acquire`, before `curproc->cwd` is read, before
  `idup`, before `p->cwd` is stored. -/
  | forkEnter (q : P)
  | forkRead (q : P)
  | forkDup (q : P) (cwd : Entry)
  | forkStore (q : P) (cwd : Entry)
  deriving DecidableEq, Repr

/-- `I` are the pairs of a device and an inode number, `files` is the number of open files on an
entry. -/
structure State (I P T : Type) where
  cwd : P → Option Entry
  ref : Entry → Int
  inum : Entry → I
  /-- Who holds the sleeplock. -/
  lock : Entry → Option T
  files : Entry → Nat
  used : P → Bool
  ptable : Option T
  thread : T → Pc P

inductive Label (I P T : Type)
  /-- A call that looks up a path of `n` elements. -/
  | call (t : T) (u : Use) (absolute : Bool) (n : Nat)
  /-- The last descriptor of an open file on `ip` is closed. -/
  | close (t : T) (ip : Entry)
  | fork (t : T) (q : P)
  /-- `t` goes on; `ok` says whether the locked inode is a directory or, in `sys_open` and `fork`,
  whether the call succeeds, and `dirlookup` finds an entry for `i`. -/
  | run (t : T) (ok : Bool) (i : Option I)
  deriving DecidableEq, Repr

/-- What follows `iput` is reached. -/
def Next.pc {P : Type} : Next → Pc P
  | .ret => .out
  | .loop u n ip => .loop u n ip
  | .store ip => .store ip

namespace State

variable {I P T : Type} [DecidableEq I] [DecidableEq P] [DecidableEq T]

def goto (s : State I P T) (t : T) (pc : Pc P) : State I P T :=
  { s with thread := update s.thread t pc }

/-- `ip->ref += d` -/
def addRef (s : State I P T) (ip : Entry) (d : Int) : State I P T :=
  { s with ref := update s.ref ip (s.ref ip + d) }

def setLock (s : State I P T) (ip : Entry) (o : Option T) : State I P T :=
  { s with lock := update s.lock ip o }

/-- The entry that `iget(i)` returns, and the cache after it. -/
def iget (s : State I P T) (i : I) : Option (State I P T × Entry) :=
  match (List.finRange NINODE).find? fun e => 0 < s.ref e ∧ s.inum e = i with
  | some e => some (s.addRef e 1, e)
  | none =>
    match (List.finRange NINODE).find? fun e => s.ref e = 0 with
    | some e => some ({ s with inum := update s.inum e i,
                               ref := update s.ref e 1 }, e)
    -- panic: no inodes
    | none => none

/-- `ilock(ip)`, and then `pc`. -/
def ilock (s : State I P T) (t : T) (ip : Entry) (pc : Pc P) : Option (State I P T) :=
  if s.ref ip < 1 then none
  else if s.lock ip = none then some ((s.setLock ip (some t)).goto t pc)
  else none

/-- `iunlock(ip)`, and then `pc`. -/
def iunlock (s : State I P T) (t : T) (ip : Entry) (pc : Pc P) : Option (State I P T) :=
  if s.lock ip ≠ some t ∨ s.ref ip < 1 then none else some ((s.setLock ip none).goto t pc)

/-- Thread `t` of process `p` goes on. A panic stops it; `root` is the root directory. -/
def run (s : State I P T) (root : I) (p : P) (t : T) (ok : Bool) (i : Option I) :
    Option (State I P T) :=
  match s.thread t with
  | .out => none
  | .namex u true n => (s.iget root).map fun x => x.1.goto t (.loop u n x.2)
  | .namex u false n => (s.cwd p).map fun e => s.goto t (.idup u n e)
  | .idup u n e => some ((s.addRef e 1).goto t (.loop u n e))
  | .loop u 0 ip => some (s.goto t (if u.nameiparent then .iput ip .ret else .got u ip))
  | .loop u (n + 1) ip => s.ilock t ip (.look u n ip)
  | .look u n ip =>
    if ok = false then s.iunlock t ip (.iput ip .ret)
    else if u.nameiparent ∧ n = 0 then s.iunlock t ip (.got u ip)
    else
      match i with
      | none => s.iunlock t ip (.iput ip .ret)
      | some i => (s.iget i).map fun x => x.1.goto t (.found u n ip x.2)
  | .found u n ip next => s.iunlock t ip (.iput ip (.loop u n next))
  | .got .chdir ip => s.ilock t ip (.isDir ip)
  | .got .file ip =>
    if ok then
      some ({ s with files := update s.files ip (s.files ip + 1) }.goto t .out)
    else some (s.goto t (.iput ip .ret))
  | .got (.drop _) ip => some (s.goto t (.iput ip .ret))
  | .isDir ip => s.iunlock t ip (if ok then .oldCwd ip else .iput ip .ret)
  | .oldCwd ip => (s.cwd p).map fun e => s.goto t (.iput e (.store ip))
  | .store ip => some ({ s with cwd := update s.cwd p (some ip) }.goto t .out)
  | .iput ip k =>
    if s.lock ip = none then some ((s.setLock ip (some t)).goto t (.iputHeld ip k)) else none
  -- `itrunc` and `iupdate` leave the reference counts as they are
  | .iputHeld ip k => some ((s.setLock ip none).goto t (.iputDrop ip k))
  | .iputDrop ip k => some ((s.addRef ip (-1)).goto t k.pc)
  | .forkEnter q =>
    if s.ptable ≠ none then none
    else if ok = false then some (s.goto t .out)
    else if s.used q then none
    else some ({ s with ptable := some t }.goto t (.forkRead q))
  | .forkRead q => (s.cwd p).map fun e => s.goto t (.forkDup q e)
  | .forkDup q e => some ((s.addRef e 1).goto t (.forkStore q e))
  | .forkStore q e =>
    some ({ s with
      cwd := update s.cwd q (some e)
      used := update s.used q true
      ptable := none }.goto t .out)

/-- `proc` says to which process a thread belongs. A call begins in a process that is in use. -/
def step (root : I) (proc : T → P) (s : State I P T) : Label I P T → Option (State I P T)
  | .call t u absolute n =>
    if s.thread t = .out ∧ s.used (proc t) = true then some (s.goto t (.namex u absolute n))
    else none
  | .close t ip =>
    if s.thread t = .out ∧ s.used (proc t) = true ∧ 0 < s.files ip then
      some ({ s with files := update s.files ip (s.files ip - 1) }.goto t (.iput ip .ret))
    else none
  | .fork t q =>
    if s.thread t = .out ∧ s.used (proc t) = true then some (s.goto t (.forkEnter q)) else none
  | .run t ok i => s.run root (proc t) t ok i

end State
end Xv6.Cwd
