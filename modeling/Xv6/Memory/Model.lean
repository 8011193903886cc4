import Xv6.Lib.Runs
import Xv6.Pages.Model

/-! The memory of one process whose threads are in the kernel at the same time. A thread calls
`sbrk` (`sysproc.c`, `growproc` in `proc.c`), `fork`, or a system call that takes a path, or is
in user mode and stores a byte. A step is one statement, one turn of a loop over pages, or one
access to a byte of a path; `growproc` holds `p->lock` and `fork` holds `ptable.lock`. Whether
there is enough memory is decided by the label of a step. -/

namespace Xv6.Memory

open Runs Pages Function

abbrev Byte := BitVec 8

/-- The user part of a page directory: page tables, and which of their entries have `PTE_P`. -/
abbrev Dir := Nat → Option (Nat → Bool)

namespace Dir

/-- `walkpgdir(pgdir, va, 0)` finds an entry with `PTE_P`. -/
def present (d : Dir) (va : Nat) : Bool :=
  match d (PDX va) with
  | some tab => tab (PTX va)
  | none => false

/-- The entry of `va` is set; `walkpgdir` makes the page table if it has to. -/
def enter (d : Dir) (va : Nat) (p : Bool) : Dir :=
  update d (PDX va)
    (some (update ((d (PDX va)).getD fun _ => false) (PTX va) p))

/-- One turn of the loop of `deallocuvm`: the directory and the next address. -/
def deallocTurn (d : Dir) (a : Nat) : Dir × Nat :=
  match d (PDX a) with
  | none => (d, PGADDR (PDX a + 1) 0 0 - PGSIZE + PGSIZE)
  | some tab => (if tab (PTX a) then d.enter a false else d, a + PGSIZE)

end Dir

structure Mem where
  /-- `p->sz` -/
  sz : BitVec 32
  dir : Dir
  /-- What is stored where a page is present. -/
  byte : Nat → Byte

namespace Mem

/-- `mappages` of a fresh page with the given contents at `va`; a page that is there already
makes it panic. -/
def mappage (m : Mem) (va : Nat) (data : Nat → Byte) : Option Mem :=
  if m.dir.present va then none
  else some { m with
    dir := m.dir.enter va true
    byte := fun x => if x / PGSIZE = va / PGSIZE then data x else m.byte x }

/-- The loop of `allocuvm`, for `k` pages from `a` on. -/
def allocLoop (m : Mem) (a : Nat) : Nat → Option Mem
  | 0 => some m
  | k + 1 => (m.mappage a fun _ => 0).bind fun m => m.allocLoop (a + PGSIZE) k

/-- `sz = allocuvm(pgdir, sz, newsz)` where memory suffices. -/
def allocuvm (m : Mem) (newsz : BitVec 32) : Option Mem :=
  if newsz.toNat ≥ KERNBASE then none
  else if newsz < m.sz then (if m.sz = 0 then none else some m)
  else if newsz = 0 then none
  else
    let a := PGROUNDUP m.sz.toNat
    (m.allocLoop a ((newsz.toNat - a + PGSIZE - 1) / PGSIZE)).map fun m => { m with sz := newsz }

end Mem

/-- The fields of a `struct proghdr` of type `ELF_PROG_LOAD`. -/
structure Segment where
  vaddr : BitVec 32
  memsz : BitVec 32
  filesz : BitVec 32

namespace Mem

/-- One turn of the loop of `exec` over the program headers. -/
def load (m : Mem) (ph : Segment) : Option Mem :=
  if ph.memsz < ph.filesz then none
  else if ph.vaddr + ph.memsz < ph.vaddr then none
  else (m.allocuvm (ph.vaddr + ph.memsz)).bind fun m =>
    if ph.vaddr.toNat % PGSIZE ≠ 0 then none else some m

/-- After `setupkvm`: no user page. -/
def empty : Mem := ⟨0, fun _ => none, fun _ => 0⟩

/-- The memory that a successful `exec` commits to, with two more pages for the stack;
`image` is what `loaduvm` and `copyout` store in it. -/
def exec (phs : List Segment) (image : Nat → Byte) : Option Mem :=
  (phs.foldlM load empty).bind fun m =>
    let sz := BitVec.ofNat 32 (PGROUNDUP m.sz.toNat)
    (({ m with sz := sz } : Mem).allocuvm (sz + BitVec.ofNat 32 (2 * PGSIZE))).map fun m =>
      { m with byte := image }

/-- `inituvm`: the initial code in one page. -/
def initcode (image : Nat → Byte) : Mem :=
  ⟨BitVec.ofNat 32 PGSIZE, (empty.dir).enter 0 true, image⟩

end Mem

/-! ## The calls -/

/-- In `sys_sbrk(n)`: `addr` is the size that it has read. In `allocuvm` and `deallocuvm`,
called with `old` and `new`, the loop is at the address `a`. -/
inductive Grow
  | read (n : BitVec 32)
  /-- Before `acquire(&curproc->lock)`; at the tests of `n`. -/
  | enter (addr n : BitVec 32)
  | start (addr n : BitVec 32)
  | alloc (addr n old new : BitVec 32) (a : Nat)
  /-- In the `deallocuvm` of an `allocuvm` that has run out of memory. -/
  | undo (addr n old new : BitVec 32) (a : Nat)
  | dealloc (addr n old new : BitVec 32) (a : Nat)
  /-- Before `curproc->sz = sz`; before `release`. -/
  | set (addr n sz : BitVec 32)
  | leave (addr n : BitVec 32) (ok : Bool)
  deriving DecidableEq, Repr

/-- In `fork`, with the memory of the child. -/
inductive Fork
  /-- Before `acquire(&ptable.lock)`; before the call of `copyuvm`. -/
  | enter
  | read
  /-- In `copyuvm(pgdir, sz)` at the page `i`. -/
  | copy (sz : BitVec 32) (i : Nat) (child : Mem)
  /-- Before `p->sz = curproc->sz`; before `release`. -/
  | size (child : Mem)
  | leave (child : Option Mem)

/-- A string that `fetchstr` has accepted. -/
structure Str where
  addr : Nat
  len : Nat
  deriving DecidableEq, Repr

/-- The system calls that take a path. `sys_open` calls `create` with `O_CREATE`. -/
inductive Call
  | open (create : Bool)
  | unlink
  | chdir
  | mkdir
  | exec
  | link
  deriving DecidableEq, Repr

/-- What a call does with a path. -/
inductive Job
  /-- `namei` or `nameiparent` -/
  | walk (x : Str) (nameiparent : Bool)
  /-- The end of `exec`, which saves the program name. -/
  | name (x : Str)
  deriving DecidableEq, Repr

def Call.jobs : Call → List Str → List Job
  | .open create, [x] => [.walk x create]
  | .unlink, [x] | .mkdir, [x] => [.walk x true]
  | .chdir, [x] => [.walk x false]
  | .exec, [x] => [.walk x false, .name x]
  | .link, [old, new] => [.walk old false, .walk new true]
  | _, _ => []

/-- Where `namex`, `skipelem` and the end of `exec` are; the arguments are addresses. -/
inductive At
  /-- `*path == '/'` in `namex` -/
  | first (path : Nat)
  /-- `while(*path == '/')`, `if(*path == 0)` -/
  | lead (path : Nat)
  | empty (path : Nat)
  /-- `*path != '/'` and `*path != 0` in the second loop -/
  | slash (s path : Nat)
  | nul (s path : Nat)
  /-- `memmove` to `name`, `j` bytes done -/
  | copy (s path j : Nat)
  /-- the third loop -/
  | trail (path : Nat)
  /-- In `namex`: `ilock` and the test of the type, `*path == '\0'`, `dirlookup`. -/
  | lookup (path : Nat)
  | last (path : Nat)
  | found (path : Nat)
  /-- In `exec`: `*s` and `*s == '/'` in the `for`, `safestrcpy` of `j` bytes. -/
  | scan (s last : Nat)
  | scanSlash (s last : Nat)
  | save (last j : Nat)
  deriving DecidableEq, Repr

def DIRSIZ : Nat := 14

/-- The character `/`. -/
def slash : Byte := 47

namespace At

/-- The address that is read next. -/
def reads : At → Option Nat
  | first p | lead p | empty p | slash _ p | nul _ p | trail p | last p => some p
  | copy s _ j => some (s + j)
  | lookup _ | found _ => none
  | scan s _ | scanSlash s _ => some s
  | save l j => some (l + j)

/-- `memmove(name, s, len)`, or only `DIRSIZ` bytes. -/
def copyFrom (s p j : Nat) : At := if j < min (p - s) DIRSIZ then copy s p j else trail p

/-- The next place, when the byte `b` is read; `none` at the end. Where nothing is read `b`
only decides whether the lookup succeeds. -/
def next (nameiparent : Bool) (b : Byte) : At → Option At
  | first p => some (lead p)
  | lead p => some (if b = Memory.slash then lead (p + 1) else empty p)
  | empty p => if b = 0 then none else some (slash p p)
  | slash s p => some (if b = Memory.slash then copyFrom s p 0 else nul s p)
  | nul s p => some (if b = 0 then copyFrom s p 0 else slash s (p + 1))
  | copy s p j => some (copyFrom s p (j + 1))
  | trail p => some (if b = Memory.slash then trail (p + 1) else lookup p)
  | lookup p => if b = 0 then none else some (if nameiparent then last p else found p)
  | last p => if b = 0 then none else some (found p)
  | found p => if b = 0 then none else some (lead p)
  | scan s l => some (if b = 0 then save l 0 else scanSlash s l)
  | scanSlash s l => some (scan (s + 1) (if b = Memory.slash then s + 1 else l))
  -- `safestrcpy(s, t, 16)` reads at most 15 bytes
  | save l j => if b = 0 ∨ j + 1 = 15 then none else some (save l (j + 1))

end At

def Job.str : Job → Str
  | .walk x _ | .name x => x

def Job.nameiparent : Job → Bool
  | .walk _ p => p
  | .name _ => false

def Job.start : Job → At
  | .walk x _ => .first x.addr
  | .name x => .scan x.addr x.addr

/-- In a system call that takes a path. -/
inductive Path
  /-- In `fetchstr(addr)`: at the test of `addr`, before `ep` is set, at the test of the
  `for`. `todo` are the strings that come next, `done` those that are accepted. -/
  | test (c : Call) (done : List Str) (addr : Nat) (todo : List Nat)
  | bound (c : Call) (done : List Str) (addr : Nat) (todo : List Nat)
  | fetch (c : Call) (done : List Str) (addr ep s : Nat) (todo : List Nat)
  /-- All strings are accepted; `j` is what is done at present. -/
  | use (j : Job) (p : At) (jobs : List Job)
  deriving DecidableEq, Repr

inductive Pc
  | out
  | sbrk (g : Grow)
  | fork (f : Fork)
  | path (p : Path)

structure State (T : Type) where
  mem : Mem
  /-- The holder of `p->lock`. -/
  lock : Option T
  /-- The thread of this process that holds `ptable.lock`. -/
  ptable : Option T
  thread : T → Pc

inductive Event (T : Type)
  /-- `sys_sbrk(n)` returns `addr`. -/
  | sbrk (t : T) (addr n : BitVec 32)
  /-- `fork` has made a process with the memory `m`. -/
  | child (m : Mem)

inductive Label (T : Type)
  | sbrk (t : T) (n : BitVec 32)
  | fork (t : T)
  | path (t : T) (c : Call) (addrs : List Nat)
  /-- A store in user mode. -/
  | store (t : T) (a : Nat) (b : Byte)
  /-- `t` goes on; `ok` decides whether there is memory or an entry is found. -/
  | run (t : T) (ok : Bool)

namespace State

variable {T : Type} [DecidableEq T]

def goto (s : State T) (t : T) (pc : Pc) : State T :=
  { s with thread := update s.thread t pc }

/-- `growproc` after `sz = curproc->sz`: the tests of `n` and those at the beginning of
`allocuvm` and `deallocuvm`. -/
def startGrow (sz addr n : BitVec 32) : Grow :=
  if 0 < n.toInt then
    if (sz + n).toNat ≥ KERNBASE then .leave addr n false
    else if sz + n < sz then .set addr n sz
    else .alloc addr n sz (sz + n) (PGROUNDUP sz.toNat)
  else if n.toInt < 0 then
    if sz ≤ sz + n then (if sz = 0 then .leave addr n false else .set addr n sz)
    else .dealloc addr n sz (sz + n) (PGROUNDUP (sz + n).toNat)
  else .set addr n sz

/-- `sys_sbrk` and `growproc`. -/
def runGrow (s : State T) (t : T) (ok : Bool) : Grow → Option (State T × List (Event T))
  | .read n => some (s.goto t (.sbrk (.enter s.mem.sz n)), [])
  | .enter addr n =>
    if s.lock = none then
      some ({ s.goto t (.sbrk (.start addr n)) with lock := some t }, [])
    else none
  | .start addr n => some (s.goto t (.sbrk (startGrow s.mem.sz addr n)), [])
  | .alloc addr n old new a =>
    if a < new.toNat then
      if ok then
        (s.mem.mappage a fun _ => 0).map fun m =>
          ({ s.goto t (.sbrk (.alloc addr n old new (a + PGSIZE))) with mem := m }, [])
      else some (s.goto t (.sbrk (.undo addr n old new (PGROUNDUP old.toNat))), [])
    else some (s.goto t (.sbrk (if new = 0 then .leave addr n false else .set addr n new)), [])
  | .undo addr n old new a =>
    if a < new.toNat then
      some ({ s.goto t (.sbrk (.undo addr n old new (s.mem.dir.deallocTurn a).2)) with
        mem := { s.mem with dir := (s.mem.dir.deallocTurn a).1 } }, [])
    else some (s.goto t (.sbrk (.leave addr n false)), [])
  | .dealloc addr n old new a =>
    if a < old.toNat then
      some ({ s.goto t (.sbrk (.dealloc addr n old new (s.mem.dir.deallocTurn a).2)) with
        mem := { s.mem with dir := (s.mem.dir.deallocTurn a).1 } }, [])
    else some (s.goto t (.sbrk (if new = 0 then .leave addr n false else .set addr n new)), [])
  | .set addr n sz =>
    some ({ s.goto t (.sbrk (.leave addr n true)) with mem := { s.mem with sz := sz } }, [])
  | .leave addr n ok' =>
    some ({ s.goto t .out with lock := none }, if ok' then [.sbrk t addr n] else [])

/-- `fork` and `copyuvm`. A panic stops the thread. -/
def runFork (s : State T) (t : T) (ok : Bool) : Fork → Option (State T × List (Event T))
  | .enter =>
    if s.ptable = none then some ({ s.goto t (.fork .read) with ptable := some t }, []) else none
  | .read =>
    -- `allocthread` and `setupkvm` may fail
    some (s.goto t (.fork (if ok then .copy s.mem.sz 0 .empty else .leave none)), [])
  | .copy sz i child =>
    if i < sz.toNat then
      -- the two panics of `copyuvm`
      if s.mem.dir.present i then
        if ok then
          (child.mappage i s.mem.byte).map fun m =>
            (s.goto t (.fork (.copy sz (i + PGSIZE) m)), [])
        else some (s.goto t (.fork (.leave none)), [])
      else none
    else some (s.goto t (.fork (.size child)), [])
  | .size child => some (s.goto t (.fork (.leave (some { child with sz := s.mem.sz }))), [])
  | .leave child =>
    some ({ s.goto t .out with ptable := none }, child.toList.map .child)

/-- The next job of a system call, if there is one. -/
def startJob : List Job → Pc
  | [] => .out
  | j :: jobs => .path (.use j j.start jobs)

/-- `fetchstr` has accepted `x`. -/
def accept (c : Call) (done : List Str) : List Nat → Pc
  | [] => startJob (c.jobs done)
  | addr :: todo => .path (.test c done addr todo)

/-- The system calls that take a path. The kernel panics where it reads a byte of a page that
is not present. -/
def runPath (s : State T) (t : T) (ok : Bool) : Path → Option (State T × List (Event T))
  | .test c done addr todo =>
    some (s.goto t (if addr < s.mem.sz.toNat then .path (.bound c done addr todo) else .out), [])
  | .bound c done addr todo =>
    some (s.goto t (.path (.fetch c done addr s.mem.sz.toNat addr todo)), [])
  | .fetch c done addr ep x todo =>
    if x < ep then
      if s.mem.dir.present x then
        if s.mem.byte x = 0 then
          some (s.goto t (accept c (done ++ [⟨addr, x - addr⟩]) todo), [])
        else some (s.goto t (.path (.fetch c done addr ep (x + 1) todo)), [])
      else none
    else some (s.goto t .out, [])
  | .use j p jobs =>
    match p.reads with
    | some a =>
      if s.mem.dir.present a then
        match p.next j.nameiparent (s.mem.byte a) with
        | some p' => some (s.goto t (.path (.use j p' jobs)), [])
        -- a walk that ends may have failed
        | none => some (s.goto t (if ok then startJob jobs else .out), [])
      else none
    | none =>
      match p.next j.nameiparent (if ok then 1 else 0) with
      | some p' => some (s.goto t (.path (.use j p' jobs)), [])
      | none => some (s.goto t .out, [])

def step (s : State T) : Label T → Option (State T × List (Event T))
  | .sbrk t n =>
    match s.thread t with
    | .out => some (s.goto t (.sbrk (.read n)), [])
    | _ => none
  | .fork t =>
    match s.thread t with
    | .out => some (s.goto t (.fork .enter), [])
    | _ => none
  | .path t c addrs =>
    match s.thread t, addrs with
    | .out, addr :: todo => some (s.goto t (.path (.test c [] addr todo)), [])
    | _, _ => none
  | .store t a b =>
    match s.thread t with
    | .out =>
      if s.mem.dir.present a then
        some ({ s with mem := { s.mem with byte := update s.mem.byte a b } }, [])
      else none
    | _ => none
  | .run t ok =>
    match s.thread t with
    | .out => none
    | .sbrk g => s.runGrow t ok g
    | .fork f => s.runFork t ok f
    | .path p => s.runPath t ok p

/-- A process with the memory `m` and no thread in the kernel. -/
def start (m : Mem) : State T := ⟨m, none, none, fun _ => .out⟩

end State
end Xv6.Memory
