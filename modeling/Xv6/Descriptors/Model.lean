import Mathlib.Data.List.FinRange
import Mathlib.Logic.Function.Basic
import Xv6.Lib.Runs

/-! Descriptor tables and reference counts of open files (`sysfile.c`, `file.c`, the loop over
`ofile` in `fork`), with any number of threads in a process. A step is one access to an entry
of `ofile` or one critical section of `ftable.lock`; nothing protects `ofile`. `fork` holds
`ptable.lock`. -/

namespace Xv6.Descriptors

open Runs Function

abbrev NOFILE : Nat := 16

scoped instance neZero_nofile : NeZero NOFILE := ⟨Nat.succ_ne_zero 15⟩

abbrev NFILE : Nat := 100

/-- A `struct file` of `ftable`. -/
abbrev FileIx := Fin NFILE

abbrev Fd := Fin NOFILE

/-- Who has called `fdalloc(f)`. `sys_pipe` calls it for `rf` and then for `wf`. -/
inductive Caller
  | open
  /-- `sys_dup` of the descriptor `fd`. -/
  | dup (fd : Fd)
  | pipe0 (wf : FileIx)
  | pipe1 (rf : FileIx) (fd0 : Fd)
  deriving DecidableEq, Repr

/-- What a descriptor is looked up for by `argfd`. -/
inductive Op
  | dup
  | close
  /-- `read` or `write` -/
  | use
  deriving DecidableEq, Repr

/-- Where a thread is; `P` are the processes. -/
inductive Pc (P : Type)
  | out
  /-- Before `f = myproc()->ofile[fd]` in `argfd`. -/
  | argfd (op : Op) (fd : Fd)
  /-- Before `filealloc` in `sys_open`; before the first and the second in `pipealloc`; before
  its `kalloc`. -/
  | openAlloc
  | pipeAlloc0
  | pipeAlloc1 (rf : FileIx)
  | pipeKalloc (rf wf : FileIx)
  /-- In `fdalloc(f)`: at the test of `ofile[fd]`, before the store. -/
  | fdTest (k : Caller) (f : FileIx) (fd : Nat)
  | fdStore (k : Caller) (f : FileIx) (fd : Fd)
  /-- Before `filedup(f)` in `sys_dup(fd)`, which will return `fd'`. -/
  | dupRef (f : FileIx) (fd fd' : Fd)
  /-- Before `ofile[fd0] = 0` in a `sys_pipe` that fails. -/
  | pipeUndo (rf wf : FileIx) (fd0 : Fd)
  /-- The call returns the descriptors. -/
  | ret (fds : List Fd)
  /-- Before `ofile[fd] = 0` in `sys_close`. -/
  | clear (fd : Fd) (f : FileIx)
  /-- Before the calls of `fileclose` for these files. -/
  | fileclose (fs : List FileIx)
  /-- In `fileread(f)` or `filewrite(f)` for the descriptor `fd`. -/
  | inUse (fd : Fd) (f : FileIx)
  /-- In `fork` into the entry `q`: before `acquire`, at the test of `ofile[i]`, before it is
  read again, before `filedup(f)`, before the store, before `release`. -/
  | forkEnter (q : P)
  | forkTest (q : P) (i : Nat)
  | forkRead (q : P) (i : Fd)
  | forkDup (q : P) (i : Fd) (f : FileIx)
  | forkStore (q : P) (i : Fd) (f : FileIx)
  deriving DecidableEq, Repr

structure State (P T : Type) where
  ofile : P × Fd → Option FileIx
  ref : FileIx → Int
  used : P → Bool
  ptable : Option T
  thread : T → Pc P

inductive Event (P : Type)
  /-- A call of a thread of the process returns the descriptor. -/
  | got (p : P) (fd : Fd)
  /-- `sys_close` empties the entry of the descriptor. -/
  | closed (p : P) (fd : Fd)
  deriving DecidableEq, Repr

inductive Label (P T : Type)
  | open (t : T)
  | pipe (t : T)
  /-- `dup`, `close`, `read` or `write` of the descriptor. -/
  | lookup (t : T) (op : Op) (fd : Nat)
  | fork (t : T) (q : P)
  /-- `t` goes on; `ok` says whether `kalloc` succeeds. -/
  | run (t : T) (ok : Bool)
  deriving DecidableEq, Repr

namespace State

variable {P T : Type}

/-- The file that `filealloc` finds. -/
def freeFile (s : State P T) : Option FileIx := (List.finRange NFILE).find? fun f => s.ref f = 0

variable [DecidableEq P] [DecidableEq T]

def goto (s : State P T) (t : T) (pc : Pc P) : State P T :=
  { s with thread := update s.thread t pc }

/-- `f->ref += d` -/
def addRef (s : State P T) (f : FileIx) (d : Int) : State P T :=
  { s with ref := update s.ref f (s.ref f + d) }

def store (s : State P T) (p : P) (fd : Fd) (o : Option FileIx) : State P T :=
  { s with ofile := update s.ofile (p, fd) o }

/-- What follows when `fdalloc(f)` finds no free entry. -/
def fdFull (f : FileIx) : Caller → Pc P
  | .open => .fileclose [f]
  | .dup _ => .out
  | .pipe0 wf => .fileclose [f, wf]
  | .pipe1 rf fd0 => .pipeUndo rf f fd0

/-- What follows when `fdalloc(f)` returns `fd`. -/
def fdFound (f : FileIx) (fd : Fd) : Caller → Pc P
  | .open => .ret [fd]
  | .dup src => .dupRef f src fd
  | .pipe0 wf => .fdTest (.pipe1 f fd) wf 0
  | .pipe1 _ fd0 => .ret [fd0, fd]

/-- Thread `t` of process `p` goes on. A panic stops it. -/
def run (s : State P T) (p : P) (t : T) (ok : Bool) : Option (State P T × List (Event P)) :=
  match s.thread t with
  | .out => none
  | .argfd op fd =>
    match s.ofile (p, fd), op with
    | none, _ => some (s.goto t .out, [])
    | some f, .dup => some (s.goto t (.fdTest (.dup fd) f 0), [])
    | some f, .close => some (s.goto t (.clear fd f), [])
    | some f, .use => some (s.goto t (.inUse fd f), [])
  | .openAlloc =>
    match s.freeFile with
    | some f => some ((s.addRef f 1).goto t (.fdTest .open f 0), [])
    | none => some (s.goto t .out, [])
  | .pipeAlloc0 =>
    match s.freeFile with
    | some f => some ((s.addRef f 1).goto t (.pipeAlloc1 f), [])
    | none => some (s.goto t .out, [])
  | .pipeAlloc1 rf =>
    match s.freeFile with
    | some f => some ((s.addRef f 1).goto t (.pipeKalloc rf f), [])
    | none => some (s.goto t (.fileclose [rf]), [])
  | .pipeKalloc rf wf =>
    some (s.goto t (if ok then .fdTest (.pipe0 wf) rf 0 else .fileclose [rf, wf]), [])
  | .fdTest k f fd =>
    if h : fd < NOFILE then
      if s.ofile (p, ⟨fd, h⟩) = none then some (s.goto t (.fdStore k f ⟨fd, h⟩), [])
      else some (s.goto t (.fdTest k f (fd + 1)), [])
    else some (s.goto t (fdFull f k), [])
  | .fdStore k f fd => some ((s.store p fd (some f)).goto t (fdFound f fd k), [])
  | .dupRef f _ fd' =>
    if s.ref f < 1 then none else some ((s.addRef f 1).goto t (.ret [fd']), [])
  | .pipeUndo rf wf fd0 => some ((s.store p fd0 none).goto t (.fileclose [rf, wf]), [])
  | .ret fds => some (s.goto t .out, fds.map (.got p))
  | .clear fd f => some ((s.store p fd none).goto t (.fileclose [f]), [.closed p fd])
  | .fileclose [] => some (s.goto t .out, [])
  | .fileclose (f :: fs) =>
    if s.ref f < 1 then none else some ((s.addRef f (-1)).goto t (.fileclose fs), [])
  | .inUse _ _ => some (s.goto t .out, [])
  | .forkEnter q =>
    if s.ptable = none ∧ s.used q = false then
      some ({ s.goto t (.forkTest q 0) with ptable := some t }, [])
    else none
  | .forkTest q i =>
    if h : i < NOFILE then
      if s.ofile (p, ⟨i, h⟩) = none then some (s.goto t (.forkTest q (i + 1)), [])
      else some (s.goto t (.forkRead q ⟨i, h⟩), [])
    else
      some ({ s.goto t .out with used := update s.used q true, ptable := none }, [])
  | .forkRead q i =>
    -- `filedup(0)` is not modelled
    (s.ofile (p, i)).map fun f => (s.goto t (.forkDup q i f), [])
  | .forkDup q i f =>
    if s.ref f < 1 then none else some ((s.addRef f 1).goto t (.forkStore q i f), [])
  | .forkStore q i f => some ((s.store q i (some f)).goto t (.forkTest q (i + 1)), [])

/-- A call begins. -/
def enter (s : State P T) (p : P) (t : T) (pc : Pc P) : Option (State P T × List (Event P)) :=
  if s.thread t = .out ∧ s.used p = true then some (s.goto t pc, []) else none

/-- `proc` says to which process a thread belongs. -/
def step (proc : T → P) (s : State P T) : Label P T → Option (State P T × List (Event P))
  | .open t => s.enter (proc t) t .openAlloc
  | .pipe t => s.enter (proc t) t .pipeAlloc0
  | .lookup t op fd =>
    if h : fd < NOFILE then s.enter (proc t) t (.argfd op ⟨fd, h⟩) else none
  | .fork t q => s.enter (proc t) t (.forkEnter q)
  | .run t ok => s.run (proc t) t ok

/-- No call is in progress, and free entries of `ptable` have no open files. -/
structure Idle (s : State P T) : Prop where
  ptable : s.ptable = none
  thread : ∀ t, s.thread t = .out
  unused : ∀ p fd, s.used p = false → s.ofile (p, fd) = none

end State
end Xv6.Descriptors
