import Xv6.Mutex.Refinement
import Xv6.Tree.Failures

/-! The life of a tree: `trnmnt_tree_alloc`, the calls of `trnmnt_tree_acquire` and
`trnmnt_tree_release`, and `trnmnt_tree_dealloc`, cut at every operation on a mutex.
The entries of the mutex table are there because they run out; the states of the
mutexes are those of `Locks`, by id. -/

namespace Xv6

open Function

/-! ## The mutex table -/

/-- The mutex table, with the states of the mutexes by id. -/
structure MutexTable (τ : Type*) where
  /-- 0 for a free entry -/
  mid : MutexIx → Int
  nextmid : Int
  cells : Locks.Table Int τ

namespace MutexTable

variable {τ : Type*}

def find (tb : MutexTable τ) (id : Int) : Option MutexIx :=
  (List.finRange MAX_MUTEXES).find? fun m => tb.mid m = id

/-- `kthread_mutex_alloc` with the free entry `m`. -/
def allocEntry (tb : MutexTable τ) (m : MutexIx) : MutexTable τ where
  mid := update tb.mid m tb.nextmid
  nextmid := tb.nextmid + 1
  cells := update tb.cells tb.nextmid .unlocked

def kthreadMutexAlloc (tb : MutexTable τ) : Int × MutexTable τ :=
  match tb.find 0 with
  | some m => (tb.nextmid, tb.allocEntry m)
  | none => (-1, tb)

/-- `kthread_mutex_dealloc(id)` with the entry `m`. -/
def freeEntry (tb : MutexTable τ) (m : MutexIx) (id : Int) : MutexTable τ where
  mid := update tb.mid m 0
  nextmid := tb.nextmid
  cells := update tb.cells id .absent

def kthreadMutexDealloc (tb : MutexTable τ) (id : Int) : Int × MutexTable τ :=
  match tb.find id with
  | some m =>
    match tb.cells id with
    | .locked _ => (-1, tb)
    | _ => (0, tb.freeEntry m id)
  | none => (-1, tb)

end MutexTable

namespace Kernel

variable {k : Kernel} {r : ThreadRef}

/-- The mutex table of a kernel. -/
def mutexTable (k : Kernel) : MutexTable ThreadRef where
  mid m := (k.mutex m).mid
  nextmid := k.nextmid
  cells := k.lockTable

end Kernel

/-! ## `trnmnt_tree_alloc` and `trnmnt_tree_dealloc` -/

namespace TrnmntTree

variable {τ : Type*}

/-- What the calls of `malloc` return, with what the memory held before: `num_of_locked` of
the tree, the words of `nodes`, which may both be null pointers, and the words where
`taken_ids` points to. -/
structure Memory where
  tree : Option Int
  nodes : Option (Int → Int)
  takenIds : Int → Int

/-- Where a thread is in `trnmnt_tree_dealloc`. -/
inductive Deallocation
  | idle
  | lock
  | test
  | busy
  | node (i : ℕ)
  | free
  | unlock
  | returned (r : Int)
  deriving DecidableEq

def Deallocation.inside : Deallocation → Bool
  | .idle | .returned _ => false
  | _ => true

/-- A tree with the threads that use it, and the mutex table. -/
structure World (τ : Type*) where
  state : State τ
  mid : MutexIx → Int
  nextmid : Int
  dealloc : τ → Deallocation
  freed : Bool

/-- `nodes *= 2`, `k` times. -/
def doubled : ℕ → Int → Int
  | 0, nodes => nodes
  | k + 1, nodes => doubled k ((nodes * 2).bmod (2 ^ 32))

/-- The numbers of leaves and of nodes that `trnmnt_tree_alloc(depth)` computes. -/
def leavesOf (depth : Int) : Int := (doubled (depth + 1).toNat 1).tdiv 2
def nodesOf (depth : Int) : Int := (doubled (depth + 1).toNat 1 - 1).bmod (2 ^ 32)

/-- `array_of_locks[i] = kthread_mutex_alloc()`, `k` times. -/
def allocNodes : ℕ → MutexTable τ → List Int × MutexTable τ
  | 0, tb => ([], tb)
  | k + 1, tb =>
    let (id, tb) := tb.kthreadMutexAlloc
    let (ids, tb) := allocNodes k tb
    (id :: ids, tb)

variable [DecidableEq τ]

/-- `trnmnt_tree_alloc(depth)`, called by `t`; `none` where it writes through a null pointer
or does not return, since its counter cannot pass the largest depth. -/
def trnmntTreeAlloc (mem : Memory) (t : τ) (depth : Int) (tb : MutexTable τ) :
    Option (TrnmntTree × World τ) :=
  if depth = 2 ^ 31 - 1 then none
  else
    let (lock, tb) := tb.kthreadMutexAlloc
    match Locks.lock tb.cells t lock, mem.tree, mem.nodes with
    | some (_, cells), some numOfLocked, some words =>
      let (ids, tb) := allocNodes (nodesOf depth).toNat { tb with cells }
      let cells := (Locks.unlock tb.cells t lock).2
      some
        ({ depth, threads := leavesOf depth, totalNodes := nodesOf depth, lock
           nodes := fun i => (ids[i.toNat]?).getD (words i) },
         { state := ⟨cells, mem.takenIds, numOfLocked, fun _ => .user none⟩
           mid := tb.mid, nextmid := tb.nextmid, dealloc := fun _ => .idle, freed := false })
    | _, _, _ => none

namespace World

def table (w : World τ) : MutexTable τ := ⟨w.mid, w.nextmid, w.state.mutex⟩

def setTable (w : World τ) (tb : MutexTable τ) : World τ :=
  { w with state := { w.state with mutex := tb.cells }, mid := tb.mid, nextmid := tb.nextmid }

def goto (w : World τ) (t : τ) (p : Deallocation) : World τ :=
  { w with dealloc := update w.dealloc t p }

/-- `kthread_mutex_unlock(tree->lock)`, and on. -/
def unlock (w : World τ) (T : TrnmntTree) (t : τ) (p : Deallocation) : World τ :=
  { w.goto t p with
    state := { w.state with mutex := (Locks.unlock w.state.mutex t T.lock).2 } }

/-- The next step of `t` in `trnmnt_tree_dealloc`. -/
def deallocStep (T : TrnmntTree) (w : World τ) (t : τ) : Option (World τ) :=
  match w.dealloc t with
  | .idle | .returned _ => none
  | .lock =>
    (Locks.lock w.state.mutex t T.lock).map fun (_, mutex) =>
      { w.goto t .test with state := { w.state with mutex } }
  | .test => some (w.goto t (if w.state.numOfLocked ≠ 0 then .busy else .node 0))
  | .busy => some (w.unlock T t (.returned (-1)))
  | .node i =>
    if (i : Int) < T.totalNodes then
      some ((w.setTable (w.table.kthreadMutexDealloc (T.nodes i)).2).goto t (.node (i + 1)))
    else some (w.goto t .free)
  | .free => some { w.goto t .unlock with freed := true }
  -- `tree->lock` is read after the tree has been freed
  | .unlock => some (w.unlock T t (.returned 0))

end World

/-- A call or a step of `trnmnt_tree_acquire` or `trnmnt_tree_release`, a call of
`trnmnt_tree_dealloc`, also with a null tree, or a step of it. -/
inductive Act (τ : Type*)
  | tree (l : Label τ)
  | dealloc (t : τ)
  | deallocNull (t : τ)
  | step (t : τ)

namespace World

/-- A thread in its own code goes to `p`. -/
def call (w : World τ) (t : τ) (p : Deallocation) : Option (World τ) :=
  match w.state.pc t with
  | .user _ => if (w.dealloc t).inside then none else some (w.goto t p)
  | _ => none

def step (T : TrnmntTree) (w : World τ) : Act τ → Option (World τ)
  | .tree l =>
    if (w.dealloc l.thread).inside then none
    else (T.step w.state l).map fun state => { w with state }
  | .dealloc t => w.call t .lock
  | .deallocNull t => w.call t (.returned (-1))
  | .step t => deallocStep T w t

/-- `t` goes on with its call, and the others do nothing, until it returns; `none` if it is
blocked, or has not returned after so many steps. -/
def finish (T : TrnmntTree) (t : τ) : ℕ → World τ → Option (World τ)
  | 0, _ => none
  | k + 1, w =>
    if (w.dealloc t).inside then (w.step T (.step t)).bind (finish T t k)
    else
      match w.state.pc t with
      | .user _ => some w
      | _ => (w.step T (.tree (.step t))).bind (finish T t k)

/-- A call of `t`, up to its return. -/
def perform (T : TrnmntTree) (t : τ) (fuel : ℕ) (w : World τ) (a : Act τ) : Option (World τ) :=
  (w.step T a).bind (finish T t fuel)

end World

end TrnmntTree
end Xv6
