import Xv6.Lib.Locks

/-! The tournament tree of `tournament_tree.c`: `trnmnt_tree_acquire`,
`trnmnt_tree_release` and `release_lock`, cut at every operation on a mutex and
every access to the shared fields. The mutexes are those of `Locks`: a mutex is
named by the id that `kthread_mutex_alloc` returned, `-1` included. -/

namespace Xv6

open Function (update)

/-- The fields of `trnmnt_tree` that are written by `trnmnt_tree_alloc` only. -/
structure TrnmntTree where
  depth : Int
  threads : Int
  totalNodes : Int
  lock : Int
  nodes : Int → Int

namespace TrnmntTree

inductive Call
  | acquire (ID : Int)
  | release (ID : Int)
  deriving DecidableEq

def Call.ID : Call → Int
  | .acquire ID => ID
  | .release ID => ID

/-- Where a thread is. `user last` is its own code, after the call `last` with its
result; `fault` is an access outside `taken_ids` or `nodes`. -/
inductive Pc
  | user (last : Option (Call × Int))
  | acquireLock (ID : Int)
  | acquireTest (ID : Int)
  | acquireTaken (ID : Int)
  | acquireTake (ID : Int)
  | acquireUnlock (ID : Int)
  | climb (ID : Int) (i : Nat) (parent : Int)
  | releaseLock (ID : Int)
  | releaseTest (ID : Int)
  | releaseFree (ID : Int)
  | releaseUnlock (ID : Int)
  -- `release_lock(parent)`, called from the frames of `frames`
  | releaseDown (ID parent : Int) (frames : List Int)
  -- the call made by the first of `frames` has returned `sum`
  | releaseUp (ID : Int) (frames : List Int) (sum : Int)
  | clearLock (ID : Int)
  | clear (ID : Int)
  | clearUnlock (ID : Int)
  | fault
  deriving DecidableEq

/-- Past the checks of the arguments, before the tree is locked. -/
def Call.start : Call → Pc
  | .acquire ID => .acquireLock ID
  | .release ID => .releaseLock ID

structure State (τ : Type*) where
  mutex : Locks.Table Int τ
  takenIds : Int → Int
  numOfLocked : Int
  pc : τ → Pc

/-- A thread calls a function, calls it with a null tree, or takes its next step. -/
inductive Label (τ : Type*)
  | call (t : τ) (c : Call)
  | callNull (t : τ) (c : Call)
  | step (t : τ)

variable {τ : Type*} [DecidableEq τ]

namespace State

def goto (s : State τ) (t : τ) (p : Pc) : State τ :=
  { s with pc := update s.pc t p }

def ret (s : State τ) (t : τ) (c : Call) (r : Int) : State τ :=
  s.goto t (.user (some (c, r)))

/-- `kthread_mutex_lock(m)`, and then on with its result. -/
def lock (s : State τ) (t : τ) (m : Int) (on : Int → Pc) : Option (State τ) :=
  (Locks.lock s.mutex t m).map fun (r, mutex) => { s.goto t (on r) with mutex }

/-- `kthread_mutex_unlock(m)`, and then on with its result. -/
def unlock (s : State τ) (t : τ) (m : Int) (on : Int → Pc) : State τ :=
  { s.goto t (on (Locks.unlock s.mutex t m).1) with mutex := (Locks.unlock s.mutex t m).2 }

end State

variable (T : TrnmntTree)

/-- `taken_ids` and `nodes` have been allocated with this many elements. -/
def HasId (ID : Int) : Prop := 0 ≤ ID ∧ ID < T.threads
def HasNode (i : Int) : Prop := 0 ≤ i ∧ i < T.totalNodes

instance (ID : Int) : Decidable (T.HasId ID) := inferInstanceAs (Decidable (_ ∧ _))
instance (i : Int) : Decidable (T.HasNode i) := inferInstanceAs (Decidable (_ ∧ _))

def realIndexInTree (ID : Int) : Int := T.totalNodes - T.threads + ID

/-- `(i-1)/2`; the division of C rounds toward zero. -/
def parent (i : Int) : Int := (i - 1).tdiv 2

/-- The entry of both functions. -/
def enter (s : State τ) (t : τ) (c : Call) : State τ :=
  if c.ID > T.threads - 1 then s.ret t c (-1) else s.goto t c.start

/-- The next step of `t`; `none` in its own code and while it is blocked. -/
def stepThread (s : State τ) (t : τ) : Option (State τ) :=
  match s.pc t with
  | .user _ => none
  | .fault => none
  -- trnmnt_tree_acquire; the result of locking and unlocking the tree is not read
  | .acquireLock ID => s.lock t T.lock fun _ => .acquireTest ID
  | .acquireTest ID =>
    if ¬ T.HasId ID then some (s.goto t .fault)
    else if s.takenIds ID ≠ 0 then some (s.goto t (.acquireTaken ID))
    else some (s.goto t (.acquireTake ID))
  | .acquireTaken ID => some (s.unlock t T.lock fun _ => .user (some (.acquire ID, -1)))
  | .acquireTake ID =>
    some { s.goto t (.acquireUnlock ID) with
      takenIds := update s.takenIds ID 1, numOfLocked := s.numOfLocked + 1 }
  | .acquireUnlock ID => some (s.unlock t T.lock fun _ => .climb ID 0 (T.realIndexInTree ID))
  | .climb ID i p =>
    if ¬ (i : Int) < T.depth then some (s.ret t (.acquire ID) 0)
    else if ¬ T.HasNode (parent p) then some (s.goto t .fault)
    else s.lock t (T.nodes (parent p)) fun r =>
      if r ≠ 0 then .user (some (.acquire ID, -1)) else .climb ID (i + 1) (parent p)
  -- trnmnt_tree_release
  | .releaseLock ID => s.lock t T.lock fun _ => .releaseTest ID
  | .releaseTest ID =>
    if ¬ T.HasId ID then some (s.goto t .fault)
    else if s.takenIds ID = 0 then some (s.goto t (.releaseFree ID))
    else some (s.goto t (.releaseUnlock ID))
  | .releaseFree ID => some (s.unlock t T.lock fun _ => .user (some (.release ID, -1)))
  | .releaseUnlock ID =>
    some (s.unlock t T.lock fun _ => .releaseDown ID (parent (T.realIndexInTree ID)) [])
  -- release_lock; the left operand of its `+` is evaluated first
  | .releaseDown ID p frames =>
    if p ≠ 0 then some (s.goto t (.releaseDown ID (parent p) (p :: frames)))
    else if ¬ T.HasNode 0 then some (s.goto t .fault)
    else some (s.unlock t (T.nodes 0) fun r => .releaseUp ID frames r)
  | .releaseUp ID (p :: frames) sum =>
    if ¬ T.HasNode p then some (s.goto t .fault)
    else some (s.unlock t (T.nodes p) fun r => .releaseUp ID frames (sum + r))
  | .releaseUp ID [] sum =>
    if sum ≠ 0 then some (s.ret t (.release ID) (-1)) else some (s.goto t (.clearLock ID))
  | .clearLock ID => s.lock t T.lock fun _ => .clear ID
  | .clear ID =>
    some { s.goto t (.clearUnlock ID) with
      takenIds := update s.takenIds ID 0, numOfLocked := s.numOfLocked - 1 }
  | .clearUnlock ID => some (s.unlock t T.lock fun _ => .user (some (.release ID, 0)))

def step (s : State τ) : Label τ → Option (State τ)
  | .call t c =>
    match s.pc t with
    | .user _ => some (T.enter s t c)
    | _ => none
  | .callNull t c =>
    match s.pc t with
    | .user _ => some (s.ret t c (-1))
    | _ => none
  | .step t => T.stepThread s t

end TrnmntTree
end Xv6
