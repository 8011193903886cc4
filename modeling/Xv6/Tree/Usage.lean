import Mathlib.Logic.Embedding.Basic
import Xv6.Lib.Runs
import Xv6.Tree.Steps

/-! Threads that call the functions of a tree in any order, each with an id of
its own. What a thread holds then depends on where it is and on whether its id is
marked in `taken_ids` (`keeps`), and so do its local variables (`Local`). `Turn`
lists what a thread can do next; what holds of the threads at all times is proved
from it. -/

namespace Xv6.TrnmntTree

open Heap Runs
open Function (update update_of_ne update_self)

variable {d : ℕ}

section Threads

variable (T : FullTree d)

/-- The nodes of a thread outside the climb and the release. -/
def rest (n : Fin (2 ^ d)) : Bool → Set Int
  | true => nodeMutexes T (route n d)
  | false => ∅

/-- The mutexes that a thread with id `n` holds, where `b` says whether the id is
marked. -/
def keeps (n : Fin (2 ^ d)) (b : Bool) : Pc → Set Int
  | .user _ | .acquireLock _ | .releaseLock _ => rest T n b
  | .acquireTest _ | .acquireTaken _ | .releaseTest _ | .releaseFree _ | .releaseUnlock _ =>
    insert T.lock (rest T n b)
  | .acquireTake _ | .acquireUnlock _ | .clear _ | .clearUnlock _ => {T.lock}
  | .climb _ i _ => nodeMutexes T (route n i)
  | .releaseDown .. => nodeMutexes T (route n d)
  | .releaseUp _ frames _ => nodeMutexes T frames
  | .clearLock _ | .fault => ∅

/-- What a thread with id `n` finds in its local variables, and the mark of its id. -/
def Local (n : Fin (2 ^ d)) (b : Bool) : Pc → Prop
  | .user _ => True
  | .acquireLock ID | .acquireTest ID | .releaseLock ID | .releaseTest ID => ID = (n : ℕ)
  | .acquireTake ID | .releaseFree ID | .clearUnlock ID => ID = (n : ℕ) ∧ b = false
  | .acquireTaken ID | .acquireUnlock ID | .releaseUnlock ID | .clearLock ID | .clear ID =>
    ID = (n : ℕ) ∧ b = true
  | .climb ID i p => ID = (n : ℕ) ∧ b = true ∧ i ≤ d ∧ p = anc (leaf n) i
  | .releaseDown ID p frames =>
    ID = (n : ℕ) ∧ b = true ∧ ∃ j < d, p = anc (leaf n) (j + 1) ∧ frames = route n j
  | .releaseUp ID frames sum =>
    ID = (n : ℕ) ∧ b = true ∧ sum = 0 ∧ ∃ j < d, frames = route n j
  | .fault => False

end Threads

/-- One step of a thread with id `n`: the mark of its id and the program point,
before and after. -/
inductive Turn (n : Fin (2 ^ d)) : Bool → Pc → Bool → Pc → Prop
  | acquireLock (b) : Turn n b (.acquireLock (n : ℕ)) b (.acquireTest (n : ℕ))
  | refuse : Turn n true (.acquireTest (n : ℕ)) true (.acquireTaken (n : ℕ))
  | refused : Turn n true (.acquireTaken (n : ℕ)) true (.user (some (.acquire (n : ℕ), -1)))
  | pass : Turn n false (.acquireTest (n : ℕ)) false (.acquireTake (n : ℕ))
  | take : Turn n false (.acquireTake (n : ℕ)) true (.acquireUnlock (n : ℕ))
  | start : Turn n true (.acquireUnlock (n : ℕ)) true (.climb (n : ℕ) 0 (anc (leaf n) 0))
  | climb {i} (h : i < d) : Turn n true (.climb (n : ℕ) i (anc (leaf n) i))
      true (.climb (n : ℕ) (i + 1) (anc (leaf n) (i + 1)))
  | acquired : Turn n true (.climb (n : ℕ) d (anc (leaf n) d))
      true (.user (some (.acquire (n : ℕ), 0)))
  | releaseLock (b) : Turn n b (.releaseLock (n : ℕ)) b (.releaseTest (n : ℕ))
  | idle : Turn n false (.releaseTest (n : ℕ)) false (.releaseFree (n : ℕ))
  | idled : Turn n false (.releaseFree (n : ℕ)) false (.user (some (.release (n : ℕ), -1)))
  | found : Turn n true (.releaseTest (n : ℕ)) true (.releaseUnlock (n : ℕ))
  | enter (h : 0 < d) : Turn n true (.releaseUnlock (n : ℕ))
      true (.releaseDown (n : ℕ) (anc (leaf n) 1) [])
  | down {j} (h : j + 1 < d) : Turn n true (.releaseDown (n : ℕ) (anc (leaf n) (j + 1)) (route n j))
      true (.releaseDown (n : ℕ) (anc (leaf n) (j + 2)) (route n (j + 1)))
  | root {j} (h : j + 1 = d) : Turn n true (.releaseDown (n : ℕ) (anc (leaf n) (j + 1)) (route n j))
      true (.releaseUp (n : ℕ) (route n j) 0)
  | up {j} (h : j + 1 < d) : Turn n true (.releaseUp (n : ℕ) (route n (j + 1)) 0)
      true (.releaseUp (n : ℕ) (route n j) 0)
  | freed : Turn n true (.releaseUp (n : ℕ) [] 0) true (.clearLock (n : ℕ))
  | clearLock : Turn n true (.clearLock (n : ℕ)) true (.clear (n : ℕ))
  | clear : Turn n true (.clear (n : ℕ)) false (.clearUnlock (n : ℕ))
  | released : Turn n false (.clearUnlock (n : ℕ)) false (.user (some (.release (n : ℕ), 0)))

theorem Turn.vars {n : Fin (2 ^ d)} {b b' : Bool} {p p' : Pc} (h : Turn n b p b' p') :
    Local n b' p' := by
  cases h with
  | refused | acquired | idled | released => trivial
  | acquireLock | releaseLock => exact rfl
  | start => exact ⟨rfl, rfl, Nat.zero_le _, rfl⟩
  | climb hi => exact ⟨rfl, rfl, hi, rfl⟩
  | enter hd => exact ⟨rfl, rfl, 0, hd, rfl, rfl⟩
  | @down j hj => exact ⟨rfl, rfl, j + 1, hj, rfl, rfl⟩
  | @root j hj | @up j hj => exact ⟨rfl, rfl, rfl, j, by omega, rfl⟩
  | refuse | pass | take | idle | found | freed | clearLock | clear => exact ⟨rfl, rfl⟩

/-! ## The threads together -/

variable {τ : Type*}

/-- Whether an id is marked in `taken_ids`. -/
def State.marked (s : State τ) (n : Fin (2 ^ d)) : Bool := s.takenIds (n : ℕ) ≠ 0

variable (T : FullTree d) (ids : τ ↪ Fin (2 ^ d))

structure Use (s : State τ) : Prop where
  owns : Locks.Owns (mutexes T) s.mutex fun t => keeps T (ids t) (s.marked (ids t)) (s.pc t)
  present : ∀ m ∈ mutexes T, s.mutex m ≠ .absent
  vars : ∀ t, Local (ids t) (s.marked (ids t)) (s.pc t)

/-- A step of `t` as the other threads see it: `t` takes a turn and they stay as
they are. -/
structure TurnOf (t : τ) (s s' : State τ) : Prop where
  turn : Turn (ids t) (s.marked (ids t)) (s.pc t) (s'.marked (ids t)) (s'.pc t)
  pc : ∀ u, u ≠ t → s'.pc u = s.pc u
  marked : ∀ u, u ≠ t → s'.marked (ids u) = s.marked (ids u)

variable {T} {ids} {s s' : State τ} {t u : τ} {p p' : Pc} {b b' : Bool} {m : Int}

theorem State.marked_congr (h : s'.takenIds = s.takenIds) (n : Fin (2 ^ d)) :
    s'.marked n = s.marked n := by
  rw [State.marked, State.marked, h]

@[simp] theorem State.pc_goto [DecidableEq τ] : (s.goto t p).pc = update s.pc t p := rfl

theorem Fresh.use (h : Fresh T s) : Use T ids s := by
  have hmark : ∀ t, s.marked (ids t) = false := by
    intro t
    simp [State.marked, h.takenIds _ (hasId T (ids t))]
  constructor
  · intro t m hS
    simp [h.unlocked hS, h.pc, keeps, hmark, rest]
  · intro m hS
    simp [h.unlocked hS]
  · intro t
    rw [h.pc]
    trivial

theorem Use.turn (h : Use T ids s) (ht : TurnOf ids t s s')
    (howns : ∀ held', held' t = keeps T (ids t) (s'.marked (ids t)) (s'.pc t) →
      (∀ u, u ≠ t → held' u = keeps T (ids u) (s.marked (ids u)) (s.pc u)) →
      Locks.Owns (mutexes T) s'.mutex held')
    (hpresent : ∀ m ∈ mutexes T, s'.mutex m ≠ .absent) : Use T ids s' := by
  constructor
  · apply howns
    · rfl
    · intro u hu
      rw [ht.pc u hu, ht.marked u hu]
  · exact hpresent
  · intro u
    rcases eq_or_ne u t with rfl | hu
    · exact ht.turn.vars
    · rw [ht.pc u hu, ht.marked u hu]
      exact h.vars u

/-- `s'` is `s` after a turn of `t`, and the invariant is kept. -/
def Kept (T : FullTree d) (ids : τ ↪ Fin (2 ^ d)) (t : τ) (s s' : State τ) : Prop :=
  Use T ids s' ∧ TurnOf ids t s s'

/-- A mutex that is there stays there when another one, or it, gets a new state. -/
theorem Use.present_update (h : Use T ids s) {x : Locks.Cell τ} (hx : x ≠ .absent) :
    ∀ n ∈ mutexes T, update s.mutex m x n ≠ .absent := by
  intro n hn
  rcases eq_or_ne n m with rfl | hnm
  · rwa [update_self]
  · rw [update_of_ne hnm]
    exact h.present n hn

variable [DecidableEq τ]

theorem turnOf_update (hpc' : s'.pc = update s.pc t p')
    (hmark : s'.takenIds = s.takenIds) (hpc : s.pc t = p) (hb : s.marked (ids t) = b)
    (hturn : Turn (ids t) b p b p') : TurnOf ids t s s' := by
  constructor
  · rw [State.marked_congr hmark, hpc', update_self, hpc, hb]
    exact hturn
  · intro u hu
    rw [hpc', update_of_ne hu]
  · exact fun u _ => State.marked_congr hmark _

theorem Use.goto (h : Use T ids s) (hpc : s.pc t = p) (hb : s.marked (ids t) = b)
    (hturn : Turn (ids t) b p b p') (hkeep : keeps T (ids t) b p' = keeps T (ids t) b p) :
    Kept T ids t s (s.goto t p') := by
  have ht : TurnOf ids t s (s.goto t p') := turnOf_update rfl rfl hpc hb hturn
  refine ⟨h.turn ht ?_ h.present, ht⟩
  intro held' hself hothers
  apply h.owns.congr
  intro u
  rcases eq_or_ne u t with rfl | hut
  · have hmark : (s.goto u p').marked (ids u) = s.marked (ids u) := State.marked_congr rfl _
    simpa [hself, hmark, hpc, hb] using hkeep
  · exact hothers u hut

section

variable (h : Use T ids s) (hpc : s.pc t = p) (hb : s.marked (ids t) = b)

include h hpc hb

theorem Use.lock {on : Int → Pc} (hr : (Deed.lock m on).run s t = some s') (hS : m ∈ mutexes T)
    (hm : m ∉ keeps T (ids t) b p) (hturn : Turn (ids t) b p b (on 0))
    (hkeep : keeps T (ids t) b (on 0) = insert m (keeps T (ids t) b p)) : Kept T ids t s s' := by
  subst hpc hb
  obtain ⟨r, mutex, hlock, rfl⟩ := lock_some hr
  have hnot : s.mutex m ≠ .locked t := fun e => hm ((h.owns t m hS).1 e)
  obtain ⟨rfl, hfree, rfl⟩ := Locks.lock_eq (h.present m hS) hnot hlock
  have ht : TurnOf ids t s
      { s.goto t (on 0) with mutex := update s.mutex m (.locked t) } :=
    turnOf_update rfl rfl rfl rfl hturn
  refine ⟨h.turn ht (fun held' hself hothers => ?_) (h.present_update (by simp)), ht⟩
  apply h.owns.lock hfree _ hothers
  rw [hself, ← hkeep]
  simp only [State.pc_goto, update_self]
  rfl

theorem Use.unlock {on : Int → Pc} (hr : (Deed.unlock m on).run s t = some s') (hS : m ∈ mutexes T)
    (hm : m ∈ keeps T (ids t) b p) (hturn : Turn (ids t) b p b (on 0))
    (hkeep : keeps T (ids t) b (on 0) = keeps T (ids t) b p \ {m}) : Kept T ids t s s' := by
  subst hpc hb
  cases hr
  simp only [State.unlock, Locks.unlock_eq ((h.owns t m hS).2 hm)]
  have ht : TurnOf ids t s
      { s.goto t (on 0) with mutex := update s.mutex m .unlocked } :=
    turnOf_update rfl rfl rfl rfl hturn
  refine ⟨h.turn ht (fun held' hself hothers => ?_) (h.present_update (by simp)), ht⟩
  apply h.owns.unlock hS hm _ hothers
  rw [hself, ← hkeep]
  simp only [State.pc_goto, update_self]
  rfl

/-- Threads mark their own ids only. -/
theorem Use.mark {v num : Int} (hv : decide (v ≠ 0) = b') (hturn : Turn (ids t) b p b' p')
    (hkeep : keeps T (ids t) b' p' = keeps T (ids t) b p) : Kept T ids t s { s.goto t p' with
      takenIds := update s.takenIds (ids t : ℕ) v, numOfLocked := num } := by
  subst hpc hb
  have ht : TurnOf ids t s { s.goto t p' with
      takenIds := update s.takenIds (ids t : ℕ) v, numOfLocked := num } := by
    constructor
    · simpa [State.goto, State.marked, ← hv] using hturn
    · intro u hu
      simp [State.goto, hu]
    · intro u hu
      have hne : ((ids u : ℕ) : Int) ≠ (ids t : ℕ) := by
        intro e
        exact hu (ids.injective (Fin.ext (Int.ofNat_inj.1 e)))
      simp [State.marked, hne]
  refine ⟨h.turn ht ?_ h.present, ht⟩
  intro held' hself hothers
  apply h.owns.congr
  intro u
  rcases eq_or_ne u t with rfl | hut
  · rw [hself, ← hkeep, ← hv]
    simp [State.goto, State.marked]
  · exact hothers u hut

end

/-! ## The steps of one thread -/

theorem lock_notMem_rest (n : Fin (2 ^ d)) (b : Bool) : T.lock ∉ rest T n b := by
  cases b with
  | true => exact lock_notMem_route T n d
  | false => exact Set.notMem_empty _

theorem insert_sdiff_rest (n : Fin (2 ^ d)) (b : Bool) :
    rest T n b = insert T.lock (rest T n b) \ {T.lock} :=
  (Set.insert_sdiff_self_of_notMem (lock_notMem_rest n b)).symm

/-- The root is the last node of a route. -/
theorem anc_eq_root_iff (n : Fin (2 ^ d)) {j : ℕ} (hj : j < d) :
    (anc (leaf n) (j + 1) : Int) = 0 ↔ j + 1 = d := by
  rw [Int.natCast_eq_zero]
  constructor
  · intro e
    by_contra hne
    have := anc_leaf_pos n (k := j + 1) (by omega)
    omega
  · rintro rfl
    exact anc_leaf_root n

theorem Use.stepThread (h : Use T ids s) (hd : 1 ≤ d) (hs : T.stepThread s t = some s') :
    Kept T ids t s s' := by
  have hlock := lock_mem_mutexes T
  obtain ⟨a, hdoes, hr⟩ := stepThread_does hs
  have hvars := h.vars t
  generalize hpc : s.pc t = p at hdoes hvars
  generalize hb : s.marked (ids t) = b at hvars
  cases hdoes with
  | acquireLock =>
    obtain rfl := hvars
    exact h.lock hpc hb hr hlock (lock_notMem_rest _ _) (.acquireLock b) rfl
  | releaseLock =>
    obtain rfl := hvars
    exact h.lock hpc hb hr hlock (lock_notMem_rest _ _) (.releaseLock b) rfl
  | acquireFault hid | releaseFault hid =>
    obtain rfl := hvars
    exact absurd (hasId T (ids t)) hid
  | refuse _ htaken =>
    obtain rfl := hvars
    obtain rfl : b = true := hb ▸ decide_eq_true htaken
    cases hr
    exact h.goto hpc hb .refuse rfl
  | pass _ hfree =>
    obtain rfl := hvars
    obtain rfl : b = false := hb ▸ decide_eq_false (not_not.2 hfree)
    cases hr
    exact h.goto hpc hb .pass (by simp [keeps, rest])
  | refused =>
    obtain ⟨rfl, rfl⟩ := hvars
    exact h.unlock hpc hb hr hlock (Set.mem_insert _ _) .refused (insert_sdiff_rest (ids t) true)
  | take =>
    obtain ⟨rfl, rfl⟩ := hvars
    cases hr
    exact h.mark hpc hb rfl .take rfl
  | start =>
    obtain ⟨rfl, rfl⟩ := hvars
    rw [realIndexInTree_eq] at hr
    exact h.unlock hpc hb hr hlock rfl .start (by simp [keeps])
  | @acquired ID i q hi =>
    obtain ⟨rfl, rfl, hid, rfl⟩ := hvars
    rw [T.depth_eq] at hi
    obtain rfl : i = d := by omega
    cases hr
    exact h.goto hpc hb .acquired rfl
  | climbFault hi hn =>
    obtain ⟨rfl, rfl, _, rfl⟩ := hvars
    exact absurd (parent_anc (ids t) _ ▸ hasNode_anc T (ids t) _) hn
  | @climb ID i q hi hn =>
    obtain ⟨rfl, rfl, _, rfl⟩ := hvars
    rw [T.depth_eq, Int.ofNat_lt] at hi
    rw [parent_anc] at hr hn
    exact h.lock hpc hb hr (node_mem_mutexes T hn) (next_notMem_route T (ids t) hi) (.climb hi)
      (nodeMutexes_cons T _ _)
  | idle _ hfree =>
    obtain rfl := hvars
    obtain rfl : b = false := hb ▸ decide_eq_false (not_not.2 hfree)
    cases hr
    exact h.goto hpc hb .idle rfl
  | found _ htaken =>
    obtain rfl := hvars
    obtain rfl : b = true := hb ▸ decide_eq_true htaken
    cases hr
    exact h.goto hpc hb .found rfl
  | idled =>
    obtain ⟨rfl, rfl⟩ := hvars
    exact h.unlock hpc hb hr hlock (Set.mem_insert _ _) .idled (insert_sdiff_rest (ids t) false)
  | enter =>
    obtain ⟨rfl, rfl⟩ := hvars
    rw [realIndexInTree_eq, parent_anc] at hr
    exact h.unlock hpc hb hr hlock (Set.mem_insert _ _) (.enter hd) (insert_sdiff_rest (ids t) true)
  | down hne =>
    obtain ⟨rfl, rfl, j, hj, rfl, rfl⟩ := hvars
    rw [ne_eq, anc_eq_root_iff _ hj] at hne
    rw [parent_anc] at hr
    cases hr
    exact h.goto hpc hb (.down (by omega)) rfl
  | rootFault hn => exact absurd (hasNode_zero T) hn
  | root hn =>
    obtain ⟨rfl, rfl, j, hj, hroot, rfl⟩ := hvars
    obtain rfl := (anc_eq_root_iff (ids t) hj).1 hroot.symm
    rw [hroot] at hr hn hpc
    exact h.unlock hpc hb hr (node_mem_mutexes T hn)
      ⟨_, mem_route.2 ⟨j + 1, by omega, le_rfl, rfl⟩, rfl⟩ (.root rfl) (held_unlock (ids t) hj)
  | upFault hn =>
    obtain ⟨rfl, rfl, _, j, _, hframes⟩ := hvars
    exact absurd (hasNode_route T (hframes ▸ List.mem_cons_self ..)) hn
  | up hn =>
    obtain ⟨rfl, rfl, rfl, j, hj, hframes⟩ := hvars
    cases j with
    | zero => cases hframes
    | succ j =>
      obtain ⟨rfl, rfl⟩ := List.cons.inj hframes
      exact h.unlock hpc hb hr (node_mem_mutexes T hn) ⟨_, List.mem_cons_self .., rfl⟩ (.up hj)
        (held_unlock (ids t) (by omega))
  | failed hsum => exact absurd hvars.2.2.1 hsum
  | freed =>
    obtain ⟨rfl, rfl, _⟩ := hvars
    cases hr
    exact h.goto hpc hb .freed (nodeMutexes_nil T).symm
  | clearLock =>
    obtain ⟨rfl, rfl⟩ := hvars
    exact h.lock hpc hb hr hlock (Set.notMem_empty _) .clearLock (by simp [keeps])
  | clear =>
    obtain ⟨rfl, rfl⟩ := hvars
    cases hr
    exact h.mark hpc hb rfl .clear rfl
  | released =>
    obtain ⟨rfl, rfl⟩ := hvars
    exact h.unlock hpc hb hr hlock rfl .released (by simp [keeps, rest])

/-! ## Runs -/

/-- Every thread calls the functions of the tree with its own id. -/
def OwnIds (ids : τ ↪ Fin (2 ^ d)) : Guard (State τ) (Label τ) := fun _ l _ =>
  match l with
  | .call t c => c.ID = (ids t : ℕ)
  | .callNull _ _ => True
  | .step _ => True

/-- Where a thread is between two calls does not matter. -/
theorem Use.between (h : Use T ids s) {last : Option (Call × Int)} (hpc : s.pc t = .user last)
    (hvars : Local (ids t) (s.marked (ids t)) p)
    (hkeep : keeps T (ids t) (s.marked (ids t)) p = rest T (ids t) (s.marked (ids t))) :
    Use T ids (s.goto t p) := by
  have hmark (n : Fin (2 ^ d)) : (s.goto t p).marked n = s.marked n := State.marked_congr rfl n
  constructor
  · apply h.owns.congr
    intro u
    rcases eq_or_ne u t with rfl | hut
    · simpa [hmark, hpc, keeps] using hkeep
    · simp [hmark, hut]
  · exact h.present
  · intro u
    rcases eq_or_ne u t with rfl | hut
    · simpa [hmark] using hvars
    · simpa [hmark, hut] using h.vars u

theorem Use.step (h : Use T ids s) (hd : 1 ≤ d) {l : Label τ} (hs : T.step s l = some s')
    (hg : OwnIds ids s l s') : Use T ids s' := by
  cases l with
  | call t c =>
    obtain ⟨last, hpc, rfl⟩ := step_call hs
    rw [enter_eq (ids t) s t hg]
    cases c with
    | acquire ID | release ID => exact h.between hpc hg rfl
  | callNull t c =>
    obtain ⟨last, hpc, rfl⟩ := step_callNull hs
    exact h.between hpc trivial rfl
  | step t => exact (h.stepThread hd hs).1

theorem use_of_run (hd : 1 ≤ d) (h0 : Fresh T s) (hr : Run T.step (OwnIds ids) s s') :
    Use T ids s' :=
  hr.invariant h0.use fun _ _ _ h hs hg => h.step hd hs hg

end Xv6.TrnmntTree
