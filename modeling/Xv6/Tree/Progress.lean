import Mathlib.Data.Fintype.EquivFin
import Mathlib.Algebra.BigOperators.Group.Finset.Basic
import Mathlib.Algebra.Order.BigOperators.Group.Finset
import Xv6.Tree.Invariant

/-! The tree does not deadlock. A thread that waits for a node waits for a thread
that, if it waits for a node at all, waits for one nearer to the root; and whoever
has the lock of the tree waits for nothing. As every step also brings its thread
nearer to the end of its call, the calls that are under way can all be completed. -/

namespace Xv6.TrnmntTree

open Heap Runs

variable {d : ℕ} {T : FullTree d} {τ : Type*} {ids : τ ↪ Fin (2 ^ d)} {s s' : State τ} {t u o : τ}
  {m : Int}

/-- Inside `trnmnt_tree_acquire` or `trnmnt_tree_release`. -/
def Pc.inside : Pc → Bool
  | .user _ => false
  | .fault => false
  | _ => true

/-- Inside one of the functions, or between the two. -/
def Pc.busy : Pc → Bool
  | .user (some (.acquire _, _)) => true
  | p => p.inside

/-- The mutex that the next step asks for. -/
def Pc.wants (T : TrnmntTree) : Pc → Option Int
  | .acquireLock _ | .releaseLock _ | .clearLock _ => some T.lock
  | .climb _ i p => if (i : Int) < T.depth then some (T.nodes (parent p)) else none
  | _ => none

/-- The distance to the root of the node that the next step asks for. -/
def Pc.rank : Pc → ℕ
  | .climb _ _ p => (parent p).toNat + 1
  | _ => 0

/-! ## Whom a thread waits for -/

theorem wants_climb {ID p : Int} {i : ℕ} (h : Pc.wants T (.climb ID i p) = some m) :
    i < d ∧ m = T.nodes (parent p) := by
  simp only [Pc.wants, T.depth_eq] at h
  split at h
  · rename_i hlt
    cases h
    exact ⟨by omega, rfl⟩
  · cases h

variable {n : Fin (2 ^ d)} {p : Pc}

theorem wants_mem_mutexes (hshape : Shape n p) (hw : p.wants T = some m) : m ∈ mutexes T := by
  cases p with
  | acquireLock | releaseLock | clearLock => cases hw; exact lock_mem_mutexes T
  | climb ID i q =>
    obtain ⟨_, _, rfl⟩ := hshape
    obtain ⟨_, rfl⟩ := wants_climb hw
    rw [parent_anc]
    exact node_mem_mutexes T (hasNode_anc T n _)
  | _ => cases hw

theorem busy_of_held (hm : m ∈ held T n p) : p.busy := by
  cases p with
  | user last =>
    rcases last with _ | ⟨ID | ID, r⟩
    · exact hm.elim
    · rfl
    · exact hm.elim
  | fault => exact hm.elim
  | _ => rfl

/-- Whoever holds the lock of the tree asks for nothing. -/
theorem wants_of_lock (hm : T.lock ∈ held T n p) (hshape : Shape n p) : p.wants T = none := by
  cases p with
  | acquireLock | clearLock => exact hm.elim
  | releaseLock => exact absurd hm (lock_notMem_route T n d)
  | climb ID i q => exact absurd hm (lock_notMem_route T n i)
  | _ => rfl

/-- Whoever holds a node asks for nodes nearer to the root only. -/
theorem rank_of_node {q : ℕ} (hq : T.HasNode q)
    (hm : T.nodes q ∈ held T n p) (hshape : Shape n p) {m' : Int}
    (hw : p.wants T = some m') : p.rank < q + 1 := by
  cases p with
  | climb ID i p =>
    obtain ⟨_, _, rfl⟩ := hshape
    obtain ⟨hi, _⟩ := wants_climb hw
    obtain ⟨j, _, hj, e⟩ := mem_route.1 ((node_mem_route T hq).1 hm)
    rw [Int.ofNat_inj] at e
    subst e
    have := anc_lt (show j < i + 1 by omega) (two_pow_le_leaf n hi)
    simp only [Pc.rank, parent_anc, Int.toNat_natCast]
    omega
  | _ => exact Nat.succ_pos q

theorem Inv.owner (h : Inv T ids s) (hw : (s.pc t).wants T = some m)
    (ho : s.mutex m = .locked o) : (s.pc o).busy ∧ ∀ m', (s.pc o).wants T = some m' →
      (s.pc o).rank < (s.pc t).rank := by
  have hshape := h.shape t
  have hheld := (h.owns o m (wants_mem_mutexes hshape hw)).1 ho
  constructor
  · exact busy_of_held hheld
  · intro m' hw'
    cases hpc : s.pc t with
    | acquireLock | releaseLock | clearLock =>
      rw [hpc] at hw
      cases hw
      rw [wants_of_lock hheld (h.shape o)] at hw'
      cases hw'
    | climb ID i p =>
      rw [hpc] at hw hshape
      obtain ⟨_, _, rfl⟩ := hshape
      obtain ⟨_, rfl⟩ := wants_climb hw
      rw [parent_anc] at hheld
      have := rank_of_node (hasNode_anc T (ids t) (i + 1)) hheld (h.shape o) hw'
      simpa only [Pc.rank, parent_anc, Int.toNat_natCast] using this
    | _ => rw [hpc] at hw; cases hw

variable [DecidableEq τ]

/-- A thread inside a function that is not blocked has a next step. -/
theorem stepThread_isSome (hin : (s.pc t).inside)
    (hw : ∀ m, (s.pc t).wants T = some m → (Locks.lock s.mutex t m).isSome) :
    (T.stepThread s t).isSome := by
  have hlock : ∀ m (on : Int → Pc), (s.pc t).wants T = some m →
      (s.lock t m on).isSome := by
    intro m on hm
    simp only [State.lock, Option.isSome_map]
    exact hw m hm
  cases hpc : s.pc t with
  | user | fault => rw [hpc] at hin; cases hin
  | acquireLock | releaseLock | clearLock =>
    simp only [stepThread, hpc]
    exact hlock _ _ (by rw [hpc]; rfl)
  | climb ID i p =>
    simp only [stepThread, hpc]
    split
    · rfl
    · rename_i hi
      split
      · rfl
      · exact hlock _ _ (by rw [hpc, Pc.wants, if_pos (not_not.1 hi)])
  | acquireTest | releaseTest | releaseDown =>
    simp only [stepThread, hpc]
    split
    · rfl
    · split <;> rfl
  | releaseUp ID frames sum =>
    cases frames <;> simp only [stepThread, hpc] <;> split <;> rfl
  | _ => simp [stepThread, hpc]

/-- The steps of `u` other than the call of `trnmnt_tree_acquire`. -/
def Label.ByBusy (ids : τ ↪ Fin (2 ^ d)) (u : τ) (l : Label τ) : Prop :=
  l = .step u ∨ l = .call u (.release (ids u : ℕ))

/-- While a thread is busy, one that is busy can go on. -/
theorem Inv.progress (h : Inv T ids s) (ht : (s.pc t).busy) :
    ∃ u l s', Label.ByBusy ids u l ∧ T.step s l = some s' ∧ Disciplined ids s l s' := by
  obtain ⟨u, hu, hfree⟩ := Locks.exists_unblocked (P := fun t => (s.pc t).busy)
    (fun t m o _ hw ho _ => h.owner hw ho) ht
  by_cases hin : (s.pc u).inside
  · obtain ⟨s', hs'⟩ := Option.isSome_iff_exists.1 (stepThread_isSome hin hfree)
    exact ⟨u, .step u, s', .inl rfl, hs', trivial⟩
  · have hacq : ∃ ID r, s.pc u = .user (some (.acquire ID, r)) := by
      cases hpc : s.pc u with
      | user last =>
        rw [hpc] at hu
        rcases last with _ | ⟨ID | ID, r⟩
        · cases hu
        · exact ⟨ID, r, rfl⟩
        · cases hu
      | fault => rw [hpc] at hu; cases hu
      | _ => rw [hpc] at hin; exact absurd rfl hin
    obtain ⟨ID, r, hpc⟩ := hacq
    have hshape := h.shape u
    rw [hpc] at hshape
    obtain ⟨hID, rfl⟩ := hshape
    obtain rfl : ID = (ids u : ℕ) := hID
    refine ⟨u, _, T.enter s u (.release (ids u : ℕ)), .inr rfl, ?_, rfl, hpc⟩
    simp only [TrnmntTree.step, hpc]

/-- **The tree does not deadlock.** While a thread is inside
`trnmnt_tree_acquire` or `trnmnt_tree_release`, some thread takes its next step
inside one of them, or is between the two and calls `trnmnt_tree_release`. -/
theorem trnmnt_tree_progress (hd : 1 ≤ d) (h0 : Fresh T s)
    (hr : Run T.step (Disciplined ids) s s') (ht : (s'.pc t).inside) :
    ∃ u, (∃ s'', T.step s' (.step u) = some s'') ∨
      (s'.pc u = .user (some (.acquire (ids u : ℕ), 0)) ∧
        ∃ s'', T.step s' (.call u (.release (ids u : ℕ))) = some s'') := by
  have hbusy : (s'.pc t).busy := by
    cases hpc : s'.pc t with
    | user | fault => rw [hpc] at ht; cases ht
    | _ => rfl
  obtain ⟨u, l, s'', hl, hs, hg⟩ := (inv_of_run hd h0 hr).progress hbusy
  rcases hl with rfl | rfl
  · exact ⟨u, .inl ⟨s'', hs⟩⟩
  · exact ⟨u, .inr ⟨hg.2, s'', hs⟩⟩

/-- A tree for two threads. -/
def pairTree : FullTree 1 where
  depth := 1
  threads := 2
  totalNodes := 3
  lock := 1
  nodes i := i + 2
  depth_eq := rfl
  threads_eq := rfl
  totalNodes_eq := rfl
  nodes_inj i j _ _ h := by simpa using h
  nodes_ne_lock i h := by
    have := h.1
    omega

def pairFresh : State (Fin 2) where
  mutex m := if 1 ≤ m ∧ m ≤ 4 then .unlocked else .absent
  takenIds _ := 0
  numOfLocked := 0
  pc _ := .user none

theorem pairFresh_fresh : Fresh pairTree pairFresh := by
  constructor
  · rfl
  · intro i hi
    obtain ⟨h1, h2⟩ := hi
    simp only [pairTree] at h2
    simp only [pairFresh, pairTree]
    rw [if_pos (by omega)]
  · exact fun _ _ => rfl
  · rfl
  · exact fun _ => rfl

def pairIds : Fin 2 ↪ Fin (2 ^ 1) := Function.Embedding.refl (Fin 2)

/-- Thread 0 acquires the tree, and thread 1 climbs until it is blocked. -/
def contest : List (Label (Fin 2)) :=
  [.call 0 (.acquire 0), .step 0, .step 0, .step 0, .step 0, .call 1 (.acquire 1), .step 0,
    .step 1, .step 1, .step 0, .step 1, .step 1]

/-- The guard `Disciplined`, for threads that acquire the tree once. -/
def onceTest (s : State (Fin 2)) : Label (Fin 2) → Bool
  | .call t (.acquire ID) => ID = (pairIds t : ℕ) && s.pc t = .user none
  | .call t (.release ID) => ID = (pairIds t : ℕ) && s.pc t = .user (some (.acquire ID, 0))
  | .callNull _ _ => false
  | .step _ => true

theorem disciplined_of_once {s s' : State (Fin 2)} {l : Label (Fin 2)} (hg : onceTest s l) :
    Disciplined pairIds s l s' := by
  cases l with
  | call t c =>
    cases c with
    | acquire ID =>
      simp only [onceTest, Bool.and_eq_true, decide_eq_true_eq] at hg
      refine ⟨hg.1, fun ID' e => ?_⟩
      rw [hg.2] at e
      cases e
    | release ID => simpa [onceTest, Disciplined] using hg
  | callNull t c => cases hg
  | step t => trivial

def contested : State (Fin 2) := final pairTree.step pairFresh contest

theorem contested_run : Run pairTree.step (Disciplined pairIds) pairFresh contested :=
  run_final disciplined_of_once

theorem trnmnt_tree_progress_contested :
    (contested.pc 1).inside ∧ (pairTree.step contested (.step 1)).isNone ∧
    ∃ u : Fin 2, (∃ s, pairTree.step contested (.step u) = some s) ∨
      (contested.pc u = .user (some (.acquire (pairIds u : ℕ), 0)) ∧
        ∃ s, pairTree.step contested (.call u (.release (pairIds u : ℕ))) = some s) := by
  have hin : (contested.pc 1).inside := by decide +kernel
  exact ⟨hin, by decide +kernel, trnmnt_tree_progress le_rfl pairFresh_fresh contested_run hin⟩

/-! ## Completion -/

/-- How many steps are left until the thread has released the tree. -/
def Pc.work (d : ℕ) : Pc → ℕ
  | .user (some (.acquire _, _)) => 2 * d + 9
  | .user _ | .fault => 0
  | .acquireLock _ => 3 * d + 14
  | .acquireTest _ => 3 * d + 13
  | .acquireTaken _ | .acquireTake _ => 3 * d + 12
  | .acquireUnlock _ => 3 * d + 11
  | .climb _ i _ => 2 * d + 10 + (d - i)
  | .releaseLock _ => 2 * d + 8
  | .releaseTest _ => 2 * d + 7
  | .releaseFree _ | .releaseUnlock _ => 2 * d + 6
  | .releaseDown _ _ frames => 2 * d + 5 - frames.length
  | .releaseUp _ frames _ => frames.length + 4
  | .clearLock _ => 3
  | .clear _ => 2
  | .clearUnlock _ => 1

theorem length_route (n : Fin (2 ^ d)) (k : ℕ) : (route n k).length = k := by
  simp [route]

theorem stepThread_work
    (hlen : ∀ ID p frames, s.pc t = .releaseDown ID p frames → frames.length ≤ d)
    (hs : T.stepThread s t = some s') :
    (s'.pc t).work d < (s.pc t).work d ∧ ∀ u, u ≠ t → s'.pc u = s.pc u := by
  obtain ⟨a, hdoes, hr⟩ := stepThread_does hs
  obtain ⟨p, hto, hgoes⟩ := a.goesTo hr
  refine ⟨?_, hgoes.pc⟩
  rw [hgoes.self]
  generalize s.pc t = q at hdoes hlen
  cases hdoes with
  | acquireLock | releaseLock | clearLock =>
    obtain ⟨_, _, _, rfl⟩ := hto
    simp [Pc.work]
  | climb hi =>
    obtain ⟨r, _, _, rfl⟩ := hto
    rw [T.depth_eq] at hi
    dsimp only
    split <;> simp only [Pc.work] <;> omega
  | down | rootFault | root =>
    obtain rfl := hto
    have := hlen _ _ _ rfl
    simp only [Pc.work, List.length_cons]
    omega
  | _ =>
    obtain rfl := hto
    simp only [Pc.work, List.length_cons, List.length_nil]
    omega

/-- A step of a busy thread leaves less to do. -/
theorem Inv.work_lt (h : Inv T ids s) {l : Label τ} (hl : Label.ByBusy ids u l)
    (hs : T.step s l = some s') (hg : Disciplined ids s l s') :
    (s'.pc u).work d < (s.pc u).work d ∧ ∀ v, v ≠ u → s'.pc v = s.pc v := by
  rcases hl with rfl | rfl
  · refine stepThread_work (fun ID p frames hpc => ?_) hs
    have hshape := h.shape u
    rw [hpc] at hshape
    obtain ⟨_, j, hj, _, rfl⟩ := hshape
    rw [length_route]
    exact hj.le
  · obtain ⟨_, hpc⟩ := hg
    simp only [TrnmntTree.step, hpc, enter_eq (c := .release (ids u : ℕ)) (ids u) s u rfl] at hs
    cases hs
    constructor
    · simp [hpc, State.goto, Call.start, Pc.work]
    · intro v hv
      simp [State.goto, hv]

/-- **All calls can be completed**: the run can be continued until no thread is
inside a function or has the tree. -/
theorem Inv.completes (h : Inv T ids s) (hd : 1 ≤ d) :
    ∃ s', Run T.step (Disciplined ids) s s' ∧ ∀ t, (s'.pc t).busy = false := by
  have : Finite τ := Finite.of_injective ids ids.injective
  have := Fintype.ofFinite τ
  -- by induction on the work that is left
  generalize hw : ∑ t, (s.pc t).work d = w
  induction w using Nat.strong_induction_on generalizing s with
  | _ w ih =>
    by_cases hbusy : ∀ t, (s.pc t).busy = false
    · exact ⟨s, .refl, hbusy⟩
    · push Not at hbusy
      obtain ⟨t, ht⟩ := hbusy
      obtain ⟨u, l, s1, hl, hs, hg⟩ := h.progress (by simpa using ht)
      obtain ⟨hlt, hothers⟩ := h.work_lt hl hs hg
      have hsum : ∑ t, (s1.pc t).work d < w := by
        rw [← hw]
        apply Finset.sum_lt_sum _ ⟨u, Finset.mem_univ u, hlt⟩
        intro v _
        rcases eq_or_ne v u with rfl | hv
        · exact hlt.le
        · rw [hothers v hv]
      obtain ⟨s', hr, hdone⟩ := ih _ hsum (h.step hd hs hg) rfl
      exact ⟨s', (Run.next .refl hs hg).trans hr, hdone⟩

end Xv6.TrnmntTree
