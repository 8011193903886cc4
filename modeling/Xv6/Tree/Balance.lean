import Xv6.Lib.Totals
import Xv6.Tree.Cycles

/-! What a tree leaves in the mutex table. The threads call the functions in any order and
with any ids; every node that is locked, and every node that a thread is about to lock or
has just unlocked on its way to a successful return, belongs to an id that is marked. So
no node is locked when all ids have been released, and `trnmnt_tree_dealloc` can free the
entries of all nodes. It never frees the entry of `tree->lock`. -/

namespace Xv6.TrnmntTree

open Heap Runs Totals
open Function (update update_apply update_of_ne update_self)

variable {d : ℕ} {τ : Type*} {t u : τ}

/-! ## Nodes and marks -/

/-- The nodes that an acquire of `ID` has locked after `k` rounds. -/
def wayTo (T : FullTree d) (ID : Int) (k : ℕ) : List Int :=
  (path (T.realIndexInTree ID).toNat k).map fun p : ℕ => (p : Int)

theorem wayTo_eq (T : FullTree d) (n : Fin (2 ^ d)) (k : ℕ) : wayTo T (n : ℕ) k = route n k := by
  rw [wayTo, realIndexInTree_eq]
  rfl

/-- The thread has still to lock the node `i` for an id that it has marked, or it has unlocked
it for an id that is still marked. -/
def Pc.Owes (T : FullTree d) (i : Int) : Pc → Prop
  | .acquireUnlock ID => i ∈ wayTo T ID d
  | .climb ID k _ => i ∈ wayTo T ID d ∧ i ∉ wayTo T ID k
  | .releaseUp ID frames sum => sum = 0 ∧ i ∈ wayUp T ID ∧ i ∉ frames
  | .clearLock ID | .clear ID => i ∈ wayUp T ID
  | _ => False

instance (T : FullTree d) (i : Int) (p : Pc) : Decidable (p.Owes T i) := by
  cases p <;> unfold Pc.Owes <;> infer_instance

def Pc.owed (T : FullTree d) (i : Int) (p : Pc) : Int := if p.Owes T i then 1 else 0

/-- 1 for a locked node. -/
def State.lockedNode (s : State τ) (T : FullTree d) (i : Int) : Int :=
  match s.mutex (T.nodes i) with
  | .locked _ => 1
  | _ => 0

/-- How many of the ids that are marked have the node `i` on their way. -/
def State.marks (s : State τ) (d : ℕ) (i : Int) : Int :=
  ((Finset.univ.filter fun n : Fin (2 ^ d) =>
    s.takenIds (n : ℕ) ≠ 0 ∧ i ∈ route n (rounds d)).card : Int)

/-- The locked nodes and those that threads owe are covered by marks. -/
def Balanced (T : FullTree d) (s : State τ) : Prop :=
  ∀ i, T.HasNode i → Bounded (Pc.owed T i) s.pc (s.marks d i - s.lockedNode T i)

variable {T : FullTree d} {s s' : State τ} {p q : Pc} {ID i : Int} {n : Fin (2 ^ d)}
  {last : Option (Call × Int)} {l : Label τ}

theorem Pc.owed_nonneg (T : FullTree d) (i : Int) (p : Pc) : 0 ≤ p.owed T i := by
  unfold Pc.owed
  split <;> omega

theorem Pc.owed_le_one (T : FullTree d) (i : Int) (p : Pc) : p.owed T i ≤ 1 := by
  unfold Pc.owed
  split <;> omega

theorem Pc.owed_eq_zero (h : ¬ p.Owes T i) : p.owed T i = 0 := if_neg h

theorem Pc.owed_mono {p' : Pc} (h : p'.Owes T i → p.Owes T i) : p'.owed T i ≤ p.owed T i := by
  unfold Pc.owed
  split
  · rename_i hp
    rw [if_pos (h hp)]
  · split <;> omega

theorem lockedNode_congr (h : s'.mutex (T.nodes i) = s.mutex (T.nodes i)) :
    s'.lockedNode T i = s.lockedNode T i := by
  rw [State.lockedNode, h, State.lockedNode]

theorem lockedNode_of_locked (h : s.mutex (T.nodes i) = .locked t) : s.lockedNode T i = 1 := by
  rw [State.lockedNode, h]

theorem lockedNode_of_unlocked (h : s.mutex (T.nodes i) = .unlocked) : s.lockedNode T i = 0 := by
  rw [State.lockedNode, h]

theorem marks_congr (h : s'.takenIds = s.takenIds) : s'.marks d i = s.marks d i := by
  rw [State.marks, h, State.marks]

theorem marked_update (x : Int) (htaken : s'.takenIds = update s.takenIds (n : ℕ) x) :
    (fun m : Fin (2 ^ d) => s'.marked m) = update (fun m => s.marked m) n (decide (x ≠ 0)) := by
  funext m
  have hcast : ((m : ℕ) : Int) = (n : ℕ) ↔ m = n := by
    rw [Int.ofNat_inj, Fin.val_inj]
  simp only [State.marked, htaken, update_apply, hcast]
  split <;> rfl

theorem marks_eq (s : State τ) (i : Int) : s.marks d i =
    total (fun p : Fin (2 ^ d) × Bool => if p.2 ∧ i ∈ route p.1 (rounds d) then 1 else 0)
      fun m => (m, s.marked m) := by
  simp [State.marks, total, State.marked]

theorem marks_update (x : Int) (htaken : s'.takenIds = update s.takenIds (n : ℕ) x) (i : Int) :
    s'.marks d i = s.marks d i - (if s.marked n ∧ i ∈ route n (rounds d) then 1 else 0) +
      if x ≠ 0 ∧ i ∈ route n (rounds d) then 1 else 0 := by
  have hpairs : (fun m : Fin (2 ^ d) => (m, s'.marked m)) =
      update (fun m => (m, s.marked m)) n (n, decide (x ≠ 0)) := by
    funext m
    rw [congrFun (marked_update x htaken) m]
    rcases eq_or_ne m n with rfl | hm <;> simp [*]
  rw [marks_eq, marks_eq, hpairs, total_update]
  simp

section Moves

variable [DecidableEq τ]

section

variable (h : Balanced T s)

include h

/-- **One thread moves.** -/
theorem Balanced.moved (hpc : s'.pc = update s.pc t p)
    (hle : ∀ i, T.HasNode i → s'.lockedNode T i + p.owed T i + s.marks d i ≤
      s.lockedNode T i + (s.pc t).owed T i + s'.marks d i) : Balanced T s' := by
  intro i hi
  rw [hpc]
  refine ((h i hi).set t p).mono ?_
  have := hle i hi
  omega

theorem Balanced.movedOn (hpc : s'.pc = update s.pc t p)
    (htaken : s'.takenIds = s.takenIds) (hle : ∀ i, T.HasNode i → s'.lockedNode T i + p.owed T i ≤
      s.lockedNode T i + (s.pc t).owed T i) : Balanced T s' := by
  refine h.moved hpc fun i hi => ?_
  rw [marks_congr htaken]
  have := hle i hi
  omega

/-- A move after which the nodes are the same as well. -/
theorem Balanced.quiet (hq : s.pc t = q) (hpc : s'.pc = update s.pc t p) (hu : Untouched T s s')
    (howes : ∀ i, p.Owes T i → q.Owes T i) : Balanced T s' := by
  refine h.movedOn hpc hu.takenIds fun i hi => ?_
  rw [lockedNode_congr (hu.mutex _ (T.nodes_ne_lock i hi)), hq]
  have := Pc.owed_mono (howes i)
  omega

/-- A thread locks a node, and owes those that it owed, but for this one. -/
theorem Balanced.lockNode {k : Int} {on : Int → Pc}
    (hq : s.pc t = q) (hk : T.HasNode k) (hr : (Deed.lock (T.nodes k) on).run s t = some s')
    (hbefore : q.Owes T k) (hself : ¬ (on 0).Owes T k) (hothers : ∀ i, (on 0).Owes T i → q.Owes T i)
    (hfails : ∀ r i, r ≠ 0 → ¬ (on r).Owes T i) : Balanced T s' := by
  subst hq
  obtain ⟨r, mutex, hlock, rfl⟩ := lock_some hr
  refine h.movedOn (p := on r) rfl rfl fun i hi => ?_
  have howed := Pc.owed_nonneg T i (s.pc t)
  by_cases hr0 : r = 0
  · subst hr0
    obtain ⟨hfree, rfl⟩ := Locks.lock_zero hlock
    rcases eq_or_ne i k with rfl | hik
    · rw [lockedNode_of_locked (t := t) (update_self ..), lockedNode_of_unlocked hfree,
        Pc.owed_eq_zero hself, Pc.owed, if_pos hbefore]
      omega
    · have hne : T.nodes i ≠ T.nodes k := fun e => hik (T.nodes_inj i k hi hk e)
      rw [lockedNode_congr (s := s) (update_of_ne hne _ _)]
      have := Pc.owed_mono (hothers i)
      omega
  · obtain rfl := Locks.lock_fails hlock hr0
    rw [Pc.owed_eq_zero (hfails r i hr0), Int.add_zero]
    exact le_trans (lockedNode_congr rfl).le (Int.le_add_of_nonneg_right howed)

/-- A thread unlocks a node. If it owes anything then, it has unlocked this one. -/
theorem Balanced.unlockNode {k : Int} {on : Int → Pc}
    (hq : s.pc t = q) (hk : T.HasNode k) (hr : (Deed.unlock (T.nodes k) on).run s t = some s')
    (hothers : ∀ i, i ≠ k → (on 0).Owes T i → q.Owes T i)
    (hfails : ∀ i, ¬ (on (-1)).Owes T i) : Balanced T s' := by
  subst hq
  cases hr
  refine h.movedOn (p := on (Locks.unlock s.mutex t (T.nodes k)).1) rfl rfl fun i hi => ?_
  have howed := Pc.owed_nonneg T i (s.pc t)
  by_cases hmine : s.mutex (T.nodes k) = .locked t
  · have hunlock := Locks.unlock_eq hmine
    have hres : (Locks.unlock s.mutex t (T.nodes k)).1 = 0 := by rw [hunlock]
    rw [hres]
    rcases eq_or_ne i k with rfl | hik
    · have hfree : (s.unlock t (T.nodes i) on).mutex (T.nodes i) = .unlocked := by
        simp [State.unlock, hunlock]
      rw [lockedNode_of_unlocked hfree, lockedNode_of_locked hmine]
      have := Pc.owed_le_one T i (on 0)
      omega
    · have hne : T.nodes i ≠ T.nodes k := fun e => hik (T.nodes_inj i k hi hk e)
      rw [lockedNode_congr (s := s) (Locks.unlock_of_ne hne)]
      have := Pc.owed_mono (hothers i hik)
      omega
  · have hunlock := Locks.unlock_fails hmine
    have hres : (Locks.unlock s.mutex t (T.nodes k)).1 = -1 := by rw [hunlock]
    rw [hres, Pc.owed_eq_zero (hfails i),
      lockedNode_congr (s := s) (by simp [State.unlock, hunlock])]
    omega

/-! ## One step -/

theorem Balanced.lockTree {q' : Pc} (hq : s.pc t = q)
    (hr : (Deed.lock T.lock fun _ => q').run s t = some s')
    (howes : ∀ i, q'.Owes T i → q.Owes T i) : Balanced T s' := by
  have hu := untouched_lock hr
  obtain ⟨_, _, _, rfl⟩ := lock_some hr
  exact h.quiet hq rfl hu howes

theorem Balanced.unlockTree {q' : Pc} (hq : s.pc t = q)
    (hr : (Deed.unlock T.lock fun _ => q').run s t = some s')
    (howes : ∀ i, q'.Owes T i → q.Owes T i) : Balanced T s' := by
  cases hr
  exact h.quiet hq rfl (untouched_unlock ..) howes

theorem Balanced.goto (hq : s.pc t = q)
    (hr : (Deed.goto p).run s t = some s') (howes : ∀ i, p.Owes T i → q.Owes T i) :
    Balanced T s' := by
  cases hr
  exact h.quiet hq rfl (untouched_goto ..) howes

/-- A free id is marked, and its nodes are owed. -/
theorem Balanced.take (hpc : s.pc t = .acquireTake (n : ℕ))
    (hfree : s.takenIds (n : ℕ) = 0) (hpc' : s'.pc = update s.pc t (.acquireUnlock (n : ℕ)))
    (hmutex : s'.mutex = s.mutex)
    (htaken : s'.takenIds = update s.takenIds (n : ℕ) 1) : Balanced T s' := by
  refine h.moved hpc' fun i _ => ?_
  have hnode : s'.lockedNode T i = s.lockedNode T i := lockedNode_congr (by rw [hmutex])
  rw [hnode, marks_update 1 htaken, hpc]
  have howed := Pc.owed_nonneg T i (.acquireTake (n : ℕ))
  simp only [State.marked, hfree, ne_eq, not_true_eq_false, decide_false, Bool.false_eq_true,
    false_and, if_false, one_ne_zero, not_false_eq_true, true_and]
  by_cases hi : i ∈ route n (rounds d)
  · rw [if_pos hi]
    have := Pc.owed_le_one T i (.acquireUnlock (n : ℕ))
    omega
  · -- the acquire stops below the last node that a release would visit, or there
    have hnot : ¬ (Pc.acquireUnlock (n : ℕ)).Owes T i := by
      simp only [Pc.Owes, wayTo_eq, mem_route] at hi ⊢
      rintro ⟨k, h0, hk, rfl⟩
      exact hi ⟨k, h0, hk.trans (le_max_left d 1), rfl⟩
    rw [if_neg hi, Pc.owed_eq_zero hnot]
    omega

/-- The mark is taken away when all nodes have been unlocked for it. -/
theorem Balanced.clear (hpc : s.pc t = .clear (n : ℕ))
    (hpc' : s'.pc = update s.pc t (.clearUnlock (n : ℕ))) (hmutex : s'.mutex = s.mutex)
    (htaken : s'.takenIds = update s.takenIds (n : ℕ) 0) : Balanced T s' := by
  refine h.moved hpc' fun i _ => ?_
  have hnode : s'.lockedNode T i = s.lockedNode T i := lockedNode_congr (by rw [hmutex])
  rw [hnode, Pc.owed_eq_zero id, hpc, marks_update 0 htaken]
  have howed : (Pc.clear (n : ℕ)).owed T i = if i ∈ route n (rounds d) then 1 else 0 := by
    simp only [Pc.owed, Pc.Owes, wayUp_eq]
  simp only [howed, ne_eq, not_true_eq_false, false_and, if_false]
  by_cases hi : i ∈ route n (rounds d)
  · simp only [hi, and_true, if_true]
    split <;> omega
  · simp only [hi, and_false, if_false]
    omega

end

/-! ## Runs -/

/-- Threads that have found their id free have the tree locked, and the nodes are covered by
marks. -/
structure Counted (T : FullTree d) (s : State τ) : Prop where
  base : Base T s
  admitted : ∀ t ID, s.pc t = .acquireTake ID → s.takenIds ID = 0
  balanced : Balanced T s

theorem Counted.admitted_step (h : Counted T s) (hs : T.stepThread s t = some s') (u : τ) (ID : Int)
    (hpc : s'.pc u = .acquireTake ID) : s'.takenIds ID = 0 := by
  obtain ⟨a, p, hdoes, hr, hto, _, hgoes⟩ := h.base.does hs
  have htaken := a.takenIds hr
  rcases eq_or_ne u t with rfl | hu
  · -- only the test leads there
    rw [hgoes.self] at hpc
    subst hpc
    generalize s.pc u = q at hdoes
    cases hdoes with
    | pass _ hfree =>
      cases hto
      rw [htaken]
      exact hfree
    | acquireLock | releaseLock | clearLock => obtain ⟨_, _, _, e⟩ := hto; cases e
    | climb =>
      obtain ⟨r, _, _, e⟩ := hto
      dsimp only at e
      split at e <;> cases e
    | _ => cases hto
  · rw [hgoes.pc u hu] at hpc
    have hfree := h.admitted u ID hpc
    have hout : ¬ (s.pc t).inLock := fun hin =>
      hu (h.base.inLock_unique hin (by rw [hpc]; rfl))
    rw [htaken]
    generalize s.pc t = q at hdoes hout
    cases hdoes with
    | take | clear => exact absurd rfl hout
    | _ => exact hfree

theorem Counted.stepThread (h : Counted T s) (hs : T.stepThread s t = some s') : Counted T s' := by
  refine ⟨(h.base.stepThread hs).1, h.admitted_step hs, ?_⟩
  have hb := h.balanced
  have hvars := h.base.vars t
  obtain ⟨a, hdoes, hr⟩ := stepThread_does hs
  generalize hpc : s.pc t = p at hdoes hvars
  cases hdoes with
  | acquireLock | releaseLock => exact hb.lockTree hpc hr fun _ hno => hno.elim
  | clearLock => exact hb.lockTree hpc hr fun _ hi => hi
  | acquireFault | refuse | pass | acquired | climbFault | releaseFault | idle | found | down
  | rootFault | upFault | failed => exact hb.goto hpc hr fun _ hno => hno.elim
  | take =>
    obtain ⟨n, rfl⟩ := hvars
    cases hr
    exact hb.take hpc (h.admitted t _ hpc) rfl rfl rfl
  | clear =>
    obtain ⟨n, rfl⟩ := hvars
    cases hr
    exact hb.clear hpc rfl rfl rfl
  | start => exact hb.unlockTree hpc hr fun _ hi => hi.1
  | refused | idled | enter | released => exact hb.unlockTree hpc hr fun _ hno => hno.elim
  | climb hi hn =>
    obtain ⟨n, rfl, _, rfl⟩ := hvars
    rw [T.depth_eq, Int.ofNat_lt] at hi
    rw [parent_anc] at hr hn
    refine hb.lockNode hpc hn hr ?_ ?_ (fun j => ?_) fun r j hr => ?_
    · simp only [Pc.Owes, wayTo_eq]
      exact ⟨mem_route.2 ⟨_, by omega, hi, rfl⟩, anc_notMem_route n hi⟩
    · simp only [ne_eq, not_true_eq_false, if_false, Pc.Owes, wayTo_eq, route_succ]
      simp
    · simp only [ne_eq, not_true_eq_false, if_false, Pc.Owes, wayTo_eq, route_succ]
      rintro ⟨hmem, hnot⟩
      exact ⟨hmem, fun hj => hnot (List.mem_cons_of_mem _ hj)⟩
    · rw [if_pos hr]
      exact id
  | root hn =>
    obtain ⟨n, rfl, j, hj, hzero, rfl⟩ := hvars
    refine hb.unlockNode hpc hn hr (fun i hi howes => ?_) fun i howes => ?_
    · -- all nodes but the root are in the frames
      obtain ⟨_, hmem, hnot⟩ := howes
      rw [wayUp_eq, ← (anc_eq_zero_iff n hj).1 hzero.symm, route_succ, ← hzero,
        List.mem_cons] at hmem
      exact (hmem.elim hi hnot).elim
    · exact absurd howes.1 (by decide)
  | up hn =>
    obtain ⟨n, rfl, hsum, _⟩ := hvars
    refine hb.unlockNode hpc hn hr (fun i hi howes => ?_) fun i howes => ?_
    · obtain ⟨hsum0, hmem, hnot⟩ := howes
      refine ⟨by omega, hmem, ?_⟩
      rw [List.mem_cons, not_or]
      exact ⟨hi, hnot⟩
    · have := howes.1
      omega
  | freed => exact hb.goto hpc hr fun i hi => ⟨rfl, hi, List.not_mem_nil⟩

/-- A thread in its own code goes to the start of a call, or past it. -/
theorem Counted.goto (h : Counted T s) (hpc : s.pc t = .user last)
    (hin : p.inLock = false) (hvars : Vars d p) (howes : ∀ i, ¬ p.Owes T i) :
    Counted T (s.goto t p) := by
  have hwent : Went T t p s (s.goto t p) := h.base.goto (by rw [hin, hpc]; rfl) hvars
  refine ⟨hwent.1, fun u ID hu => ?_, h.balanced.goto hpc rfl fun i hi => (howes i hi).elim⟩
  rcases eq_or_ne u t with rfl | hne
  · rw [hwent.2.self] at hu
    rw [hu] at hin
    cases hin
  · rw [hwent.2.pc u hne] at hu
    exact h.admitted u ID hu

theorem Counted.step (h : Counted T s) (hs : T.step s l = some s')
    (hg : Indexed s l s') : Counted T s' := by
  cases l with
  | call t c =>
    obtain ⟨_, hpc, rfl⟩ := step_call hs
    rcases enter_cases T s t c hg with ⟨_, e⟩ | ⟨n, hn, e⟩
    · rw [e]
      exact h.goto hpc rfl trivial fun _ => id
    · rw [e]
      cases c with
      | acquire | release => exact h.goto hpc rfl ⟨n, hn⟩ fun _ => id
  | callNull t c =>
    obtain ⟨_, hpc, rfl⟩ := step_callNull hs
    exact h.goto hpc rfl trivial fun _ => id
  | step t => exact h.stepThread hs

end Moves

/-- Nobody has used the tree yet. -/
theorem counted_of_unlocked (hlock : s.mutex T.lock = .unlocked)
    (hnodes : ∀ i, T.HasNode i → ∀ t, s.mutex (T.nodes i) ≠ .locked t)
    (hpc : ∀ t, s.pc t = .user none) : Counted T s := by
  refine ⟨base_of_unlocked hlock hpc, fun t ID hp => ?_, fun i hi => ?_⟩
  · rw [hpc t] at hp
    cases hp
  · refine (bounded_zero fun t => ?_).mono ?_
    · rw [hpc t]
      exact Pc.owed_eq_zero id
    · have hzero : s.lockedNode T i = 0 := by
        unfold State.lockedNode
        split
        · rename_i t ht
          exact absurd ht (hnodes i hi t)
        · rfl
      rw [hzero]
      exact Int.sub_nonneg_of_le (Int.natCast_nonneg _)

/-- **All ids released, no node locked.** -/
theorem Counted.unlocked (h : Counted T s) (htaken : ∀ ID, T.HasId ID → s.takenIds ID = 0)
    (hi : T.HasNode i) (t : τ) : s.mutex (T.nodes i) ≠ .locked t := by
  intro hlocked
  have hbound := (h.balanced i hi).nonneg (Pc.owed_nonneg T i)
  have hnone : s.marks d i = 0 := by
    simp [State.marks, htaken _ (hasId T _)]
  rw [hnone, lockedNode_of_locked hlocked] at hbound
  omega

/-! ## Trees that lack mutexes -/

section Partial

variable {T : TrnmntTree}

/-- The tree with ids of their own for the nodes whose mutex could not be allocated. They are
negative, so there are no such mutexes either. -/
def distinct (T : TrnmntTree) : TrnmntTree :=
  { T with nodes := fun i => if T.nodes i = -1 then -2 - i else T.nodes i }

def NoNegative (s : State τ) : Prop := ∀ m, m < 0 → s.mutex m = .absent

/-- A node of `distinct T` is the node of `T`, or both have no mutex. -/
theorem distinct_nodes (h : NoNegative s) (hi : 0 ≤ i) : T.distinct.nodes i = T.nodes i ∨
      s.mutex (T.distinct.nodes i) = .absent ∧ s.mutex (T.nodes i) = .absent := by
  by_cases hn : T.nodes i = -1
  · refine .inr ⟨h _ ?_, h _ (by omega)⟩
    simp only [distinct, if_pos hn]
    omega
  · exact .inl (if_neg hn)

variable [DecidableEq τ]

/-- A thread does the same on a node of either. -/
theorem deed_distinct (h : NoNegative s) (hi : 0 ≤ i) (t : τ) (on : Int → Pc) :
    (Deed.lock (T.distinct.nodes i) on).run s t = (Deed.lock (T.nodes i) on).run s t ∧
      (Deed.unlock (T.distinct.nodes i) on).run s t = (Deed.unlock (T.nodes i) on).run s t := by
  rcases distinct_nodes (T := T) h hi with e | ⟨h1, h2⟩
  · rw [e]
    exact ⟨rfl, rfl⟩
  · simp only [Deed.run, State.lock, State.unlock, Locks.lock_of_absent t h1,
      Locks.lock_of_absent t h2, Locks.unlock_of_absent t h1, Locks.unlock_of_absent t h2, and_self]

theorem stepThread_distinct (h : NoNegative s) (hs : T.stepThread s t = some s') :
    T.distinct.stepThread s t = some s' := by
  obtain ⟨a, hdoes, hr⟩ := stepThread_does hs
  suffices ∃ a', Does T.distinct s.takenIds (s.pc t) a' ∧ a'.run s t = a.run s t by
    obtain ⟨a', hdoes', e⟩ := this
    rw [does_stepThread hdoes', e, hr]
  generalize s.pc t = p at hdoes
  cases hdoes with
  | climb hi hn => exact ⟨_, .climb hi hn, (deed_distinct h hn.1 ..).1⟩
  | root hn => exact ⟨_, .root hn, (deed_distinct h hn.1 ..).2⟩
  | up hn => exact ⟨_, .up hn, (deed_distinct h hn.1 ..).2⟩
  | _ => exact ⟨_, by constructor <;> assumption, rfl⟩

theorem step_distinct (h : NoNegative s) (hs : T.step s l = some s') :
    T.distinct.step s l = some s' := by
  cases l with
  | call | callNull => exact hs
  | step t => exact stepThread_distinct h hs

/-- Calls and steps make no mutex, and take none away. -/
theorem step_absent {m : Int} (hs : T.step s l = some s') :
    s'.mutex m = .absent ↔ s.mutex m = .absent := by
  cases l with
  | call t c =>
    obtain ⟨_, _, rfl⟩ := step_call hs
    rw [enter]
    split <;> rfl
  | callNull t c =>
    obtain ⟨_, _, rfl⟩ := step_callNull hs
    rfl
  | step t => exact stepThread_absent hs

variable {G : Guard (State τ) (Label τ)}

theorem absent_of_run {m : Int} (hr : Run T.step G s s')
    (h : s.mutex m = .absent) : s'.mutex m = .absent :=
  hr.invariant (I := fun s => s.mutex m = .absent) h fun _ _ _ h hs _ => (step_absent hs).2 h

theorem run_distinct (hr : Run T.step G s s') (h : NoNegative s) : Run T.distinct.step G s s' := by
  induction hr with
  | refl => exact .refl
  | next hr hs hg ih =>
    exact .next ih (step_distinct (fun m hm => absent_of_run hr (h m hm)) hs) hg

/-- All threads are in their own code, and stay there when no call starts. -/
theorem step_of_user (huser : ∀ u, ∃ last, s.pc u = .user last) (hs : T.step s l = some s')
    (hcall : ∀ t c, l = .call t c → T.threads ≤ c.ID) :
    s'.mutex = s.mutex ∧ ∀ u, ∃ last, s'.pc u = .user last := by
  have hret (t : τ) (c : Call) : (s.ret t c (-1)).mutex = s.mutex ∧
      ∀ u, ∃ last, (s.ret t c (-1)).pc u = .user last := by
    refine ⟨rfl, fun u => ?_⟩
    rcases eq_or_ne u t with rfl | hu
    · exact ⟨_, update_self ..⟩
    · obtain ⟨last, hlast⟩ := huser u
      exact ⟨last, (update_of_ne hu _ _).trans hlast⟩
  cases l with
  | call t c =>
    obtain ⟨_, _, rfl⟩ := step_call hs
    rw [enter, if_pos (Int.sub_one_lt_of_le (hcall t c rfl))]
    exact hret t c
  | callNull t c =>
    obtain ⟨_, _, rfl⟩ := step_callNull hs
    exact hret t c
  | step t =>
    obtain ⟨_, hpc⟩ := huser t
    simp [TrnmntTree.step, TrnmntTree.stepThread, hpc] at hs

/-- Without leaves every call fails at once. -/
theorem mutex_of_run (hthreads : T.threads ≤ 0) (h : ∀ t, ∃ last, s.pc t = .user last)
    (hr : Run T.step Indexed s s') : s'.mutex = s.mutex := by
  suffices s'.mutex = s.mutex ∧ ∀ t, ∃ last, s'.pc t = .user last from this.1
  refine hr.invariant (I := fun a => a.mutex = s.mutex ∧ ∀ t, ∃ last, a.pc t = .user last)
    ⟨rfl, h⟩ ?_
  rintro a l b ⟨hmutex, huser⟩ hs hg
  obtain ⟨hsame, huser'⟩ := step_of_user huser hs fun t c e => by
    subst e
    exact hthreads.trans hg
  exact ⟨hsame.trans hmutex, huser'⟩

end Partial

/-! ## After the calls -/

section Made

variable {T : TrnmntTree} {mem : Memory} {tb : MutexTable τ} {D : Int} {w : World τ}

theorem doubled_add (j k : ℕ) (x : Int) : doubled (j + k) x = doubled k (doubled j x) := by
  induction j generalizing x with
  | zero => rw [Nat.zero_add]; rfl
  | succ j ih =>
    rw [show j + 1 + k = j + k + 1 by omega, doubled, doubled]
    exact ih _

theorem doubled_zero (k : ℕ) : doubled k 0 = 0 := by
  induction k with
  | zero => rfl
  | succ k ih => exact ih

/-- A negative depth gives no leaves, and neither does one for which the number of nodes
overflows. -/
theorem leavesOf_nonpos (h : D < 0 ∨ 30 ≤ D) : leavesOf D ≤ 0 := by
  have hcases : (D + 1).toNat = 0 ∨ (D + 1).toNat = 31 ∨ ∃ j, (D + 1).toNat = 32 + j := by
    rcases h with h | h
    · left
      omega
    · right
      by_cases h30 : D = 30
      · left
        omega
      · exact .inr ⟨(D + 1).toNat - 32, by omega⟩
  rcases hcases with e | e | ⟨j, e⟩
  · rw [leavesOf, e]
    decide
  · rw [leavesOf, e]
    decide +kernel
  · have hover : doubled 32 1 = 0 := by decide +kernel
    rw [leavesOf, e, doubled_add, hover, doubled_zero]
    decide

theorem Made.noNegative (h : Made mem tb D T w) : NoNegative w.state :=
  fun _ hm => h.grown.valid.absent_of_neg hm

theorem Made.distinct_nodes (h : Made mem tb D T w) (hv : tb.Valid) (hi : T.HasNode i) :
    T.distinct.nodes i = if i + 1 < tb.free then tb.nextmid + 1 + i else -2 - i := by
  have hpos := hv.nextmid_pos
  have hni := h.nodes i hi
  have hi := hi.1
  simp only [distinct]
  split at hni
  · rw [if_neg (by omega), if_pos (by assumption), hni]
  · rw [if_pos hni, if_neg (by assumption)]

/-- The tree, where it has leaves and at least its lock has been allocated. -/
def Made.full {d : ℕ} (h : Made mem tb d T w) (hd : d < 30) (hfree : 0 < tb.free)
    (hv : tb.Valid) : FullTree d where
  toTrnmntTree := T.distinct
  depth_eq := h.depth
  threads_eq := h.threads.trans (leavesOf_eq hd)
  totalNodes_eq := h.totalNodes.trans (nodesOf_eq hd)
  nodes_inj i j hi hj e := by
    have hpos := hv.nextmid_pos
    rw [h.distinct_nodes hv hi, h.distinct_nodes hv hj] at e
    have hi := hi.1
    have hj := hj.1
    split at e <;> split at e <;> omega
  nodes_ne_lock i hi e := by
    have hpos := hv.nextmid_pos
    have hlock : T.distinct.lock = tb.nextmid := h.lock.trans (if_pos hfree)
    rw [h.distinct_nodes hv hi, hlock] at e
    have hi := hi.1
    split at e <;> omega

theorem Made.counted {d : ℕ} (h : Made mem tb d T w) (hd : d < 30) (hfree : 0 < tb.free)
    (hv : tb.Valid) : Counted (h.full hd hfree hv) w.state := by
  refine counted_of_unlocked ?_ (fun i hi t => ?_) h.pc
  · show w.state.mutex T.lock = .unlocked
    rw [h.lock, if_pos hfree]
    exact h.unlocked_of_pos le_rfl (by omega)
  · show w.state.mutex (T.distinct.nodes i) ≠ _
    rw [h.distinct_nodes hv hi]
    have h0 : 0 ≤ i := hi.1
    have h1 : i < T.totalNodes := hi.2
    split
    · rw [h.unlocked_of_pos (by omega) (by omega)]
      simp
    · rw [h.noNegative _ (by omega)]
      simp

theorem Made.node_entry (h : Made mem tb D T w) (hv : tb.Valid) (hi : T.HasNode i) {m : MutexIx}
    (e : w.mid m = T.nodes i) : tb.mid m = 0 ∧ w.mid m ≠ T.lock := by
  have hpos := hv.nextmid_pos
  have hni := h.nodes i hi
  have hlock := h.lock
  have hge : 0 ≤ w.mid m := h.grown.valid.mid_nonneg m
  have h0 := hi.1
  constructor
  · by_contra hne
    have hold : w.mid m = tb.mid m := h.grown.old m hne
    have hlt := hv.mid_lt m
    split at hni <;> omega
  · split at hni <;> split at hlock <;> omega

theorem Made.new_entry (h : Made mem tb D T w) {m : MutexIx} (hm : tb.mid m = 0)
    (hne : w.mid m ≠ 0) :
    0 < tb.free ∧ w.mid m = T.lock ∨ ∃ j < T.totalNodes.toNat, w.mid m = T.nodes (j : ℕ) := by
  have hge : tb.nextmid ≤ w.mid m := h.grown.new m hm hne
  have hlt : w.mid m < w.nextmid := h.grown.valid.mid_lt m
  have hnext : w.nextmid = tb.nextmid + (min (1 + T.totalNodes.toNat) tb.free : ℕ) :=
    h.grown.nextmid
  by_cases hlock : w.mid m = tb.nextmid
  · refine .inl ⟨by omega, ?_⟩
    rw [h.lock, if_pos (by omega), hlock]
  · refine .inr ⟨(w.mid m - tb.nextmid - 1).toNat, by omega, ?_⟩
    rw [h.nodes _ ⟨Int.natCast_nonneg _, by omega⟩, if_pos (by omega)]
    omega

theorem Made.lock_entry (h : Made mem tb D T w) (hv : tb.Valid) (hf : 0 < tb.free) :
    ∃ m, w.mid m = T.lock ∧ T.lock ≠ 0 ∧ tb.mid m = 0 := by
  have hpos := hv.nextmid_pos
  have hlock : T.lock = tb.nextmid := h.lock.trans (if_pos hf)
  obtain ⟨m, hm⟩ := h.grown.found tb.nextmid le_rfl (by omega)
  refine ⟨m, hm.trans hlock.symm, by omega, ?_⟩
  by_contra hne
  have hold : w.table.mid m = tb.mid m := h.grown.old m hne
  have hlt := hv.mid_lt m
  omega

/-- **When all ids have been released, no node is locked.** The threads have called the
functions in any order and with any ids that are not negative. -/
theorem Made.released [DecidableEq τ] (h : Made mem tb D T w) (hv : tb.Valid)
    (hr : Run T.step Indexed w.state s) (htaken : ∀ ID, T.HasId ID → s.takenIds ID = 0)
    (hi : T.HasNode i) (t : τ) :
    s.mutex (T.nodes i) ≠ .locked t := by
  have hni := h.nodes i hi
  have hpos := hv.nextmid_pos
  split at hni
  · rename_i hfree
    by_cases hD : D < 0 ∨ 30 ≤ D
    · rw [mutex_of_run (h.threads.trans_le (leavesOf_nonpos hD)) (fun t => ⟨_, h.pc t⟩) hr]
      obtain ⟨h0, h1⟩ := hi
      rw [h.unlocked_of_pos (by omega) (by omega)]
      simp
    · obtain ⟨d, rfl⟩ := Int.eq_ofNat_of_zero_le (show 0 ≤ D by omega)
      have h0 := hi.1
      have hcounted := h.counted (by omega) (by omega) hv
      have hend := (run_distinct hr h.noNegative).invariant hcounted
        fun _ _ _ hc hs hg => hc.step hs hg
      have hunlocked := hend.unlocked htaken hi t
      have hsame : T.distinct.nodes i = T.nodes i := if_neg (by omega)
      rwa [← hsame]
  · have habsent : w.state.mutex (T.nodes i) = .absent := h.noNegative _ (by omega)
    rw [absent_of_run hr habsent]
    simp

end Made

/-! ## `trnmnt_tree_dealloc` -/

section Dealloc

variable {T : TrnmntTree} {w0 w w' : World τ} {k : ℕ}

/-- The entries of the first `k` nodes have been freed, and no other one. -/
structure Freed (T : TrnmntTree) (w0 w : World τ) (k : ℕ) : Prop where
  mid : ∀ m, w.mid m = if ∃ j < k, w0.mid m = T.nodes (j : ℕ) then 0 else w0.mid m
  unlocked : ∀ i, T.HasNode i → ∀ t, w.state.mutex (T.nodes i) ≠ .locked t

/-- What a thread in `trnmnt_tree_dealloc` has done. -/
def Dealt (T : TrnmntTree) (w0 w : World τ) : Deallocation → Prop
  | .idle => False
  | .lock | .test => Freed T w0 w 0
  | .busy => True
  | .node k => k ≤ T.totalNodes.toNat ∧ Freed T w0 w k
  | .free | .unlock => Freed T w0 w T.totalNodes.toNat
  | .returned r => r = 0 → Freed T w0 w T.totalNodes.toNat

theorem Freed.next (h : Freed T w0 w k) (hinj : ∀ m n, w0.mid m = w0.mid n → w0.mid m ≠ 0 → m = n)
    (hnode : T.HasNode (k : ℕ)) (h0 : T.nodes (k : ℕ) ≠ 0) :
    Freed T w0 (w.setTable (w.table.kthreadMutexDealloc (T.nodes (k : ℕ))).2) (k + 1) := by
  have hlt : ∀ m, (∃ j < k + 1, w0.mid m = T.nodes (j : ℕ)) ↔
      (∃ j < k, w0.mid m = T.nodes (j : ℕ)) ∨ w0.mid m = T.nodes (k : ℕ) := by
    intro m
    simp only [Nat.lt_succ_iff_lt_or_eq, or_and_right, exists_or, exists_eq_left]
  unfold MutexTable.kthreadMutexDealloc
  split
  · rename_i m hm
    have hmid : w.mid m = T.nodes (k : ℕ) := MutexTable.find_some hm
    -- the entry is still as it was
    have hmid0 : w0.mid m = T.nodes (k : ℕ) := by
      have hm := h.mid m
      split at hm
      · exact absurd (hmid.symm.trans hm) h0
      · exact hm.symm.trans hmid
    split
    · rename_i o ho
      exact absurd ho (h.unlocked _ hnode o)
    · refine ⟨fun n => ?_, fun i hi o => ?_⟩
      · show update w.mid m 0 n = _
        rcases eq_or_ne n m with rfl | hn
        · rw [update_self, if_pos ((hlt n).2 (.inr hmid0))]
        · rw [update_of_ne hn, h.mid n]
          refine if_congr ?_ rfl rfl
          rw [hlt n, or_iff_left]
          exact fun e => hn (hinj n m (e.trans hmid0.symm) (by rw [e]; exact h0))
      · show update w.state.mutex (T.nodes (k : ℕ)) .absent (T.nodes i) ≠ _
        by_cases hik : T.nodes i = T.nodes (k : ℕ)
        · rw [hik, update_self]
          simp
        · rw [update_of_ne hik]
          exact h.unlocked i hi o
  · rename_i hnone
    refine ⟨fun n => ?_, h.unlocked⟩
    show w.mid n = _
    have hno : w.mid n ≠ T.nodes (k : ℕ) := MutexTable.find_none hnone n
    have hn := h.mid n
    by_cases hk : w0.mid n = T.nodes (k : ℕ)
    · rw [if_pos ((hlt n).2 (.inr hk))]
      split at hn
      · exact hn
      · exact absurd (hn.trans hk) hno
    · rw [hn]
      exact if_congr (by rw [hlt n, or_iff_left hk]) rfl rfl

/-- `kthread_mutex_dealloc(id)` takes away the mutex `id`, if any. -/
theorem kthreadMutexDealloc_cells (tb : MutexTable τ) (id m : Int) :
    (tb.kthreadMutexDealloc id).2.cells m = tb.cells m ∨
      m = id ∧ (tb.kthreadMutexDealloc id).2.cells m = .absent := by
  unfold MutexTable.kthreadMutexDealloc
  split
  · split
    · exact .inl rfl
    · rcases eq_or_ne m id with rfl | hm
      · exact .inr ⟨rfl, update_self ..⟩
      · exact .inl (update_of_ne hm _ _)
  · exact .inl rfl

variable [DecidableEq τ]

theorem Freed.lock {r : Int} {mutex : Locks.Table Int τ} (h : Freed T w0 w k)
    (hlock : Locks.lock w.state.mutex t T.lock = some (r, mutex))
    (hne : ∀ i, T.HasNode i → T.nodes i = T.lock → w.state.mutex T.lock = .absent)
    (p : Deallocation) : Freed T w0 { w.goto t p with state := { w.state with mutex } } k := by
  refine ⟨h.mid, fun i hi o => ?_⟩
  show mutex (T.nodes i) ≠ _
  by_cases he : T.nodes i = T.lock
  · have habsent := hne i hi he
    rw [Locks.lock_of_absent t habsent] at hlock
    cases hlock
    rw [he, habsent]
    simp
  · rw [Locks.lock_of_ne hlock he]
    exact h.unlocked i hi o

theorem Freed.unlock (h : Freed T w0 w k) (p : Deallocation) : Freed T w0 (w.unlock T t p) k := by
  refine ⟨h.mid, fun i hi o => ?_⟩
  intro ho
  rcases eq_or_ne o t with rfl | hot
  · exact h.unlocked i hi o (Locks.unlock_self ho)
  · exact h.unlocked i hi o ((Locks.unlock_others hot).1 ho)

/-- It changes nothing else that acquire and release look at. -/
theorem deallocStep_keeps (hs : World.deallocStep T w t = some w') :
    w'.state.takenIds = w.state.takenIds ∧ w'.state.numOfLocked = w.state.numOfLocked ∧
      w'.state.pc = w.state.pc ∧ (∃ p, w'.dealloc = update w.dealloc t p) ∧
      ∀ m, w.state.mutex m = .absent → w'.state.mutex m = .absent := by
  unfold World.deallocStep at hs
  split at hs
  · cases hs
  · cases hs
  · obtain ⟨_, hlock, rfl⟩ := Option.map_eq_some_iff.1 hs
    exact ⟨rfl, rfl, rfl, ⟨_, rfl⟩, fun _ => (Locks.lock_absent hlock).2⟩
  · cases hs
    exact ⟨rfl, rfl, rfl, ⟨_, rfl⟩, fun _ => id⟩
  · cases hs
    exact ⟨rfl, rfl, rfl, ⟨_, rfl⟩, fun _ => Locks.unlock_absent.2⟩
  · split at hs <;> cases hs <;> refine ⟨rfl, rfl, rfl, ⟨_, rfl⟩, fun m h => ?_⟩
    · rcases kthreadMutexDealloc_cells w.table _ m with e | ⟨_, e⟩
      · exact e.trans h
      · exact e
    · exact h
  · cases hs
    exact ⟨rfl, rfl, rfl, ⟨_, rfl⟩, fun _ => id⟩
  · cases hs
    exact ⟨rfl, rfl, rfl, ⟨_, rfl⟩, fun _ => Locks.unlock_absent.2⟩

section

variable (hinj : ∀ m n, w0.mid m = w0.mid n → w0.mid m ≠ 0 → m = n)
  (hnodes : ∀ i, T.HasNode i → T.nodes i ≠ 0)
  (hne : ∀ i, T.HasNode i → T.nodes i = T.lock → w.state.mutex T.lock = .absent)

include hinj hnodes hne

theorem Dealt.step (h : Dealt T w0 w (w.dealloc t)) (hs : World.deallocStep T w t = some w') :
    Dealt T w0 w' (w'.dealloc t) := by
  have hself : ∀ (x : World τ) p, (x.goto t p).dealloc t = p := fun x p => update_self ..
  unfold World.deallocStep at hs
  cases hp : w.dealloc t with
  | idle | returned => simp [hp] at hs
  | lock =>
    simp only [hp, Option.map_eq_some_iff] at h hs
    obtain ⟨⟨r, mutex⟩, hlock, rfl⟩ := hs
    simp only [hself]
    exact h.lock hlock hne _
  | test =>
    simp only [hp] at h hs
    by_cases hnum : w.state.numOfLocked ≠ 0
    · rw [if_pos hnum] at hs
      cases hs
      rw [hself]
      trivial
    · rw [if_neg hnum] at hs
      cases hs
      rw [hself]
      exact ⟨Nat.zero_le _, h.mid, h.unlocked⟩
  | busy =>
    simp only [hp] at hs
    cases hs
    rw [show (w.unlock T t _).dealloc t = .returned (-1) from hself w _]
    exact fun e => absurd e (by decide)
  | node k =>
    simp only [hp] at h hs
    obtain ⟨hk, hfreed⟩ := h
    split at hs
    · rename_i hlt
      cases hs
      have hnode : T.HasNode (k : ℕ) := ⟨Int.natCast_nonneg k, hlt⟩
      have hnext := hfreed.next hinj hnode (hnodes _ hnode)
      rw [hself]
      exact ⟨by omega, hnext.mid, hnext.unlocked⟩
    · rename_i hge
      cases hs
      rw [hself]
      rw [show k = T.totalNodes.toNat by omega] at hfreed
      exact ⟨hfreed.mid, hfreed.unlocked⟩
  | free =>
    simp only [hp] at h hs
    cases hs
    simp only [hself]
    exact ⟨h.mid, h.unlocked⟩
  | unlock =>
    simp only [hp] at h hs
    cases hs
    rw [show (w.unlock T t _).dealloc t = .returned 0 from hself w _]
    exact fun _ => h.unlock _

theorem Dealt.finish (h : Dealt T w0 w (w.dealloc t)) (hpc : w.state.pc t = .user last) {fuel : ℕ}
    (hs : World.finish T t fuel w = some w') : Dealt T w0 w' (w'.dealloc t) := by
  induction fuel generalizing w with
  | zero => cases hs
  | succ fuel ih =>
    simp only [World.finish] at hs
    split at hs
    · obtain ⟨v, hv, hs⟩ := Option.bind_eq_some_iff.1 hs
      refine ih (fun i hi e => ?_) (h.step hinj hnodes hne hv) ?_ hs
      · exact (deallocStep_keeps hv).2.2.2.2 _ (hne i hi e)
      · rw [(deallocStep_keeps hv).2.2.1]
        exact hpc
    · rw [hpc] at hs
      cases hs
      exact h

end

/-- A call of `trnmnt_tree_dealloc` that returns 0. -/
theorem dealloc_frees (hinj : ∀ m n, w.mid m = w.mid n → w.mid m ≠ 0 → m = n)
    (hnodes : ∀ i, T.HasNode i → T.nodes i ≠ 0)
    (hne : ∀ i, T.HasNode i → T.nodes i = T.lock → w.state.mutex T.lock = .absent)
    (hunlocked : ∀ i, T.HasNode i → ∀ t, w.state.mutex (T.nodes i) ≠ .locked t) {fuel : ℕ}
    (hs : w.perform T t fuel (.dealloc t) = some w') (hret : w'.dealloc t = .returned 0) :
    Freed T w w' T.totalNodes.toNat := by
  rw [World.perform] at hs
  obtain ⟨v, hcall, hs⟩ := Option.bind_eq_some_iff.1 hs
  simp only [World.step, World.call] at hcall
  split at hcall
  · rename_i last hpc
    split at hcall
    · cases hcall
    · cases hcall
      have hstart : Dealt T w (w.goto t .lock) ((w.goto t .lock).dealloc t) := by
        rw [show (w.goto t .lock).dealloc t = .lock from update_self ..]
        exact ⟨fun m => by simp [World.goto], hunlocked⟩
      have hend := Dealt.finish (w := w.goto t .lock) hinj hnodes hne hstart hpc hs
      rw [hret] at hend
      exact hend rfl
  · cases hcall

end Dealloc

variable [DecidableEq τ]

/-- **The balance of the mutex table.** A tree of any depth is allocated with any table, the
threads call acquire and release in any order, and when all ids have been released
`trnmnt_tree_dealloc` returns 0. Then the entries in use are those from before and the entry of
`tree->lock`, which is the only one that stays; they are the same as before when the table
was full. -/
theorem trnmnt_tree_balance {T : TrnmntTree} {mem : Memory} {tb : MutexTable τ} {depth : Int}
    {t0 : τ} {w w' : World τ} {fuel : ℕ} (hv : tb.Valid)
    (halloc : trnmntTreeAlloc mem t0 depth tb = some (T, w)) (hr : Run T.step Indexed w.state s)
    (hreleased : ∀ ID, T.HasId ID → s.takenIds ID = 0)
    (hdealloc : ({ w with state := s }).perform T t fuel (.dealloc t) = some w')
    (hret : w'.dealloc t = .returned 0) :
    (∀ m, w'.mid m ≠ 0 ↔ tb.mid m ≠ 0 ∨ 0 < tb.free ∧ w'.mid m = T.lock) ∧
      ((∀ m, w'.mid m ≠ 0 ↔ tb.mid m ≠ 0) ↔ tb.free = 0) := by
  have hmade := made_of_alloc hv halloc
  have hpos := hv.nextmid_pos
  have hfreed : Freed T { w with state := s } w' T.totalNodes.toNat := by
    refine dealloc_frees hmade.grown.valid.mid_inj (fun i hi => ?_) (fun i hi e => ?_)
      (fun i hi => hmade.released hv hr hreleased hi) hdealloc hret
    · have hni := hmade.nodes i hi
      have := hi.1
      split at hni <;> omega
    · have hni := hmade.nodes i hi
      have hlock := hmade.lock
      have := hi.1
      have hneg : T.lock < 0 := by
        split at hlock <;> split at hni <;> omega
      exact absent_of_run hr (hmade.noNegative _ hneg)
  -- the entries are those of the new tree without the nodes
  have hstays : ∀ m, (∀ i, T.HasNode i → w.mid m ≠ T.nodes i) → w'.mid m = w.mid m := by
    intro m hno
    rw [hfreed.mid m, if_neg]
    rintro ⟨j, hj, e⟩
    exact hno j ⟨Int.natCast_nonneg j, by omega⟩ e
  have hentries : ∀ m, w'.mid m ≠ 0 ↔ tb.mid m ≠ 0 ∨ 0 < tb.free ∧ w'.mid m = T.lock := by
    intro m
    constructor
    · intro hne
      by_cases hm : tb.mid m = 0
      · have hmid := hfreed.mid m
        split at hmid
        · exact absurd hmid hne
        · rename_i hno
          rw [hmid] at hne ⊢
          exact .inr ((hmade.new_entry hm hne).resolve_right hno)
      · exact .inl hm
    · rintro (hm | ⟨hf, e⟩)
      · have hold : w.mid m = tb.mid m := hmade.grown.old m hm
        rw [hstays m fun i hi e => hm (hmade.node_entry hv hi e).1, hold]
        exact hm
      · rw [e, hmade.lock, if_pos hf]
        omega
  refine ⟨hentries, fun hsame => ?_, fun hf m => ?_⟩
  · -- the entry of the lock is new
    by_contra hne
    obtain ⟨m, hm, h0, hfree⟩ := hmade.lock_entry hv (Nat.pos_of_ne_zero hne)
    have hw' : w'.mid m = w.mid m := hstays m fun i hi e => (hmade.node_entry hv hi e).2 hm
    rw [← hm, ← hw'] at h0
    exact (hsame m).1 h0 hfree
  · rw [hentries m]
    exact or_iff_left fun h => absurd h.1 (by omega)

/-- A tree with two leaves in an empty table. -/
def pairMade : TrnmntTree × World (Fin 2) :=
  (trnmntTreeAlloc (.filled 0) 0 1 noMutex).get (by decide +kernel)

/-- Thread 1 has acquired and released the tree. -/
def pairUsed : State (Fin 2) :=
  final pairMade.1.step pairMade.2.state (.call 1 (.acquire 1) :: List.replicate 6 (.step 1) ++
    .call 1 (.release 1) :: List.replicate 8 (.step 1))

theorem trnmnt_tree_balance_pair : pairUsed.pc 1 = .user (some (.release 1, 0)) ∧
    ∃ w', ({ pairMade.2 with state := pairUsed }).perform pairMade.1 0 20 (.dealloc 0) = some w' ∧
      ∀ m, w'.mid m ≠ 0 ↔ w'.mid m = pairMade.1.lock := by
  have halloc : trnmntTreeAlloc (.filled 0) 0 1 noMutex = some (pairMade.1, pairMade.2) :=
    (Option.some_get (by decide +kernel)).symm
  have hrun : Run pairMade.1.step Indexed pairMade.2.state pairUsed := run_final indexed_of_test
  have hreleased (ID : Int) (hID : pairMade.1.HasId ID) : pairUsed.takenIds ID = 0 := by
    rw [TrnmntTree.HasId, show pairMade.1.threads = 2 by decide +kernel] at hID
    obtain rfl | rfl : ID = 0 ∨ ID = 1 := by omega
    · decide +kernel
    · decide +kernel
  have hend : (({ pairMade.2 with state := pairUsed }).perform pairMade.1 0 20 (.dealloc 0)).map
      (fun w : World (Fin 2) => w.dealloc 0) = some (.returned 0) := by decide +kernel
  obtain ⟨w', hdealloc, hret⟩ := Option.map_eq_some_iff.1 hend
  refine ⟨by decide +kernel, w', hdealloc, fun m => ?_⟩
  rw [(trnmnt_tree_balance noMutex_valid halloc hrun hreleased hdealloc hret).1 m, noMutex_free]
  simp [noMutex]

/-- **The leak.** With an empty table a tree with two leaves is allocated and freed: one entry
stays, and it is that of the lock. -/
theorem dealloc_leaks_lock : ((trnmntTreeAlloc (.filled 0) (0 : Fin 2) 1 noMutex).bind fun x =>
      (x.2.perform x.1 0 20 (.dealloc 0)).map fun w =>
        (w.dealloc 0, x.1.lock, w.mid 0, w.mid 1, w.mid 2, w.mid 3)) =
    some (.returned 0, 1, 1, 0, 0, 0) := by
  decide +kernel

end Xv6.TrnmntTree
