import Xv6.Tree.Allocation

/-! A thread that uses a tree alone: it acquires and releases it, with one id after the
other, and deallocates it. Nothing is left of an acquire after its release. -/

namespace Xv6.TrnmntTree

open Heap
open Function (update update_eq_self update_idem update_of_ne update_self)

variable {τ : Type*}

/-! ## The mutexes of a way -/

section

variable {T : TrnmntTree} {t : τ} {l : List Int} {i m : Int} {mt : Locks.Table Int τ}

/-- The table with the nodes in `l` locked by `t`. -/
def lockAll (T : TrnmntTree) (t : τ) (l : List Int) (mt : Locks.Table Int τ) : Locks.Table Int τ :=
  l.foldr (fun i mt => update mt (T.nodes i) (.locked t)) mt

theorem lockAll_of_ne (h : ∀ j ∈ l, m ≠ T.nodes j) : lockAll T t l mt m = mt m := by
  induction l with
  | nil => rfl
  | cons j l ih =>
    rw [lockAll, List.foldr_cons, update_of_ne (h j List.mem_cons_self)]
    exact ih fun k hk => h k (List.mem_cons_of_mem _ hk)

variable [DecidableEq τ]

theorem lock_lockAll (h : ∀ j ∈ l, T.nodes i ≠ T.nodes j) (hfree : mt (T.nodes i) = .unlocked) :
    Locks.lock (lockAll T t l mt) t (T.nodes i) = some (0, lockAll T t (i :: l) mt) := by
  rw [Locks.lock, lockAll_of_ne h, hfree]
  rfl

theorem unlock_lockAll (h : ∀ j ∈ l, T.nodes i ≠ T.nodes j) (hfree : mt (T.nodes i) = .unlocked) :
    Locks.unlock (lockAll T t (i :: l) mt) t (T.nodes i) = (0, lockAll T t l mt) := by
  have hsame : lockAll T t l mt (T.nodes i) = .unlocked := (lockAll_of_ne h).trans hfree
  have hback : update (lockAll T t l mt) (T.nodes i) .unlocked = lockAll T t l mt := by
    rw [← hsame, update_eq_self]
  have hmine : lockAll T t (i :: l) mt (T.nodes i) = .locked t := update_self ..
  rw [Locks.unlock_eq hmine, lockAll, List.foldr_cons, update_idem]
  exact congrArg (Prod.mk 0) hback

end

/-! ## Steps of one thread -/

namespace World

variable [DecidableEq τ] {T : TrnmntTree} {t : τ} {w w' w'' : World τ}

/-- `t` comes from `w` to `w'` when the others do nothing. -/
def Leads (T : TrnmntTree) (t : τ) (w w' : World τ) : Prop :=
  ∃ n, ∀ k, finish T t (k + n) w = finish T t k w'

theorem Leads.trans (h : Leads T t w w') (h' : Leads T t w' w'') : Leads T t w w'' := by
  obtain ⟨n, hn⟩ := h
  obtain ⟨n', hn'⟩ := h'
  refine ⟨n' + n, fun k => ?_⟩
  rw [← Nat.add_assoc, hn, hn']

theorem leads_dealloc (hin : (w.dealloc t).inside) (hs : w.deallocStep T t = some w') :
    Leads T t w w' := by
  refine ⟨1, fun k => ?_⟩
  rw [finish, if_pos hin, World.step, hs]
  rfl

def put (w : World τ) (s : State τ) : World τ := { w with state := s }

/-- The world with `t` at the point `p` of an acquire or a release. -/
def place (w : World τ) (pc : τ → Pc) (t : τ) (p : Pc) (mt : Locks.Table Int τ)
    (taken : Int → Int) (num : Int) : World τ :=
  w.put ⟨mt, taken, num, update pc t p⟩

section Deeds

variable {pc : τ → Pc} {p q : Pc} {mt mt' : Locks.Table Int τ} {taken : Int → Int} {num : Int}

section

variable (hout : (w.dealloc t).inside = false)

include hout

theorem leads_does {a : Deed} {s : State τ}
    (hd : Does T taken p a) (hr : a.run ⟨mt, taken, num, update pc t p⟩ t = some s) :
    Leads T t (w.place pc t p mt taken num) (w.put s) := by
  have hpc : update pc t p t = p := update_self ..
  have hs : T.stepThread ⟨mt, taken, num, update pc t p⟩ t = some s := by
    rw [does_stepThread (a := a) (by simpa only [hpc] using hd), hr]
  refine ⟨1, fun k => ?_⟩
  have hstep : (w.place pc t p mt taken num).step T (.tree (.step t)) = some (w.put s) := by
    rw [World.step, if_neg (by simpa [Label.thread, World.place, put] using hout)]
    exact congrArg (Option.map _) hs
  rw [finish, if_neg (by simpa [World.place, put] using hout)]
  split
  · rename_i last hlast
    cases hd <;> cases hpc.symm.trans hlast
  · rw [hstep]
    rfl

theorem leads_goto (hd : Does T taken p (.goto q)) :
    Leads T t (w.place pc t p mt taken num) (w.place pc t q mt taken num) := by
  refine leads_does hout hd ?_
  simp only [Deed.run, State.goto, update_idem]

theorem leads_mark {ID v k : Int} (hd : Does T taken p (.mark ID v k q)) :
    Leads T t (w.place pc t p mt taken num) (w.place pc t q mt (update taken ID v) (num + k)) := by
  refine leads_does hout hd ?_
  simp only [Deed.run, State.goto, update_idem]

theorem leads_lock {m r : Int} {on : Int → Pc}
    (hd : Does T taken p (.lock m on)) (h : Locks.lock mt t m = some (r, mt')) :
    Leads T t (w.place pc t p mt taken num) (w.place pc t (on r) mt' taken num) := by
  refine leads_does hout hd ?_
  simp only [Deed.run, State.lock, h, Option.map_some, State.goto, update_idem]

theorem leads_unlock {m r : Int} {on : Int → Pc}
    (hd : Does T taken p (.unlock m on)) (h : Locks.unlock mt t m = (r, mt')) :
    Leads T t (w.place pc t p mt taken num) (w.place pc t (on r) mt' taken num) := by
  refine leads_does hout hd ?_
  simp only [Deed.run, State.unlock, h, State.goto, update_idem]

end

end Deeds

/-- Where `t` has returned, enough steps have been made. -/
theorem Leads.finish (h : Leads T t w w') (hout : (w'.dealloc t).inside = false)
    {last : Option (Call × Int)} (hpc : w'.state.pc t = .user last) :
    ∃ n, ∀ k ≥ n, World.finish T t k w = some w' := by
  obtain ⟨n, hn⟩ := h
  refine ⟨n + 1, fun k hk => ?_⟩
  obtain ⟨j, rfl⟩ := Nat.exists_eq_add_of_le hk
  rw [show n + 1 + j = j + 1 + n by omega, hn, World.finish, if_neg (by simp [hout])]
  simp [hpc]

end World

/-! ## Acquire and release -/

section Pair

open World

variable [DecidableEq τ] {d : ℕ} {T : FullTree d} {t : τ} {w : World τ} {n : Fin (2 ^ d)}
  {mt : Locks.Table Int τ} {taken : Int → Int} {num : Int} {pc : τ → Pc} {k : ℕ}

theorem node_ne_route (hk : k < d) :
    ∀ j ∈ route n k, T.nodes (anc (leaf n) (k + 1)) ≠ T.nodes j := by
  intro j hj e
  have := T.nodes_inj _ _ (hasNode_anc T n (k + 1)) (hasNode_route T hj) e
  exact anc_notMem_route n hk (this ▸ hj)

section

variable (hout : (w.dealloc t).inside = false)
  (hfree : ∀ i, T.HasNode i → mt (T.nodes i) = .unlocked)

include hout hfree

/-- The way up. -/
theorem leads_climb (hk : k ≤ d) : Leads T t (w.place pc t (.climb (n : ℕ) k (anc (leaf n) k))
        (lockAll T t (route n k) mt) taken num) (w.place pc t (.user (some (.acquire (n : ℕ), 0)))
        (lockAll T t (route n d) mt) taken num) := by
  -- by induction on the rounds that are left
  induction hj : d - k generalizing k with
  | zero =>
    obtain rfl : k = d := by omega
    exact leads_goto hout (.acquired (by rw [T.depth_eq]; omega))
  | succ j ih =>
    have hkd : k < d := by omega
    have hnode := hasNode_anc T n (k + 1)
    have hlock := lock_lockAll (t := t) (node_ne_route (T := T) hkd) (hfree _ hnode)
    rw [← parent_anc] at hlock hnode
    refine Leads.trans (leads_lock hout (.climb (by rw [T.depth_eq]; omega) hnode) hlock) ?_
    simp only [ne_eq, not_true_eq_false, if_false, parent_anc]
    exact ih hkd (by omega)

/-- The way down to the root and back. -/
theorem leads_up (hk : k ≤ d) : Leads T t (w.place pc t (.releaseUp (n : ℕ) (route n k) 0)
        (lockAll T t (route n k) mt) taken num)
      (w.place pc t (.clearLock (n : ℕ)) mt taken num) := by
  induction k with
  | zero => exact leads_goto hout .freed
  | succ k ih =>
    have hnode := hasNode_anc T n (k + 1)
    have hunlock := unlock_lockAll (t := t) (node_ne_route (T := T) hk) (hfree _ hnode)
    exact (leads_unlock hout (.up hnode) hunlock).trans (ih (by omega))

theorem leads_down (hk : k < d) : Leads T t
      (w.place pc t (.releaseDown (n : ℕ) (anc (leaf n) (k + 1)) (route n k))
        (lockAll T t (route n d) mt) taken num)
      (w.place pc t (.clearLock (n : ℕ)) mt taken num) := by
  -- by induction on the distance to the root
  induction hj : d - (k + 1) generalizing k with
  | zero =>
    obtain rfl : d = k + 1 := by omega
    have hnode := hasNode_anc T n (k + 1)
    have hunlock := unlock_lockAll (t := t) (node_ne_route (T := T) hk) (hfree _ hnode)
    rw [← route_succ, anc_leaf_root, Nat.cast_zero] at hunlock
    rw [anc_leaf_root, Nat.cast_zero]
    exact (leads_unlock hout (.root (hasNode_zero T)) hunlock).trans (leads_up hout hfree hk.le)
  | succ j ih =>
    have hpos := anc_leaf_pos n (k := k + 1) (by omega)
    refine Leads.trans (leads_goto hout (.down (by omega))) ?_
    rw [parent_anc]
    exact ih (k := k + 1) (by omega) (by omega)

end

/-- Nothing is locked. -/
structure Unlocked (T : FullTree d) (mt : Locks.Table Int τ) : Prop where
  lock : mt T.lock = .unlocked
  nodes : ∀ i, T.HasNode i → mt (T.nodes i) = .unlocked

theorem lock_tree (h : mt T.lock = .unlocked) :
    Locks.lock mt t T.lock = some (0, update mt T.lock (.locked t)) := by
  rw [Locks.lock, h]

theorem unlock_tree (h : mt T.lock = .unlocked) :
    Locks.unlock (update mt T.lock (.locked t)) t T.lock = (0, mt) := by
  rw [Locks.unlock_eq (update_self ..), update_idem, ← h, update_eq_self]

theorem leads_acquire (num : Int) (pc : τ → Pc) (hout : (w.dealloc t).inside = false)
    (h : Unlocked T mt) (htaken : taken (n : ℕ) = 0) :
    Leads T t (w.place pc t (.acquireLock (n : ℕ)) mt taken num)
      (w.place pc t (.user (some (.acquire (n : ℕ), 0)))
        (lockAll T t (route n d) mt) (update taken (n : ℕ) 1) (num + 1)) := by
  refine (leads_lock hout .acquireLock (lock_tree h.lock)).trans ?_
  refine (leads_goto hout (.pass (hasId T n) htaken)).trans ?_
  refine (leads_mark hout .take).trans ?_
  refine (leads_unlock hout .start (unlock_tree h.lock)).trans ?_
  rw [realIndexInTree_eq]
  exact leads_climb hout h.nodes (Nat.zero_le d)

theorem leads_release (num : Int) (pc : τ → Pc) (hd : 1 ≤ d)
    (hout : (w.dealloc t).inside = false) (h : Unlocked T mt) (htaken : taken (n : ℕ) ≠ 0) :
    Leads T t
      (w.place pc t (.releaseLock (n : ℕ)) (lockAll T t (route n d) mt) taken num)
      (w.place pc t (.user (some (.release (n : ℕ), 0))) mt (update taken (n : ℕ) 0)
        (num - 1)) := by
  have hne : ∀ j ∈ route n d, T.lock ≠ T.nodes j :=
    fun j hj => (T.nodes_ne_lock j (hasNode_route T hj)).symm
  have hfree : lockAll T t (route n d) mt T.lock = .unlocked := (lockAll_of_ne hne).trans h.lock
  refine (leads_lock hout .releaseLock (lock_tree hfree)).trans ?_
  refine (leads_goto hout (.found (hasId T n) htaken)).trans ?_
  refine (leads_unlock hout .enter (unlock_tree hfree)).trans ?_
  rw [realIndexInTree_eq, parent_anc]
  refine (leads_down hout h.nodes hd).trans ?_
  refine (leads_lock hout .clearLock (lock_tree h.lock)).trans ?_
  refine (leads_mark hout .clear).trans ?_
  exact leads_unlock hout .released (unlock_tree h.lock)

/-- With depth 0 nothing is locked, and the root cannot be unlocked. -/
theorem leads_release_zero {T : FullTree 0} {n : Fin (2 ^ 0)} (num : Int) (pc : τ → Pc)
    (hout : (w.dealloc t).inside = false) (h : Unlocked T mt) (htaken : taken (n : ℕ) ≠ 0) :
    Leads T t (w.place pc t (.releaseLock (n : ℕ)) mt taken num)
      (w.place pc t (.user (some (.release (n : ℕ), -1))) mt taken num) := by
  have hroot : (anc (leaf n) 1 : Int) = 0 := (anc_eq_zero_iff n (j := 0) (by decide)).2 rfl
  have hfails : Locks.unlock mt t (T.nodes 0) = (-1, mt) :=
    if_neg (by rw [h.nodes 0 (hasNode_zero T)]; simp)
  refine (leads_lock hout .releaseLock (lock_tree h.lock)).trans ?_
  refine (leads_goto hout (.found (hasId T n) htaken)).trans ?_
  refine (leads_unlock hout .enter (unlock_tree h.lock)).trans ?_
  rw [realIndexInTree_eq, parent_anc, hroot]
  refine (leads_unlock hout (.root (hasNode_zero T)) hfails).trans ?_
  exact leads_goto hout (.failed (by decide))

/-! ## Deallocation -/

theorem leads_nodes {i : ℕ} (hi : w.dealloc t = .node i) :
    ∃ w', Leads T t w w' ∧ w'.dealloc t = .returned 0 ∧ w'.state.pc = w.state.pc := by
  -- by induction on the nodes that are left
  induction hj : (T.totalNodes - i).toNat generalizing w i with
  | zero =>
    have hfree : Leads T t w (w.goto t .free) := by
      refine leads_dealloc (by rw [hi]; rfl) ?_
      simp only [deallocStep, hi]
      rw [if_neg (by omega)]
    have hfreed : Leads T t (w.goto t .free)
        { (w.goto t .free).goto t .unlock with freed := true } :=
      leads_dealloc (by simp [goto, Deallocation.inside]) (by simp [goto, deallocStep])
    have hend : Leads T t { (w.goto t .free).goto t .unlock with freed := true }
        (World.unlock { (w.goto t .free).goto t .unlock with freed := true } T t (.returned 0)) :=
      leads_dealloc (by simp [goto, Deallocation.inside]) (by simp [goto, deallocStep])
    exact ⟨_, hfree.trans (hfreed.trans hend), by simp [World.unlock, goto], rfl⟩
  | succ j ih =>
    have hstep : w.deallocStep T t =
        some ((w.setTable (w.table.kthreadMutexDealloc (T.nodes i)).2).goto t (.node (i + 1))) := by
      simp only [deallocStep, hi]
      rw [if_pos (by omega)]
    obtain ⟨w', hleads, hret, hpc⟩ := ih (w := (w.setTable
      (w.table.kthreadMutexDealloc (T.nodes i)).2).goto t (.node (i + 1))) (i := i + 1)
      (by simp [goto]) (by push_cast; omega)
    exact ⟨w', (leads_dealloc (by rw [hi]; rfl) hstep).trans hleads, hret, hpc⟩

theorem leads_lock (hlock : w.dealloc t = .lock) (h : w.state.mutex T.lock = .unlocked)
    (hnum : w.state.numOfLocked = 0) :
    ∃ w', Leads T t w w' ∧ w'.dealloc t = .returned 0 ∧ w'.state.pc = w.state.pc := by
  generalize hs : ({ w.state with
    mutex := update w.state.mutex T.lock (.locked t) } : State τ) = s
  have htest : Leads T t w ((w.goto t .test).put s) := by
    refine leads_dealloc (by rw [hlock]; rfl) ?_
    simp [deallocStep, hlock, lock_tree h, ← hs, put]
  have hnodes : Leads T t ((w.goto t .test).put s) ((w.goto t (.node 0)).put s) := by
    refine leads_dealloc (by simp [goto, put, Deallocation.inside]) ?_
    simp [deallocStep, goto, put, ← hs, hnum]
  obtain ⟨w', hleads, hret, hpc⟩ :=
    leads_nodes (T := T) (t := t) (w := (w.goto t (.node 0)).put s) (i := 0) (by simp [goto, put])
  exact ⟨w', htest.trans (hnodes.trans hleads), hret, hpc.trans (by simp [← hs, put])⟩

end Pair

/-! ## Cycles -/

section

open World

variable [DecidableEq τ]

/-- `t` acquires and releases the tree with each id of a list; `none` if a call does not
return 0. -/
def pairs (T : TrnmntTree) (t : τ) (fuel : ℕ) : List Int → World τ → Option (World τ)
  | [], w => some w
  | ID :: IDs, w => do
    let w ← w.perform T t fuel (.tree (.call t (.acquire ID)))
    if w.state.pc t = .user (some (.acquire ID, 0)) then
      let w ← w.perform T t fuel (.tree (.call t (.release ID)))
      if w.state.pc t = .user (some (.release ID, 0)) then pairs T t fuel IDs w else none
    else none

variable {d : ℕ} {T : FullTree d} {t : τ} {w : World τ}

theorem perform_call {c : Call} {last : Option (Call × Int)} {n : Fin (2 ^ d)} (fuel : ℕ)
    (hout : (w.dealloc t).inside = false) (hpc : w.state.pc t = .user last) (hc : c.ID = (n : ℕ)) :
    w.perform T t fuel (.tree (.call t c)) = finish T t fuel (w.put (w.state.goto t c.start)) := by
  have hstep : T.step w.state (.call t c) = some (w.state.goto t c.start) := by
    simp only [TrnmntTree.step, hpc, enter_eq n _ t hc]
  rw [perform, World.step, if_neg (by simp [Label.thread, hout]), hstep]
  rfl

/-- An acquire with the id `n` returns 0; then it depends on the release. -/
theorem pairs_cons {w' : World τ} {r : Int} (hout : (w.dealloc t).inside = false)
    (h : Unlocked T w.state.mutex) {last : Option (Call × Int)} (hpc : w.state.pc t = .user last)
    (n : Fin (2 ^ d)) (htaken : w.state.takenIds (n : ℕ) = 0)
    (hrelease : Leads T t (w.place w.state.pc t (.releaseLock (n : ℕ))
      (lockAll T t (route n d) w.state.mutex) (update w.state.takenIds (n : ℕ) 1)
      (w.state.numOfLocked + 1)) w')
    (hout' : (w'.dealloc t).inside = false)
    (hpc' : w'.state.pc t = .user (some (.release (n : ℕ), r))) :
    ∃ k, ∀ fuel ≥ k, ∀ IDs, pairs T t fuel ((n : ℕ) :: IDs) w =
      if r = 0 then pairs T t fuel IDs w' else none := by
  have hacquire := leads_acquire w.state.numOfLocked w.state.pc hout h htaken
  obtain ⟨k1, hacquire⟩ := hacquire.finish hout (update_self ..)
  obtain ⟨k2, hrelease⟩ := hrelease.finish hout' hpc'
  refine ⟨max k1 k2, fun fuel hfuel IDs => ?_⟩
  generalize hw1 : w.place w.state.pc t (.user (some (.acquire (n : ℕ), 0)))
    (lockAll T t (route n d) w.state.mutex)
    (update w.state.takenIds (n : ℕ) 1) (w.state.numOfLocked + 1) = w1 at hacquire
  have hpc1 : w1.state.pc t = .user (some (.acquire (n : ℕ), 0)) := by
    rw [← hw1]
    exact update_self ..
  have h₁ : w.perform T t fuel (.tree (.call t (.acquire (n : ℕ)))) = some w1 := by
    rw [perform_call (c := .acquire (n : ℕ)) fuel hout hpc rfl]
    exact hacquire fuel (le_trans (le_max_left _ _) hfuel)
  have h2 : w1.perform T t fuel (.tree (.call t (.release (n : ℕ)))) = some w' := by
    rw [perform_call (c := .release (n : ℕ)) fuel (by rw [← hw1]; exact hout) hpc1 rfl, ← hw1]
    simp only [place, put, State.goto, update_idem] at hrelease ⊢
    exact hrelease fuel (le_trans (le_max_right _ _) hfuel)
  simp [pairs, h₁, h2, hpc1, hpc']

/-- One acquire and one release leave the tree as it was. -/
theorem pair_restores (hd : 1 ≤ d) (hout : (w.dealloc t).inside = false)
    (h : Unlocked T w.state.mutex) {last : Option (Call × Int)} (hpc : w.state.pc t = .user last)
    (n : Fin (2 ^ d)) (htaken : w.state.takenIds (n : ℕ) = 0) :
    ∃ k, ∀ fuel ≥ k, ∀ IDs, pairs T t fuel ((n : ℕ) :: IDs) w = pairs T t fuel IDs
        (w.put (w.state.goto t (.user (some (.release (n : ℕ), 0))))) := by
  have hmarked : update w.state.takenIds (n : ℕ) 1 (n : ℕ) ≠ 0 := by simp
  have hrelease := leads_release (w.state.numOfLocked + 1) w.state.pc hd hout h hmarked
  have hback : update (update w.state.takenIds (n : ℕ) 1) (n : ℕ) 0 = w.state.takenIds := by
    rw [update_idem, ← htaken, update_eq_self]
  rw [hback, Int.add_sub_cancel] at hrelease
  exact pairs_cons (r := 0) hout h hpc n htaken hrelease hout (update_self ..)

/-- The tree of a world in which it can be used. -/
def Usable.full {T : TrnmntTree} (h : Usable d T w) : FullTree d where
  toTrnmntTree := T
  depth_eq := h.depth
  threads_eq := h.threads
  totalNodes_eq := h.totalNodes
  nodes_inj := h.nodes_inj
  nodes_ne_lock := h.nodes_ne_lock

omit [DecidableEq τ] in
theorem Made.unlocked {T : TrnmntTree} {mem : Memory} {tb : MutexTable τ} {D : Int}
    (hmade : Made mem tb D T w) (hu : Usable d T w) : Unlocked hu.full w.state.mutex := by
  have hvalid := hmade.grown.valid
  have hneg : ∀ id, (∃ m, w.mid m = id ∧ id ≠ 0) → id ≠ -1 := by
    rintro id ⟨m, rfl, _⟩ e
    have : 0 ≤ w.mid m := hvalid.mid_nonneg m
    omega
  have hfree : 0 < tb.free := by
    by_contra hf
    exact hneg _ hu.lock (hmade.lock.trans (if_neg hf))
  constructor
  · have hlock : T.lock = tb.nextmid := hmade.lock.trans (if_pos hfree)
    have hcell := hmade.unlocked_of_pos (show tb.nextmid ≤ T.lock by omega) (by omega)
    exact hcell
  · intro i hi
    have hnode := hmade.nodes i hi
    have hpos : i + 1 < tb.free := by
      by_contra hf
      exact hneg _ (hu.nodes i hi) (hnode.trans (if_neg hf))
    rw [if_pos hpos] at hnode
    obtain ⟨h0, h1⟩ := hi
    have h1 : i < T.totalNodes := h1
    have hcell := hmade.unlocked_of_pos (show tb.nextmid ≤ T.nodes i by omega) (by omega)
    exact hcell

theorem pairs_restore (hd : 1 ≤ d) (hout : (w.dealloc t).inside = false)
    (h : Unlocked T w.state.mutex) {last : Option (Call × Int)} (hpc : w.state.pc t = .user last)
    (htaken : ∀ n : Fin (2 ^ d), w.state.takenIds (n : ℕ) = 0) (IDs : List (Fin (2 ^ d))) :
    ∃ k pc last', pc t = .user last' ∧ ∀ fuel ≥ k,
      pairs T t fuel (IDs.map fun n : Fin (2 ^ d) => ((n : ℕ) : Int)) w =
        some (w.put { w.state with pc }) := by
  induction IDs generalizing w last with
  | nil => exact ⟨0, w.state.pc, last, hpc, fun _ _ => rfl⟩
  | cons n IDs ih =>
    obtain ⟨k1, h₁⟩ := pair_restores hd hout h hpc n (htaken n)
    obtain ⟨k2, pc, last', hpc', h2⟩ :=
      ih (w := w.put (w.state.goto t (.user (some (.release (n : ℕ), 0))))) hout h
        (update_self ..) htaken
    refine ⟨max k1 k2, pc, last', hpc', fun fuel hfuel => ?_⟩
    rw [List.map_cons, h₁ fuel (le_trans (le_max_left _ _) hfuel),
      h2 fuel (le_trans (le_max_right _ _) hfuel)]
    rfl

/-- **`trnmnt_tree_dealloc` returns 0** when nobody has the lock of the tree and
`num_of_locked` is 0. -/
theorem dealloc_returns (hout : (w.dealloc t).inside = false)
    {last : Option (Call × Int)} (hpc : w.state.pc t = .user last)
    (hlock : w.state.mutex T.lock = .unlocked) (hnum : w.state.numOfLocked = 0) :
    ∃ k w', w'.dealloc t = .returned 0 ∧
      ∀ fuel ≥ k, w.perform T t fuel (.dealloc t) = some w' := by
  have hcall : w.step T (.dealloc t) = some (w.goto t .lock) := by
    simp [World.step, World.call, hpc, hout]
  obtain ⟨w', hleads, hret, hpc'⟩ := leads_lock (T := T) (t := t) (w := w.goto t .lock)
    (by simp [goto]) hlock hnum
  obtain ⟨k, hend⟩ := hleads.finish (by rw [hret]; rfl)
    (show w'.state.pc t = .user last by rw [hpc']; exact hpc)
  refine ⟨k, w', hret, fun fuel hfuel => ?_⟩
  rw [perform, hcall]
  exact hend fuel hfuel

/-- **Acquire and release, any number of times**, of a tree that `trnmnt_tree_alloc` has made
usable, by a thread that uses it alone: with enough steps all calls return 0, the tree is as it
was before, and `trnmnt_tree_dealloc` returns 0, if and only if the depth is not 0. -/
theorem trnmnt_tree_cycles {T : TrnmntTree} {mem : Memory} {tb : MutexTable τ} {t0 : τ}
    (hv : tb.Valid) (halloc : trnmntTreeAlloc mem t0 d tb = some (T, w)) (hu : Usable d T w)
    (t : τ) : (∀ IDs : List (Fin (2 ^ d)), ∃ k w', ∀ fuel ≥ k,
      pairs T t fuel (IDs.map fun n : Fin (2 ^ d) => ((n : ℕ) : Int)) w = some w' ∧
      w'.state.takenIds = w.state.takenIds ∧ w'.state.numOfLocked = w.state.numOfLocked ∧
      w'.state.mutex = w.state.mutex ∧ w'.mid = w.mid ∧
      ∃ w'', w'.perform T t fuel (.dealloc t) = some w'' ∧ w''.dealloc t = .returned 0) ↔
    1 ≤ d := by
  have hmade := made_of_alloc hv halloc
  have hunlocked := hmade.unlocked hu
  have hout : (w.dealloc t).inside = false := by rw [hmade.idle]; rfl
  have htaken (n : Fin (2 ^ d)) := hu.takenIds _ (hasId hu.full n)
  refine ⟨fun hall => ?_, fun hd IDs => ?_⟩
  · by_contra hd
    obtain rfl : d = 0 := by omega
    have hmarked : update w.state.takenIds ((0 : Fin (2 ^ 0)) : ℕ) 1 ((0 : Fin (2 ^ 0)) : ℕ) ≠ 0 :=
      by simp
    have hrelease := leads_release_zero (w.state.numOfLocked + 1) w.state.pc hout hunlocked hmarked
    obtain ⟨k, hfails⟩ := pairs_cons (r := -1) hout hunlocked (hmade.pc t) 0 (htaken 0) hrelease
      hout (update_self ..)
    obtain ⟨k', w', hall⟩ := hall [0]
    have hsome := (hall (max k k') (le_max_right _ _)).1
    rw [List.map_cons] at hsome
    cases (hfails _ (le_max_left _ _) _).symm.trans hsome
  obtain ⟨k1, pc, last, hpc, hpairs⟩ := pairs_restore hd hout hunlocked (hmade.pc t) htaken IDs
  generalize hw' : w.put { w.state with pc } = w' at hpairs
  obtain ⟨k2, w'', hret, hdealloc⟩ := dealloc_returns (T := hu.full) (t := t) (w := w')
    (by subst hw'; exact hout) (by subst hw'; exact hpc) (by subst hw'; exact hunlocked.lock)
    (by subst hw'; exact hu.numOfLocked)
  refine ⟨max k1 k2, w', fun fuel hfuel => ⟨hpairs fuel (le_trans (le_max_left _ _) hfuel), ?_⟩⟩
  have hend := hdealloc fuel (le_trans (le_max_right _ _) hfuel)
  subst hw'
  exact ⟨rfl, rfl, rfl, rfl, w'', hend, hret⟩

/-- A tree with two leaves, whose ids are acquired and released one after the other. -/
theorem trnmnt_tree_cycles_pair :
    ∃ T w k w', trnmntTreeAlloc (.filled 0) (0 : Fin 2) 1 noMutex = some (T, w) ∧
      ∀ fuel ≥ k, pairs T 0 fuel [0, 1, 0] w = some w' ∧ w'.state.mutex = w.state.mutex := by
  have hsome : ∃ T w, trnmntTreeAlloc (.filled 0) (0 : Fin 2) 1 noMutex = some (T, w) :=
    alloc_isSome 1 0 noMutex_valid (by decide) rfl rfl
  obtain ⟨T, w, halloc⟩ := hsome
  have hu : Usable 1 T w := (made_of_alloc noMutex_valid halloc).usable noMutex_valid
    (by rw [noMutex_free]; decide) rfl fun _ _ _ => rfl
  obtain ⟨k, w', h⟩ := (trnmnt_tree_cycles noMutex_valid halloc hu 0).2 le_rfl [0, 1, 0]
  exact ⟨T, w, k, w', halloc, fun fuel hfuel => ⟨(h fuel hfuel).1, (h fuel hfuel).2.2.2.1⟩⟩

/-- **A tree of depth 0.** It has one leaf, which is also its root: acquire locks no node, but
release unlocks the root, which fails, and the id stays taken. -/
theorem release_at_depth_zero : ((trnmntTreeAlloc (.filled 0) (0 : Fin 2) 0 noMutex).bind fun x =>
      (x.2.perform x.1 0 20 (.tree (.call 0 (.acquire 0)))).bind fun w =>
        (w.perform x.1 0 20 (.tree (.call 0 (.release 0)))).map fun w' =>
          (w.state.pc 0, w'.state.pc 0, w'.state.takenIds 0, w'.state.numOfLocked)) =
    some (.user (some (.acquire 0, 0)), .user (some (.release 0, -1)), 1, 1) := by
  decide +kernel

end

end Xv6.TrnmntTree
