import Xv6.Tree.Release

/-! What a call has done when it returns -1. The moves of one thread are logged from
the start of its call on, while the other threads go on in any way. A release that
fails has unlocked those of the nodes on its way that its caller had, and an acquire
that fails on its way up leaves behind what it has locked. -/

namespace Xv6.TrnmntTree

open Heap Runs
open Function (update update_of_ne update_self)

variable {d : ℕ} {τ : Type*} {t u : τ}

/-! ## The moves of one thread -/

/-- The states before and after each move of a thread, the last move first. -/
abbrev Moves (τ : Type*) := List (State τ × State τ)

def movesOf [DecidableEq τ] (t : τ) (s : State τ) (l : Label τ) (s' : State τ) : Moves τ :=
  if l.thread = t then [(s, s')] else []

/-- A move after which only the lock of the tree can be different. -/
structure Untouched (T : FullTree d) (s s' : State τ) : Prop where
  takenIds : s'.takenIds = s.takenIds
  numOfLocked : s'.numOfLocked = s.numOfLocked
  mutex : ∀ m, m ≠ T.lock → s'.mutex m = s.mutex m

/-- None of the moves changed the tree, or went outside `taken_ids` and `nodes`. -/
def Harmless (T : FullTree d) (t : τ) (ms : Moves τ) : Prop :=
  ∀ x ∈ ms, Untouched T x.1 x.2 ∧ x.2.pc t ≠ .fault

/-- Ids are not negative. -/
def Indexed : Guard (State τ) (Label τ) := fun _ l _ =>
  match l with
  | .call _ c => 0 ≤ c.ID
  | _ => True

/-- Ids are not negative, and `t` makes no other call. -/
def Within (t : τ) : Guard (State τ × Moves τ) (Label τ) := fun _ l _ =>
  match l with
  | .call u c => u ≠ t ∧ 0 ≤ c.ID
  | .callNull u _ => u ≠ t
  | .step _ => True

variable {ms : Moves τ}

theorem Harmless.cons {T : FullTree d} {s s' : State τ} {p : Pc} (h : Harmless T t ms)
    (hu : Untouched T s s') (hpc : s'.pc t = p) (hp : p ≠ .fault := by exact Pc.noConfusion) :
    Harmless T t ((s, s') :: ms) := by
  intro x hx
  rcases List.mem_cons.1 hx with rfl | hx
  · exact ⟨hu, hpc ▸ hp⟩
  · exact h x hx

/-! ## What every run keeps -/

/-- The lock of the tree is where the program points say, and no mutex is missing. -/
structure Steady (T : FullTree d) (s : State τ) : Prop where
  base : Base T s
  present : ∀ m ∈ mutexes T, s.mutex m ≠ .absent

variable {T : FullTree d} {s s' a b : State τ} {p : Pc} {ID : Int} {n : Fin (2 ^ d)}

theorem Fresh.steady (h : Fresh T s) : Steady T s := by
  refine ⟨base_of_unlocked h.lock h.pc, fun m hm => ?_⟩
  simp [h.unlocked hm]

variable [DecidableEq τ] {last : Option (Call × Int)}

/-- A thread goes from its own code to a point outside the lock of the tree. -/
theorem Steady.goto (h : Steady T s) (hpc : s.pc t = .user last)
    (hin : p.inLock = false) (hvars : Vars d p) : Steady T (s.goto t p) := by
  exact ⟨(h.base.goto (by rw [hin, hpc]; rfl) hvars).1, h.present⟩

variable {c : Call}

theorem Steady.enter (h : Steady T s)
    (hpc : s.pc t = .user last) (hc : 0 ≤ c.ID) : Steady T (T.enter s t c) := by
  rcases enter_cases T s t c hc with ⟨_, e⟩ | ⟨n, hn, e⟩
  · rw [e]
    exact h.goto hpc rfl trivial
  · rw [e]
    cases c with
    | acquire | release => exact h.goto hpc rfl ⟨n, hn⟩

theorem Steady.stepThread (h : Steady T s) (hs : T.stepThread s t = some s') : Steady T s' :=
  ⟨(h.base.stepThread hs).1, fun m hm e => h.present m hm ((stepThread_absent hs).1 e)⟩

variable {l : Label τ}

theorem Steady.step (h : Steady T s) (hs : T.step s l = some s')
    (hg : Indexed s l s') : Steady T s' := by
  cases l with
  | call t c =>
    obtain ⟨_, hpc, rfl⟩ := step_call hs
    exact h.enter hpc hg
  | callNull t c =>
    obtain ⟨_, hpc, rfl⟩ := step_callNull hs
    exact h.goto hpc rfl trivial
  | step t => exact h.stepThread hs

theorem steady_of_run (h0 : Fresh T s) (hr : Run T.step Indexed s s') : Steady T s' :=
  hr.invariant h0.steady fun _ _ _ h hs hg => h.step hs hg

variable {x : State τ × Moves τ}

/-- **What holds within a call of `t`**: a fact about the point where `t` is, the
mutexes that it has and the moves that it has made, if its own moves keep it. -/
theorem within_rule {Q : Pc → Set Int → Moves τ → Prop} {y : State τ × Moves τ}
    (hr : Run (logging T.step (movesOf t)) (Within t) x y) (h0 : Steady T x.1)
    (hq : Q (x.1.pc t) (Locks.mine x.1.mutex t) x.2)
    (hstep : ∀ s s' ms, Steady T s → Q (s.pc t) (Locks.mine s.mutex t) ms →
      T.stepThread s t = some s' → Q (s'.pc t) (Locks.mine s'.mutex t) ((s, s') :: ms)) :
    Q (y.1.pc t) (Locks.mine y.1.mutex t) y.2 := by
  suffices Steady T y.1 ∧ Q (y.1.pc t) (Locks.mine y.1.mutex t) y.2 from this.2
  refine hr.invariant (I := fun z => Steady T z.1 ∧ Q (z.1.pc t) (Locks.mine z.1.mutex t) z.2)
    ⟨h0, hq⟩ ?_
  rintro ⟨s, ms⟩ l ⟨s', ms'⟩ ⟨hsteady, hq⟩ hlog hg
  obtain ⟨hs, rfl⟩ : T.step s l = some s' ∧ ms' = movesOf t s l s' ++ ms := logging_some hlog
  clear hlog
  -- the call of another thread leaves `t` and its mutexes alone
  have hother : ∀ u p, u ≠ t → s' = s.goto u p → Q (s'.pc t) (Locks.mine s'.mutex t) ms := by
    rintro u p hu rfl
    rw [State.pc_goto, update_of_ne hu.symm]
    exact hq
  cases l with
  | call u c =>
    refine ⟨hsteady.step hs hg.2, ?_⟩
    rw [movesOf, if_neg (show ¬ Label.thread (.call u c) = t from hg.1), List.nil_append]
    obtain ⟨_, _, rfl⟩ := step_call hs
    rcases enter_cases T s u c hg.2 with ⟨_, e⟩ | ⟨_, _, e⟩
    · exact hother u _ hg.1 e
    · exact hother u _ hg.1 e
  | callNull u c =>
    refine ⟨hsteady.step hs trivial, ?_⟩
    rw [movesOf, if_neg (show ¬ Label.thread (.callNull u c) = t from hg), List.nil_append]
    obtain ⟨_, _, rfl⟩ := step_callNull hs
    exact hother u _ hg rfl
  | step u =>
    refine ⟨hsteady.step hs trivial, ?_⟩
    rcases eq_or_ne u t with rfl | hu
    · rw [movesOf, if_pos (show Label.thread (.step u) = u from rfl)]
      exact hstep s s' ms hsteady hq hs
    · obtain ⟨_, _, _, _, _, _, hgoes⟩ := hsteady.base.does hs
      rw [movesOf, if_neg (show ¬ Label.thread (.step u) = t from hu), List.nil_append,
        hgoes.pc t hu.symm]
      have hmine : Locks.mine s'.mutex t = Locks.mine s.mutex t :=
        Set.ext fun m => hgoes.mutex t hu.symm m
      rw [hmine]
      exact hq

theorem untouched_goto (T : FullTree d) (s : State τ) (t : τ) (p : Pc) :
    Untouched T s (s.goto t p) :=
  ⟨rfl, rfl, fun _ _ => rfl⟩

variable {on : Int → Pc}

theorem untouched_lock (hr : (Deed.lock T.lock on).run s t = some s') : Untouched T s s' := by
  obtain ⟨r, mutex, hlock, rfl⟩ := lock_some hr
  exact ⟨rfl, rfl, fun m hm => Locks.lock_of_ne hlock hm⟩

theorem untouched_unlock (T : FullTree d) (s : State τ) (t : τ) (on : Int → Pc) :
    Untouched T s (s.unlock t T.lock on) :=
  ⟨rfl, rfl, fun _ hm => Locks.unlock_of_ne hm⟩

theorem Steady.lockTree (h : Steady T s) (hpc : s.pc t = p)
    (hout : p.inLock = false) (hr : (Deed.lock T.lock on).run s t = some s') :
    s'.pc t = on 0 ∧ Locks.mine s'.mutex t = insert T.lock (Locks.mine s.mutex t) ∧
      Untouched T s s' := by
  obtain ⟨r, mutex, hlock, rfl⟩ := lock_some hr
  have hnot : s.mutex T.lock ≠ .locked t := by
    rw [ne_eq, h.base.lock t, hpc, hout]
    exact Bool.false_ne_true
  obtain ⟨rfl, _, _⟩ := Locks.lock_eq h.base.present hnot hlock
  exact ⟨update_self .., Locks.mine_lock hlock, untouched_lock hr⟩

theorem Steady.unlockTree (h : Steady T s) (hpc : s.pc t = p) (hin : p.inLock)
    (hr : (Deed.unlock T.lock on).run s t = some s') :
    s'.pc t = on 0 ∧ Locks.mine s'.mutex t = Locks.mine s.mutex t \ {T.lock} ∧
      Untouched T s s' := by
  cases hr
  have hmine := Locks.unlock_eq ((h.base.lock t).2 (hpc ▸ hin))
  refine ⟨?_, Locks.mine_unlock .., untouched_unlock ..⟩
  simp [State.unlock, State.goto, hmine]

theorem moved_on (T : FullTree d) (hr : (Deed.goto p).run s t = some s') :
    s'.pc t = p ∧ Locks.mine s'.mutex t = Locks.mine s.mutex t ∧ Untouched T s s' := by
  cases hr
  exact ⟨update_self .., rfl, untouched_goto ..⟩

/-! ## A call that returns -1 -/

/-- The test of the id lets the call go on: the id is free, or taken when it is to be released. -/
def Admits (t : τ) (ID : Int) (s : State τ) : Prop :=
  (s.pc t = .acquireTest ID ∧ s.takenIds ID = 0) ∨ (s.pc t = .releaseTest ID ∧ s.takenIds ID ≠ 0)

def Admitted (t : τ) (ID : Int) (ms : Moves τ) : Prop := ∃ x ∈ ms, Admits t ID x.1

omit [DecidableEq τ] in
theorem admitted_cons : Admitted t ID ((s, s') :: ms) ↔ Admits t ID s ∨ Admitted t ID ms := by
  simp [Admitted]

/-- What is left of a call with the id `n`, made with the mutexes `H0`, that has passed the test
and returned -1. -/
def Failed (T : FullTree d) (t : τ) (n : Fin (2 ^ d)) (H0 H : Set Int) (ms : Moves τ) : Call → Prop
  | .acquire _ => ¬Harmless T t ms ∧ ∃ i ∈ route n d, T.nodes i ∈ H0
  | .release _ => H = H0 ∧ Harmless T t ms ↔ ∀ i ∈ route n (rounds d), T.nodes i ∉ H0

/-- Within a call with the id `n`, made with the mutexes `H0`. Up to its test, and in a release
up to the first node that it has, the thread leaves the tree as it was; the nodes that are
ahead of it are its own only if they were before. -/
def Calling (T : FullTree d) (t : τ) (n : Fin (2 ^ d)) (H0 : Set Int) :
    Pc → Set Int → Moves τ → Prop
  | .acquireLock ID, H, ms | .releaseLock ID, H, ms =>
    ID = (n : ℕ) ∧ H = H0 ∧ Harmless T t ms ∧ ¬Admitted t (n : ℕ) ms
  | .acquireTest ID, H, ms | .acquireTaken ID, H, ms
  | .releaseTest ID, H, ms | .releaseFree ID, H, ms =>
    ID = (n : ℕ) ∧ H = insert T.lock H0 ∧ Harmless T t ms ∧ ¬Admitted t (n : ℕ) ms
  | .acquireTake ID, H, ms | .releaseUnlock ID, H, ms =>
    ID = (n : ℕ) ∧ H = insert T.lock H0 ∧ Harmless T t ms ∧ Admitted t (n : ℕ) ms
  | .acquireUnlock ID, H, ms =>
    ID = (n : ℕ) ∧ H = insert T.lock H0 ∧ ¬Harmless T t ms ∧ Admitted t (n : ℕ) ms
  | .climb ID i p, H, ms => ID = (n : ℕ) ∧ ¬Harmless T t ms ∧ Admitted t (n : ℕ) ms ∧ i ≤ d ∧
      p = anc (leaf n) i ∧
      ∀ k, i < k → k ≤ d → T.nodes (anc (leaf n) k) ∈ H → T.nodes (anc (leaf n) k) ∈ H0
  | .releaseDown ID p frames, H, ms => ID = (n : ℕ) ∧ H = H0 ∧ Harmless T t ms ∧
      Admitted t (n : ℕ) ms ∧ ∃ j < rounds d, p = anc (leaf n) (j + 1) ∧ frames = route n j
  | .releaseUp _ frames _, H, ms => Admitted t (n : ℕ) ms ∧ (∃ j < rounds d, frames = route n j) ∧
      (∀ i ∈ frames, T.nodes i ∈ H ↔ T.nodes i ∈ H0) ∧
      (H = H0 ∧ Harmless T t ms ↔ ∀ i ∈ route n (rounds d), i ∉ frames → T.nodes i ∉ H0)
  | .clearLock _, _, _ | .clear _, _, _ | .clearUnlock _, _, _ => True
  | .user (some (c, r)), H, ms => r = -1 → (H = H0 ∧ Harmless T t ms ∧ ¬Admitted t (n : ℕ) ms) ∨
      (Admitted t (n : ℕ) ms ∧ Failed T t n H0 H ms c)
  | _, _, _ => False

variable {H0 : Set Int}

theorem calling_climb {i : ℕ} (h : Steady T s) (hi : i < d) (hms : ¬Harmless T t ms)
    (hpass : Admitted t (n : ℕ) ms) (hahead : ∀ k, i < k → k ≤ d →
      T.nodes (anc (leaf n) k) ∈ Locks.mine s.mutex t → T.nodes (anc (leaf n) k) ∈ H0)
    (hr : (Deed.lock (T.nodes (anc (leaf n) (i + 1))) fun r =>
      if r ≠ 0 then .user (some (.acquire (n : ℕ), -1))
      else .climb (n : ℕ) (i + 1) (anc (leaf n) (i + 1))).run s t = some s') :
    Calling T t n H0 (s'.pc t) (Locks.mine s'.mutex t) ms := by
  have hnode := hasNode_anc T n (i + 1)
  obtain ⟨r, mutex, hlock, rfl⟩ := lock_some hr
  simp only [State.goto, update_self]
  by_cases hmine : s.mutex (T.nodes (anc (leaf n) (i + 1))) = .locked t
  · -- the thread has the node already
    have hfails : Locks.lock s.mutex t (T.nodes (anc (leaf n) (i + 1))) = some (-1, s.mutex) := by
      simp [Locks.lock, hmine]
    obtain ⟨rfl, rfl⟩ := Prod.mk.inj (Option.some.inj (hfails.symm.trans hlock))
    exact fun _ => .inr ⟨hpass, hms, _, mem_route.2 ⟨i + 1, i.succ_pos, hi, rfl⟩,
      hahead (i + 1) i.lt_succ_self hi hmine⟩
  obtain ⟨rfl, _, _⟩ := Locks.lock_eq (h.present _ (node_mem_mutexes T hnode)) hmine hlock
  rw [if_neg (not_not.2 rfl), Locks.mine_lock hlock]
  refine ⟨rfl, hms, hpass, hi, rfl, fun k hk hkd hmem => ?_⟩
  rcases hmem with e | hmem
  · have hinj := T.nodes_inj _ _ (hasNode_anc T n k) hnode e
    have hmem : (anc (leaf n) (i + 1) : Int) ∈ route n (k - 1) :=
      mem_route.2 ⟨i + 1, by omega, by omega, rfl⟩
    have hnot := anc_notMem_route n (k := k - 1) (by omega)
    rw [Nat.sub_add_cancel (by omega), hinj] at hnot
    exact absurd hmem hnot
  · exact hahead k (by omega) hkd hmem

/-- The node that is unlocked is not among those that are left. -/
theorem next_notMem {j : ℕ} (hj : j < rounds d) : (anc (leaf n) (j + 1) : Int) ∉ route n j := by
  rcases Nat.eq_zero_or_pos j with rfl | hpos
  · exact List.not_mem_nil
  · exact anc_notMem_route n (by unfold rounds at hj; omega)

/-- The thread unlocks a node, if it has it. -/
theorem calling_unlock {j : ℕ} {on : Int → Pc} {ID : Int} (hj : j < rounds d)
    (hpass : Admitted t (n : ℕ) ms)
    (hsame : ∀ i ∈ route n (j + 1), T.nodes i ∈ Locks.mine s.mutex t ↔ T.nodes i ∈ H0)
    (hkept : Locks.mine s.mutex t = H0 ∧ Harmless T t ms ↔
      ∀ i ∈ route n (rounds d), i ∉ route n (j + 1) → T.nodes i ∉ H0)
    (hon : ∀ r, ∃ sum, on r = .releaseUp ID (route n j) sum)
    (hs : s' = s.unlock t (T.nodes (anc (leaf n) (j + 1))) on) :
    Calling T t n H0 (s'.pc t) (Locks.mine s'.mutex t) ((s, s') :: ms) := by
  have hnext : (anc (leaf n) (j + 1) : Int) ∈ route n (j + 1) := List.mem_cons_self ..
  have hway : (anc (leaf n) (j + 1) : Int) ∈ route n (rounds d) :=
    mem_route.2 ⟨j + 1, j.succ_pos, hj, rfl⟩
  subst hs
  obtain ⟨sum, hsum⟩ := hon (Locks.unlock s.mutex t (T.nodes (anc (leaf n) (j + 1)))).1
  have hpc : (s.unlock t (T.nodes (anc (leaf n) (j + 1))) on).pc t =
      .releaseUp ID (route n j) sum := (update_self ..).trans hsum
  rw [hpc]
  refine ⟨admitted_cons.2 (.inr hpass), ⟨j, hj, rfl⟩, fun i hi => ?_, ?_⟩
  · have hne : T.nodes i ≠ T.nodes (anc (leaf n) (j + 1)) := fun e =>
      next_notMem hj (T.nodes_inj _ _ (hasNode_route T hi) (hasNode_anc T n (j + 1)) e ▸ hi)
    rw [← hsame i (List.mem_cons_of_mem _ hi), State.unlock, Locks.mine_unlock]
    exact and_iff_left hne
  by_cases hmine : T.nodes (anc (leaf n) (j + 1)) ∈ Locks.mine s.mutex t
  · refine iff_of_false (fun h => ?_) fun h =>
      h _ hway (next_notMem hj) ((hsame _ hnext).1 hmine)
    have hsame := (h.2 _ List.mem_cons_self).1.mutex _ (T.nodes_ne_lock _ (hasNode_anc T n (j + 1)))
    have hlocked : s.mutex (T.nodes (anc (leaf n) (j + 1))) = .locked t := hmine
    simp [State.unlock, Locks.unlock_eq hlocked, hlocked] at hsame
  · have hunlock := Locks.unlock_fails hmine
    have hu : Untouched T s (s.unlock t (T.nodes (anc (leaf n) (j + 1))) on) :=
      ⟨rfl, rfl, fun m _ => by simp [State.unlock, hunlock]⟩
    have hharmless : Harmless T t ((s, s.unlock t (T.nodes (anc (leaf n) (j + 1))) on) :: ms) ↔
        Harmless T t ms := by
      rw [Harmless, List.forall_mem_cons, and_iff_right ⟨hu, by rw [hpc]; exact Pc.noConfusion⟩]
      rfl
    rw [hharmless, State.unlock, hunlock, hkept]
    refine ⟨fun h i hi hno => ?_,
      fun h i hi hno => h i hi fun hm => hno (List.mem_cons_of_mem _ hm)⟩
    rcases eq_or_ne i (anc (leaf n) (j + 1)) with rfl | hne
    · exact mt (hsame _ hnext).2 hmine
    · exact h i hi (List.not_mem_cons_of_ne_of_not_mem hne hno)

/-- Every move of the call, in the order of the source. -/
theorem calling_step (h : Steady T s) (hlock : T.lock ∉ H0)
    (hq : Calling T t n H0 (s.pc t) (Locks.mine s.mutex t) ms) (hs : T.stepThread s t = some s') :
    Calling T t n H0 (s'.pc t) (Locks.mine s'.mutex t) ((s, s') :: ms) := by
  obtain ⟨a, hdoes, hr⟩ := stepThread_does hs
  have hgone {ms : Moves τ} (hms : ¬Harmless T t ms) : ¬Harmless T t ((s, s') :: ms) :=
    fun h => hms fun x hx => h x (List.mem_cons_of_mem _ hx)
  have hpassed (hp : Admitted t (n : ℕ) ms) : Admitted t (n : ℕ) ((s, s') :: ms) :=
    admitted_cons.2 (.inr hp)
  have hfails (hno : ¬Admits t (n : ℕ) s) (hp : ¬Admitted t (n : ℕ) ms) :
      ¬Admitted t (n : ℕ) ((s, s') :: ms) := by rw [admitted_cons, not_or]; exact ⟨hno, hp⟩
  generalize hpc : s.pc t = p at hdoes hq
  cases hdoes with
  | acquireLock | releaseLock =>
    obtain ⟨rfl, hmine, hms, hno⟩ := hq
    obtain ⟨hpc', hmine', hu⟩ := h.lockTree hpc rfl hr
    rw [hpc', hmine', hmine]
    exact ⟨rfl, rfl, hms.cons hu hpc', hfails (by simp [Admits, hpc]) hno⟩
  | acquireFault hid | releaseFault hid =>
    obtain ⟨rfl, _⟩ := hq
    exact absurd (hasId T n) hid
  | refuse _ htest | idle _ htest =>
    obtain ⟨rfl, hmine, hms, hno⟩ := hq
    obtain ⟨hpc', hmine', hu⟩ := moved_on T hr
    rw [hpc', hmine', hmine]
    exact ⟨rfl, rfl, hms.cons hu hpc', hfails (by simp [Admits, hpc, htest]) hno⟩
  | pass _ htest | found _ htest =>
    obtain ⟨rfl, hmine, hms, -⟩ := hq
    obtain ⟨hpc', hmine', hu⟩ := moved_on T hr
    rw [hpc', hmine', hmine]
    exact ⟨rfl, rfl, hms.cons hu hpc', admitted_cons.2 (.inl (by simp [Admits, hpc, htest]))⟩
  | refused | idled =>
    obtain ⟨rfl, hmine, hms, hno⟩ := hq
    obtain ⟨hpc', hmine', hu⟩ := h.unlockTree hpc rfl hr
    rw [hpc', hmine', hmine, Set.insert_sdiff_self_of_notMem hlock]
    exact fun _ => .inl ⟨rfl, hms.cons hu hpc', hfails (by simp [Admits, hpc]) hno⟩
  | take =>
    cases hr
    simp only [State.goto, update_self]
    refine ⟨hq.1, hq.2.1, fun hharm => ?_, admitted_cons.2 (.inr hq.2.2.2)⟩
    have hnum := (hharm _ List.mem_cons_self).1.numOfLocked
    simp only at hnum
    omega
  | start =>
    obtain ⟨rfl, hmine, hms, hp⟩ := hq
    obtain ⟨hpc', hmine', _⟩ := h.unlockTree hpc rfl hr
    rw [hpc', hmine', hmine, Set.insert_sdiff_self_of_notMem hlock]
    exact ⟨rfl, hgone hms, hpassed hp, Nat.zero_le d, realIndexInTree_eq T n, fun _ _ _ hm => hm⟩
  | acquired =>
    rw [(moved_on T hr).1]
    exact fun e => absurd e (by decide)
  | climbFault _ hn =>
    obtain ⟨rfl, _, _, _, rfl, _⟩ := hq
    exact absurd (parent_anc n _ ▸ hasNode_anc T n _) hn
  | climb hi =>
    obtain ⟨rfl, hms, hp, _, rfl, hahead⟩ := hq
    rw [T.depth_eq, Int.ofNat_lt] at hi
    rw [parent_anc] at hr
    exact calling_climb h hi (hgone hms) (hpassed hp) hahead hr
  | enter =>
    obtain ⟨rfl, hmine, hms, hp⟩ := hq
    obtain ⟨hpc', hmine', hu⟩ := h.unlockTree hpc rfl hr
    rw [hpc', hmine', hmine, Set.insert_sdiff_self_of_notMem hlock, realIndexInTree_eq, parent_anc]
    exact ⟨rfl, rfl, hms.cons hu hpc', hpassed hp, 0,
      Nat.lt_of_lt_of_le Nat.zero_lt_one (le_max_right d 1), rfl, rfl⟩
  | down hne =>
    obtain ⟨rfl, hmine, hms, hp, j, hj, rfl, rfl⟩ := hq
    rw [ne_eq, anc_eq_zero_iff n hj] at hne
    obtain ⟨hpc', hmine', hu⟩ := moved_on T hr
    rw [hpc', hmine', hmine, parent_anc]
    exact ⟨rfl, rfl, hms.cons hu hpc', hpassed hp, j + 1, by omega, rfl, rfl⟩
  | rootFault hn => exact absurd (hasNode_zero T) hn
  | root =>
    obtain ⟨rfl, hmine, hms, hp, j, hj, hroot, rfl⟩ := hq
    cases hr
    refine calling_unlock hj hp (fun i _ => by rw [hmine]) ?_ (fun r => ⟨r, rfl⟩) (by rw [← hroot])
    refine iff_of_true ⟨hmine, hms⟩ fun i hi hno => absurd hi ?_
    rwa [← (anc_eq_zero_iff n hj).1 hroot.symm]
  | upFault hn =>
    obtain ⟨_, ⟨j, _, hframes⟩, _⟩ := hq
    exact absurd (hasNode_route T (hframes ▸ List.mem_cons_self ..)) hn
  | up =>
    obtain ⟨hp, ⟨j, hj, hframes⟩, hsame, hkept⟩ := hq
    cases j with
    | zero => cases hframes
    | succ j =>
      rw [hframes] at hsame hkept
      obtain ⟨rfl, rfl⟩ := List.cons.inj hframes
      cases hr
      exact calling_unlock (Nat.lt_of_succ_lt hj) hp hsame hkept (fun r => ⟨_, rfl⟩) rfl
  | failed =>
    obtain ⟨hp, -, -, hkept⟩ := hq
    obtain ⟨hpc', hmine', hu⟩ := moved_on T hr
    rw [hpc', hmine']
    refine fun _ => .inr ⟨hpassed hp, ?_⟩
    have hharmless : Harmless T t ((s, s') :: ms) ↔ Harmless T t ms :=
      ⟨fun h => not_not.1 fun hn => hgone hn h, fun h => h.cons hu hpc'⟩
    rw [Failed, hharmless, hkept]
    simp
  | freed =>
    rw [(moved_on T hr).1]
    trivial
  | clearLock =>
    rw [(h.lockTree hpc rfl hr).1]
    trivial
  | clear =>
    cases hr
    simp [State.goto, Calling]
  | released =>
    rw [(h.unlockTree hpc rfl hr).1]
    exact fun e => absurd e (by decide)

/-- **A call of `t` that has returned -1**: it has changed nothing before its test, or passed
it. -/
theorem failed_call {s' : State τ} (h : Steady T a) (hid : 0 ≤ c.ID)
    (hcall : T.step a (.call t c) = some b)
    (hrun : Run (logging T.step (movesOf t)) (Within t) (b, [(a, b)]) (s', ms))
    (hret : s'.pc t = .user (some (c, -1))) :
    (Locks.mine s'.mutex t = Locks.mine a.mutex t ∧ Harmless T t ms ∧ ¬Admitted t c.ID ms) ∨
      ∃ n : Fin (2 ^ d), c.ID = (n : ℕ) ∧ Admitted t (n : ℕ) ms ∧
        Failed T t n (Locks.mine a.mutex t) (Locks.mine s'.mutex t) ms c := by
  have hb := h.step hcall hid
  obtain ⟨last, hpc, rfl⟩ := step_call hcall
  have hlock : T.lock ∉ Locks.mine a.mutex t := by
    intro hmem
    have hin := (h.base.lock t).1 hmem
    rw [hpc] at hin
    cases hin
  have hfirst (p : Pc) (hp : p ≠ .fault) : Harmless T t [(a, a.goto t p)] ∧
      ∀ ID, ¬Admitted t ID [(a, a.goto t p)] := by
    refine ⟨fun x hx => ?_, fun ID hpass => ?_⟩
    · obtain rfl := List.mem_singleton.1 hx
      exact ⟨untouched_goto .., by simpa using hp⟩
    · simp [Admitted, Admits, hpc] at hpass
  rcases enter_cases T a t c hid with ⟨_, e⟩ | ⟨n, hn, e⟩
  · -- the id is too large, and the call has returned
    rw [e] at hrun hb
    have hq := within_rule (Q := fun p H ms => p = .user (some (c, -1)) ∧
        H = Locks.mine a.mutex t ∧ Harmless T t ms ∧ ¬Admitted t c.ID ms) hrun hb
      ⟨by simp [State.ret], rfl, (hfirst _ Pc.noConfusion).1, (hfirst _ Pc.noConfusion).2 _⟩
      fun s s' ms _ hq hs => by simp [stepThread, hq.1] at hs
    exact .inl hq.2
  · rw [e] at hrun hb
    have hq := within_rule (Q := Calling T t n (Locks.mine a.mutex t)) hrun hb ?_
      fun s s' ms h hq hs => calling_step h hlock hq hs
    · rw [hret] at hq
      rw [hn]
      exact (hq rfl).imp_right fun hf => ⟨n, rfl, hf⟩
    · simp only [State.pc_goto, update_self]
      cases c with
      | acquire | release =>
        exact ⟨hn, rfl, (hfirst _ Pc.noConfusion).1, (hfirst _ Pc.noConfusion).2 _⟩

/-- **An acquire that returns -1 has changed nothing if and only if its id was too large, or
taken when it tested it**: no move of the call has changed `taken_ids`, `num_of_locked` or a
mutex other than the lock of the tree, or went outside `taken_ids`; and afterwards the thread
has the mutexes that it had before. A thread that has locked none of the nodes between the id
and the root gets -1 in no other way. -/
theorem trnmnt_tree_acquire_fails {c : State τ} {ms : Moves τ} (h0 : Fresh T s)
    (hr : Run T.step Indexed s a) (hid : 0 ≤ ID)
    (hcall : T.step a (.call t (.acquire ID)) = some b)
    (hrun : Run (logging T.step (movesOf t)) (Within t) (b, [(a, b)]) (c, ms))
    (hret : c.pc t = .user (some (.acquire ID, -1))) :
    (Harmless T t ms ∧ (∀ m, c.mutex m = .locked t ↔ a.mutex m = .locked t) ↔
      ¬Admitted t ID ms) ∧ ((∀ n : Fin (2 ^ d), ID = (n : ℕ) →
        ∀ i ∈ route n d, a.mutex (T.nodes i) ≠ .locked t) → ¬Admitted t ID ms) := by
  rcases failed_call (c := .acquire ID) (steady_of_run h0 hr) hid hcall hrun hret with
    ⟨hmine, hms, hno⟩ | ⟨n, hn, hpass, hgone, i, hi, hmine⟩
  · exact ⟨iff_of_true ⟨hms, Set.ext_iff.1 hmine⟩ hno, fun _ => hno⟩
  · obtain rfl : ID = (n : ℕ) := hn
    exact ⟨iff_of_false (fun h => hgone h.1) (not_not.2 hpass),
      fun h => absurd hmine (h n rfl i hi)⟩

/-- **A release that returns -1 has changed nothing if and only if** its id was too large or not
taken when it tested it, or the calling thread has locked none of the nodes that `release_lock`
visits. -/
theorem trnmnt_tree_release_fails {c : State τ} {ms : Moves τ} (h0 : Fresh T s)
    (hr : Run T.step Indexed s a) (hid : 0 ≤ ID)
    (hcall : T.step a (.call t (.release ID)) = some b)
    (hrun : Run (logging T.step (movesOf t)) (Within t) (b, [(a, b)]) (c, ms))
    (hret : c.pc t = .user (some (.release ID, -1))) :
    Harmless T t ms ∧ (∀ m, c.mutex m = .locked t ↔ a.mutex m = .locked t) ↔
      ¬Admitted t ID ms ∨ ∀ n : Fin (2 ^ d), ID = (n : ℕ) →
        ∀ i ∈ route n (rounds d), a.mutex (T.nodes i) ≠ .locked t := by
  rcases failed_call (c := .release ID) (steady_of_run h0 hr) hid hcall hrun hret with
    ⟨hmine, hms, hno⟩ | ⟨n, hn, hpass, hkept⟩
  · exact iff_of_true ⟨hms, Set.ext_iff.1 hmine⟩ (.inl hno)
  · obtain rfl : ID = (n : ℕ) := hn
    rw [or_iff_right (not_not.2 hpass), and_comm]
    refine (and_congr_left fun _ => Set.ext_iff.symm).trans (hkept.trans ⟨fun h m hm => ?_,
      fun h => h n rfl⟩)
    obtain rfl : n = m := Fin.ext (Int.ofNat_inj.1 hm)
    exact h

/-- The guard `Indexed`, as a test. -/
def indexedTest (_ : State τ) : Label τ → Bool
  | .call _ c => 0 ≤ c.ID
  | _ => true

omit [DecidableEq τ] in
theorem indexed_of_test (h : indexedTest s l) : Indexed s l s' := by
  cases l with
  | call u c => exact (decide_eq_true_iff (p := 0 ≤ c.ID)).1 h
  | _ => trivial

/-- Thread 0 has acquired the tree with id 0. -/
def acquired : State (Fin 2) :=
  final pairTree.step pairFresh (.call 0 (.acquire 0) :: List.replicate 6 (.step 0))

theorem acquired_run : Run pairTree.step Indexed pairFresh acquired := run_final indexed_of_test

def stepsOnly (_ : State τ × Moves τ) : Label τ → Bool
  | .step _ => true
  | _ => false

omit [DecidableEq τ] in
theorem within_of_steps {x' : State τ × Moves τ} (h : stepsOnly x l) : Within t x l x' := by
  cases l with
  | step => trivial
  | _ => cases h

/-- Thread 1 makes the call `c` then. -/
def following (c : Call) : State (Fin 2) × Moves (Fin 2) :=
  (pairTree.enter acquired 1 c, [(acquired, pairTree.enter acquired 1 c)])

theorem following_step (c : Call) :
    pairTree.step acquired (.call 1 c) = some (pairTree.enter acquired 1 c) := by
  rw [TrnmntTree.step, show acquired.pc 1 = .user none by decide +kernel]

/-- And then `k` steps. -/
def followed (c : Call) (k : ℕ) : State (Fin 2) × Moves (Fin 2) :=
  final (logging pairTree.step (movesOf 1)) (following c) (List.replicate k (.step 1))

theorem followed_run {k : ℕ} (h : (exec (logging pairTree.step (movesOf 1)) stepsOnly
      (following c) (List.replicate k (.step 1))).isSome) :
    Run (logging pairTree.step (movesOf 1)) (Within 1) (following c) (followed c k) :=
  run_final within_of_steps h

/-- Thread 1 asks for the id of thread 0. -/
theorem trnmnt_tree_acquire_fails_taken :
    (followed (.acquire 0) 3).1.pc 1 = .user (some (.acquire 0, -1)) ∧
      Harmless pairTree 1 (followed (.acquire 0) 3).2 := by
  have hret : (followed (.acquire 0) 3).1.pc 1 = .user (some (.acquire 0, -1)) := by
    decide +kernel
  have hrun := followed_run (c := .acquire 0) (k := 3) (by decide +kernel)
  have hfails := trnmnt_tree_acquire_fails pairFresh_fresh acquired_run le_rfl
    (following_step (.acquire 0)) (by rw [Prod.mk.eta]; exact hrun) hret
  refine ⟨hret, (hfails.1.2 (hfails.2 ?_)).1⟩
  intro n _ i hi
  obtain ⟨k, h1, h2, rfl⟩ := mem_route.1 hi
  obtain rfl : k = 1 := by omega
  rw [anc_leaf_root]
  decide +kernel

/-- Thread 0 asks for id 1 then. -/
def askedAgain : State (Fin 2) :=
  final pairTree.step acquired (.call 0 (.acquire 1) :: List.replicate 5 (.step 0))

/-- **The second acquire of a thread.** Id 1 is free. It is marked and counted, the root turns
out to be locked by the thread itself, and the mark and the count stay when the call returns
-1. -/
theorem acquire_leaves_mark : Run pairTree.step free acquired askedAgain ∧
    askedAgain.pc 0 = .user (some (.acquire 1, -1)) ∧ acquired.takenIds 1 = 0 ∧
    acquired.numOfLocked = 1 ∧ askedAgain.takenIds 1 = 1 ∧ askedAgain.numOfLocked = 2 :=
  ⟨run_free, by decide +kernel⟩

/-- Thread 1 tries to release the id of thread 0. -/
theorem trnmnt_tree_release_fails_other :
    (followed (.release 0) 5).1.pc 1 = .user (some (.release 0, -1)) ∧
      Harmless pairTree 1 (followed (.release 0) 5).2 := by
  have hret : (followed (.release 0) 5).1.pc 1 = .user (some (.release 0, -1)) := by
    decide +kernel
  have hrun := followed_run (c := .release 0) (k := 5) (by decide +kernel)
  refine ⟨hret, ((trnmnt_tree_release_fails pairFresh_fresh acquired_run le_rfl
    (following_step (.release 0)) (by rw [Prod.mk.eta]; exact hrun) hret).2 (.inr ?_)).1⟩
  intro n _ i hi
  obtain ⟨k, h1, h2, rfl⟩ := mem_route.1 hi
  obtain rfl : k = 1 := by simp only [rounds] at h2; omega
  rw [anc_leaf_root]
  decide +kernel

theorem quad_depth : (2 : Int) = (2 : ℕ) := rfl

theorem quad_ne_lock {i : Int} (h : 0 ≤ i) : i + 2 ≠ 1 := by omega

/-- A tree for four threads. -/
def quadTree : FullTree 2 where
  depth := 2
  threads := 4
  totalNodes := 7
  lock := 1
  nodes i := i + 2
  depth_eq := quad_depth
  threads_eq := rfl
  totalNodes_eq := rfl
  nodes_inj _ _ _ _ h := (Int.add_left_inj 2).1 h
  nodes_ne_lock _ h := quad_ne_lock h.1

def quadFresh : State (Fin 2) where
  mutex m := if 1 ≤ m ∧ m ≤ 8 then .unlocked else .absent
  takenIds _ := 0
  numOfLocked := 0
  pc _ := .user none

abbrev quad (ls : List (Label (Fin 2))) : State (Fin 2) := final quadTree.step quadFresh ls

/-- Thread 0 acquires the tree with id 0, and thread 1 waits for the root with id 2. Thread 0
releases id 2. -/
def wrongId : List (Label (Fin 2)) :=
  .call 0 (.acquire 0) :: List.replicate 7 (.step 0) ++
    .call 1 (.acquire 2) :: List.replicate 5 (.step 1) ++
    .call 0 (.release 2) :: List.replicate 7 (.step 0)

/-- **A failed release lets a second thread in.** Thread 0 has locked the root and node 1,
thread 1 node 2. The release of id 2 by thread 0 unlocks the root, fails at node 2 and
returns -1; then thread 1 locks the root and its acquire returns 0, while thread 0 has
acquired the tree and not released it. -/
theorem release_unlocks_root : (quad (wrongId.take 14)).mutex (quadTree.nodes 0) = .locked 0 ∧
    (quad wrongId).pc 0 = .user (some (.release 2, -1)) ∧
    (quad wrongId).mutex (quadTree.nodes 0) = .unlocked ∧
    Run quadTree.step free quadFresh (quad (wrongId ++ [.step 1, .step 1])) ∧
    (quad (wrongId ++ [.step 1, .step 1])).pc 1 = .user (some (.acquire 2, 0)) ∧
    (quad (wrongId ++ [.step 1, .step 1])).takenIds 0 = 1 :=
  ⟨by decide +kernel, by decide +kernel, by decide +kernel, run_free, by decide +kernel⟩

end Xv6.TrnmntTree
