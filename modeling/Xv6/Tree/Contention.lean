import Mathlib.Data.Set.Card
import Xv6.Tree.Progress

/-! A node of the tree is contested by two threads at most. Whoever has a node or
asks for it came from one of its two children and has that child still, since
nodes are locked from the leaf upwards and unlocked from the root downwards. -/

namespace Xv6.TrnmntTree

open Heap Runs

variable {d : ℕ} {T : FullTree d} {τ : Type*} {ids : τ ↪ Fin (2 ^ d)} {s s' : State τ} {t u : τ}

/-- `t` has locked the mutex of node `i`, or its next step is to lock it. -/
def Contends (T : TrnmntTree) (s : State τ) (t : τ) (i : Int) : Prop :=
  s.mutex (T.nodes i) = .locked t ∨ (s.pc t).wants T = some (T.nodes i)

/-- Position `j` is on the way from the leaf of `n` to the root, the root
excluded. -/
def Passes (n : Fin (2 ^ d)) (j : Int) : Prop := ∃ k < d, j = anc (leaf n) k

theorem log_leaf (n : Fin (2 ^ d)) : Nat.log 2 (leaf n + 1) = d :=
  (Nat.log_eq_iff (.inr ⟨by decide, by omega⟩)).2 ⟨two_pow_le_leaf n le_rfl, leaf_lt n⟩

variable {n : Fin (2 ^ d)}

/-- Leaves are on one level, and so are their ancestors of one order. -/
theorem order_eq {n' : Fin (2 ^ d)} {k k' : ℕ} (hk : k ≤ d) (hk' : k' ≤ d)
    (h : anc (leaf n) k = anc (leaf n') k') : k = k' := by
  have h1 := log_anc (two_pow_le_leaf n hk)
  have h2 := log_anc (two_pow_le_leaf n' hk')
  rw [log_leaf] at h1 h2
  rw [h] at h1
  omega

theorem leaf_inj {n' : Fin (2 ^ d)} (h : leaf n = leaf n') : n = n' := by
  unfold leaf at h
  exact Fin.ext (by omega)

/-! ## The node below -/

/-- The `k`-th node of a route is held, or it is the leaf. -/
def Below (T : FullTree d) (n : Fin (2 ^ d)) (H : Set Int) (k : ℕ) : Prop :=
  k = 0 ∨ T.nodes (anc (leaf n) k) ∈ H

variable {H : Set Int}

theorem below_route {j k : ℕ} (hkj : k ≤ j)
    (hH : nodeMutexes T (route n j) ⊆ H) : Below T n H k := by
  rcases Nat.eq_zero_or_pos k with rfl | hk
  · exact .inl rfl
  · exact .inr (hH ⟨_, mem_route.2 ⟨k, hk, hkj, rfl⟩, rfl⟩)

/-- Node `i` is the `k`-th of a route, `k` being positive, and the one before it
is held. -/
def Climbed (T : FullTree d) (n : Fin (2 ^ d)) (H : Set Int) (i : Int) : Prop :=
  ∃ k < d, i = anc (leaf n) (k + 1) ∧ Below T n H k

variable {i : Int}

/-- A thread holds the first nodes of its route, up to some one of them. -/
theorem climbed_of_route {j : ℕ} (hj : j ≤ d)
    (hH : nodeMutexes T (route n j) ⊆ H) (hi : i ∈ route n j) : Climbed T n H i := by
  obtain ⟨k, hk, hkj, rfl⟩ := mem_route.1 hi
  cases k with
  | zero => omega
  | succ k => exact ⟨k, by omega, rfl, below_route (by omega) hH⟩

/-- The nodes that a thread holds are those of a part of its route, from the leaf
on. -/
theorem keeps_route {b : Bool} {p : Pc} (hv : Local n b p) :
    ∃ j ≤ d, nodeMutexes T (route n j) ⊆ keeps T n b p ∧
      keeps T n b p ⊆ insert T.lock (nodeMutexes T (route n j)) := by
  have hrest : ∃ j ≤ d, nodeMutexes T (route n j) = rest T n b := by
    cases b with
    | true => exact ⟨d, le_rfl, rfl⟩
    | false => exact ⟨0, Nat.zero_le d, nodeMutexes_nil T⟩
  have hnone : nodeMutexes T (route n 0) = ∅ := nodeMutexes_nil T
  cases p with
  | user | acquireLock | releaseLock =>
    obtain ⟨j, hj, e⟩ := hrest
    exact ⟨j, hj, e.subset, e.symm.subset.trans (Set.subset_insert _ _)⟩
  | acquireTest | acquireTaken | releaseTest | releaseFree | releaseUnlock =>
    obtain ⟨j, hj, e⟩ := hrest
    refine ⟨j, hj, e.subset.trans (Set.subset_insert _ _), ?_⟩
    rw [e]
    exact subset_rfl
  | acquireTake | acquireUnlock | clear | clearUnlock =>
    refine ⟨0, Nat.zero_le d, ?_, ?_⟩
    · rw [hnone]
      exact Set.empty_subset _
    · rw [hnone, insert_empty_eq]
      exact Set.Subset.refl _
  | climb ID i q => exact ⟨i, hv.2.2.1, subset_rfl, Set.subset_insert _ _⟩
  | releaseDown => exact ⟨d, le_rfl, subset_rfl, Set.subset_insert _ _⟩
  | releaseUp ID frames sum =>
    obtain ⟨_, _, _, j, hj, rfl⟩ := hv
    exact ⟨j, hj.le, subset_rfl, Set.subset_insert _ _⟩
  | clearLock =>
    refine ⟨0, Nat.zero_le d, hnone.subset, Set.empty_subset _⟩
  | fault => exact hv.elim

/-- **The node below is held.** -/
theorem Use.climbed (h : Use T ids s) (hi : T.HasNode i) (hc : Contends T s t i) :
    Climbed T (ids t) (keeps T (ids t) (s.marked (ids t)) (s.pc t)) i := by
  rcases hc with hlocked | hwants
  · have hm := (h.owns t _ (node_mem_mutexes T hi)).1 hlocked
    obtain ⟨j, hj, hsub, hsup⟩ := keeps_route (T := T) (h.vars t)
    apply climbed_of_route hj hsub
    rcases hsup hm with e | hroute
    · exact absurd e (T.nodes_ne_lock i hi)
    · exact (node_mem_route T hi).1 hroute
  · have hvars := h.vars t
    cases hpc : s.pc t with
    | climb ID k q =>
      rw [hpc] at hvars hwants
      obtain ⟨_, _, _, rfl⟩ := hvars
      obtain ⟨hk, e⟩ := wants_climb hwants
      rw [parent_anc] at e
      have hnode := hasNode_anc T (ids t) (k + 1)
      exact ⟨k, hk, T.nodes_inj _ _ hi hnode e, below_route le_rfl subset_rfl⟩
    | acquireLock | releaseLock | clearLock =>
      rw [hpc] at hwants
      exact absurd (Option.some.inj hwants).symm (T.nodes_ne_lock i hi)
    | _ => rw [hpc] at hwants; cases hwants

theorem passes_climbed (h : Climbed T n H i) : Passes n (2 * i + 1) ∨ Passes n (2 * i + 2) := by
  obtain ⟨k, hk, rfl, _⟩ := h
  rcases child_cases (anc_leaf_pos n hk) with e | e
  · exact .inl ⟨k, hk, by rw [e]; push_cast; ring⟩
  · exact .inr ⟨k, hk, by rw [e]; push_cast; ring⟩

/-- A thread that came to node `i` by its child `j` has locked `j`, or `j` is its
leaf. -/
theorem Climbed.child {j : Int} (h : Climbed T n H i)
    (hp : Passes n j) (hj : parent j = i) : ∃ k < d, j = anc (leaf n) k ∧ Below T n H k := by
  obtain ⟨k, hk, hi, hbelow⟩ := h
  obtain ⟨k', hk', rfl⟩ := hp
  rw [parent_anc, hi, Int.ofNat_inj] at hj
  obtain rfl : k' = k := Nat.succ.inj (order_eq hk' hk hj)
  exact ⟨k', hk, rfl, hbelow⟩

theorem Use.contender_unique (h : Use T ids s) {j : Int} (hi : T.HasNode i)
    (hj : parent j = i) (ht : Contends T s t i) (hu : Contends T s u i)
    (hpt : Passes (ids t) j) (hpu : Passes (ids u) j) : t = u := by
  obtain ⟨k, hk, rfl, hbt⟩ := (h.climbed hi ht).child hpt hj
  obtain ⟨k', hk', e, hbu⟩ := (h.climbed hi hu).child hpu hj
  rw [Int.ofNat_inj] at e
  obtain rfl : k = k' := order_eq hk.le hk'.le e
  rcases hbt with rfl | hmt
  · exact ids.injective (leaf_inj e)
  · rcases hbu with rfl | hmu
    · exact ids.injective (leaf_inj e)
    · rw [← e] at hmu
      exact h.owns.unique (node_mem_mutexes T (hasNode_anc T (ids t) k)) hmt hmu

variable [DecidableEq τ]

/-- **The tournament.** In every run of threads with ids of their own, two threads
at most have a node or ask for it. Each of them comes from one of the children of
the node, and at most one from each. -/
theorem node_contention (hd : 1 ≤ d) (h0 : Fresh T s) (hr : Run T.step (OwnIds ids) s s')
    {i : Int} (hi : T.HasNode i) : {t | Contends T s' t i}.encard ≤ 2 ∧
    (∀ t, Contends T s' t i →
      Passes (ids t) (2 * i + 1) ∨ Passes (ids t) (2 * i + 2)) ∧
    ∀ j, (j = 2 * i + 1 ∨ j = 2 * i + 2) → ∀ t u, Contends T s' t i →
      Contends T s' u i → Passes (ids t) j → Passes (ids u) j → t = u := by
  have h := use_of_run hd h0 hr
  have hside : ∀ t, Contends T s' t i →
      Passes (ids t) (2 * i + 1) ∨ Passes (ids t) (2 * i + 2) :=
    fun t ht => passes_climbed (h.climbed hi ht)
  have hone : ∀ j, (j = 2 * i + 1 ∨ j = 2 * i + 2) → ∀ t u, Contends T s' t i →
      Contends T s' u i → Passes (ids t) j → Passes (ids u) j → t = u := by
    intro j hj t u ht hu hpt hpu
    refine h.contender_unique hi ?_ ht hu hpt hpu
    have hnonneg := hi.1
    rw [parent, Int.tdiv_eq_ediv_of_nonneg (by omega)]
    omega
  refine ⟨?_, hside, hone⟩
  -- those from the left child and those from the right one
  have hcover : {t | Contends T s' t i} ⊆
      {t | Contends T s' t i ∧ Passes (ids t) (2 * i + 1)} ∪
        {t | Contends T s' t i ∧ Passes (ids t) (2 * i + 2)} := by
    intro t ht
    exact (hside t ht).imp (fun hp => ⟨ht, hp⟩) fun hp => ⟨ht, hp⟩
  have hle : ∀ j, (j = 2 * i + 1 ∨ j = 2 * i + 2) →
      {t | Contends T s' t i ∧ Passes (ids t) j}.encard ≤ 1 := by
    intro j hj
    rw [Set.encard_le_one_iff]
    rintro t u ⟨ht, hpt⟩ ⟨hu, hpu⟩
    exact hone j hj t u ht hu hpt hpu
  calc {t | Contends T s' t i}.encard
      ≤ _ := Set.encard_le_encard hcover
    _ ≤ _ := Set.encard_union_le _ _
    _ ≤ 1 + 1 := add_le_add (hle _ (.inl rfl)) (hle _ (.inr rfl))
    _ = 2 := one_add_one_eq_two

/-- Both threads contend for the root: one has it, the other one waits. -/
theorem node_contention_contested :
    Contends pairTree contested 0 0 ∧ Contends pairTree contested 1 0 ∧
      {t | Contends pairTree contested t 0}.encard ≤ 2 := by
  refine ⟨.inl (by decide +kernel), .inr (by decide +kernel), ?_⟩
  have hr : Run pairTree.step (OwnIds pairIds) pairFresh contested :=
    contested_run.mono fun _ _ _ _ hg => hg.ownIds
  exact (node_contention le_rfl pairFresh_fresh hr (hasNode_zero pairTree)).1

end Xv6.TrnmntTree
