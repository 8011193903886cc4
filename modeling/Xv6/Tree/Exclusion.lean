import Xv6.Tree.Progress

/-! The tree is a lock: one thread at a time has acquired it, and neither of its
functions fails when they are used as intended. -/

namespace Xv6.TrnmntTree

open Heap Runs

variable {d : ℕ} {T : FullTree d} {τ : Type*} {ids : τ ↪ Fin (2 ^ d)} {s s' : State τ} {t u : τ}

/-- From the return of `trnmnt_tree_acquire` to the unlocking of the root in
`trnmnt_tree_release`. -/
def Pc.inSection : Pc → Bool
  | .user (some (.acquire _, r)) => r = 0
  | .releaseLock _ | .releaseTest _ | .releaseFree _ | .releaseUnlock _ | .releaseDown .. => true
  | _ => false

theorem root_mem_route (hd : 1 ≤ d) (n : Fin (2 ^ d)) : T.nodes 0 ∈ nodeMutexes T (route n d) := by
  have hroot : (0 : Int) = anc (leaf n) d := by rw [anc_leaf_root]; rfl
  exact ⟨0, mem_route.2 ⟨d, hd, le_rfl, hroot⟩, rfl⟩

/-- Whoever is in the section holds the root. -/
theorem root_held (hd : 1 ≤ d) {n : Fin (2 ^ d)} {p : Pc} (hp : p.inSection) :
    T.nodes 0 ∈ held T n p := by
  have hroot := root_mem_route (T := T) hd n
  cases p with
  | user last =>
    rcases last with _ | ⟨ID | ID, r⟩
    · cases hp
    · exact hroot
    · cases hp
  | releaseLock | releaseDown => exact hroot
  | releaseTest | releaseFree | releaseUnlock => exact Set.mem_insert_of_mem _ hroot
  | _ => cases hp

theorem Inv.node_iff (h : Inv T ids s) {i : Int} (hi : T.HasNode i) :
    s.mutex (T.nodes i) = .locked t ↔ T.nodes i ∈ held T (ids t) (s.pc t) :=
  h.owns t _ (node_mem_mutexes T hi)

theorem Inv.ret_eq_zero (h : Inv T ids s) {c : Call} {r : Int}
    (hpc : s.pc t = .user (some (c, r))) : r = 0 := by
  have hshape := h.shape t
  rw [hpc] at hshape
  exact hshape.2

variable [DecidableEq τ]

/-- **The tree is a lock.** In every run of threads with ids of their own that
acquire and release the tree by turns: one thread at a time is between an acquire
that returned 0 and its release; every call that returns has returned 0 and every
call can return; after its acquire a thread owns the `d` nodes on the way from its
leaf to the root and no others, and after its release it owns none. -/
theorem trnmnt_tree_exclusion (hd : 1 ≤ d) (h0 : Fresh T s)
    (hr : Run T.step (Disciplined ids) s s') :
    (∀ t u, (s'.pc t).inSection → (s'.pc u).inSection → t = u) ∧
    (∀ t c r, s'.pc t = .user (some (c, r)) → r = 0) ∧ (∀ t, s'.pc t ≠ .fault) ∧
    (∃ s'', Run T.step (Disciplined ids) s' s'' ∧ ∀ t, (s''.pc t).inside = false) ∧
    (∀ t ID, s'.pc t = .user (some (.acquire ID, 0)) → (route (ids t) d).Nodup ∧
      (route (ids t) d).length = d ∧
      ∀ i, T.HasNode i → (s'.mutex (T.nodes i) = .locked t ↔ i ∈ route (ids t) d)) ∧
    ∀ t ID, s'.pc t = .user (some (.release ID, 0)) →
      ∀ i, T.HasNode i → s'.mutex (T.nodes i) ≠ .locked t := by
  have h := inv_of_run hd h0 hr
  refine ⟨?_, ?_, ?_, ?_, ?_, ?_⟩
  · intro t u ht hu
    exact h.owns.unique (node_mem_mutexes T (hasNode_zero T)) (root_held hd ht) (root_held hd hu)
  · exact fun t c r hpc => h.ret_eq_zero hpc
  · intro t hpc
    have hshape := h.shape t
    rw [hpc] at hshape
    exact hshape
  · obtain ⟨s'', hr', hidle⟩ := h.completes hd
    refine ⟨s'', hr', fun t => ?_⟩
    have ht := hidle t
    cases hpc : s''.pc t with
    | user | fault => rfl
    | _ => rw [hpc] at ht; cases ht
  · intro t ID hpc
    refine ⟨?_, length_route _ _, fun i hi => ?_⟩
    · exact (path_nodup (two_pow_le_leaf _ le_rfl)).map fun _ _ e => Int.ofNat_inj.1 e
    · rw [h.node_iff hi, hpc]
      exact node_mem_route T hi
  · intro t ID hpc i hi e
    rw [h.node_iff hi, hpc] at e
    exact e

theorem trnmnt_tree_exclusion_contested :
    (contested.pc 0).inSection ∧ ∀ u, (contested.pc u).inSection → u = 0 := by
  have h0 : (contested.pc 0).inSection := by decide +kernel
  exact ⟨h0, fun u hu => (trnmnt_tree_exclusion le_rfl pairFresh_fresh contested_run).1 u 0 hu h0⟩

end Xv6.TrnmntTree
