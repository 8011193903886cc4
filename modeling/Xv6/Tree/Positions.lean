import Xv6.Lib.Heap
import Xv6.Tree.Model

/-! Where the threads of a tree climb: the leaf of an id, the nodes on the way
from there to the root (`route`) and the mutexes that belong to them. -/

namespace Xv6

open Heap

/-- A tree of depth `d` all of whose mutexes have been allocated: their ids are
different. -/
structure FullTree (d : ℕ) extends TrnmntTree where
  depth_eq : depth = d
  threads_eq : threads = 2 ^ d
  totalNodes_eq : totalNodes = 2 ^ (d + 1) - 1
  nodes_inj : ∀ i j, toTrnmntTree.HasNode i → toTrnmntTree.HasNode j → nodes i = nodes j → i = j
  nodes_ne_lock : ∀ i, toTrnmntTree.HasNode i → nodes i ≠ lock

namespace TrnmntTree

variable {d : ℕ}

instance : CoeOut (FullTree d) TrnmntTree := ⟨FullTree.toTrnmntTree⟩

/-! ## Positions -/

/-- The position of leaf `n`. -/
def leaf (n : Fin (2 ^ d)) : ℕ := 2 ^ d - 1 + n

/-- The inner nodes that an acquire with id `n` locks in its first `k` rounds, the
last one first. -/
def route (n : Fin (2 ^ d)) (k : ℕ) : List Int := (path (leaf n) k).map fun p : ℕ => (p : Int)

theorem leaf_add_one (n : Fin (2 ^ d)) : leaf n + 1 = 2 ^ d + n := by
  have := Nat.two_pow_pos d
  unfold leaf
  omega

variable {k : ℕ}

theorem two_pow_le_leaf (n : Fin (2 ^ d)) (hk : k ≤ d) : 2 ^ k ≤ leaf n + 1 := by
  have := Nat.pow_le_pow_right (show 0 < 2 by decide) hk
  rw [leaf_add_one]
  omega

theorem leaf_lt (n : Fin (2 ^ d)) : leaf n + 1 < 2 ^ (d + 1) := by
  have := n.isLt
  rw [leaf_add_one, pow_succ]
  omega

theorem anc_leaf_root (n : Fin (2 ^ d)) : anc (leaf n) d = 0 :=
  anc_eq_zero (two_pow_le_leaf n le_rfl) (leaf_lt n)

theorem anc_leaf_pos (n : Fin (2 ^ d)) (hk : k < d) : 0 < anc (leaf n) k :=
  anc_pos (two_pow_le_leaf n hk)

@[simp] theorem route_zero (n : Fin (2 ^ d)) : route n 0 = [] := rfl

theorem route_succ (n : Fin (2 ^ d)) (k : ℕ) :
    route n (k + 1) = (anc (leaf n) (k + 1) : Int) :: route n k := rfl

variable {n : Fin (2 ^ d)}

theorem mem_route {p : Int} : p ∈ route n k ↔ ∃ i, 0 < i ∧ i ≤ k ∧ p = anc (leaf n) i := by
  simp only [route, List.mem_map, mem_path]
  constructor
  · rintro ⟨q, ⟨i, h0, h1, rfl⟩, rfl⟩
    exact ⟨i, h0, h1, rfl⟩
  · rintro ⟨i, h0, h1, rfl⟩
    exact ⟨_, ⟨i, h0, h1, rfl⟩, rfl⟩

theorem anc_notMem_route (n : Fin (2 ^ d)) (hk : k < d) :
    (anc (leaf n) (k + 1) : Int) ∉ route n k := by
  intro hm
  simp only [route, List.mem_map] at hm
  obtain ⟨q, hq, e⟩ := hm
  rw [Int.ofNat_inj] at e
  exact anc_notMem_path (two_pow_le_leaf n hk) (e ▸ hq)

theorem parent_anc (n : Fin (2 ^ d)) (k : ℕ) : parent (anc (leaf n) k) = anc (leaf n) (k + 1) :=
  cast_anc_succ _ _

variable (T : FullTree d)

theorem realIndexInTree_eq (n : Fin (2 ^ d)) : T.realIndexInTree (n : ℕ) = anc (leaf n) 0 := by
  have := leaf_add_one n
  have h1 : (leaf n : Int) + 1 = 2 ^ d + n := by exact_mod_cast this
  simp only [realIndexInTree, T.totalNodes_eq, T.threads_eq, pow_succ, anc]
  omega

theorem hasNode_anc (n : Fin (2 ^ d)) (k : ℕ) : T.HasNode (anc (leaf n) k) := by
  have h1 := anc_le (leaf n) k
  have h2 := leaf_lt n
  have h3 : (leaf n : Int) + 1 < 2 ^ (d + 1) := by exact_mod_cast h2
  have h4 : (anc (leaf n) k : Int) ≤ leaf n := by exact_mod_cast h1
  constructor
  · exact Int.natCast_nonneg _
  · rw [T.totalNodes_eq]
    omega

theorem hasNode_zero : T.HasNode 0 := by
  have h := hasNode_anc T ⟨0, Nat.two_pow_pos d⟩ d
  rw [anc_leaf_root] at h
  exact h

theorem hasId (n : Fin (2 ^ d)) : T.HasId (n : ℕ) := by
  have h : ((n : ℕ) : Int) < 2 ^ d := by exact_mod_cast n.isLt
  constructor
  · exact Int.natCast_nonneg _
  · rw [T.threads_eq]
    exact h

theorem hasNode_route {p : Int} (hp : p ∈ route n k) : T.HasNode p := by
  obtain ⟨i, _, _, rfl⟩ := mem_route.1 hp
  exact hasNode_anc T n i

/-! ## What is held where -/

/-- The mutexes of the tree. -/
def mutexes : Set Int := {m | m = T.lock ∨ ∃ i, T.HasNode i ∧ m = T.nodes i}

def nodeMutexes (l : List Int) : Set Int := {m | ∃ p ∈ l, m = T.nodes p}

theorem lock_mem_mutexes : T.lock ∈ mutexes T := .inl rfl

theorem node_mem_mutexes {i : Int} (hi : T.HasNode i) : T.nodes i ∈ mutexes T := .inr ⟨i, hi, rfl⟩

@[simp] theorem nodeMutexes_nil : nodeMutexes T [] = ∅ := by
  simp [nodeMutexes]

theorem nodeMutexes_cons (p : Int) (l : List Int) :
    nodeMutexes T (p :: l) = insert (T.nodes p) (nodeMutexes T l) := by
  ext m
  simp [nodeMutexes]

theorem lock_notMem_route (n : Fin (2 ^ d)) (k : ℕ) : T.lock ∉ nodeMutexes T (route n k) := by
  rintro ⟨p, hp, e⟩
  exact T.nodes_ne_lock p (hasNode_route T hp) e.symm

theorem node_mem_route {p : Int} (hp : T.HasNode p) :
    T.nodes p ∈ nodeMutexes T (route n k) ↔ p ∈ route n k := by
  constructor
  · rintro ⟨q, hq, e⟩
    rw [T.nodes_inj p q hp (hasNode_route T hq) e]
    exact hq
  · exact fun h => ⟨p, h, rfl⟩

theorem next_notMem_route (n : Fin (2 ^ d)) (hk : k < d) :
    T.nodes (anc (leaf n) (k + 1)) ∉ nodeMutexes T (route n k) := by
  rw [node_mem_route T (hasNode_anc T n _)]
  exact anc_notMem_route n hk

/-- A tree that nobody has used yet. -/
structure Fresh {τ : Type*} (s : State τ) : Prop where
  lock : s.mutex T.lock = .unlocked
  nodes : ∀ i, T.HasNode i → s.mutex (T.nodes i) = .unlocked
  takenIds : ∀ ID, T.HasId ID → s.takenIds ID = 0
  numOfLocked : s.numOfLocked = 0
  pc : ∀ t, s.pc t = .user none

variable {T} {τ : Type*}

theorem Fresh.unlocked {s : State τ} (h : Fresh T s) {m : Int} (hm : m ∈ mutexes T) :
    s.mutex m = .unlocked := by
  rcases hm with rfl | ⟨i, hi, rfl⟩
  · exact h.lock
  · exact h.nodes i hi

theorem enter_eq [DecidableEq τ] (n : Fin (2 ^ d)) (s : State τ) (t : τ) {c : Call}
    (hc : c.ID = (n : ℕ)) : T.enter s t c = s.goto t c.start := by
  have h := (hasId T n).2
  rw [enter, if_neg (by omega)]

/-- The start of a call with an id that is not negative. -/
theorem enter_cases [DecidableEq τ] (T : FullTree d) (s : State τ) (t : τ) (c : Call)
    (hc : 0 ≤ c.ID) : (2 ^ d ≤ c.ID ∧ T.enter s t c = s.ret t c (-1)) ∨
      ∃ n : Fin (2 ^ d), c.ID = (n : ℕ) ∧ T.enter s t c = s.goto t c.start := by
  by_cases hlt : c.ID < 2 ^ d
  · right
    have hnat : c.ID.toNat < 2 ^ d := by
      have : (c.ID.toNat : Int) < ((2 ^ d : ℕ) : Int) := by
        rw [Int.toNat_of_nonneg hc]
        exact_mod_cast hlt
      exact_mod_cast this
    have hn : c.ID = ((⟨c.ID.toNat, hnat⟩ : Fin (2 ^ d)) : ℕ) := (Int.toNat_of_nonneg hc).symm
    exact ⟨_, hn, enter_eq _ s t hn⟩
  · left
    refine ⟨not_lt.1 hlt, ?_⟩
    rw [enter, T.threads_eq, if_pos (by omega)]

/-- `release_lock` unlocks the node of the frame that is first in line. -/
theorem held_unlock (n : Fin (2 ^ d)) {j : ℕ} (hj : j < d) : nodeMutexes T (route n j) =
      nodeMutexes T (route n (j + 1)) \ {T.nodes (anc (leaf n) (j + 1))} := by
  rw [route_succ, nodeMutexes_cons, Set.insert_sdiff_self_of_notMem (next_notMem_route T n hj)]

end TrnmntTree
end Xv6
