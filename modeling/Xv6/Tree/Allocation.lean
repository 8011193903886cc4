import Mathlib.Algebra.Order.Ring.Int
import Mathlib.Data.Fintype.Card
import Xv6.Tree.Lifecycle

/-! What `trnmnt_tree_alloc` makes of the mutex table and of the memory that it gets.
Mutexes are given new ids in the order of their allocation until the table is full;
from then on the ids are -1. -/

namespace Xv6

open Function

variable {τ : Type*}

namespace MutexTable

/-- Ids belong to one entry, new ones are larger than all others, and the mutexes that exist
are those of the entries. -/
structure Valid (tb : MutexTable τ) : Prop where
  nextmid_pos : 0 < tb.nextmid
  mid_nonneg : ∀ m, 0 ≤ tb.mid m
  mid_lt : ∀ m, tb.mid m < tb.nextmid
  mid_inj : ∀ m n, tb.mid m = tb.mid n → tb.mid m ≠ 0 → m = n
  cells : ∀ id, tb.cells id ≠ .absent ↔ id ≠ 0 ∧ ∃ m, tb.mid m = id

/-- How many entries are free. -/
def free (tb : MutexTable τ) : ℕ := (Finset.univ.filter fun m => tb.mid m = 0).card

variable {tb tb' tb'' : MutexTable τ} {m : MutexIx} {id : Int}

theorem find_some (h : tb.find id = some m) : tb.mid m = id := by
  simpa using List.find?_some h

theorem find_none (h : tb.find id = none) (m : MutexIx) : tb.mid m ≠ id := by
  simpa using List.find?_eq_none.1 h m (List.mem_finRange m)

theorem exists_find (h : tb.mid m = id) : ∃ n, tb.find id = some n := by
  cases hf : tb.find id with
  | none => exact absurd h (find_none hf m)
  | some n => exact ⟨n, rfl⟩

theorem Valid.absent_of_neg (h : tb.Valid) (hid : id < 0) : tb.cells id = .absent := by
  by_contra hne
  obtain ⟨_, m, rfl⟩ := (h.cells id).1 hne
  have := h.mid_nonneg m
  omega

theorem find_zero_isSome : (tb.find 0).isSome ↔ 0 < tb.free := by
  rw [free, Finset.card_pos, Option.isSome_iff_exists]
  constructor
  · rintro ⟨m, hm⟩
    exact ⟨m, by simpa using find_some hm⟩
  · rintro ⟨m, hm⟩
    exact exists_find (by simpa using hm)

/-- `tb'` is `tb` after `j` allocations that returned an id. -/
structure Grown (tb tb' : MutexTable τ) (j : ℕ) : Prop where
  pos : 0 < tb.nextmid
  valid : tb'.Valid
  nextmid : tb'.nextmid = tb.nextmid + j
  old : ∀ m, tb.mid m ≠ 0 → tb'.mid m = tb.mid m
  new : ∀ m, tb.mid m = 0 → tb'.mid m ≠ 0 → tb.nextmid ≤ tb'.mid m
  found : ∀ id, tb.nextmid ≤ id → id < tb.nextmid + j → ∃ m, tb'.mid m = id
  cells : ∀ id, tb'.cells id =
    if tb.nextmid ≤ id ∧ id < tb.nextmid + j then .unlocked else tb.cells id
  free : tb'.free + j = tb.free

theorem Grown.refl (h : tb.Valid) : Grown tb tb 0 := by
  refine ⟨h.nextmid_pos, h, by simp, fun _ _ => rfl, fun m h0 h1 => absurd h0 h1, ?_,
    fun id => ?_, rfl⟩
  · intro id h1 h2
    omega
  · rw [if_neg (by omega)]

theorem Grown.trans {i j : ℕ} (h : Grown tb tb' i) (h' : Grown tb' tb'' j) :
    Grown tb tb'' (i + j) := by
  have hnext := h.nextmid
  have hnext' := h'.nextmid
  have hpos := h.pos
  refine ⟨hpos, h'.valid, ?_, ?_, ?_, ?_, ?_, ?_⟩
  · push_cast
    omega
  · intro m hm
    rw [h'.old m (by rw [h.old m hm]; exact hm), h.old m hm]
  · intro m h0 h1
    by_cases hm : tb'.mid m = 0
    · have := h'.new m hm h1
      omega
    · rw [h'.old m hm]
      exact h.new m h0 hm
  · intro id h1 h2
    by_cases hid : id < tb.nextmid + i
    · obtain ⟨m, hm⟩ := h.found id h1 hid
      exact ⟨m, (h'.old m (by omega)).trans hm⟩
    · exact h'.found id (by omega) (by push_cast at h2; omega)
  · intro id
    rw [h'.cells id, h.cells id]
    push_cast
    split
    · rw [if_pos (by omega)]
    · split
      · rw [if_pos (by omega)]
      · rw [if_neg (by omega)]
  · have := h.free
    have := h'.free
    omega

theorem Valid.allocEntry (h : tb.Valid) (hm : tb.mid m = 0) : (tb.allocEntry m).Valid := by
  have hpos := h.nextmid_pos
  have hmid : ∀ n, n ≠ m → (tb.allocEntry m).mid n = tb.mid n := fun n hn => update_of_ne hn _ _
  have hself : (tb.allocEntry m).mid m = tb.nextmid := update_self ..
  have hnext : (tb.allocEntry m).nextmid = tb.nextmid + 1 := rfl
  have hids : Ids.Distinct tb.mid tb.nextmid := ⟨h.mid_nonneg, h.mid_lt, h.mid_inj⟩
  obtain ⟨h1, h2, h3⟩ : Ids.Distinct (tb.allocEntry m).mid (tb.allocEntry m).nextmid := by
    refine hids.step (some m) (by omega) fun n => ?_
    rcases eq_or_ne n m with rfl | hn
    · exact .inr (.inr ⟨rfl, hself, by omega⟩)
    · exact .inl (hmid n hn)
  refine ⟨by omega, h1, h2, h3, fun id => ?_⟩
  rcases eq_or_ne id tb.nextmid with rfl | hid
  · have hcell : (tb.allocEntry m).cells tb.nextmid = .unlocked := update_self ..
    rw [hcell]
    exact ⟨fun _ => ⟨hpos.ne', m, hself⟩, fun _ => by simp⟩
  · have hcell : (tb.allocEntry m).cells id = tb.cells id := update_of_ne hid _ _
    rw [hcell, h.cells id]
    refine and_congr_right fun h0 => exists_congr fun n => ?_
    rcases eq_or_ne n m with rfl | hn
    · rw [hself, hm]
      exact iff_of_false (Ne.symm h0) (Ne.symm hid)
    · rw [hmid n hn]

theorem free_allocEntry (hpos : 0 < tb.nextmid) (hm : tb.mid m = 0) :
    (tb.allocEntry m).free + 1 = tb.free := by
  have hfilter : (Finset.univ.filter fun n => (tb.allocEntry m).mid n = 0) =
      (Finset.univ.filter fun n => tb.mid n = 0).erase m := by
    ext n
    rw [Finset.mem_erase, Finset.mem_filter, Finset.mem_filter, MutexTable.allocEntry]
    rcases eq_or_ne n m with rfl | hn
    · simp [hpos.ne']
    · simp [hn]
  have hmem : m ∈ Finset.univ.filter fun n => tb.mid n = 0 := by simpa using hm
  rw [free, hfilter, Finset.card_erase_add_one hmem]
  rfl

theorem Valid.alloc (h : tb.Valid) (hf : 0 < tb.free) :
    tb.kthreadMutexAlloc.1 = tb.nextmid ∧ Grown tb tb.kthreadMutexAlloc.2 1 := by
  obtain ⟨m, hm⟩ := Option.isSome_iff_exists.1 (find_zero_isSome.2 hf)
  have hm0 := find_some hm
  simp only [kthreadMutexAlloc, hm, true_and]
  refine ⟨h.nextmid_pos, h.allocEntry hm0, rfl, fun n hn => ?_, fun n h0 h1 => ?_,
    fun id h1 h2 => ?_, fun id => ?_, free_allocEntry h.nextmid_pos hm0⟩
  · have hnm : n ≠ m := by
      rintro rfl
      exact hn hm0
    exact update_of_ne hnm _ _
  · rcases eq_or_ne n m with rfl | hnm
    · exact (update_self n tb.nextmid tb.mid).ge
    · exact absurd ((update_of_ne hnm _ _).trans h0) h1
  · have hself : (tb.allocEntry m).mid m = tb.nextmid := update_self ..
    exact ⟨m, by omega⟩
  · simp only [MutexTable.allocEntry]
    rcases eq_or_ne id tb.nextmid with rfl | hid
    · rw [update_self, if_pos (by omega)]
    · rw [update_of_ne hid, if_neg (by omega)]

/-- The state of a mutex that exists does not matter. -/
theorem Valid.setCell (h : tb.Valid) {c : Locks.Cell τ} (hid : tb.cells id ≠ .absent)
    (hc : c ≠ .absent) : ({ tb with cells := update tb.cells id c }).Valid := by
  refine ⟨h.nextmid_pos, h.mid_nonneg, h.mid_lt, h.mid_inj, fun v => ?_⟩
  rw [← h.cells v]
  rcases eq_or_ne v id with rfl | hv
  · simp [hc, hid]
  · simp [hv]

/-- Allocations while another mutex, which is unlocked afterwards, is locked. -/
theorem Grown.relock {c : Locks.Cell τ} {j : ℕ} (hid : id < tb.nextmid)
    (hfree : tb.cells id = .unlocked) (h : Grown { tb with cells := update tb.cells id c } tb' j)
    (hcell : tb'.cells id ≠ .absent) :
    Grown tb { tb' with cells := update tb'.cells id .unlocked } j := by
  refine ⟨h.pos, h.valid.setCell hcell (by simp), h.nextmid, h.old, h.new, h.found, fun v => ?_,
    h.free⟩
  rcases eq_or_ne v id with rfl | hv
  · rw [if_neg (by omega), hfree]
    exact update_self ..
  · have hcells := h.cells v
    simp only [update_of_ne hv] at hcells ⊢
    exact hcells

theorem alloc_full (hf : tb.free = 0) : tb.kthreadMutexAlloc = (-1, tb) := by
  have hnone : tb.find 0 = none := by
    rw [← Option.not_isSome_iff_eq_none, find_zero_isSome]
    omega
  simp [kthreadMutexAlloc, hnone]

end MutexTable

/-! ## The kernel's table -/

namespace Kernel

open MutexTable

variable {k : Kernel} {r : ThreadRef} {id : Int}

theorem mutexTable_valid (hk : MutexInv k) : k.mutexTable.Valid := by
  refine ⟨hk.nextmid_pos, hk.mid_nonneg, hk.mid_lt, hk.mid_inj, fun id => ?_⟩
  rcases k.lockTable_cases id with ⟨m, rfl, h0⟩ | ⟨hno, habsent⟩
  · refine iff_of_true ?_ ⟨h0, m, rfl⟩
    show k.lockTable (k.mutex m).mid ≠ .absent
    rw [hk.lockTable_mid h0]
    unfold Mutex.cell
    split <;> simp
  · refine iff_of_false (not_not.2 habsent) ?_
    rintro ⟨h0, m, hm⟩
    exact h0 (hno m hm)

@[simp] theorem sysret_mutexTable (v : Int) : (k.sysret r v).mutexTable = k.mutexTable := rfl

/-- **`kthread_mutex_dealloc`** as it changes the table, and what it returns. -/
theorem kthreadMutexDealloc_table (hk : MutexInv k) (h0 : id ≠ 0) :
    (k.kthreadMutexDealloc r id).mutexTable = (k.mutexTable.kthreadMutexDealloc id).2 ∧
      ((k.kthreadMutexDealloc r id).thread r).context =
        .ret (k.mutexTable.kthreadMutexDealloc id).1 := by
  have hfind : k.mutexTable.find id = k.findMutex id := rfl
  cases hm : k.findMutex id with
  | none =>
    simp [kthreadMutexDealloc, mutexFree, MutexTable.kthreadMutexDealloc, hfind, hm]
  | some m =>
    have hmid := findMutex_some hm
    have hcell : k.mutexTable.cells id = (k.mutex m).cell := lockTable_find h0 hm
    simp only [kthreadMutexDealloc, mutexFree, MutexTable.kthreadMutexDealloc, hfind, hm, hcell]
    cases hs : (k.mutex m).state with
    | MLOCKED =>
      obtain ⟨o, ho⟩ := hk.locked_owned m hs
      rw [hk.cell_eq_locked.2 ho]
      simp
    | MUNLOCKED =>
      have hk' : MutexInv (k.freeEntry r m) := hk.freeEntry
      have hself : ((k.freeEntry r m).mutex m).mid = 0 := by simp [Kernel.freeEntry, Mutex.free]
      have hothers : ∀ n, n ≠ m → (k.freeEntry r m).mutex n = k.mutex n := by
        intro n hn
        simp [Kernel.freeEntry, hn]
      rw [cell_of_unlocked (by simp [hs])]
      simp only [reduceCtorEq, if_false]
      refine ⟨?_, by simp⟩
      simp only [mutexTable, MutexTable.freeEntry, MutexTable.mk.injEq]
      refine ⟨?_, rfl, ?_⟩
      · funext n
        rcases eq_or_ne n m with rfl | hn
        · rw [update_self]
          exact hself
        · rw [update_of_ne hn]
          exact congrArg Mutex.mid (hothers n hn)
      · show (k.freeEntry r m).lockTable = _
        rw [hk.lockTable_entry hk' hothers, hself, hmid, if_pos rfl, update_comm h0, lockTable_zero]

/-- The only mutex is deallocated. -/
theorem kthreadMutexDealloc_table_only :
    (allocated.kthreadMutexDealloc (0, 0) 1).mutexTable.mid 0 = 0 ∧
      ((allocated.kthreadMutexDealloc (0, 0) 1).thread (0, 0)).context = .ret 0 := by
  have h := kthreadMutexDealloc_table (r := (0, 0)) allocated_inv.mutexes Int.one_ne_zero
  rw [h.1, h.2]
  decide +kernel

end Kernel

namespace TrnmntTree

open MutexTable

variable {tb : MutexTable τ}

/-! ## `trnmnt_tree_alloc` -/

/-- The first allocations get the next ids, and the others fail when the table is full. -/
theorem allocNodes_spec (h : tb.Valid) (k : ℕ) : (allocNodes k tb).1.length = k ∧
    (∀ i < k, (allocNodes k tb).1[i]? = some (if i < tb.free then tb.nextmid + i else -1)) ∧
    Grown tb (allocNodes k tb).2 (min k tb.free) := by
  induction k generalizing tb with
  | zero =>
    refine ⟨rfl, fun i hi => absurd hi (Nat.not_lt_zero i), ?_⟩
    rw [Nat.zero_min]
    exact Grown.refl h
  | succ k ih =>
    rcases Nat.eq_zero_or_pos tb.free with hf | hf
    · obtain ⟨hlen, hids, hgrown⟩ := ih h
      simp only [allocNodes, alloc_full hf]
      rw [hf, Nat.min_zero] at hgrown ⊢
      refine ⟨by simp [hlen], fun i hi => ?_, hgrown⟩
      cases i with
      | zero => simp
      | succ i => simpa [hf] using hids i (by omega)
    · obtain ⟨hid, hone⟩ := h.alloc hf
      obtain ⟨hlen, hids, hgrown⟩ := ih hone.valid
      have hfree := hone.free
      have hnext := hone.nextmid
      simp only [allocNodes, hid]
      refine ⟨by simp [hlen], fun i hi => ?_, ?_⟩
      · cases i with
        | zero => simp [hf]
        | succ i =>
          rw [List.getElem?_cons_succ, hids i (by omega), hnext]
          congr 1
          split
          · rw [if_pos (by omega)]
            push_cast
            omega
          · rw [if_neg (by omega)]
      · have hsum := hone.trans hgrown
        rwa [show min (k + 1) tb.free = 1 + min k tb.kthreadMutexAlloc.2.free by omega]

/-- The numbers of leaves and nodes, as long as they do not overflow. -/
theorem doubled_eq (k : ℕ) {n : Int} (h0 : 0 ≤ n) (h : n * 2 ^ k < 2 ^ 31) :
    doubled k n = n * 2 ^ k := by
  induction k generalizing n with
  | zero => simp [doubled]
  | succ k ih =>
    have hsmall : n * 2 * 2 ^ k < 2 ^ 31 := by rwa [Int.mul_assoc, ← Int.pow_succ']
    have hstep : n * 2 ≤ n * 2 * 2 ^ k :=
      le_mul_of_one_le_right (by omega) (Int.pow_pos (by decide))
    rw [doubled, Int.bmod_eq_of_le (by omega) (by omega), ih (by omega) hsmall, Int.mul_assoc,
      ← Int.pow_succ']

/-- What `trnmnt_tree_alloc(depth)` makes of a table. -/
structure Made (mem : Memory) (tb : MutexTable τ) (D : Int) (T : TrnmntTree) (w : World τ) :
    Prop where
  depth : T.depth = D
  threads : T.threads = leavesOf D
  totalNodes : T.totalNodes = nodesOf D
  lock : T.lock = if 0 < tb.free then tb.nextmid else -1
  nodes : ∀ i, T.HasNode i → T.nodes i = if i + 1 < tb.free then tb.nextmid + 1 + i else -1
  grown : Grown tb w.table (min (1 + T.totalNodes.toNat) tb.free)
  takenIds : w.state.takenIds = mem.takenIds
  numOfLocked : mem.tree = some w.state.numOfLocked
  pc : ∀ t, w.state.pc t = .user none
  idle : ∀ t, w.dealloc t = .idle
  freed : w.freed = false
  words : mem.nodes.isSome

variable {mem : Memory} {t : τ} {depth : Int} {T : TrnmntTree} {w : World τ}

theorem Made.unlocked_of_pos (h : Made mem tb depth T w) {id : Int} (h0 : tb.nextmid ≤ id)
    (h1 : id < tb.nextmid + (min (1 + T.totalNodes.toNat) tb.free : ℕ)) :
    w.state.mutex id = .unlocked :=
  (h.grown.cells id).trans (if_pos ⟨h0, h1⟩)

/-- No depth is larger than the mutex table allows. -/
theorem depth_lt {d : ℕ} (hfree : 2 ^ (d + 1) ≤ tb.free) : d < 30 := by
  have hcard : tb.free ≤ 64 := (Finset.card_le_univ _).trans (by simp)
  by_contra hge
  have : 2 ^ 30 ≤ 2 ^ (d + 1) := Nat.pow_le_pow_right (by decide) (by omega)
  omega

variable [DecidableEq τ]

theorem made_of_alloc (h : tb.Valid) (ha : trnmntTreeAlloc mem t depth tb = some (T, w)) :
    Made mem tb depth T w := by
  unfold trnmntTreeAlloc at ha
  split at ha
  · cases ha
  generalize hN : nodesOf depth = N at ha
  rcases Nat.eq_zero_or_pos tb.free with hf | hf
  · -- no mutex can be allocated, and -1 is locked and unlocked
    have habsent : tb.cells (-1) = .absent := h.absent_of_neg (by decide)
    have hlock : Locks.lock tb.cells t (-1) = some (-1, tb.cells) := by simp [Locks.lock, habsent]
    obtain ⟨hlen, hids, hgrown⟩ := allocNodes_spec h N.toNat
    simp only [alloc_full hf, hlock] at ha
    split at ha
    · rename_i cells num words hcells hnum hwords
      obtain ⟨_, rfl⟩ := Prod.mk.inj (Option.some.inj hcells)
      cases ha
      rw [hf, Nat.min_zero] at hgrown
      have hunlock : Locks.unlock (allocNodes N.toNat tb).2.cells t (-1) =
          (-1, (allocNodes N.toNat tb).2.cells) := by
        rw [Locks.unlock, if_neg (by rw [hgrown.valid.absent_of_neg (by decide)]; simp)]
      refine ⟨rfl, rfl, hN.symm, by simp [hf], fun i hi => ?_, ?_, rfl, hnum, fun _ => rfl,
        fun _ => rfl, rfl, by rw [hwords]; rfl⟩
      · obtain ⟨h0, h1⟩ := hi
        simp only at h0 h1 ⊢
        rw [hids i.toNat (by omega), hf, if_neg (by omega), if_neg (by omega)]
        rfl
      · rw [hf, Nat.min_zero]
        simpa only [World.table, hunlock] using hgrown
    · cases ha
  · obtain ⟨hid, hone⟩ := h.alloc hf
    generalize htb : tb.kthreadMutexAlloc = first at ha hid hone
    obtain ⟨lock, tb1⟩ := first
    simp only at ha hid hone
    subst hid
    have hfree : tb1.cells tb.nextmid = .unlocked := by
      rw [hone.cells, if_pos (by omega)]
    have hlock : Locks.lock tb1.cells t tb.nextmid =
        some (0, update tb1.cells tb.nextmid (.locked t)) := by simp [Locks.lock, hfree]
    have hpresent : tb1.cells tb.nextmid ≠ .absent := by simp [hfree]
    have hvalid := hone.valid.setCell (c := .locked t) hpresent (by simp)
    obtain ⟨hlen, hids, hgrown⟩ := allocNodes_spec hvalid N.toNat
    have hnext := hone.nextmid
    have hfree1 := hone.free
    simp only [hlock] at ha
    split at ha
    · rename_i cells num words hcells hnum hwords
      obtain ⟨_, rfl⟩ := Prod.mk.inj (Option.some.inj hcells)
      cases ha
      generalize hrest : allocNodes N.toNat
        { tb1 with cells := update tb1.cells tb.nextmid (.locked t) } = rest at *
      obtain ⟨ids, tb2⟩ := rest
      simp only at hlen hids hgrown ⊢
      have hmine : tb2.cells tb.nextmid = .locked t := by
        have hbefore : ¬ tb1.nextmid ≤ tb.nextmid := by omega
        rw [hgrown.cells, if_neg fun h => hbefore h.1]
        exact update_self ..
      refine ⟨rfl, rfl, hN.symm, by simp [hf], fun i hi => ?_, ?_, rfl, hnum, fun _ => rfl,
        fun _ => rfl, rfl, by rw [hwords]; rfl⟩
      · obtain ⟨h0, h1⟩ := hi
        simp only at h0 h1 ⊢
        rw [hids i.toNat (by omega), Option.getD_some]
        change (if i.toNat < tb1.free then tb1.nextmid + i.toNat else -1) = _
        split
        · rw [if_pos (by omega)]
          omega
        · rw [if_neg (by omega)]
      · have hgrown1 := hone.trans (hgrown.relock (by omega) hfree (by simp [hmine]))
        change Grown _ _ (1 + min N.toNat tb1.free) at hgrown1
        rw [show min (1 + N.toNat) tb.free = 1 + min N.toNat tb1.free by omega]
        simpa only [World.table, Locks.unlock_eq hmine] using hgrown1
    · cases ha

theorem alloc_isSome (depth : Int) (t : τ) (hv : tb.Valid) (hd : depth ≠ 2 ^ 31 - 1)
    (htree : mem.tree.isSome) (hnodes : mem.nodes.isSome) :
    ∃ T w, trnmntTreeAlloc mem t depth tb = some (T, w) := by
  obtain ⟨num, hnum⟩ := Option.isSome_iff_exists.1 htree
  obtain ⟨words, hwords⟩ := Option.isSome_iff_exists.1 hnodes
  -- the lock of the tree is new, or -1, so it is not locked
  have hlock : (Locks.lock tb.kthreadMutexAlloc.2.cells t tb.kthreadMutexAlloc.1).isSome := by
    apply Locks.lock_isSome
    intro o ho
    rcases Nat.eq_zero_or_pos tb.free with hf | hf
    · have habsent : tb.cells (-1) = .absent := hv.absent_of_neg (by decide)
      rw [alloc_full hf] at ho
      exact absurd (habsent.symm.trans ho) (by simp)
    · obtain ⟨hid, hone⟩ := hv.alloc hf
      rw [hid, hone.cells, if_pos (by omega)] at ho
      cases ho
  obtain ⟨⟨r, cells⟩, hlock⟩ := Option.isSome_iff_exists.1 hlock
  simp only [trnmntTreeAlloc, if_neg hd, hlock, hnum, hwords]
  exact ⟨_, _, rfl⟩

theorem leavesOf_eq {d : ℕ} (hd : d < 30) : leavesOf d = 2 ^ d := by
  have hpow : (2 : Int) ^ (d + 1) ≤ 2 ^ 30 := pow_le_pow_right₀ (by decide) (by omega)
  have hdouble := doubled_eq (d + 1) (n := 1) (by decide) (by omega)
  rw [leavesOf, show ((d : Int) + 1).toNat = d + 1 by omega, hdouble, Int.one_mul, Int.pow_succ,
    Int.mul_tdiv_cancel _ (by decide)]

theorem nodesOf_eq {d : ℕ} (hd : d < 30) : nodesOf d = 2 ^ (d + 1) - 1 := by
  have hpow : (2 : Int) ^ (d + 1) ≤ 2 ^ 30 := pow_le_pow_right₀ (by decide) (by omega)
  have hpos : (0 : Int) < 2 ^ (d + 1) := Int.pow_pos (by decide)
  have hdouble := doubled_eq (d + 1) (n := 1) (by decide) (by omega)
  rw [nodesOf, show ((d : Int) + 1).toNat = d + 1 by omega, hdouble, Int.one_mul,
    Int.bmod_eq_of_le (by omega) (by omega)]

/-- A tree that can be used, of depth `d`: the numbers are right, nothing is marked, and the
lock of the tree and its nodes are different mutexes that exist. -/
structure Usable (d : ℕ) (T : TrnmntTree) (w : World τ) : Prop where
  depth : T.depth = d
  threads : T.threads = 2 ^ d
  totalNodes : T.totalNodes = 2 ^ (d + 1) - 1
  takenIds : ∀ ID, T.HasId ID → w.state.takenIds ID = 0
  numOfLocked : w.state.numOfLocked = 0
  lock : ∃ m, w.mid m = T.lock ∧ T.lock ≠ 0
  nodes : ∀ i, T.HasNode i → ∃ m, w.mid m = T.nodes i ∧ T.nodes i ≠ 0
  nodes_inj : ∀ i j, T.HasNode i → T.HasNode j → T.nodes i = T.nodes j → i = j
  nodes_ne_lock : ∀ i, T.HasNode i → T.nodes i ≠ T.lock

omit [DecidableEq τ] in
theorem Made.usable {d : ℕ} (hmade : Made mem tb d T w) (hv : tb.Valid)
    (hfree : 2 ^ (d + 1) ≤ tb.free) (htree : mem.tree = some 0)
    (htaken : ∀ ID, 0 ≤ ID → ID < 2 ^ d → mem.takenIds ID = 0) : Usable d T w := by
  have hd := depth_lt hfree
  have hthreads := hmade.threads.trans (leavesOf_eq hd)
  have htotal := hmade.totalNodes.trans (nodesOf_eq hd)
  have hpow : ((2 ^ (d + 1) : ℕ) : Int) = 2 ^ (d + 1) := by push_cast; rfl
  have hpos : 0 < 2 ^ (d + 1) := Nat.two_pow_pos _
  have hlock : T.lock = tb.nextmid := hmade.lock.trans (if_pos (by omega))
  have hnode : ∀ i, T.HasNode i → T.nodes i = tb.nextmid + 1 + i := by
    intro i hi
    obtain ⟨h0, h1⟩ := hi
    rw [hmade.nodes i ⟨h0, h1⟩, if_pos (by omega)]
  have hnext := hv.nextmid_pos
  have hfound := hmade.grown.found
  refine ⟨hmade.depth, hthreads, htotal, fun ID hID => ?_, ?_, ?_, fun i hi => ?_,
    fun i j hi hj e => ?_, fun i hi e => ?_⟩
  · rw [hmade.takenIds]
    exact htaken ID hID.1 (hthreads ▸ hID.2)
  · exact Option.some.inj (hmade.numOfLocked.symm.trans htree)
  · obtain ⟨m, hm⟩ := hfound T.lock (by omega) (by omega)
    exact ⟨m, hm, by omega⟩
  · have hni := hnode i hi
    obtain ⟨h0, h1⟩ := hi
    obtain ⟨m, hm⟩ := hfound (T.nodes i) (by omega) (by omega)
    exact ⟨m, hm, by omega⟩
  · rw [hnode i hi, hnode j hj] at e
    omega
  · rw [hnode i hi, hlock] at e
    have := hi.1
    omega

omit [DecidableEq τ] in
/-- The last node of a tree is a mutex only if the table had an entry for every node. -/
theorem Made.free_of_usable {d : ℕ} (hmade : Made mem tb depth T w) (hu : Usable d T w) :
    2 ^ (d + 1) ≤ tb.free := by
  have hpow : ((2 ^ (d + 1) : ℕ) : Int) = 2 ^ (d + 1) := by push_cast; rfl
  have htwo : 2 ≤ 2 ^ (d + 1) := Nat.le_self_pow d.succ_ne_zero 2
  have htotal := hu.totalNodes
  have hlast : T.HasNode (2 ^ (d + 1) - 2) := ⟨by omega, by omega⟩
  obtain ⟨m, hm, -⟩ := hu.nodes _ hlast
  have hpos : 0 ≤ w.mid m := hmade.grown.valid.mid_nonneg m
  by_contra hlt
  rw [hm, hmade.nodes _ hlast, if_neg (by omega)] at hpos
  omega

/-- **`trnmnt_tree_alloc` makes a usable tree** if and only if its depth is not negative, the
mutex table has as many free entries as the tree needs, and `malloc` gives memory, which holds
zeros. -/
theorem trnmnt_tree_alloc_usable (t : τ) (depth : Int) (hv : tb.Valid) :
    (∃ d T w, trnmntTreeAlloc mem t depth tb = some (T, w) ∧ Usable d T w) ↔
      ∃ d : ℕ, depth = d ∧ 2 ^ (d + 1) ≤ tb.free ∧ mem.tree = some 0 ∧ mem.nodes.isSome ∧
        ∀ ID, 0 ≤ ID → ID < 2 ^ d → mem.takenIds ID = 0 := by
  constructor
  · rintro ⟨d, T, w, halloc, hu⟩
    have hmade := made_of_alloc hv halloc
    refine ⟨d, hmade.depth.symm.trans hu.depth, hmade.free_of_usable hu, ?_, hmade.words,
      fun ID h0 hlt => ?_⟩
    · rw [hmade.numOfLocked, hu.numOfLocked]
    · rw [← hmade.takenIds]
      exact hu.takenIds ID ⟨h0, hlt.trans_eq hu.threads.symm⟩
  · rintro ⟨d, rfl, hfree, htree, hnodes, htaken⟩
    have hd := depth_lt hfree
    obtain ⟨T, w, halloc⟩ :=
      alloc_isSome d t hv (by omega) (Option.isSome_iff_exists.2 ⟨0, htree⟩) hnodes
    exact ⟨d, T, w, halloc, (made_of_alloc hv halloc).usable hv hfree htree htaken⟩

/-- The table at the start, and one without a free entry. -/
def noMutex : MutexTable τ := ⟨fun _ => 0, 1, fun _ => .absent⟩

def allMutexes : MutexTable τ where
  mid m := m + 1
  nextmid := 65
  cells id := if 1 ≤ id ∧ id ≤ 64 then .unlocked else .absent

omit [DecidableEq τ] in
theorem noMutex_valid : (noMutex : MutexTable τ).Valid :=
  ⟨Int.one_pos, fun _ => le_rfl, fun _ => Int.one_pos, fun _ _ _ h => absurd rfl h,
    fun _ => ⟨fun h => absurd rfl h, fun h => absurd h.2.choose_spec.symm h.1⟩⟩

omit [DecidableEq τ] in
theorem noMutex_free : (noMutex : MutexTable τ).free = 64 := by
  simp [free, noMutex]

/-- Memory that holds `x` everywhere. -/
def Memory.filled (x : Int) : Memory := ⟨some x, some fun _ => x, fun _ => x⟩

/-- A tree of depth 1 on the mutex table of the kernel at the start. -/
theorem trnmnt_tree_alloc_usable_boot : ∃ d T w,
    trnmntTreeAlloc (.filled 0) (0, 0) 1 boot.mutexTable = some (T, w) ∧ Usable d T w :=
  (trnmnt_tree_alloc_usable (0, 0) 1 (Kernel.mutexTable_valid Kernel.boot_inv.mutexes)).2
    ⟨1, rfl, by decide +kernel, rfl, rfl, fun _ _ _ => rfl⟩

/-- **Trees that cannot be used.** Without a free entry in the mutex table the tree is made with
-1 for its lock and its only node; in memory that is not zero every id is taken from the
start; and a negative depth gives a tree without leaves. -/
theorem alloc_unusable : ((trnmntTreeAlloc (.filled 0) (0 : Fin 2) 0 allMutexes).map fun x =>
      (x.1.totalNodes, x.1.lock, x.1.nodes 0)) = some (1, -1, -1) ∧
    ((trnmntTreeAlloc (.filled 7) (0 : Fin 2) 1 noMutex).map fun x =>
      (x.2.state.numOfLocked, x.2.state.takenIds 0, x.2.state.takenIds 1)) = some (7, 7, 7) ∧
    ((trnmntTreeAlloc (.filled 0) (0 : Fin 2) (-1) noMutex).map fun x =>
      (x.1.threads, x.1.totalNodes)) = some (0, 0) := by
  refine ⟨?_, ?_, ?_⟩ <;> decide +kernel

end TrnmntTree
end Xv6
