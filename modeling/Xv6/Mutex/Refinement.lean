import Xv6.Mutex.Waiting
import Xv6.Lib.Locks

/-! The kernel's mutexes are mutexes with owners. `lockTable` reads the mutex table
as a table of `Locks`, by id and with thread records as owners; the functions of
the mutex API compute `Locks.lock` and `Locks.unlock`, and no step of the kernel
changes the table in another way than these, creation and deallocation. -/

namespace Xv6

open Function

def Mutex.cell (x : Mutex) : Locks.Cell ThreadRef :=
  match x.state, x.mythread with
  | .MLOCKED, some o => .locked o
  | _, _ => .unlocked

namespace Kernel

open Runs

variable {k k' : Kernel} {l : Label} {c r : ThreadRef} {m n : MutexIx} {id : Int}

def lockTable (k : Kernel) : Locks.Table Int ThreadRef := fun id =>
  if id = 0 then .absent
  else match k.findMutex id with
    | some m => (k.mutex m).cell
    | none => .absent

/-! ## Entries -/

theorem cell_of_unlocked (h : (k.mutex m).state ≠ .MLOCKED) : (k.mutex m).cell = .unlocked := by
  unfold Mutex.cell
  split
  · contradiction
  · rfl

theorem MutexInv.cell_eq_locked (hk : MutexInv k) :
    (k.mutex m).cell = .locked r ↔ (k.mutex m).mythread = some r := by
  cases hs : (k.mutex m).state with
  | MLOCKED =>
    obtain ⟨o, ho⟩ := hk.locked_owned m hs
    simp [Mutex.cell, hs, ho]
  | MUNLOCKED => simp [Mutex.cell, hs, hk.unlocked_free m hs]

theorem lockTable_find (h0 : id ≠ 0) (hm : k.findMutex id = some m) :
    k.lockTable id = (k.mutex m).cell := by
  simp [lockTable, h0, hm]

theorem lockTable_none (hm : k.findMutex id = none) : k.lockTable id = .absent := by
  simp [lockTable, hm]

theorem MutexInv.lockTable_mid (hk : MutexInv k) (h0 : (k.mutex m).mid ≠ 0) :
    k.lockTable (k.mutex m).mid = (k.mutex m).cell :=
  lockTable_find h0 (hk.findMutex_mid h0)

theorem lockTable_cases (k : Kernel) (id : Int) : (∃ m, (k.mutex m).mid = id ∧ id ≠ 0) ∨
      ((∀ m, (k.mutex m).mid = id → id = 0) ∧ k.lockTable id = .absent) := by
  by_cases h : ∃ m, (k.mutex m).mid = id ∧ id ≠ 0
  · exact .inl h
  · have hno : ∀ m, (k.mutex m).mid = id → id = 0 := fun m hm => by_contra fun h0 => h ⟨m, hm, h0⟩
    refine .inr ⟨hno, ?_⟩
    cases hm : k.findMutex id with
    | none => exact lockTable_none hm
    | some m => simp [lockTable, hno m (findMutex_some hm)]

theorem lockTable_zero (k : Kernel) : update k.lockTable 0 .absent = k.lockTable :=
  update_eq_self_iff.2 (by simp [lockTable])

/-- The table after a change of entry `m`. -/
theorem MutexInv.lockTable_entry (hk : MutexInv k) (hk' : MutexInv k')
    (he : ∀ n, n ≠ m → k'.mutex n = k.mutex n) :
    k'.lockTable = update (update k.lockTable (k.mutex m).mid .absent) (k'.mutex m).mid
      (if (k'.mutex m).mid = 0 then .absent else (k'.mutex m).cell) := by
  funext id
  rcases eq_or_ne id (k'.mutex m).mid with rfl | hm'
  · rw [update_self]
    split
    · simp [lockTable, *]
    · exact hk'.lockTable_mid ‹_›
  rw [update_of_ne hm']
  rcases k'.lockTable_cases id with ⟨n, rfl, h0⟩ | ⟨hno, habsent⟩
  · have hne : n ≠ m := by
      rintro rfl
      exact hm' rfl
    rw [hk'.lockTable_mid h0]
    rw [he n hne] at h0 ⊢
    rw [update_of_ne fun e => hne (hk.mid_inj n m e h0), hk.lockTable_mid h0]
  · rw [habsent]
    rcases eq_or_ne id (k.mutex m).mid with rfl | hm
    · rw [update_self]
    · rw [update_of_ne hm]
      rcases k.lockTable_cases id with ⟨n, hn, h0⟩ | ⟨_, h⟩
      · rw [← he n (by rintro rfl; exact hm hn.symm)] at hn
        exact absurd (hno n hn) h0
      · exact h.symm

/-! ## The functions -/

theorem lockTable_congr (h : k'.mutex = k.mutex) : k'.lockTable = k.lockTable := by
  funext v
  simp only [lockTable, findMutex, h]

@[simp] theorem sysret_lockTable (v : Int) : (k.sysret r v).lockTable = k.lockTable :=
  lockTable_congr rfl

section

variable (hk : MutexInv k) (hm : (k.mutex m).mid = id) (h0 : id ≠ 0)

include hk hm h0

theorem MutexInv.lockTable_take
    (mid : Int) : (k.takeEntry r m mid).lockTable = update k.lockTable id (.locked r) := by
  rw [hk.lockTable_entry (m := m) hk.takeEntry fun n hn => by simp [hn]]
  simp [hm, h0, Mutex.cell]

theorem MutexInv.lockTable_clear
    (mid : Int) : (k.clearEntry r m mid).lockTable = update k.lockTable id .unlocked := by
  rw [hk.lockTable_entry (m := m) hk.clearEntry fun n hn => by simp [hn]]
  simp [hm, h0, Mutex.cell]

/-- **A turn of the loop of `kthread_mutex_lock`** on an entry that has the id
asked for. -/
theorem lockTurn_refines
    (hr : (k.mutex m).mythread ≠ some r) : (Locks.lock k.lockTable r id = none ∧
      k.lockTurn r m id = k.sleep r (.mutex m) (.lockLoop m id)) ∨
    (Locks.lock k.lockTable r id = some (0, (k.lockTurn r m id).lockTable) ∧
      ((k.lockTurn r m id).thread r).context = .ret 0) := by
  have hcell : k.lockTable id = (k.mutex m).cell := hm ▸ hk.lockTable_mid (hm ▸ h0)
  cases hs : (k.mutex m).state with
  | MUNLOCKED =>
    right
    simp only [lockTurn, hs, if_true]
    rw [hk.lockTable_take hm h0]
    rw [cell_of_unlocked (by simp [hs])] at hcell
    simp [Locks.lock, hcell]
  | MLOCKED =>
    left
    obtain ⟨o, ho⟩ := hk.locked_owned m hs
    rw [hk.cell_eq_locked.2 ho] at hcell
    have hor : o ≠ r := by
      rintro rfl
      exact hr ho
    simp [Locks.lock, hcell, hor, lockTurn, hs]

end

/-- **`kthread_mutex_lock` is `Locks.lock`**: it returns what that returns and leaves
its table, and sleeps on the entry of the mutex where it blocks. -/
theorem kthreadMutexLock_refines (hk : MutexInv k) (h0 : id ≠ 0) (r : ThreadRef) :
    (Locks.lock k.lockTable r id = none ∧ ∃ m, (k.mutex m).mid = id ∧
      k.kthreadMutexLock r id = k.sleep r (.mutex m) (.lockLoop m id)) ∨
    ∃ v, Locks.lock k.lockTable r id = some (v, (k.kthreadMutexLock r id).lockTable) ∧
      ((k.kthreadMutexLock r id).thread r).context = .ret v := by
  unfold kthreadMutexLock
  split
  · rename_i m hm
    have hcell := lockTable_find h0 hm
    split
    · rename_i hown
      rw [hk.cell_eq_locked.2 hown.2] at hcell
      right
      exact ⟨-1, by simp [Locks.lock, hcell], by simp⟩
    · rename_i hown
      have hr : (k.mutex m).mythread ≠ some r := by
        intro e
        apply hown
        refine ⟨?_, e⟩
        cases hs : (k.mutex m).state with
        | MLOCKED => rfl
        | MUNLOCKED => rw [hk.unlocked_free m hs] at e; cases e
      rcases lockTurn_refines hk (findMutex_some hm) h0 hr with ⟨hl, hs⟩ | ⟨hl, hs⟩
      · exact .inl ⟨hl, m, findMutex_some hm, hs⟩
      · exact .inr ⟨0, hl, hs⟩
  · rename_i hm
    right
    exact ⟨-1, by simp [Locks.lock, lockTable_none hm], by simp⟩

/-- The first thread allocates a mutex and asks for it. -/
def asking : List Label :=
  .dispatch (0, 0) :: Label.calls (0, 0) .mutexAlloc ++ [.syscall (0, 0) (.mutexLock 1)]

/-- The kernels in which the mutex is allocated, and locked by the first thread. -/
def allocated : Kernel := after asking
def owning : Kernel := after (asking ++ [.run (0, 0) none true])

theorem allocated_inv : Inv allocated := reachable_inv (G := free) run_free

theorem owning_inv : Inv owning := reachable_inv (G := free) run_free

theorem owning_table : owning.lockTable 1 = .locked (0, 0) := by decide +kernel

/-- Another thread that asks for the mutex blocks. -/
theorem kthreadMutexLock_refines_owned : ∃ m, (owning.mutex m).mid = 1 ∧
    owning.kthreadMutexLock (0, 1) 1 = owning.sleep (0, 1) (.mutex m) (.lockLoop m 1) := by
  have hblocks : Locks.lock owning.lockTable (0, 1) 1 = none := by
    rw [Locks.lock, owning_table]
    exact if_neg (by decide)
  rcases kthreadMutexLock_refines owning_inv.mutexes Int.one_ne_zero (0, 1) with h | ⟨v, h, -⟩
  · exact h.2
  · rw [hblocks] at h
    cases h

/-- **`kthread_mutex_unlock` is `Locks.unlock`**; when it succeeds it goes on to the
`wakeup` of the entry. -/
theorem kthreadMutexUnlock_refines (h : Inv k) (h0 : id ≠ 0) (hr : (k.thread r).state ≠ .TUNUSED) :
    (Locks.unlock k.lockTable r id = (0, (k.kthreadMutexUnlock r id).lockTable) ∧
      ∃ m, (k.mutex m).mid = id ∧
        ((k.kthreadMutexUnlock r id).thread r).context = .unlockWake m) ∨
    (Locks.unlock k.lockTable r id = (-1, (k.kthreadMutexUnlock r id).lockTable) ∧
      ((k.kthreadMutexUnlock r id).thread r).context = .ret (-1)) := by
  have hk := h.mutexes
  have hfail : k.lockTable id ≠ .locked r →
      Locks.unlock k.lockTable r id = (-1, (k.sysret r (-1)).lockTable) := by
    intro hne
    rw [sysret_lockTable, Locks.unlock, if_neg hne]
  unfold kthreadMutexUnlock
  split
  · rename_i m hm
    have hcell := lockTable_find h0 hm
    split
    · rename_i hno
      refine .inr ⟨hfail fun e => ?_, by simp⟩
      have ho := hk.cell_eq_locked.1 (hcell ▸ e)
      rcases hno with hs | ht
      · rw [hk.unlocked_free m hs] at ho; cases ho
      · exact ht (by rw [ho]; rfl)
    · rename_i hyes
      push Not at hyes
      obtain ⟨o, ho, htid⟩ := Option.map_eq_some_iff.1 hyes.2
      -- the records compare equal by their tids, so the owner is the caller
      have hor : r = o := h.tids.inj r o htid.symm (h.tids.pos r hr)
      refine .inl ⟨?_, m, findMutex_some hm, by simp⟩
      rw [hk.lockTable_clear (findMutex_some hm) h0]
      exact Locks.unlock_eq (hcell.trans (hk.cell_eq_locked.2 (hor ▸ ho)))
  · rename_i hm
    exact .inr ⟨hfail (by simp [lockTable_none hm]), by simp⟩

theorem kthreadMutexUnlock_refines_owned : Locks.unlock owning.lockTable (0, 0) 1 =
    (0, (owning.kthreadMutexUnlock (0, 0) 1).lockTable) := by
  have hr : (owning.thread (0, 0)).state ≠ .TUNUSED := by decide +kernel
  rcases kthreadMutexUnlock_refines owning_inv Int.one_ne_zero hr with h | h
  · exact h.1
  · have hmine := congrArg Prod.fst h.1
    rw [Locks.unlock_eq owning_table] at hmine
    cases hmine

/-! ## Runs -/

/-- A step that locks and unlocks nothing creates and deallocates mutexes. -/
theorem Quiet.lockTable (hq : Quiet k l k') (hk : MutexInv k) (hk' : MutexInv k') (id : Int) :
    k'.lockTable id = k.lockTable id ∨ (k.lockTable id = .absent ∧ k'.lockTable id = .unlocked) ∨
    (k.lockTable id = .unlocked ∧ k'.lockTable id = .absent) := by
  rcases k.lockTable_cases id with ⟨m, rfl, h0⟩ | ⟨hno, habsent⟩
  · rcases hq.mutex m with e | ⟨hf, e⟩ | ⟨hz, _⟩
    · left
      rw [hk.lockTable_mid h0, ← e, hk'.lockTable_mid (e ▸ h0)]
    · right; right
      rw [hk.lockTable_mid h0, cell_of_unlocked hf.2.1]
      refine ⟨rfl, ?_⟩
      rcases k'.lockTable_cases (k.mutex m).mid with ⟨n, hn, _⟩ | ⟨_, h⟩
      · -- no other entry has the id, and a new one would have a new id
        rcases hq.mutex n with e' | ⟨_, e'⟩ | ⟨_, hnew, _⟩
        · rw [e'] at hn
          rw [hk.mid_inj n m hn (hn ▸ h0), e] at e'
          exact absurd (congrArg Mutex.mid e').symm h0
        · rw [e'] at hn
          exact absurd hn.symm h0
        · have := hk.mid_lt m
          omega
      · exact h
    · exact absurd hz h0
  · rcases k'.lockTable_cases id with ⟨n, rfl, h0⟩ | ⟨_, h⟩
    · rcases hq.mutex n with e | ⟨_, e⟩ | ⟨_, _, hu, _⟩
      · exact absurd (hno n (by rw [e])) h0
      · rw [e] at h0
        exact absurd rfl h0
      · right; left
        rw [hk'.lockTable_mid h0]
        exact ⟨habsent, cell_of_unlocked (by simp [hu])⟩
    · exact .inl (h.trans habsent.symm)

/-- What happens to a free entry does not show in the table. -/
theorem lockTable_free_entry (hk : MutexInv k) (hk' : MutexInv k') (hm : (k.mutex m).mid = 0)
    (hm' : (k'.mutex m).mid = 0) (he : ∀ n, n ≠ m → k'.mutex n = k.mutex n) :
    k'.lockTable = k.lockTable := by
  rw [hk.lockTable_entry hk' he, hm, hm', lockTable_zero, if_pos rfl, lockTable_zero]

/-- The thread that makes the step locks a mutex nobody has, or unlocks its own, or mutexes are
created and, when nobody has them, deallocated. -/
def TableStep (l : Label) (mt mt' : Locks.Table Int ThreadRef) : Prop :=
  (∃ c page copied id, l = .run c page copied ∧
    (Locks.lock mt c id = some (0, mt') ∨ Locks.unlock mt c id = (0, mt'))) ∨
  ∀ id, mt' id = mt id ∨ (mt id = .absent ∧ mt' id = .unlocked) ∨
    (mt id = .unlocked ∧ mt' id = .absent)

/-- **Every step of the kernel is a step of the table of locks.** -/
theorem lockTable_step (hr : Run Kernel.step free boot k) (hs : k.step l = some k') :
    TableStep l k.lockTable k'.lockTable := by
  have h := reachable_inv hr
  have hk := h.mutexes
  have hk' := (h.step hs).mutexes
  cases lockStep h (turn_of_step hs) with
  | quiet hq => exact .inr (hq.lockTable hk hk')
  | @take c mid m _ ha _ hu =>
    by_cases h0 : (k.mutex m).mid = 0
    · have hsame := lockTable_free_entry hk hk' h0 (by simpa using h0) (fun n hn => by simp [hn])
      exact .inr fun v => .inl (congrFun hsame v)
    · obtain ⟨⟨page, copied, hl⟩, -⟩ := ha
      refine .inl ⟨c, page, copied, (k.mutex m).mid, hl, .inl ?_⟩
      rw [hk.lockTable_take rfl h0, Locks.lock, hk.lockTable_mid h0,
        cell_of_unlocked (by simp [hu])]
  | @unlock c o mid m ha hm hl ho htid =>
    have hrun := ha.2.1
    have hco : c = o := h.tids.inj c o htid.symm (h.tids.pos c (by simp [hrun]))
    by_cases h0 : (k.mutex m).mid = 0
    · have hsame := lockTable_free_entry hk hk' h0 (by simpa using h0) (fun n hn => by simp [hn])
      exact .inr fun v => .inl (congrFun hsame v)
    · obtain ⟨⟨page, copied, hl⟩, -⟩ := ha
      refine .inl ⟨c, page, copied, (k.mutex m).mid, hl, .inr ?_⟩
      rw [hk.lockTable_clear rfl h0]
      exact Locks.unlock_eq ((hk.lockTable_mid h0).trans (hk.cell_eq_locked.2 (hco ▸ ho)))
  | _ => exact .inr fun v => .inl (congrFun (lockTable_congr rfl) v)

theorem lockTable_step_asking : TableStep (.run (0, 0) none true)
    allocated.lockTable (next Kernel.step allocated (.run (0, 0) none true)).lockTable :=
  lockTable_step run_free (step_next _ _ _ (by decide +kernel))

end Kernel
end Xv6
