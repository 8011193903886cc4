import Mathlib.Data.Set.Insert
import Mathlib.Logic.Function.Basic

/-! Mutexes with owners. A mutex is taken by one thread at a time, a thread
that asks for a mutex of another one blocks, and only the owner unlocks. `Owns`
says that the threads of a program hold exactly the mutexes that their program
points say they hold; `exists_unblocked` is the rank argument against deadlock. -/

namespace Locks

open Function

variable {ι τ : Type*}

inductive Cell (τ : Type*)
  | absent
  | unlocked
  | locked (owner : τ)
  deriving DecidableEq

abbrev Table (ι τ : Type*) := ι → Cell τ

section Operations

variable [DecidableEq ι] [DecidableEq τ]

/-- `t` asks for mutex `m`: the result and the table, or `none` while another
thread has it. -/
def lock (mt : Table ι τ) (t : τ) (m : ι) : Option (Int × Table ι τ) :=
  match mt m with
  | .absent => some (-1, mt)
  | .unlocked => some (0, update mt m (.locked t))
  | .locked o => if o = t then some (-1, mt) else none

def unlock (mt : Table ι τ) (t : τ) (m : ι) : Int × Table ι τ :=
  if mt m = .locked t then (0, update mt m .unlocked) else (-1, mt)

variable {mt mt' : Table ι τ} {t : τ} {m n : ι} {r : Int}

theorem lock_isSome (h : ∀ o, mt m = .locked o → o = t) : (lock mt t m).isSome := by
  unfold lock
  split
  · rfl
  · rfl
  · rename_i o ho
    rw [if_pos (h o ho)]
    rfl

/-- A mutex that exists and is not the asking thread's own is taken, or blocks. -/
theorem lock_eq (ha : mt m ≠ .absent) (ht : mt m ≠ .locked t) (h : lock mt t m = some (r, mt')) :
    r = 0 ∧ mt m = .unlocked ∧ mt' = update mt m (.locked t) := by
  unfold lock at h
  split at h
  · contradiction
  · rename_i hu
    cases h
    exact ⟨rfl, hu, rfl⟩
  · split at h
    · rename_i o ho e
      exact absurd (e ▸ ho) ht
    · cases h

theorem lock_zero (h : lock mt t m = some (0, mt')) :
    mt m = .unlocked ∧ mt' = update mt m (.locked t) := by
  unfold lock at h
  split at h
  · cases h
  · rename_i hu
    cases h
    exact ⟨hu, rfl⟩
  · split at h <;> cases h

theorem lock_of_absent (t : τ) (h : mt m = .absent) : lock mt t m = some (-1, mt) := by
  simp [lock, h]

theorem unlock_of_absent (t : τ) (h : mt m = .absent) : unlock mt t m = (-1, mt) := by
  simp [unlock, h]

/-- Nothing happens when locking fails. -/
theorem lock_fails (h : lock mt t m = some (r, mt')) (hr : r ≠ 0) : mt' = mt := by
  unfold lock at h
  split at h
  · cases h; rfl
  · cases h; exact absurd rfl hr
  · split at h <;> cases h
    rfl

theorem unlock_zero (h : unlock mt t m = (0, mt')) : mt' = update mt m .unlocked := by
  unfold unlock at h
  split at h <;> cases h
  rfl

theorem unlock_eq (h : mt m = .locked t) : unlock mt t m = (0, update mt m .unlocked) := by
  rw [unlock, if_pos h]

/-! ## What an operation leaves alone -/

theorem lock_of_ne (h : lock mt t m = some (r, mt')) (hn : n ≠ m) : mt' n = mt n := by
  unfold lock at h
  split at h
  · cases h; rfl
  · cases h; exact update_of_ne hn _ _
  · split at h <;> cases h
    rfl

theorem lock_others (h : lock mt t m = some (r, mt')) {u : τ} (hu : u ≠ t) :
    mt' n = .locked u ↔ mt n = .locked u := by
  rcases eq_or_ne n m with rfl | hn
  · unfold lock at h
    split at h
    · cases h; rfl
    · rename_i hfree
      cases h
      simp [hfree, hu.symm]
    · split at h <;> cases h
      rfl
  · rw [lock_of_ne h hn]

theorem unlock_of_ne (hn : n ≠ m) : (unlock mt t m).2 n = mt n := by
  unfold unlock
  split
  · exact update_of_ne hn _ _
  · rfl

theorem unlock_others {u : τ} (hu : u ≠ t) :
    (unlock mt t m).2 n = .locked u ↔ mt n = .locked u := by
  rcases eq_or_ne n m with rfl | hn
  · unfold unlock
    split
    · rename_i hmine
      simp [hmine, hu.symm]
    · rfl
  · rw [unlock_of_ne hn]

/-- Unlocking takes from the caller only. -/
theorem unlock_self (h : (unlock mt t m).2 n = .locked t) : mt n = .locked t := by
  rcases eq_or_ne n m with rfl | hn
  · unfold unlock at h
    split at h
    · simp at h
    · exact h
  · rwa [unlock_of_ne hn] at h

theorem unlock_result (mt : Table ι τ) (t : τ) (m : ι) :
    (unlock mt t m).1 ≤ 0 ∧ ((unlock mt t m).1 = 0 → mt m = .locked t) := by
  unfold unlock
  split
  · rename_i hmine
    exact ⟨le_rfl, fun _ => hmine⟩
  · exact ⟨by simp, by simp⟩

theorem lock_absent (h : lock mt t m = some (r, mt')) : mt' n = .absent ↔ mt n = .absent := by
  unfold lock at h
  split at h
  · cases h; rfl
  · rename_i hfree
    cases h
    rcases eq_or_ne n m with rfl | hn
    · simp [hfree]
    · simp [hn]
  · split at h <;> cases h
    rfl

theorem unlock_absent : (unlock mt t m).2 n = .absent ↔ mt n = .absent := by
  unfold unlock
  split
  · rename_i hmine
    rcases eq_or_ne n m with rfl | hn
    · simp [hmine]
    · simp [hn]
  · rfl

/-! ## What one thread has -/

/-- The mutexes that `t` has locked. -/
def mine (mt : Table ι τ) (t : τ) : Set ι := {m | mt m = .locked t}

theorem mine_lock (h : lock mt t m = some (0, mt')) : mine mt' t = insert m (mine mt t) := by
  obtain ⟨_, rfl⟩ := lock_zero h
  ext n
  rcases eq_or_ne n m with rfl | hn
  · simp [mine]
  · simp [mine, hn]

theorem mine_unlock (mt : Table ι τ) (t : τ) (m : ι) :
    mine (unlock mt t m).2 t = mine mt t \ {m} := by
  ext n
  rcases eq_or_ne n m with rfl | hn
  · unfold unlock
    split
    · simp [mine]
    · rename_i hnot
      simp [mine, hnot]
  · simp [mine, unlock_of_ne hn, hn]

/-- A thread that does not have the mutex unlocks nothing. -/
theorem unlock_fails (h : m ∉ mine mt t) : unlock mt t m = (-1, mt) := if_neg h

end Operations

section Owners

/-- Of the mutexes in `S`, every thread has locked those in its set. -/
def Owns (S : Set ι) (mt : Table ι τ) (held : τ → Set ι) : Prop :=
  ∀ t, ∀ m ∈ S, mt m = .locked t ↔ m ∈ held t

variable {S : Set ι} {mt : Table ι τ} {held held' : τ → Set ι} {t u : τ} {m : ι}

/-- **Exclusion.** -/
theorem Owns.unique (h : Owns S mt held) (hm : m ∈ S) (ht : m ∈ held t) (hu : m ∈ held u) :
    t = u := by
  have ht := (h t m hm).2 ht
  have hu := (h u m hm).2 hu
  rw [ht] at hu
  exact Cell.locked.inj hu

theorem Owns.congr (h : Owns S mt held) (he : ∀ u, held' u = held u) : Owns S mt held' := by
  intro u n hn
  rw [he]
  exact h u n hn

variable [DecidableEq ι]

theorem Owns.lock (h : Owns S mt held) (hm : mt m = .unlocked)
    (ht : held' t = insert m (held t)) (hu : ∀ u, u ≠ t → held' u = held u) :
    Owns S (update mt m (.locked t)) held' := by
  intro u n hn
  rcases eq_or_ne u t with rfl | hut
  · rcases eq_or_ne n m with rfl | hnm
    · simp [ht]
    · rw [update_of_ne hnm, ht, Set.mem_insert_iff]
      simp [hnm, h u n hn]
  · rw [hu u hut]
    rcases eq_or_ne n m with rfl | hnm
    · have := h u n hn
      rw [hm] at this
      simpa [hut.symm] using this
    · rw [update_of_ne hnm]
      exact h u n hn

theorem Owns.unlock (h : Owns S mt held) (hS : m ∈ S) (hm : m ∈ held t)
    (ht : held' t = held t \ {m}) (hu : ∀ u, u ≠ t → held' u = held u) :
    Owns S (update mt m .unlocked) held' := by
  intro u n hn
  rcases eq_or_ne n m with rfl | hnm
  · have hno : n ∉ held' u := by
      rcases eq_or_ne u t with rfl | hut
      · simp [ht]
      · rw [hu u hut]
        exact fun hnu => hut (h.unique hS hnu hm)
    simpa using hno
  · rw [update_of_ne hnm, h u n hn]
    rcases eq_or_ne u t with rfl | hut
    · simp [ht, hnm]
    · rw [hu u hut]

end Owners

/-- **The rank argument.** Among the threads that satisfy `P` one is not blocked,
if the owner of every mutex a thread waits for satisfies `P` and, when it asks for
a mutex itself, has a smaller rank. -/
theorem exists_unblocked [DecidableEq ι] [DecidableEq τ] {mt : Table ι τ} {P : τ → Prop}
    {wants : τ → Option ι} {rank : τ → ℕ}
    (h : ∀ t m o, P t → wants t = some m → mt m = .locked o → o ≠ t →
      P o ∧ ∀ n, wants o = some n → rank o < rank t) {t : τ} (ht : P t) :
    ∃ u, P u ∧ ∀ m, wants u = some m → (lock mt u m).isSome := by
  -- by induction on a bound of the rank
  have key : ∀ b t, P t → rank t < b →
      ∃ u, P u ∧ ∀ m, wants u = some m → (Locks.lock mt u m).isSome := by
    intro b
    induction b with
    | zero =>
      intro t _ hb
      exact absurd hb (Nat.not_lt_zero _)
    | succ b ih =>
      intro t ht hb
      by_cases hfree : ∀ m, wants t = some m → ∀ o, mt m = .locked o → o = t
      · exact ⟨t, ht, fun m hm => lock_isSome (hfree m hm)⟩
      · push Not at hfree
        obtain ⟨m, hm, o, ho, hot⟩ := hfree
        obtain ⟨hPo, hlt⟩ := h t m o ht hm ho hot
        cases hw : wants o with
        | none => exact ⟨o, hPo, by simp [hw]⟩
        | some n =>
          have := hlt n hw
          exact ih o hPo (by omega)
  exact key (rank t + 1) t ht (Nat.lt_succ_self _)

end Locks
