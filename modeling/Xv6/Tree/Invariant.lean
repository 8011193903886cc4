import Xv6.Tree.Usage

/-! Threads that use a tree as intended: each with an id of its own, acquiring
and releasing by turns. The invariant says for every program point which mutexes
the thread holds there (`held`), what its local variables are (`Shape`) and
whether its id is marked as taken (`taken`); the mark need not be looked at any
more. -/

namespace Xv6.TrnmntTree

open Heap Runs

variable {d : ℕ} (T : FullTree d)

/-- The mutexes that a thread with id `n` holds. -/
def held (n : Fin (2 ^ d)) : Pc → Set Int
  | .user (some (.acquire _, _)) => nodeMutexes T (route n d)
  | .acquireTest _ | .acquireTaken _ | .acquireTake _ | .acquireUnlock _ => {T.lock}
  | .climb _ i _ => nodeMutexes T (route n i)
  | .releaseLock _ | .releaseDown .. => nodeMutexes T (route n d)
  | .releaseTest _ | .releaseFree _ | .releaseUnlock _ =>
    insert T.lock (nodeMutexes T (route n d))
  | .releaseUp _ frames _ => nodeMutexes T frames
  | .clear _ | .clearUnlock _ => {T.lock}
  | _ => ∅

/-- What a thread with id `n` finds in its local variables; the points after a
failure are not reached. -/
def Shape (n : Fin (2 ^ d)) : Pc → Prop
  | .user none => True
  | .user (some (c, r)) => c.ID = (n : ℕ) ∧ r = 0
  | .acquireLock ID | .acquireTest ID | .acquireTake ID | .acquireUnlock ID => ID = (n : ℕ)
  | .climb ID i p => ID = (n : ℕ) ∧ i ≤ d ∧ p = anc (leaf n) i
  | .releaseLock ID | .releaseTest ID | .releaseUnlock ID => ID = (n : ℕ)
  | .releaseDown ID p frames =>
    ID = (n : ℕ) ∧ ∃ j < d, p = anc (leaf n) (j + 1) ∧ frames = route n j
  | .releaseUp ID frames sum => ID = (n : ℕ) ∧ sum = 0 ∧ ∃ j < d, frames = route n j
  | .clearLock ID | .clear ID | .clearUnlock ID => ID = (n : ℕ)
  | .acquireTaken _ | .releaseFree _ | .fault => False

/-- Whether the id of a thread is marked. -/
def Pc.taken : Pc → Bool
  | .user (some (.acquire _, _)) => true
  | .acquireUnlock _ | .climb .. => true
  | .releaseLock _ | .releaseTest _ | .releaseFree _ | .releaseUnlock _ => true
  | .releaseDown .. | .releaseUp .. | .clearLock _ | .clear _ => true
  | _ => false

variable {τ : Type*} (ids : τ ↪ Fin (2 ^ d))

structure Inv (s : State τ) : Prop where
  owns : Locks.Owns (mutexes T) s.mutex fun t => held T (ids t) (s.pc t)
  present : ∀ m ∈ mutexes T, s.mutex m ≠ .absent
  shape : ∀ t, Shape (ids t) (s.pc t)
  taken : ∀ t, s.takenIds (ids t : ℕ) ≠ 0 ↔ (s.pc t).taken

variable {T} {ids} {s s' : State τ} {t u : τ} {n : Fin (2 ^ d)} {p p' : Pc} {b b' : Bool}

/-! ## In order -/

/-- The mark of an id tells where its thread is, and no call has failed. -/
def InOrder (n : Fin (2 ^ d)) (b : Bool) (p : Pc) : Prop := b = p.taken ∧ Shape n p

theorem Shape.vars (h : Shape n p) : Local n p.taken p := by
  cases p with
  | user => trivial
  | acquireLock | acquireTest | releaseLock | releaseTest => exact h
  | acquireTake | acquireUnlock | releaseUnlock | clearLock | clear | clearUnlock =>
    exact ⟨h, rfl⟩
  | climb | releaseDown | releaseUp => exact ⟨h.1, rfl, h.2⟩
  | acquireTaken | releaseFree | fault => exact h.elim

theorem Shape.keeps (h : Shape n p) : keeps T n p.taken p = held T n p := by
  cases p with
  | user last => rcases last with _ | ⟨ID | ID, r⟩ <;> rfl
  | acquireTest => simp [TrnmntTree.keeps, held, Pc.taken, rest]
  | acquireTaken | releaseFree | fault => exact h.elim
  | _ => rfl

theorem Turn.inOrder (h : Turn n b p b' p') (ho : InOrder n b p) : InOrder n b' p' := by
  obtain ⟨hb, hshape⟩ := ho
  cases h with
  | refuse | idle => cases hb
  | refused | idled => exact hshape.elim
  | pass | take | found | freed | clearLock | clear => exact ⟨rfl, rfl⟩
  | acquireLock | releaseLock => exact ⟨hb, rfl⟩
  | start => exact ⟨rfl, rfl, Nat.zero_le _, rfl⟩
  | climb hi => exact ⟨rfl, rfl, hi, rfl⟩
  | acquired | released => exact ⟨rfl, rfl, rfl⟩
  | enter hd => exact ⟨rfl, rfl, 0, hd, rfl, rfl⟩
  | @down j hj => exact ⟨rfl, rfl, j + 1, hj, rfl, rfl⟩
  | @root j hj | @up j hj => exact ⟨rfl, rfl, rfl, j, by omega, rfl⟩

theorem inv_iff : Inv T ids s ↔ Use T ids s ∧ ∀ t, InOrder (ids t) (s.marked (ids t)) (s.pc t) := by
  have hmark : ∀ t, (s.takenIds (ids t : ℕ) ≠ 0 ↔ (s.pc t).taken) ↔
      s.marked (ids t) = (s.pc t).taken := by
    intro t
    rw [State.marked]
    cases (s.pc t).taken <;> simp
  constructor
  · intro h
    have hb : ∀ t, s.marked (ids t) = (s.pc t).taken := fun t => (hmark t).1 (h.taken t)
    refine ⟨⟨?_, h.present, ?_⟩, fun t => ⟨hb t, h.shape t⟩⟩
    · apply h.owns.congr
      intro t
      rw [hb t, (h.shape t).keeps]
    · intro t
      rw [hb t]
      exact (h.shape t).vars
  · rintro ⟨h, ho⟩
    refine ⟨?_, h.present, fun t => (ho t).2, fun t => (hmark t).2 (ho t).1⟩
    apply h.owns.congr
    intro t
    rw [(ho t).1, (ho t).2.keeps]

theorem Fresh.inv (h : Fresh T s) : Inv T ids s := by
  rw [inv_iff]
  refine ⟨h.use, fun t => ⟨?_, ?_⟩⟩
  · simp [State.marked, h.takenIds _ (hasId T (ids t)), h.pc, Pc.taken]
  · simp [h.pc, Shape]

/-! ## Runs -/

/-- Every thread acquires the tree with its own id when it has not acquired it,
and releases it with the same id when it has. -/
def Disciplined (ids : τ ↪ Fin (2 ^ d)) : Guard (State τ) (Label τ) := fun s l _ =>
  match l with
  | .call t (.acquire ID) => ID = (ids t : ℕ) ∧ ∀ ID', s.pc t ≠ .user (some (.acquire ID', 0))
  | .call t (.release ID) => ID = (ids t : ℕ) ∧ s.pc t = .user (some (.acquire ID, 0))
  | .callNull _ _ => False
  | .step _ => True

theorem Disciplined.ownIds {l : Label τ} (hg : Disciplined ids s l s') : OwnIds ids s l s' := by
  cases l with
  | call t c =>
    cases c with
    | acquire ID | release ID => exact hg.1
  | callNull t c => exact hg.elim
  | step t => trivial

/-- A thread that calls a function by turns is in order at its start. -/
theorem InOrder.call {c : Call} {last : Option (Call × Int)}
    (ho : InOrder (ids t) (s.marked (ids t)) (s.pc t)) (hpc : s.pc t = .user last)
    (hg : Disciplined ids s (.call t c) s') : InOrder (ids t) (s.marked (ids t)) c.start := by
  cases c with
  | acquire ID =>
    obtain ⟨rfl, hnot⟩ := hg
    rw [hpc] at ho
    rcases last with _ | ⟨ID | ID, r⟩
    · exact ⟨ho.1, rfl⟩
    · obtain rfl : r = 0 := ho.2.2
      exact absurd hpc (hnot ID)
    · exact ⟨ho.1, rfl⟩
  | release ID =>
    obtain ⟨rfl, hacq⟩ := hg
    rw [hacq] at ho
    exact ⟨ho.1, rfl⟩

variable [DecidableEq τ]

theorem Inv.step (h : Inv T ids s) (hd : 1 ≤ d) {l : Label τ} (hs : T.step s l = some s')
    (hg : Disciplined ids s l s') : Inv T ids s' := by
  obtain ⟨huse, ho⟩ := inv_iff.1 h
  refine inv_iff.2 ⟨huse.step hd hs hg.ownIds, fun u => ?_⟩
  cases l with
  | call t c =>
    simp only [TrnmntTree.step] at hs
    split at hs
    · rename_i last hpc
      cases hs
      have hmark : (s.goto t c.start).marked (ids u) = s.marked (ids u) := State.marked_congr rfl _
      rw [enter_eq (ids t) s t hg.ownIds, hmark]
      rcases eq_or_ne u t with rfl | hu
      · simpa using (ho u).call hpc hg
      · simpa [hu] using ho u
    · cases hs
  | callNull t c => exact hg.elim
  | step t =>
    have ht := (huse.stepThread hd hs).2
    rcases eq_or_ne u t with rfl | hu
    · exact ht.turn.inOrder (ho u)
    · rw [ht.pc u hu, ht.marked u hu]
      exact ho u

theorem inv_of_run (hd : 1 ≤ d) (h0 : Fresh T s) (hr : Run T.step (Disciplined ids) s s') :
    Inv T ids s' :=
  hr.invariant h0.inv fun _ _ _ h hs hg => h.step hd hs hg

end Xv6.TrnmntTree
