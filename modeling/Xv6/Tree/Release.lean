import Xv6.Tree.Progress

/-! Who may release a tree. The threads call the functions in any order and with
any ids, and every call that returns is logged. `trnmnt_tree_release` tests that
the id is taken and that the caller has locked all nodes on the way from the id to
the root; a thread that has acquired the sibling of the id passes the second test
as well. -/

namespace Xv6.TrnmntTree

open Heap Runs
open Function (update update_of_ne)

variable {d : ℕ} {τ : Type*} {t u : τ}

/-! ## The log of the calls -/

/-- The calls that have returned, with their threads and results, the last one
first. -/
abbrev CallLog (τ : Type*) := List (τ × Call × Int)

structure Logged (τ : Type*) where
  state : State τ
  log : CallLog τ

def Label.thread : Label τ → τ
  | .call t _ => t
  | .callNull t _ => t
  | .step t => t

/-- What a step that brings `t` to a program point adds to the log. -/
def Pc.entry (t : τ) : Pc → CallLog τ
  | .user (some (c, r)) => [(t, c, r)]
  | _ => []

section

variable [DecidableEq τ]

def logStep (T : TrnmntTree) (x : Logged τ) (l : Label τ) : Option (Logged τ) :=
  (T.step x.state l).map fun s => ⟨s, (s.pc l.thread).entry l.thread ++ x.log⟩

/-- `trnmnt_tree_acquire(tree, ID)` has returned 0 in thread `t`, and the id has not
been released since. -/
def holds (t : τ) (ID : Int) : CallLog τ → Bool
  | [] => false
  | (u, .acquire ID', r) :: log => (u = t && ID' = ID && r = 0) || holds t ID log
  | (_, .release ID', r) :: log => !(ID' = ID && r = 0) && holds t ID log

end

/-! ## Where the threads are -/

/-- The number of nodes that `release_lock` visits: one at least. -/
def rounds (d : ℕ) : ℕ := max d 1

/-- The nodes that `trnmnt_tree_release(tree, ID)` unlocks, the root first. -/
def wayUp (T : FullTree d) (ID : Int) : List Int :=
  (path (T.realIndexInTree ID).toNat (rounds d)).map fun p : ℕ => (p : Int)

theorem wayUp_eq (T : FullTree d) (n : Fin (2 ^ d)) : wayUp T (n : ℕ) = route n (rounds d) := by
  rw [wayUp, realIndexInTree_eq]
  rfl

/-- Between the locking and the unlocking of the tree. -/
def Pc.inLock : Pc → Bool
  | .acquireTest _ | .acquireTaken _ | .acquireTake _ | .acquireUnlock _ => true
  | .releaseTest _ | .releaseFree _ | .releaseUnlock _ | .clear _ | .clearUnlock _ => true
  | _ => false

/-- What the local variables of a thread are when the ids of the calls are
indices of `taken_ids`. -/
def Vars (d : ℕ) : Pc → Prop
  | .user _ => True
  | .acquireLock ID | .acquireTest ID | .acquireTaken ID | .acquireTake ID | .acquireUnlock ID
  | .releaseLock ID | .releaseTest ID | .releaseFree ID | .releaseUnlock ID
  | .clearLock ID | .clear ID | .clearUnlock ID => ∃ n : Fin (2 ^ d), ID = (n : ℕ)
  | .climb ID i p => ∃ n : Fin (2 ^ d), ID = (n : ℕ) ∧ i ≤ d ∧ p = anc (leaf n) i
  | .releaseDown ID p frames => ∃ n : Fin (2 ^ d), ID = (n : ℕ) ∧
      ∃ j < rounds d, p = anc (leaf n) (j + 1) ∧ frames = route n j
  | .releaseUp ID frames sum => ∃ n : Fin (2 ^ d), ID = (n : ℕ) ∧ sum ≤ 0 ∧
      ∃ j < rounds d, frames = route n j
  | .fault => False

structure Base (T : FullTree d) (s : State τ) : Prop where
  lock : ∀ t, s.mutex T.lock = .locked t ↔ (s.pc t).inLock
  present : s.mutex T.lock ≠ .absent
  vars : ∀ t, Vars d (s.pc t)

variable {T : FullTree d} {s s' : State τ} {p : Pc} {ID m : Int}

theorem Base.after (h : Base T s) (hg : GoesTo t p s s')
    (hlock : s'.mutex T.lock = .locked t ↔ p.inLock) (hpresent : s'.mutex T.lock ≠ .absent)
    (hvars : Vars d p) : Base T s' := by
  constructor
  · intro u
    rcases eq_or_ne u t with rfl | hu
    · rw [hg.self]
      exact hlock
    · rw [hg.pc u hu, hg.mutex u hu]
      exact h.lock u
  · exact hpresent
  · intro u
    rcases eq_or_ne u t with rfl | hu
    · rw [hg.self]
      exact hvars
    · rw [hg.pc u hu]
      exact h.vars u

/-- Nobody uses the tree. -/
theorem base_of_unlocked (hlock : s.mutex T.lock = .unlocked) (hpc : ∀ t, s.pc t = .user none) :
    Base T s := by
  refine ⟨fun t => ?_, ?_, fun t => ?_⟩
  · simp [hlock, hpc, Pc.inLock]
  · simp [hlock]
  · rw [hpc t]
    trivial

theorem Base.inLock_unique (h : Base T s) (ht : (s.pc t).inLock) (hu : (s.pc u).inLock) :
    u = t := by
  have hlocked := (h.lock u).2 hu
  rw [(h.lock t).2 ht] at hlocked
  exact (Locks.Cell.locked.inj hlocked).symm

variable [DecidableEq τ]

/-- `s'` is `s` after `t` has gone to `p`, with the lock of the tree where it
should be. -/
def Went (T : FullTree d) (t : τ) (p : Pc) (s s' : State τ) : Prop :=
  Base T s' ∧ GoesTo t p s s'

/-- The root is the last node that `release_lock` visits, and the only one with
index 0. -/
theorem anc_eq_zero_iff (n : Fin (2 ^ d)) {j : ℕ} (hj : j < rounds d) :
    (anc (leaf n) (j + 1) : Int) = 0 ↔ j + 1 = rounds d := by
  unfold rounds at hj ⊢
  rcases Nat.eq_zero_or_pos d with rfl | hd
  · have hroot := anc_leaf_root n
    obtain rfl : j = 0 := by omega
    simp only [anc] at hroot ⊢
    omega
  · rw [max_eq_left hd] at hj ⊢
    exact anc_eq_root_iff n hj

/-- What a step may do, where `b` says whether the thread has the lock of the tree. -/
def Deed.Fits (T : FullTree d) (b : Bool) : Deed → Prop
  | .goto p | .mark _ _ _ p => p.inLock = b ∧ Vars d p
  | .lock m on => b = false ∧ (m = T.lock ∧ (on 0).inLock ∧ Vars d (on 0) ∨
      m ≠ T.lock ∧ ∀ r, (on r).inLock = false ∧ Vars d (on r))
  | .unlock m on => m = T.lock ∧ b = true ∧ (on 0).inLock = false ∧ Vars d (on 0) ∨
      m ≠ T.lock ∧ ∀ r ≤ 0, (on r).inLock = b ∧ Vars d (on r)

variable {taken : Int → Int} {a : Deed}

omit [DecidableEq τ] in
theorem Does.fits (h : Does T taken p a) (hv : Vars d p) : a.Fits T p.inLock := by
  cases h with
  | acquireLock | releaseLock | clearLock => exact ⟨rfl, .inl ⟨rfl, rfl, hv⟩⟩
  | acquireFault hid | releaseFault hid =>
    obtain ⟨n, rfl⟩ := hv
    exact absurd (hasId T n) hid
  | refuse | pass | take | idle | found | clear => exact ⟨rfl, hv⟩
  | refused | idled | released => exact .inl ⟨rfl, rfl, rfl, trivial⟩
  | start =>
    obtain ⟨n, rfl⟩ := hv
    exact .inl ⟨rfl, rfl, rfl, n, rfl, Nat.zero_le d, realIndexInTree_eq T n⟩
  | acquired | failed => exact ⟨rfl, trivial⟩
  | climbFault _ hn =>
    obtain ⟨n, _, _, rfl⟩ := hv
    exact absurd (parent_anc n _ ▸ hasNode_anc T n _) hn
  | climb hi hn =>
    obtain ⟨n, rfl, _, rfl⟩ := hv
    rw [T.depth_eq, Int.ofNat_lt] at hi
    refine ⟨rfl, .inr ⟨T.nodes_ne_lock _ hn, fun r => ?_⟩⟩
    dsimp only
    split
    · exact ⟨rfl, trivial⟩
    · exact ⟨rfl, n, rfl, hi, parent_anc n _⟩
  | enter =>
    obtain ⟨n, rfl⟩ := hv
    refine .inl ⟨rfl, rfl, rfl, n, rfl, 0, Nat.lt_of_lt_of_le Nat.zero_lt_one (le_max_right d 1),
      ?_, rfl⟩
    rw [realIndexInTree_eq, parent_anc]
  | down hne =>
    obtain ⟨n, rfl, j, hj, rfl, rfl⟩ := hv
    rw [ne_eq, anc_eq_zero_iff n hj] at hne
    exact ⟨rfl, n, rfl, j + 1, by omega, parent_anc n _, rfl⟩
  | rootFault hn => exact absurd (hasNode_zero T) hn
  | root hn =>
    obtain ⟨n, rfl, j, hj, _, rfl⟩ := hv
    exact .inr ⟨T.nodes_ne_lock _ hn, fun r hr => ⟨rfl, n, rfl, hr, j, hj, rfl⟩⟩
  | upFault hn =>
    obtain ⟨n, _, _, j, _, hframes⟩ := hv
    exact absurd (hasNode_route T (hframes ▸ List.mem_cons_self ..)) hn
  | up hn =>
    obtain ⟨n, rfl, hsum, j, hj, hframes⟩ := hv
    cases j with
    | zero => cases hframes
    | succ j =>
      exact .inr ⟨T.nodes_ne_lock _ hn, fun r hr =>
        ⟨rfl, n, rfl, by omega, j, by omega, (List.cons.inj hframes).2⟩⟩
  | freed =>
    obtain ⟨n, rfl, _⟩ := hv
    exact ⟨rfl, n, rfl⟩

theorem Base.went (h : Base T s) (hf : a.Fits T (s.pc t).inLock)
    (hr : a.run s t = some s') : ∃ p, a.To s t p ∧ Went T t p s s' := by
  obtain ⟨p, hto, hg⟩ := a.goesTo hr
  refine ⟨p, hto, ?_, hg⟩
  have hlock := h.lock t
  cases a with
  | goto q | mark _ _ _ q =>
    cases hr
    obtain rfl := hto
    exact h.after hg (hf.1 ▸ hlock) h.present hf.2
  | lock m on =>
    obtain ⟨r, mutex, hm, rfl⟩ := lock_some hr
    obtain ⟨hout, ⟨rfl, hin, hvars⟩ | ⟨hne, hon⟩⟩ := hf
    · obtain ⟨rfl, _, rfl⟩ := Locks.lock_eq h.present (by rw [ne_eq, hlock, hout]; simp) hm
      obtain ⟨r, mutex, hm', rfl⟩ := hto
      cases hm.symm.trans hm'
      exact h.after hg (by simp [hin]) (by simp) hvars
    · obtain ⟨r', mutex', hm', rfl⟩ := hto
      have hsame : mutex T.lock = s.mutex T.lock := Locks.lock_of_ne hm hne.symm
      refine h.after hg ?_ ?_ (hon r').2
      · show mutex T.lock = _ ↔ _
        rw [hsame, hlock, hout, (hon r').1]
      · show mutex T.lock ≠ _
        rw [hsame]
        exact h.present
  | unlock m on =>
    cases hr
    obtain rfl := hto
    rcases hf with ⟨rfl, hin, hout, hvars⟩ | ⟨hne, hon⟩
    · have hmine := Locks.unlock_eq (hlock.2 hin)
      rw [hmine] at hg
      refine h.after hg ?_ ?_ hvars
      · simp [State.unlock, hmine, hout]
      · simp [State.unlock, hmine]
    · obtain ⟨hin, hvars⟩ := hon _ (Locks.unlock_result s.mutex t m).1
      have hsame : (s.unlock t m on).mutex T.lock = s.mutex T.lock := Locks.unlock_of_ne hne.symm
      refine h.after hg ?_ ?_ hvars
      · rw [hsame, hin]
        exact hlock
      · rw [hsame]
        exact h.present

theorem Base.goto (h : Base T s) (hin : p.inLock = (s.pc t).inLock) (hvars : Vars d p) :
    Went T t p s (s.goto t p) := by
  obtain ⟨_, rfl, hwent⟩ := h.went (a := .goto p) ⟨hin, hvars⟩ rfl
  exact hwent

/-- **What a step of a thread does**, when the ids are indices of `taken_ids`. -/
theorem Base.does (h : Base T s) (hs : T.stepThread s t = some s') :
    ∃ a p, Does T s.takenIds (s.pc t) a ∧ a.run s t = some s' ∧ a.To s t p ∧
      Went T t p s s' := by
  obtain ⟨a, hdoes, hr⟩ := stepThread_does hs
  obtain ⟨p, hto, hwent⟩ := h.went (hdoes.fits (h.vars t)) hr
  exact ⟨a, p, hdoes, hr, hto, hwent⟩

/-! ## Sessions -/

/-- The id was free when the thread marked it, and its acquire has not returned. -/
def Pc.Climbs (ID : Int) : Pc → Prop
  | .acquireUnlock ID' => ID' = ID
  | .climb ID' _ _ => ID' = ID
  | _ => False

/-- A release of `ID` that returns 0 unless a step of another thread prevents it:
the nodes that are left to unlock are the thread's own. -/
def Wins (T : FullTree d) (mutex : Locks.Table Int τ) (t : τ) (ID : Int) : Pc → Prop
  | .releaseUnlock ID' => ID' = ID ∧ ∀ i ∈ wayUp T ID, mutex (T.nodes i) = .locked t
  | .releaseDown ID' _ _ => ID' = ID ∧ ∀ i ∈ wayUp T ID, mutex (T.nodes i) = .locked t
  | .releaseUp ID' frames sum =>
    ID' = ID ∧ sum = 0 ∧ ∀ i ∈ frames, mutex (T.nodes i) = .locked t
  | .clearLock ID' | .clear ID' | .clearUnlock ID' => ID' = ID
  | _ => False

def Session (x : Logged τ) (t : τ) (ID : Int) : Prop :=
  (x.state.pc t).Climbs ID ∨ holds t ID x.log

/-- Every release in the log has returned -1, or 0 to the thread that held the id. -/
def Right : CallLog τ → Prop
  | [] => True
  | (t, .release ID, r) :: log => (r = -1 ∨ r = 0 ∧ holds t ID log) ∧ Right log
  | (_, .acquire _, _) :: log => Right log

structure Sound (T : FullTree d) (x : Logged τ) : Prop where
  base : Base T x.state
  admitted : ∀ t ID, x.state.pc t = .acquireTake ID → x.state.takenIds ID = 0
  marked : ∀ t ID, Session x t ID → x.state.pc t ≠ .clearUnlock ID → x.state.takenIds ID ≠ 0
  one : ∀ t u ID, Session x t ID → Session x u ID → t = u
  wins : ∀ t ID, Wins T x.state.mutex t ID (x.state.pc t) → holds t ID x.log
  right : Right x.log

/-- Every release is tried by the thread that holds the id, or by one that has not
locked all the nodes above it, or the id is free. Ids are not negative. -/
def Tried (T : FullTree d) : Guard (Logged τ) (Label τ) := fun x l _ =>
  match l with
  | .call _ c => 0 ≤ c.ID
  | .callNull _ _ => True
  | .step t => ∀ ID, x.state.pc t = .releaseTest ID → x.state.takenIds ID ≠ 0 →
      (∀ i ∈ wayUp T ID, x.state.mutex (T.nodes i) = .locked t) → holds t ID x.log

variable {x : Logged τ} {log : CallLog τ}

theorem Fresh.sound (h : Fresh T s) : Sound T (⟨s, []⟩ : Logged τ) := by
  have hno : ∀ (t : τ) ID, ¬ Session (⟨s, []⟩ : Logged τ) t ID := by
    rintro t ID (hc | hh)
    · rw [h.pc] at hc
      exact hc
    · cases hh
  constructor
  · exact base_of_unlocked h.lock h.pc
  · intro t ID hpc
    rw [h.pc] at hpc
    cases hpc
  · exact fun t ID hs => absurd hs (hno t ID)
  · exact fun t u ID hs => absurd hs (hno t ID)
  · intro t ID hw
    rw [h.pc] at hw
    exact hw.elim
  · trivial

omit [DecidableEq τ] in
theorem GoesTo.wins_iff (hg : GoesTo t p s s') (hu : u ≠ t) :
    Wins T s'.mutex u ID (s'.pc u) ↔ Wins T s.mutex u ID (s.pc u) := by
  rw [hg.pc u hu]
  cases s.pc u <;> simp only [Wins, hg.mutex u hu]

theorem GoesTo.session (hg : GoesTo t p x.state s') (hs : Session ⟨s', log⟩ u ID) :
    (u = t ∧ p.Climbs ID) ∨ (u ≠ t ∧ (x.state.pc u).Climbs ID) ∨ holds u ID log := by
  rcases hs with hc | hh
  · rcases eq_or_ne u t with rfl | hu
    · exact .inl ⟨rfl, hg.self ▸ hc⟩
    · exact .inr (.inl ⟨hu, hg.pc u hu ▸ hc⟩)
  · exact .inr (.inr hh)

/-- A step that leaves `taken_ids` as it is and begins no session. -/
theorem Sound.kept (h : Sound T x) (hwent : Went T t p x.state s')
    (htaken : s'.takenIds = x.state.takenIds)
    (hpass : ∀ ID, p = .acquireTake ID → x.state.takenIds ID = 0)
    (hsession : ∀ u ID, Session ⟨s', log⟩ u ID → Session x u ID ∧ x.state.pc t ≠ .clearUnlock ID)
    (hwins : ∀ ID, Wins T s'.mutex t ID p → holds t ID log)
    (hothers : ∀ u ID, u ≠ t → holds u ID x.log → holds u ID log) (hright : Right log) :
    Sound T ⟨s', log⟩ := by
  obtain ⟨hbase, hg⟩ := hwent
  constructor
  · exact hbase
  · intro u ID hpc
    rw [htaken]
    rcases eq_or_ne u t with rfl | hu
    · exact hpass ID (hg.self.symm.trans hpc)
    · exact h.admitted u ID ((hg.pc u hu).symm.trans hpc)
  · intro u ID hs hpc
    rw [htaken]
    apply h.marked u ID (hsession u ID hs).1
    rcases eq_or_ne u t with rfl | hu
    · exact (hsession u ID hs).2
    · exact fun e => hpc ((hg.pc u hu).trans e)
  · exact fun u v ID hu hv => h.one u v ID (hsession u ID hu).1 (hsession v ID hv).1
  · intro u ID hw
    rcases eq_or_ne u t with rfl | hu
    · exact hwins ID (hg.self ▸ hw)
    · exact hothers u ID hu (h.wins u ID ((hg.wins_iff hu).1 hw))
  · exact hright

/-! ## Steps that log nothing -/

/-- A step inside a function. -/
theorem Sound.quiet (h : Sound T x) {q : Pc} (hpc : x.state.pc t = q)
    (hwent : Went T t p x.state s') (htaken : s'.takenIds = x.state.takenIds)
    (hwins : ∀ ID, Wins T s'.mutex t ID p → holds t ID x.log)
    (hclimb : ∀ ID, p.Climbs ID → q.Climbs ID := by exact fun _ hc => hc.elim)
    (hpass : ∀ ID, p = .acquireTake ID → x.state.takenIds ID = 0 := by
      exact fun _ e => Pc.noConfusion e)
    (hclear : ∀ ID, q ≠ .clearUnlock ID := by exact fun _ => Pc.noConfusion) :
    Sound T ⟨s', x.log⟩ := by
  subst hpc
  refine h.kept hwent htaken hpass (fun u ID hs => ⟨?_, hclear ID⟩) hwins
    (fun u ID _ hh => hh) h.right
  rcases hwent.2.session hs with ⟨rfl, hc⟩ | ⟨-, hc⟩ | hh
  · exact .inl (hclimb ID hc)
  · exact .inl hc
  · exact .inr hh

theorem Sound.take (h : Sound T x) (hpc : x.state.pc t = .acquireTake ID)
    (hwent : Went T t (.acquireUnlock ID) x.state s')
    (htaken : s'.takenIds = update x.state.takenIds ID 1) : Sound T ⟨s', x.log⟩ := by
  obtain ⟨hbase, hg⟩ := hwent
  have hfree := h.admitted t ID hpc
  have halone : ∀ u, (x.state.pc u).inLock → u = t :=
    fun u => h.base.inLock_unique (by rw [hpc]; rfl)
  have hnone : ∀ u, ¬ Session x u ID := by
    intro u hs
    have hclear : x.state.pc u = .clearUnlock ID := by
      by_contra hne
      exact h.marked u ID hs hne hfree
    have hut := halone u (by rw [hclear]; rfl)
    rw [hut, hpc] at hclear
    cases hclear
  have hsession : ∀ u ID', Session ⟨s', x.log⟩ u ID' →
      Session x u ID' ∨ (u = t ∧ ID' = ID) := by
    intro u ID' hs
    rcases hg.session hs with ⟨rfl, hc⟩ | ⟨-, hc⟩ | hh
    · exact .inr ⟨rfl, hc.symm⟩
    · exact .inl (.inl hc)
    · exact .inl (.inr hh)
  constructor
  · exact hbase
  · intro u ID' hpc'
    rcases eq_or_ne u t with rfl | hu
    · rw [hg.self] at hpc'
      cases hpc'
    · rw [hg.pc u hu] at hpc'
      exact absurd (halone u (by rw [hpc']; rfl)) hu
  · intro u ID' hs hne
    rw [htaken]
    rcases eq_or_ne ID' ID with rfl | hID
    · simp
    · rw [update_of_ne hID]
      rcases hsession u ID' hs with hs | ⟨_, e⟩
      · apply h.marked u ID' hs
        rcases eq_or_ne u t with rfl | hu
        · rw [hpc]
          exact Pc.noConfusion
        · exact fun e => hne ((hg.pc u hu).trans e)
      · exact absurd e hID
  · intro u v ID' hu hv
    rcases hsession u ID' hu with hu | ⟨rfl, rfl⟩
    · rcases hsession v ID' hv with hv | ⟨rfl, rfl⟩
      · exact h.one u v ID' hu hv
      · exact absurd hu (hnone u)
    · rcases hsession v ID' hv with hv | ⟨rfl, _⟩
      · exact absurd hv (hnone v)
      · rfl
  · intro u ID' hw
    rcases eq_or_ne u t with rfl | hu
    · rw [hg.self] at hw
      exact hw.elim
    · exact h.wins u ID' ((hg.wins_iff hu).1 hw)
  · exact h.right

theorem Sound.clear (h : Sound T x) (hpc : x.state.pc t = .clear ID)
    (hwent : Went T t (.clearUnlock ID) x.state s')
    (htaken : s'.takenIds = update x.state.takenIds ID 0) : Sound T ⟨s', x.log⟩ := by
  obtain ⟨hbase, hg⟩ := hwent
  have hmine : holds t ID x.log := h.wins t ID (by rw [hpc]; exact rfl)
  have hsession : ∀ u ID', Session ⟨s', x.log⟩ u ID' → Session x u ID' := by
    intro u ID' hs
    rcases hg.session hs with ⟨-, hc⟩ | ⟨-, hc⟩ | hh
    · exact hc.elim
    · exact .inl hc
    · exact .inr hh
  constructor
  · exact hbase
  · intro u ID' hpc'
    rw [htaken]
    rcases eq_or_ne ID' ID with rfl | hID
    · simp
    · rw [update_of_ne hID]
      rcases eq_or_ne u t with rfl | hu
      · rw [hg.self] at hpc'
        cases hpc'
      · exact h.admitted u ID' ((hg.pc u hu).symm.trans hpc')
  · intro u ID' hs hne
    rw [htaken]
    have hs := hsession u ID' hs
    rcases eq_or_ne ID' ID with rfl | hID
    · obtain rfl : u = t := h.one u t ID' hs (.inr hmine)
      exact absurd hg.self hne
    · rw [update_of_ne hID]
      apply h.marked u ID' hs
      rcases eq_or_ne u t with rfl | hu
      · rw [hpc]
        exact Pc.noConfusion
      · exact fun e => hne ((hg.pc u hu).trans e)
  · exact fun u v ID' hu hv => h.one u v ID' (hsession u ID' hu) (hsession v ID' hv)
  · intro u ID' hw
    rcases eq_or_ne u t with rfl | hu
    · rw [hg.self] at hw
      obtain rfl : ID = ID' := hw
      exact hmine
    · exact h.wins u ID' ((hg.wins_iff hu).1 hw)
  · exact h.right

/-! ## Steps that return -/

theorem holds_fail (t u : τ) (c : Call) (ID : Int) (log : CallLog τ) :
    holds u ID ((t, c, -1) :: log) = holds u ID log := by
  cases c <;> simp [holds]

theorem holds_acquired {ID' : Int} :
    holds u ID' ((t, .acquire ID, 0) :: log) ↔ (t = u ∧ ID = ID') ∨ holds u ID' log := by
  simp [holds]

theorem holds_released {ID' : Int} :
    holds u ID' ((t, .release ID, 0) :: log) ↔ ID ≠ ID' ∧ holds u ID' log := by
  simp [holds]

theorem session_fail {c : Call} : Session ⟨s, (t, c, -1) :: log⟩ u ID ↔ Session ⟨s, log⟩ u ID := by
  simp only [Session, holds_fail]

/-- A call that fails changes nothing of what the log says. -/
theorem Sound.fail (h : Sound T ⟨s, log⟩) (t : τ) (c : Call) : Sound T ⟨s, (t, c, -1) :: log⟩ := by
  constructor
  · exact h.base
  · exact h.admitted
  · exact fun u ID hs => h.marked u ID (session_fail.1 hs)
  · exact fun u v ID hu hv => h.one u v ID (session_fail.1 hu) (session_fail.1 hv)
  · intro u ID hw
    rw [holds_fail]
    exact h.wins u ID hw
  · cases c with
    | acquire ID => exact h.right
    | release ID => exact ⟨.inl rfl, h.right⟩

theorem Sound.acquired (h : Sound T x) (hc : (x.state.pc t).Climbs ID)
    (hclear : ∀ ID, x.state.pc t ≠ .clearUnlock ID)
    (hwent : Went T t (.user (some (.acquire ID, 0))) x.state s')
    (htaken : s'.takenIds = x.state.takenIds) : Sound T ⟨s', (t, .acquire ID, 0) :: x.log⟩ := by
  refine h.kept hwent htaken (fun _ e => Pc.noConfusion e) (fun u ID' hs => ⟨?_, hclear ID'⟩)
    (fun _ hw => hw.elim) (fun u ID' _ hh => holds_acquired.2 (.inr hh)) h.right
  rcases hwent.2.session hs with ⟨-, hc'⟩ | ⟨-, hc'⟩ | hh
  · exact hc'.elim
  · exact .inl hc'
  · rcases holds_acquired.1 hh with ⟨rfl, rfl⟩ | hh
    · exact .inl hc
    · exact .inr hh

theorem Sound.released (h : Sound T x) (hpc : x.state.pc t = .clearUnlock ID)
    (hwent : Went T t (.user (some (.release ID, 0))) x.state s')
    (htaken : s'.takenIds = x.state.takenIds) : Sound T ⟨s', (t, .release ID, 0) :: x.log⟩ := by
  have hmine : holds t ID x.log := h.wins t ID (by rw [hpc]; exact rfl)
  -- the session of `t` on `ID` is over, and no other one was there
  have hsession : ∀ u ID', Session ⟨s', (t, .release ID, 0) :: x.log⟩ u ID' →
      Session x u ID' ∧ ID' ≠ ID := by
    intro u ID' hs
    rcases hwent.2.session hs with ⟨-, hc⟩ | ⟨hu, hc⟩ | hh
    · exact hc.elim
    · refine ⟨.inl hc, ?_⟩
      rintro rfl
      exact hu (h.one u t ID' (.inl hc) (.inr hmine))
    · obtain ⟨hne, hh⟩ := holds_released.1 hh
      exact ⟨.inr hh, hne.symm⟩
  refine h.kept hwent htaken (fun _ e => Pc.noConfusion e) (fun u ID' hs => ?_)
    (fun _ hw => hw.elim) (fun u ID' hu hh => holds_released.2 ⟨?_, hh⟩)
    ⟨.inr ⟨rfl, hmine⟩, h.right⟩
  · obtain ⟨hs, hID⟩ := hsession u ID' hs
    rw [hpc]
    exact ⟨hs, fun e => hID (Pc.clearUnlock.inj e).symm⟩
  · rintro rfl
    exact hu (h.one u t ID (.inr hh) (.inr hmine))

/-! ## Runs -/

/-- A thread that wins has owned the nodes from the test on. -/
theorem wins_before {p' : Pc} (h : Vars d p)
    (hdoes : Does T s.takenIds p a) (hr : a.run s t = some s') (hto : a.To s t p')
    (hw : Wins T s'.mutex t ID p') : Wins T s.mutex t ID p ∨
      p = .releaseTest ID ∧ s.takenIds ID ≠ 0 ∧
        ∀ i ∈ wayUp T ID, s.mutex (T.nodes i) = .locked t := by
  cases hdoes with
  | acquireLock | releaseLock =>
    obtain ⟨_, _, _, rfl⟩ := hto
    exact hw.elim
  | clearLock =>
    obtain ⟨_, _, _, rfl⟩ := hto
    exact .inl hw
  | climb =>
    obtain ⟨r, _, _, rfl⟩ := hto
    dsimp only at hw
    split at hw <;> exact hw.elim
  | found _ htaken =>
    cases hr
    obtain rfl := hto
    obtain ⟨rfl, hw⟩ := hw
    exact .inr ⟨rfl, htaken, hw⟩
  | enter =>
    cases hr
    obtain rfl := hto
    obtain ⟨rfl, hw⟩ := hw
    exact .inl ⟨rfl, fun i hi => Locks.unlock_self (hw i hi)⟩
  | down =>
    cases hr
    obtain rfl := hto
    exact .inl hw
  | root =>
    cases hr
    obtain rfl := hto
    obtain ⟨rfl, hres, hw⟩ := hw
    obtain ⟨n, rfl, j, hj, hzero, rfl⟩ := h
    refine .inl ⟨rfl, fun i hi => ?_⟩
    have hlast := (anc_eq_zero_iff n hj).1 hzero.symm
    rw [wayUp_eq, ← hlast, route_succ, ← hzero, List.mem_cons] at hi
    rcases hi with rfl | hi
    · exact (Locks.unlock_result ..).2 hres
    · exact Locks.unlock_self (hw i hi)
  | @up _ q =>
    cases hr
    obtain rfl := hto
    obtain ⟨rfl, hsum, hw⟩ := hw
    obtain ⟨n, rfl, hle', _⟩ := h
    have hres := Locks.unlock_result s.mutex t (T.nodes q)
    refine .inl ⟨rfl, by omega, fun i hi => ?_⟩
    rcases List.mem_cons.1 hi with rfl | hi
    · exact hres.2 (by omega)
    · exact Locks.unlock_self (hw i hi)
  | freed =>
    obtain rfl := hto
    obtain rfl := hw
    exact .inl ⟨rfl, rfl, fun i hi => absurd hi List.not_mem_nil⟩
  | clear =>
    obtain rfl := hto
    exact .inl hw
  | _ =>
    obtain rfl := hto
    exact hw.elim

variable {x' : Logged τ}

theorem Sound.stepThread (h : Sound T x) (hs : T.stepThread x.state t = some s')
    (hg : Tried T x (.step t) x') : Sound T ⟨s', (s'.pc t).entry t ++ x.log⟩ := by
  obtain ⟨a, p, hdoes, hr, hto, hwent⟩ := h.base.does hs
  have hwins : ∀ ID, Wins T s'.mutex t ID p → holds t ID x.log := by
    intro ID hw
    rcases wins_before (h.base.vars t) hdoes hr hto hw with hw | ⟨hpc, htaken, hown⟩
    · exact h.wins t ID hw
    · exact hg ID hpc htaken hown
  have hvars : Vars d p := hwent.2.self ▸ hwent.1.vars t
  have htaken := a.takenIds hr
  rw [hwent.2.self]
  generalize hpc : x.state.pc t = q at hdoes
  cases hdoes with
  | acquireFault | climbFault | releaseFault | rootFault | upFault =>
    obtain rfl := hto
    exact hvars.elim
  | take =>
    obtain rfl := hto
    exact h.take hpc hwent htaken
  | clear =>
    obtain rfl := hto
    exact h.clear hpc hwent htaken
  | released =>
    obtain rfl := hto
    exact h.released hpc hwent htaken
  | acquired =>
    obtain rfl := hto
    apply h.acquired _ _ hwent htaken
    · rw [hpc]
      exact rfl
    · rw [hpc]
      exact fun _ => Pc.noConfusion
  | refused | idled | failed =>
    obtain rfl := hto
    exact (h.quiet hpc hwent htaken hwins).fail ..
  | pass _ hfree =>
    obtain rfl := hto
    refine h.quiet hpc hwent htaken hwins (fun _ hc => hc.elim) ?_
    rintro _ ⟨⟩
    exact hfree
  | start =>
    obtain rfl := hto
    exact h.quiet hpc hwent htaken hwins fun _ hc => hc
  | climb =>
    obtain ⟨r, _, _, hp⟩ := hto
    dsimp only at hp
    split at hp <;> subst hp
    · exact (h.quiet hpc hwent htaken hwins).fail ..
    · exact h.quiet hpc hwent htaken hwins fun _ hc => hc
  | acquireLock | releaseLock | clearLock =>
    obtain ⟨_, _, _, rfl⟩ := hto
    exact h.quiet hpc hwent htaken hwins
  | refuse | idle | found | enter | down | root | up | freed =>
    obtain rfl := hto
    exact h.quiet hpc hwent htaken hwins

variable {last : Option (Call × Int)}

theorem Sound.between (h : Sound T x)
    (hpc : x.state.pc t = .user last) (hin : p.inLock = false) (hvars : Vars d p)
    (hpass : ∀ ID, p ≠ .acquireTake ID) (hclimb : ∀ ID, ¬ p.Climbs ID)
    (hwins : ∀ mutex ID, ¬ Wins T mutex t ID p) : Sound T ⟨x.state.goto t p, x.log⟩ := by
  have hwent : Went T t p x.state (x.state.goto t p) := h.base.goto (by rw [hpc, hin]; rfl) hvars
  exact h.quiet hpc hwent rfl (fun ID hw => absurd hw (hwins _ ID))
    (fun ID hc => absurd hc (hclimb ID)) fun ID e => absurd e (hpass ID)

theorem Sound.sendBack (h : Sound T x) (hpc : x.state.pc t = .user last) (c : Call) :
    Sound T ⟨x.state.ret t c (-1), (t, c, -1) :: x.log⟩ := by
  apply Sound.fail
  apply h.between hpc
  · rfl
  · trivial
  · exact fun _ => Pc.noConfusion
  · exact fun _ hc => hc
  · exact fun _ _ hw => hw

theorem Sound.step (h : Sound T x) {l : Label τ}
    (hs : T.logStep x l = some x') (hg : Tried T x l x') : Sound T x' := by
  simp only [logStep, Option.map_eq_some_iff] at hs
  obtain ⟨s', hs, rfl⟩ := hs
  cases l with
  | step t => exact h.stepThread hs hg
  | callNull t c =>
    obtain ⟨last, hpc, rfl⟩ := step_callNull hs
    simpa [Pc.entry, State.ret, Label.thread] using h.sendBack hpc c
  | call t c =>
    obtain ⟨last, hpc, rfl⟩ := step_call hs
    rcases enter_cases T x.state t c hg with ⟨_, e⟩ | ⟨n, hn, e⟩
    · rw [e]
      simpa [Pc.entry, State.ret, Label.thread] using h.sendBack hpc c
    · have hsound : Sound T ⟨x.state.goto t c.start, x.log⟩ := by
        cases c <;> exact h.between hpc rfl ⟨n, hn⟩ (fun _ => Pc.noConfusion) (fun _ hc => hc)
          fun _ _ hw => hw
      rw [e]
      cases c <;> simpa [Pc.entry, Call.start, Label.thread] using hsound

theorem sound_of_run (h0 : Fresh T s) (hr : Run T.logStep (Tried T) ⟨s, []⟩ x) : Sound T x :=
  hr.invariant h0.sound fun _ _ _ h hs hg => h.step hs hg

omit [DecidableEq τ] in
theorem Right.entry [DecidableEq τ] {later earlier : CallLog τ} {r : Int} (h : Right log)
    (e : log = later ++ (t, .release ID, r) :: earlier) : r = -1 ∨ r = 0 ∧ holds t ID earlier := by
  subst e
  induction later with
  | nil => exact h.1
  | cons entry later ih =>
    obtain ⟨u, c, r'⟩ := entry
    cases c with
    | acquire => exact ih h
    | release => exact ih h.2

/-! ## Every release returns -/

/-- The threads go on in their calls, and no call is made. -/
def Going : Guard (State τ) (Label τ) := fun _ l _ => ∃ t, l = .step t

/-- Inside `trnmnt_tree_release(tree, ID)`. -/
def Pc.Releases (ID : Int) : Pc → Prop
  | .releaseLock ID' | .releaseTest ID' | .releaseFree ID' | .releaseUnlock ID' => ID' = ID
  | .releaseDown ID' _ _ | .releaseUp ID' _ _ => ID' = ID
  | .clearLock ID' | .clear ID' | .clearUnlock ID' => ID' = ID
  | _ => False

theorem Does.releases {p' : Pc} (h : Does T taken p a) (hto : a.To s t p') (hv : Vars d p')
    (hp : p.Releases ID) : p'.Releases ID ∨ ∃ r, p' = .user (some (.release ID, r)) := by
  cases h with
  | releaseLock | clearLock =>
    obtain ⟨_, _, _, rfl⟩ := hto
    exact .inl hp
  | releaseFault | rootFault | upFault =>
    obtain rfl := hto
    exact hv.elim
  | idle | found | enter | down | root | up | freed | clear =>
    obtain rfl := hto
    exact .inl hp
  | idled | failed | released =>
    obtain rfl := hto
    obtain rfl := hp
    exact .inr ⟨_, rfl⟩
  | _ => exact hp.elim

theorem Base.stepThread (h : Base T s) (hs : T.stepThread s t = some s') :
    Base T s' ∧ (∀ u, u ≠ t → s'.pc u = s.pc u) ∧ (s'.pc t).work d < (s.pc t).work d := by
  obtain ⟨a, p, _, _, _, hbase, hg⟩ := h.does hs
  refine ⟨hbase, hg.pc, (stepThread_work (fun ID q frames hpc => ?_) hs).1⟩
  have hvars := h.vars t
  rw [hpc] at hvars
  obtain ⟨n, _, j, hj, _, rfl⟩ := hvars
  rw [length_route]
  unfold rounds at hj
  omega

theorem Pc.inside_of_inLock (h : p.inLock) : p.inside := by
  cases p with
  | user | fault => cases h
  | _ => rfl

/-- Whoever has the lock of the tree asks for no other mutex. -/
theorem Pc.wants_of_inLock (T : TrnmntTree) (h : p.inLock) : p.wants T = none := by
  cases p with
  | acquireLock | releaseLock | clearLock | climb => cases h
  | _ => rfl

theorem Pc.Releases.inside (h : p.Releases ID) : p.inside := by
  cases p with
  | user | fault => exact h.elim
  | _ => rfl

theorem Pc.Releases.wants {T : TrnmntTree} (h : p.Releases ID) (hw : p.wants T = some m) :
    m = T.lock := by
  cases p with
  | releaseLock | clearLock => exact (Option.some.inj hw).symm
  | acquireLock | climb => exact h.elim
  | _ => cases hw

/-- A thread that has the lock of the tree can give it back. -/
theorem Base.leave (h : Base T s) (hin : (s.pc u).inLock) :
    ∃ s', Run T.step Going s s' ∧ Base T s' ∧ s'.mutex T.lock = .unlocked ∧
      ∀ v, v ≠ u → s'.pc v = s.pc v := by
  -- by induction on the steps that `u` has left in its call
  generalize hw : (s.pc u).work d = w
  induction w using Nat.strong_induction_on generalizing s with
  | _ w ih =>
    have hstep : (T.stepThread s u).isSome := by
      apply stepThread_isSome (Pc.inside_of_inLock hin)
      intro m hm
      rw [Pc.wants_of_inLock _ hin] at hm
      cases hm
    obtain ⟨s1, hs1⟩ := Option.isSome_iff_exists.1 hstep
    obtain ⟨hbase, hothers, hlt⟩ := h.stepThread hs1
    have hrun : Run T.step Going s s1 := .next (l := .step u) .refl hs1 ⟨u, rfl⟩
    by_cases hin1 : (s1.pc u).inLock
    · obtain ⟨s', hr, hbase', hfree, hpc⟩ := ih _ (hw ▸ hlt) hbase hin1 rfl
      exact ⟨s', hrun.trans hr, hbase', hfree, fun v hv => (hpc v hv).trans (hothers v hv)⟩
    · refine ⟨s1, hrun, hbase, ?_, hothers⟩
      cases hcell : s1.mutex T.lock with
      | absent => exact absurd hcell hbase.present
      | unlocked => rfl
      | locked v =>
        have hv := (hbase.lock v).1 hcell
        have hvu : v ≠ u := by
          rintro rfl
          exact hin1 hv
        exact absurd (h.inLock_unique hin (hothers v hvu ▸ hv)) hvu

/-- A thread in `trnmnt_tree_release` is blocked by the lock of the tree only. -/
theorem Base.release_unblocked (h : Base T s) (hp : (s.pc t).Releases ID) :
    ∃ s', Run T.step Going s s' ∧ Base T s' ∧ s'.pc t = s.pc t ∧ (T.stepThread s' t).isSome := by
  by_cases hother : ∃ u, u ≠ t ∧ s.mutex T.lock = .locked u
  · obtain ⟨u, hu, hlocked⟩ := hother
    obtain ⟨s', hr, hbase, hfree, hpc⟩ := h.leave ((h.lock u).1 hlocked)
    have hsame := hpc t hu.symm
    refine ⟨s', hr, hbase, hsame, stepThread_isSome (hsame ▸ hp.inside) fun m hm => ?_⟩
    rw [hsame] at hm
    rw [hp.wants hm]
    exact Locks.lock_isSome fun o ho => by rw [hfree] at ho; cases ho
  · refine ⟨s, .refl, h, rfl, stepThread_isSome hp.inside fun m hm => ?_⟩
    rw [hp.wants hm]
    exact Locks.lock_isSome fun o ho => by_contra fun hne => hother ⟨o, hne, ho⟩

theorem Base.release_returns (h : Base T s) (hp : (s.pc t).Releases ID) :
    ∃ s', Run T.step Going s s' ∧ ∃ r, s'.pc t = .user (some (.release ID, r)) := by
  generalize hw : (s.pc t).work d = w
  induction w using Nat.strong_induction_on generalizing s with
  | _ w ih =>
    obtain ⟨s1, hr1, hbase1, hpc1, hsome⟩ := h.release_unblocked hp
    obtain ⟨s2, hs2⟩ := Option.isSome_iff_exists.1 hsome
    obtain ⟨a, p, hdoes, _, hto, hbase2, hg⟩ := hbase1.does hs2
    have hr2 : Run T.step Going s s2 := .next (l := .step t) hr1 hs2 ⟨t, rfl⟩
    rcases hdoes.releases hto (hg.self ▸ hbase2.vars t) (hpc1 ▸ hp) with hp2 | ⟨r, hret⟩
    · have hlt := (hbase1.stepThread hs2).2.2
      rw [hpc1, hw] at hlt
      obtain ⟨s', hr', hret⟩ := ih _ hlt hbase2 (hg.self ▸ hp2) rfl
      exact ⟨s', hr2.trans hr', hret⟩
    · exact ⟨s2, hr2, r, hg.self.trans hret⟩

/-- **Who releases a tree.** In every run in which no thread tries to release a taken
id that it does not hold while it has locked all the nodes above it: a release
returns 0 only to the thread whose acquire of the id has returned 0 with no release
since, and -1 to all others. A release that has begun can return. -/
theorem trnmnt_tree_release_owner (h0 : Fresh T s) (hr : Run T.logStep (Tried T) ⟨s, []⟩ x) :
    (∀ later t ID r earlier, x.log = later ++ (t, .release ID, r) :: earlier →
      r = -1 ∨ r = 0 ∧ holds t ID earlier) ∧ ∀ t ID, (x.state.pc t).Releases ID →
      ∃ s', Run T.step Going x.state s' ∧ ∃ r, s'.pc t = .user (some (.release ID, r)) := by
  have h := sound_of_run h0 hr
  constructor
  · intro later t ID r earlier e
    exact h.right.entry e
  · intro t ID hp
    exact h.base.release_returns hp

/-- The guard `Tried`, as a test. -/
def triedTest (T : FullTree d) (x : Logged τ) : Label τ → Bool
  | .call _ c => 0 ≤ c.ID
  | .callNull _ _ => true
  | .step t =>
    match x.state.pc t with
    | .releaseTest ID => x.state.takenIds ID = 0 ||
        (wayUp T ID).any (fun i => x.state.mutex (T.nodes i) ≠ .locked t) || holds t ID x.log
    | _ => true

theorem tried_of_test {l : Label τ} (h : triedTest T x l) : Tried T x l x' := by
  cases l with
  | call t c => exact (decide_eq_true_iff (p := 0 ≤ c.ID)).1 h
  | callNull t c => trivial
  | step t =>
    intro ID hpc htaken hown
    simp only [triedTest, hpc, Bool.or_eq_true, decide_eq_true_eq, List.any_eq_true] at h
    rcases h with (h | ⟨i, hi, h⟩) | h
    · exact absurd h htaken
    · exact absurd (hown i hi) h
    · exact h

/-- Thread 0 acquires the tree, thread 1 tries to release the id of thread 0, and
then thread 0 does. -/
def handBack : List (Label (Fin 2)) :=
  .call 0 (.acquire 0) :: List.replicate 6 (.step 0) ++
    .call 1 (.release 0) :: List.replicate 5 (.step 1) ++
    .call 0 (.release 0) :: List.replicate 8 (.step 0)

def handedBack : Logged (Fin 2) := final pairTree.logStep ⟨pairFresh, []⟩ handBack

theorem trnmnt_tree_release_owner_handedBack :
    handedBack.log = [(0, .release 0, 0), (1, .release 0, -1), (0, .acquire 0, 0)] ∧
      holds (0 : Fin 2) 0 [(1, .release 0, -1), (0, .acquire 0, 0)] := by
  have hlog : handedBack.log = [(0, .release 0, 0), (1, .release 0, -1), (0, .acquire 0, 0)] := by
    decide +kernel
  have hr : Run pairTree.logStep (Tried pairTree) ⟨pairFresh, []⟩ handedBack :=
    run_final tried_of_test
  rcases (trnmnt_tree_release_owner pairFresh_fresh hr).1 [] 0 0 0 _ hlog with h | h
  · cases h
  · exact ⟨hlog, h.2⟩

/-- Thread 0 has acquired the tree with id 0 and thread 1 waits for the root with
id 1. Thread 0 releases id 1. -/
def snatch : List (Label (Fin 2)) :=
  contest ++ [.call 0 (.release 1)] ++ List.replicate 8 (.step 0)

def snatched : Logged (Fin 2) := final pairTree.logStep ⟨pairFresh, []⟩ snatch

/-- **A sibling is released by the wrong thread.** The two ids have the same nodes
above them, so the release returns 0, though thread 0 has never acquired id 1 and
thread 1 is still inside its acquire. -/
theorem release_of_sibling : Run pairTree.logStep free ⟨pairFresh, []⟩ snatched ∧
    snatched.log = [(0, .release 1, 0), (0, .acquire 0, 0)] ∧
    holds (0 : Fin 2) 1 [(0, .acquire 0, 0)] = false ∧
    snatched.state.pc 1 = .climb 1 0 2 ∧ snatched.state.mutex (pairTree.nodes 0) = .unlocked := by
  refine ⟨?_, by decide +kernel⟩
  exact run_free

end Xv6.TrnmntTree
