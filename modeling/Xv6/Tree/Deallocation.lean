import Xv6.Tree.Balance

/-! `trnmnt_tree_dealloc` beside calls of acquire and release. Every thread uses an id of its
own. `num_of_locked` is the number of taken ids, so a deallocation that finds 0 there finds
no thread on its way through the tree, but there may be threads that wait for `tree->lock`
at the start of a call. The runs in which no thread does are safe. -/

namespace Xv6.TrnmntTree

open Heap Runs Totals
open Function (update update_apply update_comm update_eq_self update_idem update_of_ne update_self)

variable {d : ℕ} {τ : Type*} {t u : τ}

/-! ## The number of taken ids -/

/-- How many ids are taken. -/
def State.taken (s : State τ) (d : ℕ) : Int :=
  ((Finset.univ.filter fun n : Fin (2 ^ d) => s.takenIds (n : ℕ) ≠ 0).card : Int)

/-- Where a thread with id `n` can be when the mark of its id is `b`. -/
def Pc.Of (n : Fin (2 ^ d)) (b : Bool) : Pc → Prop
  | .user _ | .fault => True
  | .acquireLock ID | .acquireTest ID | .acquireTaken ID | .releaseLock ID | .releaseTest ID
  | .releaseFree ID | .clearUnlock ID => ID = (n : ℕ)
  | .acquireTake ID => ID = (n : ℕ) ∧ b = false
  | .acquireUnlock ID | .climb ID _ _ | .releaseUnlock ID | .releaseDown ID _ _
  | .releaseUp ID _ _ | .clearLock ID | .clear ID => ID = (n : ℕ) ∧ b = true

/-- What a step to `p` of a thread with id `n` does to the marks and to `num_of_locked`. -/
inductive Marking (n : Fin (2 ^ d)) (s s' : State τ) (p : Pc) : Prop
  | keep (htaken : s'.takenIds = s.takenIds) (hnum : s'.numOfLocked = s.numOfLocked)
      (hof : p.Of n (s.marked n))
  | take (hfree : s.marked n = false)
      (htaken : s'.takenIds = update s.takenIds (n : ℕ) 1)
      (hnum : s'.numOfLocked = s.numOfLocked + 1) (hof : p.Of n true)
  | clear (hmark : s.marked n = true)
      (htaken : s'.takenIds = update s.takenIds (n : ℕ) 0)
      (hnum : s'.numOfLocked = s.numOfLocked - 1) (hof : p.Of n false)

structure Numbered (ids : τ ↪ Fin (2 ^ d)) (s : State τ) : Prop where
  place : ∀ t, (s.pc t).Of (ids t) (s.marked (ids t))
  num : s.numOfLocked = s.taken d

variable {T : FullTree d} {s s' : State τ} {p : Pc} {n : Fin (2 ^ d)} {ids : τ ↪ Fin (2 ^ d)}

theorem taken_eq (s : State τ) :
    s.taken d = total (fun b : Bool => if b then 1 else 0) fun m : Fin (2 ^ d) => s.marked m := by
  simp [State.taken, total, State.marked, Finset.card_filter]

theorem taken_update (x : Int) (htaken : s'.takenIds = update s.takenIds (n : ℕ) x) :
    s'.taken d = s.taken d - (if s.marked n then 1 else 0) + if x ≠ 0 then 1 else 0 := by
  rw [taken_eq, taken_eq, marked_update x htaken, total_update]
  simp

theorem Fresh.numbered (h : Fresh T s) : Numbered ids s := by
  refine ⟨fun t => ?_, ?_⟩
  · rw [h.pc t]
    trivial
  · rw [h.numOfLocked, State.taken]
    simp [h.takenIds _ (hasId T _)]

variable {l : Label τ}

theorem OwnIds.indexed (hg : OwnIds ids s l s') : Indexed s l s' := by
  cases l with
  | call t c =>
    have hc : c.ID = (ids t : ℕ) := hg
    show 0 ≤ c.ID
    omega
  | callNull | step => trivial

theorem exists_id {ID : Int} (hID : T.HasId ID) : ∃ n : Fin (2 ^ d), ID = (n : ℕ) := by
  obtain ⟨h0, h1⟩ := hID
  rw [T.threads_eq] at h1
  have hlt : ID.toNat < 2 ^ d := by
    have : (ID.toNat : Int) < ((2 ^ d : ℕ) : Int) := by
      rw [Int.toNat_of_nonneg h0]
      exact_mod_cast h1
    exact_mod_cast this
  exact ⟨⟨ID.toNat, hlt⟩, (Int.toNat_of_nonneg h0).symm⟩

theorem Numbered.unmarked (h : Numbered ids s) (hzero : s.numOfLocked = 0) (n : Fin (2 ^ d)) :
    s.marked n = false := by
  have htotal := h.num.symm.trans hzero
  rw [taken_eq] at htotal
  have hn := eq_zero_of_total (fun m => by split <;> decide) htotal n
  simpa using hn

variable [DecidableEq τ]

/-- A step of a thread with an id of its own. -/
theorem marking_of_step (hof : (s.pc t).Of n (s.marked n)) (hs : T.stepThread s t = some s') :
    ∃ p, s'.pc = update s.pc t p ∧ Marking n s s' p := by
  obtain ⟨a, hdoes, hr⟩ := stepThread_does hs
  have hlock : ∀ m (on : Int → Pc), (Deed.lock m on).run s t = some s' →
      (∀ r, (on r).Of n (s.marked n)) →
      ∃ p, s'.pc = update s.pc t p ∧ Marking n s s' p := by
    intro m on hr hon
    obtain ⟨r, _, _, rfl⟩ := lock_some hr
    exact ⟨on r, rfl, .keep rfl rfl (hon r)⟩
  generalize s.pc t = q at hdoes hof
  cases hdoes with
  | acquireLock | releaseLock | clearLock => exact hlock _ _ hr fun _ => hof
  | climb =>
    refine hlock _ _ hr fun r => ?_
    split
    · trivial
    · exact hof
  | take =>
    obtain ⟨rfl, hb⟩ := hof
    cases hr
    exact ⟨_, rfl, .take hb rfl rfl ⟨rfl, rfl⟩⟩
  | clear =>
    obtain ⟨rfl, hb⟩ := hof
    cases hr
    exact ⟨_, rfl, .clear hb rfl rfl rfl⟩
  | pass _ hfree =>
    obtain rfl := hof
    cases hr
    exact ⟨_, rfl, .keep rfl rfl ⟨rfl, by simp [State.marked, hfree]⟩⟩
  | found _ htaken =>
    obtain rfl := hof
    cases hr
    exact ⟨_, rfl, .keep rfl rfl ⟨rfl, by simp [State.marked, htaken]⟩⟩
  | refuse | start | idle | enter | down | root | up | freed =>
    cases hr
    exact ⟨_, rfl, .keep rfl rfl hof⟩
  | _ =>
    cases hr
    exact ⟨_, rfl, .keep rfl rfl trivial⟩

theorem Numbered.moved (h : Numbered ids s) (hpc : s'.pc = update s.pc t p)
    (hm : Marking (ids t) s s' p) : Numbered ids s' := by
  have hplace : ∀ b, s'.marked (ids t) = b → p.Of (ids t) b →
      (∀ m, m ≠ ids t → s'.marked m = s.marked m) →
      ∀ u, (s'.pc u).Of (ids u) (s'.marked (ids u)) := by
    intro b hb hof hothers u
    rw [hpc]
    rcases eq_or_ne u t with rfl | hu
    · rw [update_self, hb]
      exact hof
    · rw [update_of_ne hu, hothers _ fun e => hu (ids.injective e)]
      exact h.place u
  cases hm with
  | keep htaken hnum hof =>
    have hsame : ∀ m : Fin (2 ^ d), s'.marked m = s.marked m := fun m => by
      rw [State.marked, htaken, State.marked]
    refine ⟨hplace _ (hsame _) hof fun m _ => hsame m, ?_⟩
    rw [hnum, h.num, State.taken, State.taken, htaken]
  | take hfree htaken hnum hof =>
    have hmarked := congrFun (marked_update 1 htaken)
    refine ⟨hplace true ((hmarked _).trans (update_self ..)) hof
      fun m hm => (hmarked m).trans (update_of_ne hm ..), ?_⟩
    rw [hnum, h.num, taken_update 1 htaken, hfree]
    simp
  | clear hmark htaken hnum hof =>
    have hmarked := congrFun (marked_update 0 htaken)
    refine ⟨hplace false ((hmarked _).trans (update_self ..)) hof
      fun m hm => (hmarked m).trans (update_of_ne hm ..), ?_⟩
    rw [hnum, h.num, taken_update 0 htaken, hmark]
    simp

theorem Numbered.step (h : Numbered ids s) (hs : T.step s l = some s')
    (hg : OwnIds ids s l s') : Numbered ids s' := by
  cases l with
  | call t c =>
    have hc : c.ID = (ids t : ℕ) := hg
    obtain ⟨_, _, rfl⟩ := step_call hs
    rw [enter_eq (ids t) s t hc]
    refine h.moved rfl (.keep rfl rfl ?_)
    cases c with
    | acquire | release => exact hc
  | callNull t c =>
    obtain ⟨_, _, rfl⟩ := step_callNull hs
    exact h.moved rfl (.keep rfl rfl trivial)
  | step t =>
    obtain ⟨p, hpc, hm⟩ := marking_of_step (h.place t) hs
    exact h.moved hpc hm

theorem step_pc (hs : T.step s l = some s') (hu : u ≠ l.thread) : s'.pc u = s.pc u := by
  cases l with
  | call t c =>
    obtain ⟨_, _, rfl⟩ := step_call hs
    rw [enter]
    split <;> exact update_of_ne hu _ _
  | callNull t c =>
    obtain ⟨_, _, rfl⟩ := step_callNull hs
    exact update_of_ne hu _ _
  | step t =>
    obtain ⟨a, _, hr⟩ := stepThread_does hs
    obtain ⟨_, _, hgoes⟩ := a.goesTo hr
    exact hgoes.pc u hu

/-! ## A deallocation beside the calls -/

/-- Between the locking of the tree and its unlocking. -/
def Deallocation.locked : Deallocation → Bool
  | .idle | .lock | .returned _ => false
  | _ => true

/-- At the start of a call, before the tree is locked. -/
def Pc.waits : Pc → Bool
  | .acquireLock _ | .releaseLock _ => true
  | _ => false

/-- Every thread uses the tree with an id of its own. -/
def Own (ids : τ ↪ Fin (2 ^ d)) : Guard (World τ) (Act τ) := fun w a w' =>
  match a with
  | .tree l => OwnIds ids w.state l w'.state
  | _ => True

/-- One deallocation at a time. When it locks the tree no other thread waits for that, none
starts a call until it has unlocked the tree, and none uses a tree that has been freed. -/
def Apart (ids : τ ↪ Fin (2 ^ d)) : Guard (World τ) (Act τ) := fun w a w' =>
  Own ids w a w' ∧
  match a with
  | .tree (.call _ _) => (∀ u, (w.dealloc u).locked = false) ∧ w.freed = false
  | .dealloc _ => (∀ u, (w.dealloc u).inside = false) ∧ w.freed = false
  | .step t => w.dealloc t = .lock → ∀ u, (w.state.pc u).waits = false
  | _ => True

/-- At most one thread deallocates the tree, and it does not use it. -/
def Alone (w : World τ) : Prop :=
  ∀ t, (w.dealloc t).inside →
    (∃ last, w.state.pc t = .user last) ∧ ∀ u, u ≠ t → (w.dealloc u).inside = false

/-- How far the deallocation is. While a thread has locked the tree to look at `num_of_locked`,
it is counted as one at a point of a release where the tree is locked. -/
inductive Phase (T : FullTree d) (ids : τ ↪ Fin (2 ^ d)) (w : World τ) : Prop
  | opened (hcount : Counted T w.state) (hnum : Numbered ids w.state)
      (hnone : ∀ u, (w.dealloc u).locked = false) (hfreed : w.freed = false)
  | locked (t : τ) (hcount : Counted T (w.state.goto t (.releaseFree 0)))
      (hnum : Numbered ids w.state) (hat : w.dealloc t = .test ∨ w.dealloc t = .busy)
      (hwaits : ∀ u, (w.state.pc u).waits = false) (hfreed : w.freed = false)
  | gone (t : τ) (hat : (∃ k, w.dealloc t = .node k) ∧ w.freed = false ∨
        w.dealloc t = .free ∧ w.freed = false ∨ w.dealloc t = .unlock ∧ w.freed = true)
      (huser : ∀ u, ∃ last, w.state.pc u = .user last)
      (hlock : w.state.mutex T.lock = .locked t)
      (hnodes : ∀ i, T.HasNode i → ∀ u, w.state.mutex (T.nodes i) ≠ .locked u)
  | finished (hfreed : w.freed = true) (hnone : ∀ u, (w.dealloc u).inside = false)
      (huser : ∀ u, ∃ last, w.state.pc u = .user last)
      (hunlocked : ∀ m ∈ mutexes T, ∀ u, w.state.mutex m ≠ .locked u)

variable {w w' : World τ}

section Elsewhere

variable {q : Pc}

theorem goto_goto (hu : u ≠ t) : (s.goto t q).goto u p = (s.goto u p).goto t q := by
  simp only [State.goto, update_comm hu]

theorem lock_goto (hu : u ≠ t) (m : Int) (on : Int → Pc) :
    (s.goto t q).lock u m on = (s.lock u m on).map (·.goto t q) := by
  simp only [State.lock, State.goto, Option.map_map, Function.comp_def, update_comm hu]

theorem unlock_goto (hu : u ≠ t) (m : Int) (on : Int → Pc) :
    (s.goto t q).unlock u m on = (s.unlock u m on).goto t q := by
  simp only [State.unlock, State.goto, update_comm hu]

/-- A step of `u` is the same wherever another thread is. -/
theorem stepThread_goto {T : TrnmntTree} (hu : u ≠ t) (q : Pc) (hs : T.stepThread s u = some s') :
    T.stepThread (s.goto t q) u = some (s'.goto t q) := by
  obtain ⟨a, hdoes, hr⟩ := stepThread_does hs
  have hpcs : (s.goto t q).pc u = s.pc u := update_of_ne hu _ _
  rw [does_stepThread (a := a) (by rw [hpcs]; exact hdoes)]
  cases a with
  | goto p =>
    cases hr
    exact congrArg some (goto_goto hu)
  | lock m on => exact (lock_goto hu m on).trans (congrArg (Option.map (·.goto t q)) hr)
  | unlock m on =>
    cases hr
    exact congrArg some (unlock_goto hu m on)
  | mark =>
    cases hr
    simp only [Deed.run, State.goto, update_comm hu]

theorem step_goto {T : TrnmntTree} (ht : t ≠ l.thread) (q : Pc)
    (hs : T.step s l = some s') : T.step (s.goto t q) l = some (s'.goto t q) := by
  cases l with
  | call u c | callNull u c =>
    have hu : u ≠ t := Ne.symm ht
    have hpcs : (s.goto t q).pc u = s.pc u := update_of_ne hu _ _
    simp only [TrnmntTree.step, hpcs] at hs ⊢
    split at hs
    · cases hs
      simp only [enter, State.ret, goto_goto hu, apply_ite (State.goto · t q)]
    · cases hs
  | step u => exact stepThread_goto (Ne.symm ht) q hs

end Elsewhere

variable {last : Option (Call × Int)}

theorem Counted.hold (h : Counted T s) (hpc : s.pc t = .user last)
    {r : Int} {mutex : Locks.Table Int τ} (hlock : Locks.lock s.mutex t T.lock = some (r, mutex)) :
    Counted T (({ s with mutex }).goto t (.releaseFree 0)) := by
  have hs : s.lock t T.lock (fun _ => .releaseFree 0) =
      some (({ s with mutex }).goto t (.releaseFree 0)) := by
    rw [State.lock, hlock]
    rfl
  have hvars : Vars d (.releaseFree 0) := ⟨⟨0, Nat.two_pow_pos d⟩, rfl⟩
  obtain ⟨hbase, hgoes⟩ : Went T t (.releaseFree 0) s (({ s with mutex }).goto t _) := by
    obtain ⟨p, ⟨_, _, _, rfl⟩, hwent⟩ := h.base.went
      (a := .lock T.lock fun _ => .releaseFree 0) ⟨by rw [hpc]; rfl, .inl ⟨rfl, rfl, hvars⟩⟩ hs
    exact hwent
  refine ⟨hbase, fun u ID hu => ?_, h.balanced.lockTree hpc hs fun _ hno => hno.elim⟩
  rcases eq_or_ne u t with rfl | hne
  · rw [hgoes.self] at hu
    cases hu
  · rw [hgoes.pc u hne] at hu
    exact h.admitted u ID hu

theorem Counted.letGo (h : Counted T (s.goto t (.releaseFree 0))) (hpc : s.pc t = .user last) :
    Counted T { s with mutex := (Locks.unlock s.mutex t T.lock).2 } := by
  have hat : (s.goto t (.releaseFree 0)).pc t = .releaseFree 0 := update_self ..
  have hstep : T.stepThread (s.goto t (.releaseFree 0)) t =
      some ((s.goto t (.releaseFree 0)).unlock t T.lock
        fun _ => .user (some (.release 0, -1))) := by
    simp only [TrnmntTree.stepThread, hat]
  have hback := (h.stepThread hstep).goto (t := t) (p := .user last)
    (update_self ..) rfl trivial fun _ => id
  have hsame : (((s.goto t (.releaseFree 0)).unlock t T.lock
      fun _ => .user (some (.release 0, -1))).goto t (.user last)) =
      { s with mutex := (Locks.unlock s.mutex t T.lock).2 } := by
    simp only [State.goto, State.unlock, update_idem]
    rw [← hpc, update_eq_self]
  rwa [← hsame]

/-- A step of acquire or release leads to no start of a call. -/
theorem waits_of_step (h : Base T s) (hs : T.stepThread s t = some s') :
    (s'.pc t).waits = false := by
  obtain ⟨a, p, hdoes, _, hto, _, hgoes⟩ := h.does hs
  rw [hgoes.self]
  generalize s.pc t = q at hdoes
  cases hdoes with
  | acquireLock | releaseLock | clearLock => obtain ⟨_, _, _, rfl⟩ := hto; rfl
  | climb =>
    obtain ⟨r, _, _, rfl⟩ := hto
    dsimp only
    split <;> rfl
  | _ => cases hto; rfl

/-- The tree is locked, and no id is taken: all threads are in their own code. -/
theorem user_of_untaken (h : Counted T (s.goto t (.releaseFree 0))) (hnum : Numbered ids s)
    (hpc : s.pc t = .user last) (hwaits : ∀ u, (s.pc u).waits = false)
    (hfree : ∀ n : Fin (2 ^ d), s.marked n = false) (u : τ) : ∃ last, s.pc u = .user last := by
  rcases eq_or_ne u t with rfl | hu
  · exact ⟨last, hpc⟩
  · have hplace := hnum.place u
    have hwait := hwaits u
    have hvars := h.base.vars u
    have hout : ¬ ((s.goto t (.releaseFree 0)).pc u).inLock := fun hin =>
      hu (h.base.inLock_unique (by simp [State.goto, Pc.inLock]) hin)
    rw [show (s.goto t (.releaseFree 0)).pc u = s.pc u from update_of_ne hu _ _] at hvars hout
    rw [hfree] at hplace
    cases hp : s.pc u with
    | user last => exact ⟨last, rfl⟩
    | fault =>
      rw [hp] at hvars
      exact hvars.elim
    | acquireLock | releaseLock =>
      rw [hp] at hwait
      cases hwait
    | acquireTest | acquireTaken | acquireTake | acquireUnlock | releaseTest | releaseFree
    | releaseUnlock | clear | clearUnlock =>
      rw [hp] at hout
      exact absurd rfl hout
    | climb | releaseDown | releaseUp | clearLock =>
      rw [hp] at hplace
      cases hplace.2

/-! ## The phases -/

theorem Deallocation.inside_of_locked {p : Deallocation} (h : p.locked = true) :
    p.inside = true := by
  cases p <;> first | rfl | cases h

theorem dealloc_goto_of_ne (hu : u ≠ t) (p : Deallocation) :
    (w.goto t p).dealloc u = w.dealloc u := update_of_ne hu _ _

theorem dealloc_goto_self (w : World τ) (t : τ) (p : Deallocation) :
    (w.goto t p).dealloc t = p := update_self ..

/-- Where `t` goes and where the others are. -/
theorem forall_dealloc_goto {p : Deallocation} (P : τ → Deallocation → Prop) :
    (∀ u, P u ((w.goto t p).dealloc u)) ↔ P t p ∧ ∀ u, u ≠ t → P u (w.dealloc u) :=
  Function.forall_update_iff w.dealloc P

variable {a : Act τ}

theorem tree_some (hs : w.step T (.tree l) = some w') : ¬(w.dealloc l.thread).inside ∧
      ∃ s', T.step w.state l = some s' ∧ w' = { w with state := s' } := by
  simp only [World.step] at hs
  split at hs
  · cases hs
  · obtain ⟨s', hstep, rfl⟩ := Option.map_eq_some_iff.1 hs
    exact ⟨‹_›, s', hstep, rfl⟩

theorem call_some {p : Deallocation} (hs : w.call t p = some w') :
    (∃ last, w.state.pc t = .user last) ∧ ¬(w.dealloc t).inside ∧ w' = w.goto t p := by
  simp only [World.call] at hs
  split at hs
  · split at hs <;> cases hs
    exact ⟨⟨_, ‹_›⟩, ‹_›, rfl⟩
  · cases hs

theorem inside_of_deallocStep (hs : World.deallocStep T w t = some w') :
    (w.dealloc t).inside = true := by
  cases hp : w.dealloc t with
  | idle | returned => simp [World.deallocStep, hp] at hs
  | _ => rfl

theorem Alone.goto (h : Alone w) {p : Deallocation} (hpc : w'.state.pc = w.state.pc)
    (hd : w'.dealloc = (w.goto t p).dealloc) (hin : p.inside = true →
      (∃ last, w.state.pc t = .user last) ∧ ∀ u, u ≠ t → (w.dealloc u).inside = false) :
    Alone w' := by
  intro v hv
  rw [hd] at hv ⊢
  rw [hpc]
  rcases eq_or_ne v t with rfl | hvt
  · rw [dealloc_goto_self] at hv
    obtain ⟨huser, hothers⟩ := hin hv
    refine ⟨huser, fun u hu => ?_⟩
    rw [dealloc_goto_of_ne hu]
    exact hothers u hu
  · rw [dealloc_goto_of_ne hvt] at hv
    obtain ⟨huser, hothers⟩ := h v hv
    refine ⟨huser, fun u hu => ?_⟩
    rcases eq_or_ne u t with rfl | hut
    · rw [dealloc_goto_self, ← Bool.not_eq_true]
      intro hp
      rw [(hin hp).2 v hvt] at hv
      cases hv
    · rw [dealloc_goto_of_ne hut]
      exact hothers u hu

theorem Alone.step (h : Alone w) (hs : w.step T a = some w')
    (hg : Apart ids w a w') : Alone w' := by
  cases a with
  | tree l =>
    obtain ⟨hout, s', hstep, rfl⟩ := tree_some hs
    intro t ht
    obtain ⟨⟨last, hpc⟩, hothers⟩ := h t ht
    have hne : t ≠ l.thread := by
      rintro rfl
      exact hout ht
    exact ⟨⟨last, (step_pc hstep hne).trans hpc⟩, hothers⟩
  | dealloc t =>
    obtain ⟨hpc, -, rfl⟩ := call_some hs
    exact h.goto rfl rfl fun _ => ⟨hpc, fun u _ => hg.2.1 u⟩
  | deallocNull t =>
    obtain ⟨-, -, rfl⟩ := call_some hs
    exact h.goto rfl rfl fun hin => by cases hin
  | step t =>
    obtain ⟨-, -, hpc, ⟨p, hp⟩, -⟩ := deallocStep_keeps hs
    exact h.goto hpc hp fun _ => h t (inside_of_deallocStep hs)

theorem Phase.tree (h : Phase T ids w) (hs : w.step T (.tree l) = some w')
    (hg : Apart ids w (.tree l) w') : Phase T ids w' := by
  obtain ⟨hown, hcalls⟩ := hg
  obtain ⟨hout, s', hstep, rfl⟩ := tree_some hs
  clear hs
  have hown : OwnIds ids w.state l s' := hown
  have hidle (huser : ∀ u, ∃ last, w.state.pc u = .user last) (hno : ∀ t c, l ≠ .call t c) :=
    step_of_user huser hstep fun t c e => absurd e (hno t c)
  cases h with
  | opened hcount hnum hnone hfreed =>
    exact .opened (hcount.step hstep hown.indexed) (hnum.step hstep hown) hnone hfreed
  | locked t hcount hnum hat hwaits hfreed =>
    have hlocked : (w.dealloc t).locked = true := by
      rcases hat with e | e <;> rw [e] <;> rfl
    have hne : t ≠ l.thread := by
      rintro rfl
      exact hout (Deallocation.inside_of_locked hlocked)
    refine .locked t ?_ (hnum.step hstep hown) hat ?_ hfreed
    · exact hcount.step (step_goto hne _ hstep) hown.indexed
    · intro u
      by_cases hu : u = l.thread
      · subst hu
        cases l with
        | call u c =>
          have hno := hcalls.1 t
          rw [hlocked] at hno
          cases hno
        | callNull u c =>
          simp only [TrnmntTree.step] at hstep
          split at hstep <;> cases hstep
          show (update w.state.pc u _ u).waits = false
          rw [update_self]
          rfl
        | step u =>
          have hwait := waits_of_step (t := u) hcount.base (step_goto hne _ hstep)
          have hpcs : (s'.goto t (.releaseFree 0)).pc u = s'.pc u := update_of_ne (Ne.symm hne) _ _
          exact (congrArg Pc.waits hpcs).symm.trans hwait
      · show (s'.pc u).waits = false
        rw [step_pc hstep hu]
        exact hwaits u
  | gone t hat huser hlock hnodes =>
    have hlocked : (w.dealloc t).locked = true := by
      rcases hat with ⟨⟨k, e⟩, _⟩ | ⟨e, _⟩ | ⟨e, _⟩ <;> rw [e] <;> rfl
    obtain ⟨hmutex, huser'⟩ := hidle huser fun u c e => by
      subst e
      have := hcalls.1 t
      rw [hlocked] at this
      cases this
    exact .gone t hat huser' (hmutex ▸ hlock) (fun i hi u => hmutex ▸ hnodes i hi u)
  | finished hfreed hnone huser hunlocked =>
    obtain ⟨hmutex, huser'⟩ := hidle huser fun u c e => by
      subst e
      have := hcalls.2
      rw [hfreed] at this
      cases this
    exact .finished hfreed hnone huser' fun m hm u => hmutex ▸ hunlocked m hm u

theorem Phase.call (h : Phase T ids w) {p : Deallocation} (hout : ¬(w.dealloc t).inside)
    (hp : p.locked = false) (hfirst : p.inside = true → w.freed = false) :
    Phase T ids (w.goto t p) := by
  have hat {v : τ} (hv : (w.dealloc v).inside = true) : (w.goto t p).dealloc v = w.dealloc v := by
    refine dealloc_goto_of_ne ?_ p
    rintro rfl
    exact hout hv
  cases h with
  | opened hcount hnum hnone hfreed =>
    exact .opened hcount hnum
      ((forall_dealloc_goto fun _ p => p.locked = false).2 ⟨hp, fun u _ => hnone u⟩) hfreed
  | locked v hcount hnum hv hwaits hfreed =>
    refine .locked v hcount hnum ?_ hwaits hfreed
    rwa [hat (by rcases hv with e | e <;> rw [e] <;> rfl)]
  | gone v hv huser hlock hnodes =>
    refine .gone v ?_ huser hlock hnodes
    rwa [hat (by rcases hv with ⟨⟨k, e⟩, _⟩ | ⟨e, _⟩ | ⟨e, _⟩ <;> rw [e] <;> rfl)]
  | finished hfreed hnone huser hunlocked =>
    refine .finished hfreed ((forall_dealloc_goto fun _ p => p.inside = false).2
      ⟨by_contra fun hne => ?_, fun u _ => hnone u⟩) huser hunlocked
    have := hfirst (by simpa using hne)
    rw [hfreed] at this
    cases this

/-- The thread has returned, and it was the only one. -/
theorem returned_inside {r : Int} (hothers : ∀ u, u ≠ t → (w.dealloc u).inside = false) (u : τ) :
    ((w.unlock T t (.returned r)).dealloc u).inside = false :=
  (forall_dealloc_goto fun _ p => p.inside = false).2 ⟨rfl, hothers⟩ u

theorem Phase.dealloc (h : Phase T ids w) (halone : Alone w)
    (hs : World.deallocStep T w t = some w')
    (hg : Apart ids w (.step t) w') : Phase T ids w' := by
  have hinside := inside_of_deallocStep hs
  obtain ⟨⟨last, hpc⟩, hothers⟩ := halone t hinside
  have honly {v : τ} (hv : (w.dealloc v).inside = true) : t = v := by
    by_contra hne
    rw [hothers v (Ne.symm hne)] at hv
    cases hv
  cases h with
  | opened hcount hnum hnone hfreed =>
    -- the tree is locked
    have hlocked := hnone t
    have hp : w.dealloc t = .lock := by
      cases hp : w.dealloc t with
      | lock => rfl
      | idle | returned => rw [hp] at hinside; cases hinside
      | _ => rw [hp] at hlocked; cases hlocked
    simp only [World.deallocStep, hp, Option.map_eq_some_iff] at hs
    obtain ⟨⟨r, mutex⟩, hlock, rfl⟩ := hs
    exact .locked t (hcount.hold hpc hlock) ⟨hnum.place, hnum.num⟩
      (.inl (dealloc_goto_self w t .test)) (hg.2 hp) hfreed
  | locked v hcount hnum hat hwaits hfreed =>
    obtain rfl : t = v := honly (by rcases hat with e | e <;> rw [e] <;> rfl)
    have hmine : w.state.mutex T.lock = .locked t :=
      (hcount.base.lock t).2 (by simp [State.goto, Pc.inLock])
    rcases hat with hp | hp
    · simp only [World.deallocStep, hp] at hs
      by_cases hzero : w.state.numOfLocked ≠ 0
      · rw [if_pos hzero] at hs
        cases hs
        exact .locked t hcount hnum (.inr (dealloc_goto_self ..)) hwaits hfreed
      · rw [if_neg hzero] at hs
        cases hs
        have hfree := hnum.unmarked (not_not.1 hzero)
        refine .gone t (.inl ⟨⟨0, dealloc_goto_self ..⟩, hfreed⟩)
          (user_of_untaken hcount hnum hpc hwaits hfree) hmine fun i hi => ?_
        refine hcount.unlocked (fun ID hID => ?_) hi
        obtain ⟨n, rfl⟩ := exists_id hID
        show w.state.takenIds (n : ℕ) = 0
        simpa [State.marked] using hfree n
    · simp only [World.deallocStep, hp] at hs
      cases hs
      refine .opened (hcount.letGo hpc) ⟨hnum.place, hnum.num⟩ (fun u => ?_) hfreed
      by_contra hne
      exact Bool.false_ne_true ((returned_inside hothers u).symm.trans
        (Deallocation.inside_of_locked (by simpa using hne)))
  | gone v hat huser hlock hnodes =>
    obtain rfl : t = v :=
      honly (by rcases hat with ⟨⟨k, e⟩, _⟩ | ⟨e, _⟩ | ⟨e, _⟩ <;> rw [e] <;> rfl)
    rcases hat with ⟨⟨k, hp⟩, hfreed⟩ | ⟨hp, _⟩ | ⟨hp, hfreed⟩
    · simp only [World.deallocStep, hp] at hs
      split at hs
      · rename_i hk
        cases hs
        have hnode : T.HasNode (k : ℕ) := ⟨Int.natCast_nonneg k, hk⟩
        have hcells := kthreadMutexDealloc_cells w.table (T.nodes (k : ℕ))
        refine .gone t (.inl ⟨⟨k + 1, dealloc_goto_self ..⟩, hfreed⟩) huser ?_ ?_
        · show (w.table.kthreadMutexDealloc (T.nodes (k : ℕ))).2.cells T.lock = _
          rw [(hcells T.lock).resolve_right fun h => T.nodes_ne_lock _ hnode h.1.symm]
          exact hlock
        · intro i hi u
          show (w.table.kthreadMutexDealloc (T.nodes (k : ℕ))).2.cells (T.nodes i) ≠ _
          rcases hcells (T.nodes i) with e | ⟨_, e⟩
          · rw [e]
            exact hnodes i hi u
          · rw [e]
            simp
      · cases hs
        exact .gone t (.inr (.inl ⟨dealloc_goto_self .., hfreed⟩)) huser hlock hnodes
    · simp only [World.deallocStep, hp] at hs
      cases hs
      exact .gone t (.inr (.inr ⟨dealloc_goto_self w t .unlock, rfl⟩)) huser hlock hnodes
    · simp only [World.deallocStep, hp] at hs
      cases hs
      refine .finished hfreed (returned_inside hothers) huser fun m hm u => ?_
      show (Locks.unlock w.state.mutex t T.lock).2 m ≠ _
      rcases hm with rfl | ⟨i, hi, rfl⟩
      · simp [Locks.unlock_eq hlock]
      · rw [Locks.unlock_of_ne (T.nodes_ne_lock i hi)]
        exact hnodes i hi u
  | finished hfreed hnone huser hunlocked =>
    rw [hnone t] at hinside
    cases hinside

theorem Phase.step (h : Phase T ids w) (halone : Alone w) (hs : w.step T a = some w')
    (hg : Apart ids w a w') : Phase T ids w' := by
  cases a with
  | tree l => exact h.tree hs hg
  | dealloc t =>
    obtain ⟨-, hout, rfl⟩ := call_some hs
    exact h.call hout rfl fun _ => hg.2.2
  | deallocNull t =>
    obtain ⟨-, hout, rfl⟩ := call_some hs
    exact h.call hout rfl fun hin => by cases hin
  | step t => exact h.dealloc halone hs hg

theorem Numbered.act (h : Numbered ids w.state)
    (hs : w.step T a = some w') (hg : Own ids w a w') : Numbered ids w'.state := by
  cases a with
  | tree l =>
    obtain ⟨-, s', hstep, rfl⟩ := tree_some hs
    exact h.step hstep hg
  | dealloc t | deallocNull t =>
    obtain ⟨-, -, rfl⟩ := call_some hs
    exact h
  | step t =>
    obtain ⟨htaken, hnum, hpc, -⟩ := deallocStep_keeps hs
    refine ⟨fun u => ?_, ?_⟩
    · rw [hpc, State.marked, htaken]
      exact h.place u
    · rw [hnum, State.taken, htaken]
      exact h.num

/-- **Deallocation beside the calls.** Every thread uses a new tree with an id of its own. Then
`num_of_locked` is the number of taken ids when the tree is not locked. If moreover no thread
waits for the tree at the start of a call when a deallocation locks it, and none starts a call
before the deallocation has unlocked the tree or after the tree has been freed: at the moment
when the tree is freed, and from then on, all threads are in their own code, and no mutex of
the tree is locked but its lock, by the thread that frees it. -/
theorem trnmnt_tree_dealloc_alone (w0 : World τ) (h0 : Fresh T w0.state)
    (hidle : ∀ t, w0.dealloc t = .idle) (hfreed : w0.freed = false) :
    (∀ w, Run (World.step T) (Own ids) w0 w → w.state.mutex T.lock = .unlocked →
      w.state.numOfLocked = w.state.taken d) ∧
    ∀ w, Run (World.step T) (Apart ids) w0 w →
      (∃ t, w.dealloc t = .free) ∨ w.freed = true → (∀ u, ∃ last, w.state.pc u = .user last) ∧
      ∀ m ∈ mutexes T, ∀ u, w.state.mutex m = .locked u →
        m = T.lock ∧ (w.dealloc u = .free ∨ w.dealloc u = .unlock) := by
  refine ⟨fun w hr _ => ?_, fun w hr hend => ?_⟩
  · exact (hr.invariant (I := fun w => Numbered ids w.state) h0.numbered
      fun _ _ _ h hs hg => h.act hs hg).num
  · have hstart : Phase T ids w0 := .opened (counted_of_unlocked h0.lock
        (fun i hi t => by simp [h0.nodes i hi]) h0.pc) h0.numbered
      (fun u => by rw [hidle]; rfl) hfreed
    obtain ⟨halone, hphase⟩ : Alone w ∧ Phase T ids w :=
      hr.invariant (I := fun w => Alone w ∧ Phase T ids w)
        ⟨fun t ht => absurd ht (by rw [hidle]; decide), hstart⟩
        fun _ _ _ h hs hg => ⟨h.1.step hs hg, h.2.step h.1 hs hg⟩
    cases hphase with
    | opened hcount hnum hnone hno =>
      rcases hend with ⟨t, ht⟩ | hyes
      · have := hnone t
        rw [ht] at this
        cases this
      · rw [hno] at hyes
        cases hyes
    | locked t hcount hnum hat hwaits hno =>
      rcases hend with ⟨u, hu⟩ | hyes
      · have hothers := (halone u (by rw [hu]; rfl)).2
        rcases eq_or_ne t u with rfl | htu
        · rcases hat with e | e <;> rw [e] at hu <;> cases hu
        · have := hothers t htu
          rcases hat with e | e <;> rw [e] at this <;> cases this
      · rw [hno] at hyes
        cases hyes
    | gone t hat huser hlock hnodes =>
      have hdone : w.dealloc t = .free ∨ w.dealloc t = .unlock := by
        rcases hat with ⟨⟨k, e⟩, hno⟩ | ⟨e, -⟩ | ⟨e, -⟩
        · rcases hend with ⟨u, hu⟩ | hyes
          · have hothers := (halone t (by rw [e]; rfl)).2
            have hut : u ≠ t := by
              rintro rfl
              rw [e] at hu
              cases hu
            have := hothers u hut
            rw [hu] at this
            cases this
          · rw [hno] at hyes
            cases hyes
        · exact .inl e
        · exact .inr e
      refine ⟨huser, fun m hm u hu => ?_⟩
      rcases hm with rfl | ⟨i, hi, rfl⟩
      · rw [hlock] at hu
        obtain rfl := Locks.Cell.locked.inj hu
        exact ⟨rfl, hdone⟩
      · exact absurd hu (hnodes i hi u)
    | finished hyes hnone huser hunlocked =>
      exact ⟨huser, fun m hm u hu => absurd hu (hunlocked m hm u)⟩

/-! ## A tree with two leaves -/

def pairWorld : World (Fin 2) where
  state := pairFresh
  mid m := if (m : ℕ) < 4 then m + 1 else 0
  nextmid := 5
  dealloc _ := .idle
  freed := false

/-- The world after the steps `as`. -/
abbrev ran (as : List (Act (Fin 2))) : World (Fin 2) :=
  final (World.step pairTree) pairWorld as

/-- Thread 0 deallocates the tree, up to the point where it has freed it. -/
def deallocating : List (Act (Fin 2)) := .dealloc 0 :: List.replicate 7 (.step 0)

/-- Thread 1 acquires and releases the tree before. -/
def usedBefore : List (Act (Fin 2)) :=
  .tree (.call 1 (.acquire 1)) :: List.replicate 6 (.tree (.step 1)) ++
    .tree (.call 1 (.release 1)) :: List.replicate 8 (.tree (.step 1)) ++ deallocating

def ownTest (_ : World (Fin 2)) : Act (Fin 2) → Bool
  | .tree (.call t c) => c.ID = (pairIds t : ℕ)
  | _ => true

theorem own_of_test {w w' : World (Fin 2)} {a : Act (Fin 2)} (hg : ownTest w a) :
    Own pairIds w a w' := by
  cases a with
  | tree l =>
    cases l with
    | call t c =>
      have hc : c.ID = (pairIds t : ℕ) := of_decide_eq_true hg
      exact hc
    | callNull | step => trivial
  | dealloc | deallocNull | step => trivial

def apartTest (w : World (Fin 2)) (a : Act (Fin 2)) : Bool :=
  ownTest w a && match a with
    | .tree (.call _ _) => (∀ u, (w.dealloc u).locked = false) ∧ w.freed = false
    | .dealloc _ => (∀ u, (w.dealloc u).inside = false) ∧ w.freed = false
    | .step t => w.dealloc t = .lock → ∀ u, (w.state.pc u).waits = false
    | _ => true

theorem apart_of_test {w w' : World (Fin 2)} {a : Act (Fin 2)} (hg : apartTest w a) :
    Apart pairIds w a w' := by
  obtain ⟨hown, hapart⟩ := Bool.and_eq_true_iff.1 hg
  refine ⟨own_of_test hown, ?_⟩
  cases a with
  | tree l =>
    cases l with
    | call => exact of_decide_eq_true hapart
    | callNull | step => trivial
  | dealloc | step => exact of_decide_eq_true hapart
  | deallocNull => trivial

theorem trnmnt_tree_dealloc_alone_pair : (ran usedBefore).freed = true ∧
      ∀ u, ∃ last, (ran usedBefore).state.pc u = .user last := by
  have hfreed : (ran usedBefore).freed = true := by
    decide +kernel
  have hrun : Run (World.step pairTree) (Apart pairIds) pairWorld (ran usedBefore) :=
    run_final apart_of_test
  exact ⟨hfreed, ((trnmnt_tree_dealloc_alone (T := pairTree) pairWorld pairFresh_fresh
    (fun _ => rfl) rfl).2 _ hrun (.inr hfreed)).1⟩

/-- Thread 1 calls acquire before. -/
def freedUnder : List (Act (Fin 2)) := .tree (.call 1 (.acquire 1)) :: deallocating

/-- **The tree is freed under a waiting thread.** Thread 1 has called acquire when thread 0
locks the tree, finds 0 in `num_of_locked` and frees the tree: at that moment thread 1 is
blocked on the lock of the tree. When thread 0 has unlocked it, thread 1 locks it and reads
`taken_ids` of the freed tree. -/
theorem dealloc_under_waiting : Run (World.step pairTree) (Own pairIds) pairWorld (ran freedUnder) ∧
    (ran freedUnder).freed = true ∧
    (ran freedUnder).state.pc 1 = .acquireLock 1 ∧
    (ran freedUnder).state.mutex pairTree.lock = .locked 0 ∧ (ran
      (freedUnder ++ [.step 0, .tree (.step 1), .tree (.step 1)])).state.pc 1 = .acquireTake 1 :=
  ⟨run_final own_of_test, by decide +kernel⟩

end Xv6.TrnmntTree
