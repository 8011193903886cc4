import Xv6.Tree.Positions

/-! One step of a thread, taken apart: what it does to the state (`Deed`) and what the code
does where (`Does`). All that is said about the steps of threads is proved from there. -/

namespace Xv6.TrnmntTree

open Function (update update_of_ne update_self)

/-- A thread goes on, locks or unlocks a mutex and goes on with the result, or changes the
mark of an id and the count. -/
inductive Deed
  | goto (p : Pc)
  | lock (m : Int) (on : Int → Pc)
  | unlock (m : Int) (on : Int → Pc)
  | mark (ID v k : Int) (p : Pc)

/-- The next step of a thread, where `taken_ids` is `taken`. The constructors follow the two
functions, from line to line. -/
inductive Does (T : TrnmntTree) (taken : Int → Int) : Pc → Deed → Prop
  | acquireLock {ID} : Does T taken (.acquireLock ID) (.lock T.lock fun _ => .acquireTest ID)
  | acquireFault {ID} (hid : ¬ T.HasId ID) : Does T taken (.acquireTest ID) (.goto .fault)
  | refuse {ID} (hid : T.HasId ID) (h : taken ID ≠ 0) :
      Does T taken (.acquireTest ID) (.goto (.acquireTaken ID))
  | pass {ID} (hid : T.HasId ID) (h : taken ID = 0) :
      Does T taken (.acquireTest ID) (.goto (.acquireTake ID))
  | refused {ID} : Does T taken (.acquireTaken ID)
      (.unlock T.lock fun _ => .user (some (.acquire ID, -1)))
  | take {ID} : Does T taken (.acquireTake ID) (.mark ID 1 1 (.acquireUnlock ID))
  | start {ID} : Does T taken (.acquireUnlock ID)
      (.unlock T.lock fun _ => .climb ID 0 (T.realIndexInTree ID))
  | acquired {ID i p} (h : ¬ ((i : ℕ) : Int) < T.depth) :
      Does T taken (.climb ID i p) (.goto (.user (some (.acquire ID, 0))))
  | climbFault {ID i p} (h : ((i : ℕ) : Int) < T.depth) (hn : ¬ T.HasNode (parent p)) :
      Does T taken (.climb ID i p) (.goto .fault)
  | climb {ID i p} (h : ((i : ℕ) : Int) < T.depth) (hn : T.HasNode (parent p)) :
      Does T taken (.climb ID i p) (.lock (T.nodes (parent p)) fun r =>
        if r ≠ 0 then .user (some (.acquire ID, -1)) else .climb ID (i + 1) (parent p))
  | releaseLock {ID} : Does T taken (.releaseLock ID) (.lock T.lock fun _ => .releaseTest ID)
  | releaseFault {ID} (hid : ¬ T.HasId ID) : Does T taken (.releaseTest ID) (.goto .fault)
  | idle {ID} (hid : T.HasId ID) (h : taken ID = 0) :
      Does T taken (.releaseTest ID) (.goto (.releaseFree ID))
  | found {ID} (hid : T.HasId ID) (h : taken ID ≠ 0) :
      Does T taken (.releaseTest ID) (.goto (.releaseUnlock ID))
  | idled {ID} : Does T taken (.releaseFree ID)
      (.unlock T.lock fun _ => .user (some (.release ID, -1)))
  | enter {ID} : Does T taken (.releaseUnlock ID)
      (.unlock T.lock fun _ => .releaseDown ID (parent (T.realIndexInTree ID)) [])
  | down {ID p frames} (h : p ≠ 0) : Does T taken (.releaseDown ID p frames)
      (.goto (.releaseDown ID (parent p) (p :: frames)))
  | rootFault {ID frames} (hn : ¬ T.HasNode 0) :
      Does T taken (.releaseDown ID 0 frames) (.goto .fault)
  | root {ID frames} (hn : T.HasNode 0) : Does T taken (.releaseDown ID 0 frames)
      (.unlock (T.nodes 0) fun r => .releaseUp ID frames r)
  | upFault {ID p frames sum} (hn : ¬ T.HasNode p) :
      Does T taken (.releaseUp ID (p :: frames) sum) (.goto .fault)
  | up {ID p frames sum} (hn : T.HasNode p) : Does T taken (.releaseUp ID (p :: frames) sum)
      (.unlock (T.nodes p) fun r => .releaseUp ID frames (sum + r))
  | failed {ID sum} (h : sum ≠ 0) :
      Does T taken (.releaseUp ID [] sum) (.goto (.user (some (.release ID, -1))))
  | freed {ID} : Does T taken (.releaseUp ID [] 0) (.goto (.clearLock ID))
  | clearLock {ID} : Does T taken (.clearLock ID) (.lock T.lock fun _ => .clear ID)
  | clear {ID} : Does T taken (.clear ID) (.mark ID 0 (-1) (.clearUnlock ID))
  | released {ID} : Does T taken (.clearUnlock ID)
      (.unlock T.lock fun _ => .user (some (.release ID, 0)))

/-- A step of `t` that brings it to `p`: the program points and the mutexes of the
others are untouched. -/
structure GoesTo {τ : Type*} (t : τ) (p : Pc) (s s' : State τ) : Prop where
  self : s'.pc t = p
  pc : ∀ u, u ≠ t → s'.pc u = s.pc u
  mutex : ∀ u, u ≠ t → ∀ m, s'.mutex m = .locked u ↔ s.mutex m = .locked u

variable {τ : Type*} [DecidableEq τ] {T : TrnmntTree} {s s' : State τ} {t u : τ} {a : Deed}
  {l : Label τ} {c : Call}

def Deed.run (s : State τ) (t : τ) : Deed → Option (State τ)
  | .goto p => some (s.goto t p)
  | .lock m on => s.lock t m on
  | .unlock m on => some (s.unlock t m on)
  | .mark ID v k p => some { s.goto t p with
      takenIds := update s.takenIds ID v, numOfLocked := s.numOfLocked + k }

/-- **What a step of a thread does.** -/
theorem stepThread_does (hs : T.stepThread s t = some s') :
    ∃ a, Does T s.takenIds (s.pc t) a ∧ a.run s t = some s' := by
  unfold stepThread at hs
  generalize s.pc t = p at hs
  split at hs
  · cases hs
  · cases hs
  · exact ⟨_, .acquireLock, hs⟩
  · split at hs
    · exact ⟨_, .acquireFault ‹_›, hs⟩
    · rename_i hid
      split at hs
      · exact ⟨_, .refuse (not_not.1 hid) ‹_›, hs⟩
      · exact ⟨_, .pass (not_not.1 hid) (not_not.1 ‹_›), hs⟩
  · exact ⟨_, .refused, hs⟩
  · exact ⟨_, .take, hs⟩
  · exact ⟨_, .start, hs⟩
  · split at hs
    · exact ⟨_, .acquired ‹_›, hs⟩
    · rename_i hi
      split at hs
      · exact ⟨_, .climbFault (not_not.1 hi) ‹_›, hs⟩
      · exact ⟨_, .climb (not_not.1 hi) (not_not.1 ‹_›), hs⟩
  · exact ⟨_, .releaseLock, hs⟩
  · split at hs
    · exact ⟨_, .releaseFault ‹_›, hs⟩
    · rename_i hid
      split at hs
      · exact ⟨_, .idle (not_not.1 hid) ‹_›, hs⟩
      · exact ⟨_, .found (not_not.1 hid) ‹_›, hs⟩
  · exact ⟨_, .idled, hs⟩
  · exact ⟨_, .enter, hs⟩
  · split at hs
    · exact ⟨_, .down ‹_›, hs⟩
    · rename_i hp
      obtain rfl := not_not.1 hp
      split at hs
      · exact ⟨_, .rootFault ‹_›, hs⟩
      · exact ⟨_, .root (not_not.1 ‹_›), hs⟩
  · split at hs
    · exact ⟨_, .upFault ‹_›, hs⟩
    · exact ⟨_, .up (not_not.1 ‹_›), hs⟩
  · split at hs
    · exact ⟨_, .failed ‹_›, hs⟩
    · rename_i hsum
      obtain rfl := not_not.1 hsum
      exact ⟨_, .freed, hs⟩
  · exact ⟨_, .clearLock, hs⟩
  · exact ⟨_, .clear, hs⟩
  · exact ⟨_, .released, hs⟩

theorem does_stepThread (h : Does T s.takenIds (s.pc t) a) : T.stepThread s t = a.run s t := by
  unfold stepThread
  generalize s.pc t = p at h
  cases h with
  | clear => rfl
  | _ => simp_all [Deed.run, State.ret]

/-- Where a step can lead to. -/
def Deed.To (s : State τ) (t : τ) : Deed → Pc → Prop
  | .goto q, p | .mark _ _ _ q, p => p = q
  | .lock m on, p => ∃ r mutex, Locks.lock s.mutex t m = some (r, mutex) ∧ p = on r
  | .unlock m on, p => p = on (Locks.unlock s.mutex t m).1

/-- What a step makes of `taken_ids`. -/
def Deed.marks (taken : Int → Int) : Deed → Int → Int
  | .mark ID v _ _ => update taken ID v
  | _ => taken

theorem lock_some {m : Int} {on : Int → Pc} (hr : (Deed.lock m on).run s t = some s') :
    ∃ r mutex, Locks.lock s.mutex t m = some (r, mutex) ∧ s' = { s.goto t (on r) with mutex } := by
  obtain ⟨⟨r, mutex⟩, hlock, rfl⟩ := Option.map_eq_some_iff.1 hr
  exact ⟨r, mutex, hlock, rfl⟩

theorem Deed.goesTo (hr : a.run s t = some s') : ∃ p, a.To s t p ∧ GoesTo t p s s' := by
  have hgo : ∀ p x, x.pc = update s.pc t p →
      (∀ u, u ≠ t → ∀ m, x.mutex m = .locked u ↔ s.mutex m = .locked u) → GoesTo t p s x := by
    intro p x hpc hmutex
    refine ⟨?_, fun u hu => ?_, hmutex⟩
    · rw [hpc, update_self]
    · rw [hpc, update_of_ne hu]
  cases a with
  | goto p | mark ID v k p =>
    cases hr
    exact ⟨p, rfl, hgo p _ rfl fun _ _ _ => Iff.rfl⟩
  | lock m on =>
    obtain ⟨r, mutex, hlock, rfl⟩ := lock_some hr
    exact ⟨on r, ⟨r, mutex, hlock, rfl⟩, hgo _ _ rfl fun u hu n => Locks.lock_others hlock hu⟩
  | unlock m on =>
    cases hr
    exact ⟨_, rfl, hgo _ _ rfl fun u hu n => Locks.unlock_others hu⟩

theorem Deed.takenIds (hr : a.run s t = some s') : s'.takenIds = a.marks s.takenIds := by
  cases a with
  | lock m on =>
    obtain ⟨r, mutex, _, rfl⟩ := lock_some hr
    rfl
  | _ => cases hr; rfl

/-- Mutexes come and go with the tree only. -/
theorem stepThread_absent {m : Int} (hs : T.stepThread s t = some s') :
    s'.mutex m = .absent ↔ s.mutex m = .absent := by
  obtain ⟨a, _, hr⟩ := stepThread_does hs
  cases a with
  | lock n on =>
    obtain ⟨r, mutex, hlock, rfl⟩ := lock_some hr
    exact Locks.lock_absent hlock
  | unlock n on => cases hr; exact Locks.unlock_absent
  | goto | mark => cases hr; rfl

/-! ## Calls -/

theorem step_call (hs : T.step s (.call t c) = some s') :
    ∃ last, s.pc t = .user last ∧ s' = T.enter s t c := by
  simp only [step] at hs
  split at hs
  · exact ⟨_, ‹_›, (Option.some.inj hs).symm⟩
  · cases hs

theorem step_callNull (hs : T.step s (.callNull t c) = some s') :
    ∃ last, s.pc t = .user last ∧ s' = s.ret t c (-1) := by
  simp only [step] at hs
  split at hs
  · exact ⟨_, ‹_›, (Option.some.inj hs).symm⟩
  · cases hs

end Xv6.TrnmntTree
