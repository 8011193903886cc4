import Xv6.Memory.Model

/-! What the steps of a process have in common: which of them leave the pages and the size
alone, and who holds `p->lock`. -/

namespace Xv6.Memory

open Runs Pages Function

variable {T : Type} {s s' : State T} {t u : T} {l : Label T} {e : List (Event T)} {pc : Pc}

/-- In user mode, in a call that takes a path, or at the beginning of another call. -/
def Pc.aside : Pc → Bool
  | .out | .path _ | .sbrk (.read _) | .fork .enter => true
  | _ => false

/-- In user mode or in a call that takes a path. -/
def Pc.walks : Pc → Bool
  | .out | .path _ => true
  | _ => false

theorem Pc.aside_of_walks (h : pc.walks = true) : pc.aside = true := by
  cases pc <;> first | rfl | exact absurd h Bool.false_ne_true

/-- The thread holds `p->lock`. -/
def Pc.holds : Pc → Bool
  | .sbrk (.read _) | .sbrk (.enter _ _) => false
  | .sbrk _ => true
  | _ => false

theorem Pc.aside_not_holds (h : pc.aside = true) : pc.holds = false := by
  cases pc with
  | sbrk g => cases g <;> first | rfl | exact absurd h Bool.false_ne_true
  | _ => rfl

variable [DecidableEq T]

/-- Thread `t` goes on to `pc`; the pages, the size and the locks are as they were. -/
structure Aside (t : T) (pc : Pc) (s s' : State T) : Prop where
  old : (s.thread t).aside = true
  new : pc.aside = true
  thread : s'.thread = update s.thread t pc
  sz : s'.mem.sz = s.mem.sz
  dir : s'.mem.dir = s.mem.dir
  lock : s'.lock = s.lock

/-- The three kinds of steps. -/
inductive Kind (s : State T) (l : Label T) (s' : State T) (e : List (Event T)) : Prop
  | grow (t : T) (ok : Bool) (g : Grow) (hl : l = .run t ok) (hpc : s.thread t = .sbrk g)
      (h : s.runGrow t ok g = some (s', e))
  | fork (t : T) (ok : Bool) (f : Fork) (hl : l = .run t ok) (hpc : s.thread t = .fork f)
      (h : s.runFork t ok f = some (s', e))
  | aside (t : T) (pc : Pc) (h : Aside t pc s s')
      (hread : ∀ n, pc = .sbrk (.read n) → l = .sbrk t n) (he : e = [])

theorem Aside.goto (hold : (s.thread t).aside = true) (hnew : pc.aside = true) :
    Aside t pc s (s.goto t pc) :=
  ⟨hold, hnew, rfl, rfl, rfl, rfl⟩

theorem walks_startJob (jobs : List Job) : (State.startJob jobs).walks = true := by
  cases jobs <;> rfl

variable {ok : Bool}

theorem goto_of_path {p : Path} (h : s.runPath t ok p = some (s', e)) :
    ∃ pc, pc.walks = true ∧ s' = s.goto t pc ∧ e = [] := by
  cases p with
  | test c done addr todo =>
    cases h
    refine ⟨_, ?_, rfl, rfl⟩
    split <;> rfl
  | bound c done addr todo =>
    cases h
    exact ⟨_, rfl, rfl, rfl⟩
  | fetch c done addr ep x todo =>
    simp only [State.runPath] at h
    split at h
    · split at h
      · split at h
        · cases h
          refine ⟨_, ?_, rfl, rfl⟩
          cases todo with
          | nil => exact walks_startJob _
          | cons addr todo => rfl
        · cases h
          exact ⟨_, rfl, rfl, rfl⟩
      · cases h
    · cases h
      exact ⟨_, rfl, rfl, rfl⟩
  | use j p jobs =>
    simp only [State.runPath] at h
    split at h
    · split at h
      · split at h
        · cases h
          exact ⟨_, rfl, rfl, rfl⟩
        · cases h
          refine ⟨_, ?_, rfl, rfl⟩
          split
          · exact walks_startJob _
          · rfl
      · cases h
    · split at h <;> cases h <;> exact ⟨_, rfl, rfl, rfl⟩

/-- A step to a place in user mode or in a call that takes a path. -/
theorem Kind.walk (t : T) (pc : Pc) (h : Aside t pc s s') (hpc : pc.walks = true) :
    Kind s l s' [] := by
  refine .aside t pc h (fun n hn => ?_) rfl
  rw [hn] at hpc
  exact absurd hpc Bool.false_ne_true

theorem kind_of_step (h : s.step l = some (s', e)) : Kind s l s' e := by
  cases l with
  | sbrk t n =>
    simp only [State.step] at h
    split at h
    · rename_i hpc
      cases h
      refine .aside t _ (Aside.goto (by rw [hpc]; rfl) rfl) (fun m hm => ?_) rfl
      cases hm
      rfl
    · cases h
  | fork t =>
    simp only [State.step] at h
    split at h
    · rename_i hpc
      cases h
      refine .aside t _ (Aside.goto (by rw [hpc]; rfl) rfl) (fun m hm => ?_) rfl
      cases hm
    · cases h
  | path t c addrs =>
    simp only [State.step] at h
    split at h
    · rename_i hpc
      cases h
      exact .walk t _ (Aside.goto (by rw [hpc]; rfl) rfl) rfl
    · cases h
  | store t a b =>
    simp only [State.step] at h
    split at h
    · rename_i hpc
      split at h
      · cases h
        refine .walk t .out ⟨by rw [hpc]; rfl, rfl, ?_, rfl, rfl, rfl⟩ rfl
        rw [← hpc, update_eq_self]
      · cases h
    · cases h
  | run t ok =>
    simp only [State.step] at h
    split at h
    · cases h
    · rename_i g hpc
      exact .grow t ok g rfl hpc h
    · rename_i f hpc
      exact .fork t ok f rfl hpc h
    · rename_i p hpc
      obtain ⟨pc, hw, rfl, rfl⟩ := goto_of_path h
      exact .walk t pc (Aside.goto (by rw [hpc]; rfl) (Pc.aside_of_walks hw)) hw

/-- What a step of `fork` does: the memory and `p->lock` stay as they are, and a child is made
only at the end. -/
structure Forks (s : State T) (t : T) (f : Fork) (s' : State T) (e : List (Event T)) (pc : Pc) :
    Prop where
  new : pc = .out ∨ ∃ f', pc = .fork f'
  thread : s'.thread = update s.thread t pc
  mem : s'.mem = s.mem
  lock : s'.lock = s.lock
  event : e = [] ∨ ∃ m, f = .leave (some m) ∧ e = [.child m]

variable {f : Fork}

theorem forks_of_runFork (h : s.runFork t ok f = some (s', e)) : ∃ pc, Forks s t f s' e pc := by
  have goto (f' : Fork) : Forks s t f (s.goto t (.fork f')) [] (.fork f') :=
    ⟨.inr ⟨f', rfl⟩, rfl, rfl, rfl, .inl rfl⟩
  cases f with
  | enter =>
    obtain ⟨-, he⟩ := Option.ite_none_right_eq_some.1 h
    cases he
    exact ⟨_, .inr ⟨_, rfl⟩, rfl, rfl, rfl, .inl rfl⟩
  | copy sz i child =>
    simp only [State.runFork] at h
    split at h
    · split at h
      · split at h
        · obtain ⟨m, -, he⟩ := Option.map_eq_some_iff.1 h
          cases he
          exact ⟨_, goto _⟩
        · cases h
          exact ⟨_, goto _⟩
      · cases h
    · cases h
      exact ⟨_, goto _⟩
  | leave child =>
    cases h
    refine ⟨.out, .inl rfl, rfl, rfl, rfl, ?_⟩
    cases child with
    | none => exact .inl rfl
    | some m => exact .inr ⟨m, rfl, rfl⟩
  | _ =>
    cases h
    exact ⟨_, goto _⟩

theorem Forks.holds (h : Forks s t f s' e pc) : pc.holds = false := by
  obtain rfl | ⟨f', rfl⟩ := h.new <;> rfl

/-! ## `p->lock` -/

/-- `p->lock` is held by the thread that is between `acquire` and `release`. -/
def Locked (s : State T) : Prop := ∀ t, (s.thread t).holds = true ↔ s.lock = some t

omit [DecidableEq T] in
theorem Locked.outside (hi : Locked s) (ht : (s.thread t).holds = true) (hu : u ≠ t) :
    (s.thread u).holds = false := by
  rw [Bool.eq_false_iff]
  intro h
  exact hu (Option.some.inj (((hi u).1 h).symm.trans ((hi t).1 ht)))

theorem forall_update {F : T → Pc → Prop} (hthread : s'.thread = update s.thread t pc)
    (ht : F t pc) (h : ∀ u, u ≠ t → F u (s.thread u)) (u : T) : F u (s'.thread u) := by
  rw [hthread]
  exact (forall_update_iff s.thread F).2 ⟨ht, h⟩ u

/-- Two kinds of threads that are not there at the same time, when `t` goes on to `pc`. -/
theorem apart_update {p q : Pc → Bool} (h : ∀ t u, p (s.thread t) = true → q (s.thread u) = false)
    (hthread : s'.thread = update s.thread t pc) (hpc : p pc = true → q pc = false)
    (hp : p pc = true → p (s.thread t) = true ∨ ∀ u, q (s.thread u) = false)
    (hq : q pc = true → q (s.thread t) = true ∨ ∀ u, p (s.thread u) = false) :
    ∀ u v, p (s'.thread u) = true → q (s'.thread v) = false := by
  intro u v
  rw [hthread]
  by_cases hu : u = t <;> by_cases hv : v = t
  · subst hu hv
    rw [update_self]
    exact hpc
  · subst hu
    rw [update_self, update_of_ne hv]
    exact fun hs => (hp hs).elim (h u v) fun hnone => hnone v
  · subst hv
    rw [update_self, update_of_ne hu]
    intro hs
    rw [Bool.eq_false_iff]
    intro hc
    rcases hq hc with hold | hnone
    · exact absurd hold (Bool.eq_false_iff.1 (h u v hs))
    · exact absurd hs (Bool.eq_false_iff.1 (hnone u))
  · rw [update_of_ne hu, update_of_ne hv]
    exact h u v

section

variable (hi : Locked s) (hthread : s'.thread = update s.thread t pc)

include hi hthread

theorem Locked.keep
    (hlock : s'.lock = s.lock) (hpc : pc.holds = (s.thread t).holds) : Locked s' := by
  refine forall_update (F := fun u pc => pc.holds = true ↔ s'.lock = some u) hthread ?_ ?_
  · rw [hlock, hpc]
    exact hi t
  · intro u _
    rw [hlock]
    exact hi u

theorem Locked.acquire
    (hfree : s.lock = none) (hlock : s'.lock = some t) (hpc : pc.holds = true) : Locked s' := by
  refine forall_update (F := fun u pc => pc.holds = true ↔ s'.lock = some u) hthread ?_ ?_
  · simp [hlock, hpc]
  · intro u hu
    rw [hi u, hfree, hlock]
    simp [Ne.symm hu]

theorem Locked.release
    (ht : (s.thread t).holds = true) (hlock : s'.lock = none) (hpc : pc.holds = false) :
    Locked s' := by
  refine forall_update (F := fun u pc => pc.holds = true ↔ s'.lock = some u) hthread ?_ ?_
  · simp [hlock, hpc]
  · intro u hu
    simp [hlock, hi.outside ht hu]

end

/-- What the steps of `growproc` that go on under the lock do. -/
theorem holds_startGrow (sz addr n : BitVec 32) :
    (Pc.sbrk (State.startGrow sz addr n)).holds = true := by
  unfold State.startGrow
  split
  · split
    · rfl
    · split <;> rfl
  · split
    · split
      · split <;> rfl
      · rfl
    · rfl

theorem Locked.runGrow {g : Grow} (hi : Locked s) (hpc : s.thread t = .sbrk g)
    (h : s.runGrow t ok g = some (s', e)) : Locked s' := by
  cases g with
  | enter addr n =>
    obtain ⟨hfree, he⟩ := Option.ite_none_right_eq_some.1 h
    cases he
    exact hi.acquire rfl hfree rfl rfl
  | start addr n =>
    cases h
    exact hi.keep rfl rfl ((holds_startGrow _ _ _).trans (by rw [hpc]; rfl))
  | alloc addr n old new a =>
    simp only [State.runGrow] at h
    split at h
    · split at h
      · obtain ⟨m, -, he⟩ := Option.map_eq_some_iff.1 h
        cases he
        exact hi.keep rfl rfl (by rw [hpc]; rfl)
      · cases h
        exact hi.keep rfl rfl (by rw [hpc]; rfl)
    · cases h
      refine hi.keep rfl rfl ?_
      rw [hpc]
      split <;> rfl
  | undo addr n old new a =>
    simp only [State.runGrow] at h
    split at h <;> cases h <;> exact hi.keep rfl rfl (by rw [hpc]; rfl)
  | dealloc addr n old new a =>
    simp only [State.runGrow] at h
    split at h
    · cases h
      exact hi.keep rfl rfl (by rw [hpc]; rfl)
    · cases h
      refine hi.keep rfl rfl ?_
      rw [hpc]
      split <;> rfl
  | leave addr n ok' =>
    cases h
    exact hi.release rfl (by rw [hpc]; rfl) rfl rfl
  | _ =>
    cases h
    exact hi.keep rfl rfl (by rw [hpc]; rfl)

theorem Locked.runFork (hi : Locked s) (hpc : s.thread t = .fork f)
    (h : s.runFork t ok f = some (s', e)) : Locked s' := by
  obtain ⟨pc, hf⟩ := forks_of_runFork h
  refine hi.keep hf.thread hf.lock ?_
  rw [hf.holds, hpc]
  rfl

theorem Locked.step (hi : Locked s) (h : s.step l = some (s', e)) : Locked s' := by
  cases kind_of_step h with
  | grow t ok g hl hpc h => exact hi.runGrow hpc h
  | fork t ok f hl hpc h => exact hi.runFork hpc h
  | aside t pc h hread he =>
    exact hi.keep h.thread h.lock ((Pc.aside_not_holds h.new).trans (Pc.aside_not_holds h.old).symm)

omit [DecidableEq T] in
theorem locked_start (m : Mem) : Locked (State.start m : State T) := by
  intro t
  simp [State.start, Pc.holds]

end Xv6.Memory
