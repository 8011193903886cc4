import Xv6.Lib.Runs
import Xv6.Smp.Model

/-! The order of the two spinlocks. `sleep` takes `ptable.lock` under
`mtable.mlock`; `remove_thread` takes `mtable.mlock` under `ptable.lock` when the
thread it removes points at a mutex. Without the latter the locks are ordered. -/

namespace Xv6

open Runs Function

namespace CpuPc

/-- The spinlocks that are held at a point. -/
def held : CpuPc → Set Spinlock
  | .scheduler | .thread _ | .mutexEnter .. | .wakeEnter .. | .tableEnter .. => ∅
  | .mutexBody .. | .mutexLeave _ | .sleepEnter .. | .unlockLeave .. => {.mlock}
  | .sleepBoth .. | .removeBody .. | .removeLeave .. => {.mlock, .ptable}
  | _ => {.ptable}

/-- The spinlock that the next step acquires. -/
def wants : CpuPc → Option Spinlock
  | .scheduler | .sleepEnter .. | .wakeEnter .. | .tableEnter .. => some .ptable
  | .mutexEnter .. | .removeEnter .. => some .mlock
  | _ => none

/-- `mtable.mlock` is taken before `ptable.lock`. -/
def rank (p : CpuPc) : ℕ := if p.wants = some .mlock then 1 else 0

/-- In the `kthread_mutex_dealloc` of `remove_thread`. -/
def reclaims : CpuPc → Bool
  | .removeEnter .. | .removeBody .. | .removeLeave .. => true
  | _ => false

theorem held_after (r : ThreadRef) (k : After) : (k.pc r).held = {.ptable} := by
  cases k <;> rfl

theorem reclaims_after (r : ThreadRef) (k : After) : (k.pc r).reclaims = false := by
  cases k <;> rfl

theorem held_resume (r : ThreadRef) (x : Context) : (x.resume r).held = {.ptable} := by
  cases x <;> rfl

theorem reclaims_resume (r : ThreadRef) (x : Context) : (x.resume r).reclaims = false := by
  cases x <;> rfl

end CpuPc

namespace Smp

variable {C : Type*} [DecidableEq C] {s s' s0 : Smp C} {c c' : C} {l : Spinlock} {p : CpuPc}

/-- The step of CPU `c` is the call of `remove_thread` on a thread with a mutex. -/
def Reclaims (s : Smp C) (c : C) : Prop :=
  ∃ r t k, s.pc c = .remove r t k ∧ (s.kernel.thread t).mutex ≠ none

/-- What a step of CPU `c` from `old` to `p` does to the spinlocks. -/
inductive LockChange (lock : Locks.Table Spinlock C) (c : C) (old p : CpuPc) :
    Locks.Table Spinlock C → Prop
  | same (held : p.held = old.held) : LockChange lock c old p lock
  | acquired (l : Spinlock) (free : lock l = .unlocked) (held : p.held = insert l old.held) :
      LockChange lock c old p (update lock l (.locked c))
  | released (l : Spinlock) (mine : l ∈ old.held) (held : p.held = old.held \ {l}) :
      LockChange lock c old p (update lock l .unlocked)

structure CpuStep (s : Smp C) (c : C) (p : CpuPc) (s' : Smp C) : Prop where
  pc : s'.pc = update s.pc c p
  lock : LockChange s.lock c (s.pc c) p s'.lock
  reclaims : p.reclaims → (s.pc c).reclaims ∨ Reclaims s c

theorem cpuStep_acquire (hs : s.acquire c l p = some s') (held : p.held = insert l (s.pc c).held)
    (hr : p.reclaims → (s.pc c).reclaims) : CpuStep s c p s' := by
  unfold acquire at hs
  split at hs
  · rename_i lock hlock
    obtain ⟨hfree, rfl⟩ := Locks.lock_zero hlock
    cases hs
    exact ⟨rfl, .acquired l hfree held, fun h => .inl (hr h)⟩
  · cases hs

theorem cpuStep_release (hs : s.release c l p = some s') (mine : l ∈ (s.pc c).held)
    (held : p.held = (s.pc c).held \ {l}) (hr : p.reclaims → (s.pc c).reclaims) :
    CpuStep s c p s' := by
  unfold release at hs
  split at hs
  · rename_i lock hunlock
    cases hs
    exact ⟨rfl, Locks.unlock_zero hunlock ▸ .released l mine held, fun h => .inl (hr h)⟩
  · cases hs

theorem cpuStep_act {k : Kernel} (held : (s.pc c).held = p.held)
    (hr : p.reclaims = false := by rfl) : CpuStep s c p (s.act c k p) :=
  ⟨rfl, .same held.symm, fun h => by rw [hr] at h; cases h⟩

theorem cpuStep_goto (held : (s.pc c).held = p.held) (hr : p.reclaims = false := by rfl) :
    CpuStep s c p (s.goto c p) :=
  cpuStep_act held hr

/-! ## One step -/

theorem cpuStep_lockBody (r : ThreadRef) (m : MutexIx) (mid : Int)
    (hpc : (s.pc c).held = {.mlock}) : ∃ p, CpuStep s c p (s.lockBody c r m mid) := by
  unfold lockBody
  split
  · exact ⟨_, cpuStep_act hpc⟩
  · exact ⟨_, cpuStep_goto hpc⟩

theorem cpuStep_mutexBody (r : ThreadRef) (x : MutexCall) (hpc : (s.pc c).held = {.mlock}) :
    ∃ p, CpuStep s c p (s.mutexBody c r x) := by
  cases x with
  | alloc | dealloc => exact ⟨_, cpuStep_act hpc⟩
  | relock m mid => exact cpuStep_lockBody r m mid hpc
  | lock mid =>
    simp only [mutexBody]
    split
    · split
      · exact ⟨_, cpuStep_act hpc⟩
      · exact cpuStep_lockBody r _ mid hpc
    · exact ⟨_, cpuStep_act hpc⟩
  | unlock mid =>
    simp only [mutexBody]
    split
    · split <;> exact ⟨_, cpuStep_act hpc⟩
    · exact ⟨_, cpuStep_act hpc⟩

theorem cpuStep_tableBody (r : ThreadRef) (x : TableCall) (hpc : (s.pc c).held = {.ptable}) :
    ∃ p, CpuStep s c p (s.tableBody c r x) := by
  cases x with
  | yield => exact ⟨_, cpuStep_act hpc⟩
  | wait => exact ⟨_, cpuStep_goto hpc⟩
  | killOtherThreads a =>
    simp only [tableBody]
    split
    · exact ⟨_, cpuStep_act hpc⟩
    · exact ⟨_, cpuStep_goto hpc⟩
  | join tid =>
    simp only [tableBody]
    split
    · exact ⟨_, cpuStep_goto hpc⟩
    · exact ⟨_, cpuStep_act hpc⟩

theorem cpuStep_joinTurn (r : ThreadRef) (i : Fin NTHREAD) (tid : Int)
    (hpc : (s.pc c).held = {.ptable}) : ∃ p, CpuStep s c p (s.joinTurn c r i tid) := by
  simp only [joinTurn]
  split
  · exact ⟨_, cpuStep_act hpc⟩
  · split <;> exact ⟨_, cpuStep_act hpc⟩

theorem cpuStep_waitTurn (r : ThreadRef) (hpc : (s.pc c).held = {.ptable}) :
    ∃ p, CpuStep s c p (s.waitTurn c r) := by
  unfold waitTurn
  split
  · exact ⟨_, cpuStep_goto hpc⟩
  · split <;> exact ⟨_, cpuStep_act hpc⟩

theorem cpuStep_scan (r : ThreadRef) (a : Caller) (found : Bool) (ts : List ThreadRef)
    (hpc : (s.pc c).held = {.ptable}) : ∃ p, CpuStep s c p (s.scan c r a found ts) := by
  cases ts with
  | nil =>
    simp only [scan]
    split <;> exact ⟨_, cpuStep_act hpc⟩
  | cons t ts =>
    simp only [scan]
    split
    · refine ⟨_, cpuStep_act ?_ ?_⟩
      · rw [hpc]; split <;> rfl
      · split <;> rfl
    · exact ⟨_, cpuStep_goto hpc⟩

theorem cpuStep_remove {r t : ThreadRef} {k : After} (hpc : s.pc c = .remove r t k) :
    ∃ p, CpuStep s c p (s.remove c r t k) := by
  unfold remove
  split
  · rename_i m hm
    refine ⟨_, rfl, .same (by rw [hpc]; rfl), fun _ => .inr ⟨r, t, k, hpc, ?_⟩⟩
    rw [hm]
    exact Option.some_ne_none m
  · exact ⟨_, cpuStep_act (by rw [hpc, CpuPc.held_after]; rfl) (CpuPc.reclaims_after r k)⟩

theorem cpuStep_go (hs : s.go c = some s') : ∃ p, CpuStep s c p s' := by
  cases hpc : s.pc c with
  | thread r => simp [go, hpc] at hs
  | scheduler | mutexEnter | sleepEnter | wakeEnter | tableEnter =>
    simp only [go, hpc] at hs
    refine ⟨_, cpuStep_acquire hs ?_ (by simp [CpuPc.reclaims])⟩
    rw [hpc]
    ext l
    cases l <;> simp [CpuPc.held]
  | picking | mutexLeave | sleepBoth | sleepDone | unlockLeave | tableLeave =>
    simp only [go, hpc] at hs
    refine ⟨_, cpuStep_release hs ?_ ?_ (by simp [CpuPc.reclaims])⟩
    · rw [hpc]
      simp [CpuPc.held]
    · rw [hpc]
      ext l
      cases l <;> simp [CpuPc.held]
  | sleepBody | wakeBody =>
    simp only [go, hpc] at hs
    cases hs
    exact ⟨_, cpuStep_act (by rw [hpc]; rfl)⟩
  | mutexBody r x =>
    simp only [go, hpc] at hs
    cases hs
    exact cpuStep_mutexBody r x (by rw [hpc]; rfl)
  | tableBody r x =>
    simp only [go, hpc] at hs
    cases hs
    exact cpuStep_tableBody r x (by rw [hpc]; rfl)
  | joinTurn r i tid =>
    simp only [go, hpc] at hs
    cases hs
    exact cpuStep_joinTurn r i tid (by rw [hpc]; rfl)
  | waitTurn r =>
    simp only [go, hpc] at hs
    cases hs
    exact cpuStep_waitTurn r (by rw [hpc]; rfl)
  | scan r a found ts =>
    simp only [go, hpc] at hs
    cases hs
    exact cpuStep_scan r a found ts (by rw [hpc]; rfl)
  | reap r q ts =>
    simp only [go, hpc] at hs
    cases hs
    cases ts with
    | nil => exact ⟨_, cpuStep_act (by rw [hpc]; rfl)⟩
    | cons t ts => exact ⟨_, cpuStep_goto (by rw [hpc]; rfl)⟩
  | remove r t k =>
    simp only [go, hpc] at hs
    cases hs
    exact cpuStep_remove hpc
  | removeEnter r t mid k =>
    simp only [go, hpc] at hs
    refine ⟨_, cpuStep_acquire hs ?_ (by simp [hpc, CpuPc.reclaims])⟩
    rw [hpc]
    rfl
  | removeBody r t mid k =>
    simp only [go, hpc, removeBody] at hs
    cases hs
    split
    · exact ⟨_, rfl, .same (by rw [hpc]; rfl), fun _ => .inl (by rw [hpc]; rfl)⟩
    · exact ⟨_, rfl, .same (by rw [hpc]; rfl), fun _ => .inl (by rw [hpc]; rfl)⟩
  | removeLeave r t k =>
    simp only [go, hpc, Option.map_eq_some_iff] at hs
    obtain ⟨u, hu, rfl⟩ := hs
    have h : CpuStep s c (k.pc r) u := by
      refine cpuStep_release hu ?_ ?_ (by simp [CpuPc.reclaims_after])
      · rw [hpc]
        simp [CpuPc.held]
      · rw [hpc, CpuPc.held_after]
        ext l
        cases l <;> simp [CpuPc.held]
    exact ⟨_, h.pc, h.lock, h.reclaims⟩

/-- **Every step of a CPU**: it moves to a point whose locks are those it had, but
for the one it has acquired or released. -/
theorem cpuStep {choice : Choice} (hs : s.step (c, choice) = some s') : ∃ p, CpuStep s c p s' := by
  cases choice with
  | go => exact cpuStep_go hs
  | mutex x =>
    cases x with
    | relock => cases hs
    | _ =>
      simp only [step] at hs
      split at hs
      · rename_i hpc
        cases hs
        exact ⟨_, cpuStep_goto (by rw [hpc]; rfl)⟩
      · cases hs
  | table x =>
    simp only [step] at hs
    split at hs
    · rename_i hpc
      cases hs
      exact ⟨_, cpuStep_goto (by rw [hpc]; rfl)⟩
    · cases hs
  | pick r =>
    simp only [step] at hs
    split at hs
    · rename_i hpc
      obtain ⟨k, _, rfl⟩ := Option.map_eq_some_iff.1 hs
      exact ⟨_, cpuStep_act (by rw [hpc, CpuPc.held_resume]; rfl) (CpuPc.reclaims_resume r _)⟩
    · cases hs

/-! ## Runs -/

/-- The CPUs are outside the two locks, and the tables are as some run of the
kernel has left them. -/
structure Start (s : Smp C) : Prop where
  reachable : Run Kernel.step free boot s.kernel
  unlocked : ∀ l, s.lock l = .unlocked
  outside : ∀ c, s.pc c = .scheduler ∨
    ∃ r, s.pc c = .thread r ∧ (s.kernel.thread r).state = .TRUNNING
  apart : ∀ c c' r, s.pc c = .thread r → s.pc c' = .thread r → c = c'

/-- The steps that pass no thread with a mutex to `remove_thread`. -/
def NullMutex : Guard (Smp C) (C × Choice) := fun s l _ => ¬ Reclaims s l.1

structure SpinInv (s : Smp C) : Prop where
  owns : Locks.Owns Set.univ s.lock fun c => (s.pc c).held
  present : ∀ l, s.lock l ≠ .absent

omit [DecidableEq C] in
theorem Start.spinInv (h : Start s) : SpinInv s where
  owns c l _ := by
    rcases h.outside c with hpc | ⟨r, hpc, _⟩ <;> simp [h.unlocked l, hpc, CpuPc.held]
  present l := by simp [h.unlocked l]

theorem SpinInv.step (h : SpinInv s) {l : C × Choice} (hs : s.step l = some s') : SpinInv s' := by
  obtain ⟨c, choice⟩ := l
  obtain ⟨p, hpc, hlock, _⟩ := cpuStep hs
  have hself : (s'.pc c).held = p.held := by simp [hpc]
  have hother : ∀ c', c' ≠ c → (s'.pc c').held = (s.pc c').held := by
    intro c' hc
    simp [hpc, hc]
  generalize hl' : s'.lock = lock' at hlock
  constructor
  · rw [hl']
    cases hlock with
    | same held =>
      apply h.owns.congr
      intro c'
      rcases eq_or_ne c' c with rfl | hc
      · rw [hself, held]
      · exact hother c' hc
    | acquired l free held => exact h.owns.lock free (hself.trans held) hother
    | released l mine held => exact h.owns.unlock (Set.mem_univ l) mine (hself.trans held) hother
  · intro l
    rw [hl']
    cases hlock with
    | same held => exact h.present l
    | acquired l' _ _ | released l' _ _ =>
      rcases eq_or_ne l l' with rfl | hne
      · simp
      · simpa [hne] using h.present l

theorem spinInv_of_run {G : Guard (Smp C) (C × Choice)} (h0 : Start s0)
    (hr : Run Smp.step G s0 s) : SpinInv s :=
  hr.invariant h0.spinInv fun _ _ _ h hs _ => h.step hs

/-- As long as no removed thread has a mutex, no CPU is in the
`kthread_mutex_dealloc` of `remove_thread`. -/
theorem not_reclaims (h0 : Start s0) (hr : Run Smp.step NullMutex s0 s) (c : C) :
    (s.pc c).reclaims = false := by
  apply hr.invariant (I := fun s => ∀ c, (s.pc c).reclaims = false)
  · intro c
    rcases h0.outside c with hpc | ⟨r, hpc, _⟩ <;> rw [hpc] <;> rfl
  · rintro a ⟨c, choice⟩ b h hs hg c'
    obtain ⟨p, hpc, _, hrec⟩ := cpuStep hs
    rcases eq_or_ne c' c with rfl | hc
    · rw [hpc, update_self, Bool.eq_false_iff]
      intro hp
      rcases hrec hp with hold | hnow
      · rw [h c'] at hold; cases hold
      · exact hg hnow
    · rw [hpc, update_of_ne hc]
      exact h c'

/-- Under `ptable.lock` nothing else is acquired, except to reclaim a mutex. -/
theorem wants_under_ptable {p : CpuPc} (hp : .ptable ∈ p.held) (hr : p.reclaims = false) :
    p.wants = none := by
  cases p with
  | scheduler | mutexEnter | wakeEnter | tableEnter => exact hp.elim
  | sleepEnter => cases hp
  | removeEnter => cases hr
  | _ => rfl

/-- **The two spinlocks are not taken in opposite orders**, in every run in which
no thread with a mutex is passed to `remove_thread`. -/
theorem mlock_before_ptable (h0 : Start s0) (hr : Run Smp.step NullMutex s0 s) (c c' : C) :
    ¬ (s.lock .mlock = .locked c ∧ (s.pc c).wants = some .ptable ∧
      s.lock .ptable = .locked c' ∧ (s.pc c').wants = some .mlock) := by
  rintro ⟨_, _, hlock, hwants⟩
  have hheld := ((spinInv_of_run h0 hr).owns c' .ptable (Set.mem_univ _)).1 hlock
  rw [wants_under_ptable hheld (not_reclaims h0 hr c')] at hwants
  cases hwants

/-- Thread 2 of process 1 has allocated a mutex and exited; thread 3 is running,
and so is thread 1, which has locked another mutex. -/
def spinSetup : List Label :=
  [.dispatch (0, 0)] ++ Label.calls (0, 0) .kthreadCreate ++ Label.calls (0, 0) .kthreadCreate ++
    [.dispatch (0, 1)] ++ Label.calls (0, 1) .mutexAlloc ++
    [.syscall (0, 1) .kthreadExit, .run (0, 1) none true] ++ Label.calls (0, 0) .mutexAlloc ++
    Label.calls (0, 0) (.mutexLock 2) ++ [.dispatch (0, 2)]

/-- Two CPUs, running threads 1 and 3. -/
def spinStart : Smp (Fin 2) where
  kernel := final Kernel.step boot spinSetup
  lock _ := .unlocked
  pc c := if c = 0 then .thread (0, 0) else .thread (0, 2)

theorem spinSetup_run : Run Kernel.step free boot spinStart.kernel := by
  show Run Kernel.step free boot (final Kernel.step boot spinSetup)
  exact run_free

theorem spinStart_start : Start spinStart := by
  have h0 : (spinStart.kernel.thread (0, 0)).state = .TRUNNING := by decide +kernel
  have h2 : (spinStart.kernel.thread (0, 2)).state = .TRUNNING := by decide +kernel
  constructor
  · exact spinSetup_run
  · exact fun _ => rfl
  · intro c
    rcases eq_or_ne c 0 with rfl | hc
    · exact .inr ⟨(0, 0), rfl, h0⟩
    · exact .inr ⟨(0, 2), if_neg hc, h2⟩
  · intro c c' r hc hc'
    match c, c' with
    | 0, 0 | 1, 1 => rfl
    | 0, 1 | 1, 0 => cases hc; cases hc'

/-- Thread 3 finds the mutex of thread 1 locked and is about to sleep: it has
`mtable.mlock` and wants `ptable.lock`, which thread 1 has for a `wait`. -/
def spinOrdered : List (Fin 2 × Choice) :=
  [(1, .mutex (.lock 2)), (1, .go), (1, .go), (0, .table .wait), (0, .go)]

def ordered : Smp (Fin 2) := final Smp.step spinStart spinOrdered

theorem ordered_wants : (ordered.pc 1).wants = some .ptable := by decide +kernel

theorem spinOrdered_run : Run Smp.step NullMutex spinStart ordered := by
  refine run_final (g := fun s l => match s.pc l.1 with
    | .remove .. => false
    | _ => true) ?_ (by decide +kernel)
  rintro a l b hg ⟨r, t, k, hpc, _⟩
  simp [hpc] at hg

theorem mlock_before_ptable_ordered : ordered.lock .mlock = .locked 1 ∧
    ordered.lock .ptable = .locked 0 ∧ (ordered.pc 0).wants ≠ some .mlock := by
  have hm : ordered.lock .mlock = .locked 1 := by decide +kernel
  have hp : ordered.lock .ptable = .locked 0 := by decide +kernel
  exact ⟨hm, hp, fun h => mlock_before_ptable spinStart_start spinOrdered_run 1 0
    ⟨hm, ordered_wants, hp, h⟩⟩

/-- The same, and thread 1 joins thread 2. -/
def spinInverted : List (Fin 2 × Choice) :=
  [(1, .mutex (.lock 2)), (1, .go), (1, .go), (0, .table (.join 2)), (0, .go), (0, .go), (0, .go),
    (0, .go)]

/-- Each of two CPUs has the spinlock that the other one spins for. -/
theorem mlock_and_ptable_inverted : ∃ s0 s : Smp (Fin 2), Start s0 ∧ Run Smp.step free s0 s ∧
    s.lock .mlock = .locked 1 ∧ (s.pc 1).wants = some .ptable ∧
    s.lock .ptable = .locked 0 ∧ (s.pc 0).wants = some .mlock :=
  ⟨spinStart, final Smp.step spinStart spinInverted, spinStart_start, run_free, by decide +kernel⟩

/-! ## Progress -/

/-- No CPU spins for a lock it has. -/
theorem notMem_held_of_wants {p : CpuPc} {l : Spinlock} (hw : p.wants = some l) : l ∉ p.held := by
  cases p with
  | scheduler | mutexEnter | sleepEnter | wakeEnter | tableEnter | removeEnter =>
    cases hw
    simp [CpuPc.held]
  | _ => cases hw

/-- A CPU that is inside the code and does not spin goes on. -/
theorem go_isSome (h : SpinInv s) (hpc : ∀ r, s.pc c ≠ .thread r)
    (hw : ∀ l, (s.pc c).wants = some l → (Locks.lock s.lock c l).isSome) : (s.go c).isSome := by
  have hacquire : ∀ l p, (s.pc c).wants = some l → (s.acquire c l p).isSome := by
    intro l p hl
    obtain ⟨⟨r, lock⟩, hlock⟩ := Option.isSome_iff_exists.1 (hw l hl)
    have hother : s.lock l ≠ .locked c := fun e =>
      notMem_held_of_wants hl ((h.owns c l (Set.mem_univ l)).1 e)
    obtain ⟨rfl, _, _⟩ := Locks.lock_eq (h.present l) hother hlock
    simp [acquire, hlock]
  have hrelease : ∀ l p, l ∈ (s.pc c).held → (s.release c l p).isSome := by
    intro l p hl
    simp [release, Locks.unlock_eq ((h.owns c l (Set.mem_univ l)).2 hl)]
  cases hc : s.pc c with
  | thread r => exact absurd hc (hpc r)
  | scheduler | mutexEnter | sleepEnter | wakeEnter | tableEnter | removeEnter =>
    simp only [go, hc]
    exact hacquire _ _ (by rw [hc]; rfl)
  | picking | mutexLeave | sleepBoth | sleepDone | unlockLeave | tableLeave =>
    simp only [go, hc]
    exact hrelease _ _ (by rw [hc]; simp [CpuPc.held])
  | removeLeave r t k =>
    simp only [go, hc, Option.isSome_map]
    exact hrelease _ _ (by rw [hc]; simp [CpuPc.held])
  | _ => simp [go, hc]

/-- **The CPUs do not deadlock on the two spinlocks**, in the same runs: while one
is inside the code, one that is inside the code goes on. -/
theorem some_cpu_goes_on (h0 : Start s0) (hr : Run Smp.step NullMutex s0 s)
    (hc : ∀ r, s.pc c ≠ .thread r) : ∃ c', (s.go c').isSome := by
  have h := spinInv_of_run h0 hr
  have howner : ∀ c l o, (∀ r, s.pc c ≠ .thread r) → (s.pc c).wants = some l →
      s.lock l = .locked o → o ≠ c →
      (∀ r, s.pc o ≠ .thread r) ∧ ∀ n, (s.pc o).wants = some n → (s.pc o).rank < (s.pc c).rank := by
    intro c l o _ hl ho _
    have hheld : l ∈ (s.pc o).held := (h.owns o l (Set.mem_univ l)).1 ho
    constructor
    · intro r e
      rw [e] at hheld
      exact hheld
    · intro n hn
      cases l with
      | ptable =>
        rw [wants_under_ptable hheld (not_reclaims h0 hr o)] at hn
        cases hn
      | mlock =>
        have hne : (s.pc o).wants ≠ some .mlock := fun e => notMem_held_of_wants e hheld
        simp [CpuPc.rank, hl, hne]
  obtain ⟨u, hu, hfree⟩ := Locks.exists_unblocked howner hc
  exact ⟨u, go_isSome h hu hfree⟩

theorem some_cpu_goes_on_ordered : ∃ c, (ordered.go c).isSome := by
  have hw := ordered_wants
  refine some_cpu_goes_on spinStart_start spinOrdered_run (c := 1) fun r hr => ?_
  rw [hr] at hw
  cases hw

end Smp
end Xv6
