import Xv6.Cpu.Model
import Xv6.Kernel.History

/-! Threads, CPUs and kernel stacks. A thread is `TRUNNING` exactly while one CPU is
switched to it, and every kernel stack belongs to one record and is not free. Each step
of the machine is at most two steps of `Kernel`, so what holds in every run of `Kernel`
holds here. -/

namespace Xv6

open Runs Function

/-! ## Actions outside `ptable.lock` -/

namespace Kernel

variable {k k' : Kernel} {t : ThreadRef} {a : Act} {page : Option Nat} {l : Label}

/-- The thread goes on running, and no process changes its state. -/
structure Mild (k k' : Kernel) (t : ThreadRef) : Prop where
  running : (k'.thread t).state = .TRUNNING
  proc : ∀ p, (k'.proc p).state = (k.proc p).state

section

variable (hrun : (k.thread t).state = .TRUNNING)

include hrun

variable {f : Thread → Thread}

theorem mild_context
    (hf : (f (k.thread t)).state = (k.thread t).state) : Mild k (k.setThread t f) t := by
  refine ⟨?_, fun p => rfl⟩
  rw [setThread_thread, if_pos rfl, hf]
  exact hrun

theorem mild_killed (p : ProcIx) (hf : (f (k.thread t)).state = (k.thread t).state) :
    Mild k ((k.setProc p fun q => { q with killed := true }).setThread t f) t := by
  refine ⟨?_, ?_⟩
  · rw [setThread_thread, if_pos rfl]
    exact hf.trans hrun
  · intro q
    simp only [setThread_proc, setProc_proc]
    split <;> rfl

theorem mild_lockTurn {m : MutexIx} {mid : Int}
    (hm : (k.mutex m).state ≠ .MLOCKED) : Mild k (k.lockTurn t m mid) t := by
  have hu : (k.mutex m).state = .MUNLOCKED := by
    cases h : (k.mutex m).state with
    | MUNLOCKED => rfl
    | MLOCKED => exact absurd h hm
  rw [lockTurn, if_pos hu]
  exact ⟨by simp [takeEntry, sysret, hrun], fun p => rfl⟩

theorem mild_runCall {copied : Bool} {y : Call}
    (hx : (k.thread t).context = .call y) (hn : k.needsLock t (.run copied) = false)
    (h : k.runCall t page copied y = some k') : Mild k k' t := by
  have hsysret : ∀ v, Mild k (k.sysret t v) t := fun v => mild_context hrun rfl
  simp only [needsLock, hx] at hn
  cases y with
  | exit | fork | wait | exec | kill pid | kthreadCreate | kthreadExit | kthreadJoin tid => cases hn
  | kthreadId | other => cases h; exact hsysret _
  | mutexAlloc =>
    cases h
    unfold kthreadMutexAlloc
    split
    · exact ⟨by simp [allocEntry, sysret, hrun], fun p => rfl⟩
    · exact hsysret _
  | mutexDealloc mid =>
    cases h
    unfold kthreadMutexDealloc mutexFree
    split
    · rename_i hfree
      split at hfree
      · split at hfree <;> cases hfree
        exact ⟨by simp [freeEntry, sysret, hrun], fun p => rfl⟩
      · cases hfree
    · exact hsysret _
  | mutexLock mid =>
    cases h
    unfold kthreadMutexLock
    split
    · rename_i m hm
      simp only [hm, decide_eq_false_iff_not, not_and, not_not] at hn
      split
      · exact hsysret _
      · rename_i hown
        exact mild_lockTurn hrun fun hl => hown ⟨hl, hn hl⟩
    · exact hsysret _
  | mutexUnlock mid =>
    cases h
    unfold kthreadMutexUnlock
    split
    · split
      · exact hsysret _
      · exact ⟨by simp [clearEntry, hrun], fun p => rfl⟩
    · exact hsysret _

end

/-- **Without `ptable.lock`** a thread cannot stop running, nor a process change its
state. -/
theorem mild_of_step (hl : a.label t page = some l) (hn : k.needsLock t a = false)
    (hrun : (k.thread t).state = .TRUNNING) (h : k.step l = some k') : Mild k k' t := by
  cases a with
  | run copied =>
    cases hl
    simp only [step, if_pos hrun] at h
    cases hx : (k.thread t).context with
    | call y => rw [hx] at h; exact mild_runCall hrun hx hn h
    | user | dead => rw [hx] at h; cases h
    | resumed | ret v | execBody => rw [hx] at h; cases h; exact mild_context hrun rfl
    | lockLoop m mid =>
      rw [hx] at h
      cases h
      simp only [needsLock, hx, decide_eq_false_iff_not] at hn
      exact mild_lockTurn hrun hn
    | kexit | exit | killLoop a | safeExit | unlockWake m | joinLoop i tid | waitLoop =>
      simp only [needsLock, hx] at hn; cases hn
  | timer =>
    cases hl
    simp only [step] at h
    split at h
    · split at h
      · cases h
        exact mild_context hrun rfl
      · rename_i hp
        split at h
        · cases h
          exact mild_context hrun rfl
        · rename_i ht
          simp [needsLock, hp, ht] at hn
    · cases h
  | fault =>
    cases hl
    simp only [step] at h
    split at h <;> cases h
    exact mild_killed hrun _ rfl
  | syscall y =>
    cases hl
    simp only [step] at h
    split at h <;> cases h
    exact mild_context hrun rfl
  | yield | block b => cases hn
  | acquire | release | schedule | wakeup b | kalloc | kfree b => cases hl

/-! ## The loops of `scheduler` -/

variable {s : ThreadRef}

theorem roused_of_ne (k : Kernel) (h : s ≠ t) : (k.roused t).thread s = k.thread s := by
  unfold roused
  split
  · rw [setThread_thread, if_neg h]
  · rfl

theorem roused_proc (k : Kernel) (t : ThreadRef) : (k.roused t).proc = k.proc := by
  unfold roused
  split <;> rfl

theorem roused_running (k : Kernel) (t s : ThreadRef) :
    ((k.roused t).thread s).state = .TRUNNING ↔ (k.thread s).state = .TRUNNING := by
  by_cases e : s = t
  · subst e
    unfold roused
    split
    · rename_i h
      simp [h.1]
    · rfl
  · rw [roused_of_ne k e]

theorem roused_run (hp : (k.proc t.1).state = .PUSED) : Run step free k (k.roused t) := by
  unfold roused
  split
  · rename_i h
    refine Run.next (l := .rouse t) .refl ?_ trivial
    simp only [step]
    rw [if_pos ⟨hp, h.1, h.2⟩]
  · exact .refl

theorem dispatched_of_ne (k : Kernel) (h : s ≠ t) : (k.dispatched t).thread s = k.thread s := by
  rw [dispatched, setThread_thread, if_neg h, roused_of_ne k h]

theorem dispatched_run (hp : (k.proc t.1).state = .PUSED)
    (ht : ((k.roused t).thread t).state = .TRUNNABLE) : Run step free k (k.dispatched t) := by
  refine Run.next (l := .dispatch t) (roused_run hp) ?_ trivial
  simp only [step]
  rw [if_pos ⟨by rw [roused_proc]; exact hp, ht⟩]
  rfl

end Kernel

namespace Machine

variable {C : Type*} {m m' : Machine C} {c : C} {t : ThreadRef}

/-! ## Who runs where -/

/-- What a CPU and the lock are like at each place of the scheduler. -/
def Fits (m : Machine C) (c : C) (x : Cpu) : Prop :=
  match x.place with
  | .idle => x.proc = none ∧ x.thread = none ∧ m.lock ≠ some c
  | .procs _ => x.proc = none ∧ x.thread = none ∧ m.lock = some c
  | .threads p _ => x.proc = some p ∧ x.thread = none ∧ m.lock = some c ∧
      (m.kernel.proc p).state = .PUSED
  | .switched t => x.proc = some t.1 ∧ x.thread = some t ∧ (m.kernel.thread t).state = .TRUNNING
  | .back t => x.proc = some t.1 ∧ x.thread = some t ∧ m.lock = some c ∧
      (m.kernel.thread t).state ≠ .TRUNNING

structure CpuInv (m : Machine C) : Prop where
  fits : ∀ c, m.Fits c (m.cpu c)
  running : ∀ t, (m.kernel.thread t).state = .TRUNNING → ∃ c, (m.cpu c).place = .switched t
  single : ∀ c c' t, (m.cpu c).place = .switched t → (m.cpu c').place = .switched t → c = c'

variable {x : Cpu}

theorem Fits.switched (h : m.Fits c x) (hx : x.place = .switched t) :
    x.proc = some t.1 ∧ x.thread = some t ∧ (m.kernel.thread t).state = .TRUNNING := by
  simpa only [Fits, hx] using h

theorem Fits.threads {p : ProcIx} {i : Nat} (h : m.Fits c x) (hx : x.place = .threads p i) :
    x.proc = some p ∧ x.thread = none ∧ m.lock = some c ∧ (m.kernel.proc p).state = .PUSED := by
  simpa only [Fits, hx] using h

theorem Fits.back (h : m.Fits c x) (hx : x.place = .back t) :
    x.proc = some t.1 ∧ x.thread = some t ∧ m.lock = some c ∧
    (m.kernel.thread t).state ≠ .TRUNNING := by
  simpa only [Fits, hx] using h

/-- A CPU has a thread at two places only. -/
theorem Fits.place (h : m.Fits c x) (ht : x.thread = some t) :
    x.place = .switched t ∨ (x.place = .back t ∧ m.lock = some c) := by
  unfold Fits at h
  split at h <;> rw [h.2.1] at ht <;> cases ht
  · exact .inl ‹_›
  · exact .inr ⟨‹_›, h.2.2.1⟩

/-- A CPU that does not take the step stays where it is. -/
theorem Fits.other (h : m.Fits c x) (hlock : m'.lock = some c ↔ m.lock = some c)
    (hproc : m.lock = some c → ∀ p, (m'.kernel.proc p).state = (m.kernel.proc p).state)
    (hrun : ∀ t, x.thread = some t → ((m'.kernel.thread t).state = .TRUNNING ↔
      (m.kernel.thread t).state = .TRUNNING)) : m'.Fits c x := by
  unfold Fits at h ⊢
  split
  · rename_i hx
    simp only [hx] at h
    exact ⟨h.1, h.2.1, (not_congr hlock).2 h.2.2⟩
  · rename_i p hx
    simp only [hx] at h
    exact ⟨h.1, h.2.1, hlock.2 h.2.2⟩
  · rename_i p i hx
    simp only [hx] at h
    exact ⟨h.1, h.2.1, hlock.2 h.2.2.1, (hproc h.2.2.1 p).trans h.2.2.2⟩
  · rename_i t hx
    simp only [hx] at h
    exact ⟨h.1, h.2.1, (hrun t h.2.1).2 h.2.2⟩
  · rename_i t hx
    simp only [hx] at h
    exact ⟨h.1, h.2.1, hlock.2 h.2.2.1, (not_congr (hrun t h.2.1)).2 h.2.2.2⟩

/-- The tables change and no CPU moves; no thread starts or stops running. -/
theorem CpuInv.tables (h : CpuInv m) {k : Kernel}
    (hproc : ∀ p, (k.proc p).state = (m.kernel.proc p).state)
    (hrun : ∀ t, (k.thread t).state = .TRUNNING ↔ (m.kernel.thread t).state = .TRUNNING) :
    CpuInv { m with kernel := k } := by
  refine ⟨?_, fun t ht => h.running t ((hrun t).1 ht), h.single⟩
  intro c
  exact (h.fits c).other Iff.rfl (fun _ => hproc) fun t _ => hrun t

/-- A thread takes the lock or gives it back. -/
theorem CpuInv.relock (h : CpuInv m) {lock : Option C} (hx : (m.cpu c).place = .switched t)
    (hlock : ∀ d, d ≠ c → (lock = some d ↔ m.lock = some d)) : CpuInv { m with lock } := by
  refine ⟨fun d => ?_, h.running, h.single⟩
  by_cases e : d = c
  · subst e
    have hfits := h.fits d
    simp only [Fits, hx] at hfits ⊢
    exact hfits
  · exact (h.fits d).other (hlock d e) (fun _ _ => rfl) fun _ _ => Iff.rfl

variable [DecidableEq C]

/-- **One CPU takes a step.** It must fit its new place, a thread runs after the step if
this CPU is switched to it or if it ran before on another one, and this CPU is not
switched to a thread that ran elsewhere. -/
theorem CpuInv.step_of (h : CpuInv m) (hcpu : m'.cpu = update m.cpu c x)
    (hproc : ∀ d, d ≠ c → m.lock = some d → ∀ p, (m'.kernel.proc p).state = (m.kernel.proc p).state)
    (hrun : ∀ d t, d ≠ c → (m.cpu d).thread = some t →
      ((m'.kernel.thread t).state = .TRUNNING ↔ (m.kernel.thread t).state = .TRUNNING))
    (hfits : m'.Fits c x)
    (hruns : ∀ t, (m'.kernel.thread t).state = .TRUNNING → x.place = .switched t ∨
      ((m.kernel.thread t).state = .TRUNNING ∧ (m.cpu c).place ≠ .switched t))
    (hnew : ∀ t, x.place = .switched t → (m.cpu c).place = .switched t ∨
      (m.kernel.thread t).state ≠ .TRUNNING)
    (hlock : ∀ d, d ≠ c → (m'.lock = some d ↔ m.lock = some d) := by exact fun _ _ => Iff.rfl) :
    CpuInv m' := by
  have hself : m'.cpu c = x := by rw [hcpu, update_self]
  have hother : ∀ d, d ≠ c → m'.cpu d = m.cpu d := fun d hd => by rw [hcpu, update_of_ne hd]
  have hsame : ∀ d t, d ≠ c → (m'.cpu d).place = .switched t → (m'.cpu c).place = .switched t →
      d = c := by
    intro d t hd hpd hpc
    rw [hother d hd] at hpd
    rw [hself] at hpc
    rcases hnew t hpc with hp | hidle
    · exact h.single d c t hpd hp
    · exact absurd ((h.fits d).switched hpd).2.2 hidle
  refine ⟨?_, ?_, ?_⟩
  · intro d
    by_cases e : d = c
    · rw [e, hself]
      exact hfits
    · rw [hother d e]
      exact (h.fits d).other (hlock d e) (hproc d e) fun t => hrun d t e
  · intro t ht
    rcases hruns t ht with hp | ⟨ht', hp⟩
    · exact ⟨c, by rw [hself]; exact hp⟩
    · obtain ⟨d, hd⟩ := h.running t ht'
      have e : d ≠ c := by
        rintro rfl
        exact hp hd
      exact ⟨d, by rw [hother d e]; exact hd⟩
  · intro d d' t hd hd'
    by_cases e : d = c
    · subst e
      by_contra e'
      exact e' (hsame d' t (Ne.symm e') hd' hd).symm
    · by_cases e' : d' = c
      · subst e'
        exact hsame d t e hd hd'
      · rw [hother d e] at hd
        rw [hother d' e'] at hd'
        exact h.single d d' t hd hd'

/-- The scheduler of a CPU goes on, and may take or give back the lock. -/
theorem CpuInv.moves (h : CpuInv m) {lock : Option C}
    (hp : ∀ t, (m.cpu c).place ≠ .switched t) (hx : ∀ t, x.place ≠ .switched t)
    (hlock : ∀ d, d ≠ c → (lock = some d ↔ m.lock = some d))
    (hfits : Fits { m with lock } c x) : CpuInv { m.setCpu c x with lock } :=
  h.step_of rfl (fun _ _ _ _ => rfl) (fun _ _ _ _ => Iff.rfl) hfits
    (fun t ht => .inr ⟨ht, hp t⟩) (fun t ht => absurd ht (hx t)) hlock

theorem CpuInv.acquire (h : CpuInv m) (hs : m.acquire c = some m') : CpuInv m' := by
  unfold Machine.acquire at hs
  split at hs
  · rename_i hlock
    have hd : ∀ d, d ≠ c → (some c = some d ↔ m.lock = some d) := by
      intro d hd
      simp [hlock, Ne.symm hd]
    split at hs
    · rename_i hx
      cases hs
      have hfits := h.fits c
      simp only [Fits, hx] at hfits
      exact h.moves (by rw [hx]; nofun) nofun hd ⟨hfits.1, hfits.2.1, rfl⟩
    · rename_i r hx
      cases hs
      exact h.relock hx hd
    · cases hs
  · cases hs

theorem CpuInv.release (h : CpuInv m) (hs : m.release c = some m') : CpuInv m' := by
  unfold Machine.release at hs
  split at hs
  · rename_i r hx
    split at hs <;> cases hs
    rename_i hlock
    exact h.relock hx fun d hd => by simp [hlock, Ne.symm hd]
  · cases hs

theorem wakeup_some {a : Nat} (hs : m.wakeup c a = some m') :
    m' = { m with kernel := m.kernel.wakeup1 (.other a) } := by
  unfold Machine.wakeup at hs
  cases hp : (m.cpu c).place with
  | switched t =>
    rw [hp] at hs
    by_cases hl : m.lock = some c
    · exact (Option.some.inj ((if_pos hl).symm.trans hs)).symm
    · cases (if_neg hl).symm.trans hs
  | idle =>
    rw [hp] at hs
    by_cases hl : m.lock = none
    · exact (Option.some.inj ((if_pos hl).symm.trans hs)).symm
    · cases (if_neg hl).symm.trans hs
  | _ =>
    rw [hp] at hs
    cases hs

theorem CpuInv.wakeup {a : Nat} (h : CpuInv m) (hs : m.wakeup c a = some m') : CpuInv m' := by
  have hrun : ∀ t, ((m.kernel.wakeup1 (.other a)).thread t).state = .TRUNNING ↔
      (m.kernel.thread t).state = .TRUNNING := fun t => (Kernel.Woken.wake _ .same).running
  rw [wakeup_some hs]
  exact h.tables (fun _ => rfl) hrun

theorem CpuInv.act {a : Act} (h : CpuInv m) (hi : Kernel.Inv m.kernel)
    (hs : m.act c a = some m') : CpuInv m' := by
  unfold Machine.act at hs
  split at hs
  · rename_i r t hx ht
    obtain ⟨hp, ht', hrun⟩ := (h.fits c).switched hx
    have e : t = r := Option.some.inj (ht.symm.trans ht')
    subst e
    split at hs
    · rename_i hlock
      obtain ⟨l, hl, hs⟩ := Option.bind_eq_some_iff.1 hs
      obtain ⟨k, hk, rfl⟩ := Option.map_eq_some_iff.1 hs
      have hthread : l.thread = some t := by
        cases a <;> cases hl <;> rfl
      have hmild : m.lock ≠ some c → Kernel.Mild m.kernel k t :=
        fun hc => Kernel.mild_of_step hl (hlock.resolve_left hc) hrun hk
      have hothers : ∀ s, s ≠ t → ((k.thread s).state = .TRUNNING ↔
          (m.kernel.thread s).state = .TRUNNING) := by
        intro s hst
        refine Kernel.running_of_step hi hk ?_
        rw [hthread]
        exact fun e => hst (Option.some.inj e).symm
      refine h.step_of (c := c) rfl ?_ ?_ ?_ ?_ ?_
      · intro d hd hheld p
        exact (hmild (by rw [hheld]; simpa using hd)).proc p
      · intro d s hd hds
        refine hothers s ?_
        rintro rfl
        rcases (h.fits d).place hds with hp | ⟨hp, _⟩
        · exact hd (h.single d c s hp hx)
        · exact ((h.fits d).back hp).2.2.2 hrun
      · by_cases hr : (k.thread t).state = .TRUNNING
        · simp only [if_pos hr, Fits]
          exact ⟨hp, ht, hr⟩
        · simp only [if_neg hr, Fits]
          refine ⟨hp, ht, ?_, hr⟩
          by_contra hc
          exact hr (hmild hc).running
      · intro s hsr
        by_cases e : s = t
        · subst e
          exact .inl (if_pos hsr)
        · refine .inr ⟨(hothers s e).1 hsr, ?_⟩
          rw [hx]
          exact fun e' => e (Place.switched.inj e').symm
      · intro s hsp
        dsimp only at hsp
        split at hsp
        · cases hsp
          exact .inl hx
        · cases hsp
    · cases hs
  · cases hs

theorem CpuInv.visit {i : Nat} (h : CpuInv m) (hx : (m.cpu c).place = .threads t.1 i) :
    CpuInv (m.visit c t) := by
  obtain ⟨hproc, hthread, hlock, hused⟩ := (h.fits c).threads hx
  have hc : ∀ s, (m.cpu c).place ≠ .switched s := by
    intro s
    rw [hx]
    nofun
  have hidle : ∀ d, d ≠ c → m.lock ≠ some d := by
    intro d hd
    rw [hlock]
    exact fun e => hd (Option.some.inj e).symm
  unfold Machine.visit
  split
  · rename_i ht
    have hrun : (m.kernel.thread t).state ≠ .TRUNNING := by
      rw [ne_eq, ← Kernel.roused_running m.kernel t t, ht]
      decide
    refine h.step_of (c := c) rfl ?_ ?_ ?_ ?_ ?_
    · exact fun d hd hheld => absurd hheld (hidle d hd)
    · intro d s hd hds
      have hst : s ≠ t := by
        rintro rfl
        rcases (h.fits d).place hds with hp | ⟨_, hheld⟩
        · exact hrun ((h.fits d).switched hp).2.2
        · exact hidle d hd hheld
      rw [Kernel.dispatched_of_ne m.kernel hst]
    · exact ⟨hproc, rfl, by simp [Kernel.dispatched]⟩
    · intro s hs
      by_cases e : s = t
      · subst e
        exact .inl rfl
      · exact .inr ⟨Kernel.dispatched_of_ne m.kernel e ▸ hs, hc s⟩
    · intro s hs
      cases hs
      exact .inr hrun
  · refine h.step_of (c := c) rfl ?_ ?_ ?_ ?_ ?_
    · exact fun d hd hheld => absurd hheld (hidle d hd)
    · exact fun d s _ _ => Kernel.roused_running m.kernel t s
    · exact ⟨hproc, hthread, hlock, by rw [Kernel.roused_proc]; exact hused⟩
    · exact fun s hs => .inr ⟨(Kernel.roused_running m.kernel t s).1 hs, hc s⟩
    · intro s hs
      cases hs

theorem CpuInv.schedule (h : CpuInv m) (hs : m.schedule c = some m') : CpuInv m' := by
  have hfits := h.fits c
  have hsame : ∀ d, d ≠ c → (m.lock = some d ↔ m.lock = some d) := fun _ _ => Iff.rfl
  unfold Machine.schedule at hs
  split at hs
  · rename_i p hx
    simp only [Fits, hx] at hfits
    obtain ⟨hproc, hthread, hlock⟩ := hfits
    have hc : ∀ t, (m.cpu c).place ≠ .switched t := by
      intro t
      rw [hx]
      nofun
    split at hs
    · rename_i hp
      split at hs <;> cases hs
      · rename_i hused
        exact h.moves hc nofun hsame ⟨rfl, hthread, hlock, hused⟩
      · exact h.moves hc nofun hsame ⟨hproc, hthread, hlock⟩
    · cases hs
      exact h.moves hc nofun (fun d hd => by simp [hlock, Ne.symm hd]) ⟨hproc, hthread, nofun⟩
  · rename_i p i hx
    split at hs <;> cases hs
    · rename_i hi
      exact h.visit (t := (p, ⟨i, hi⟩)) hx
    · refine h.moves (by rw [hx]; nofun) nofun hsame ⟨rfl, rfl, ?_⟩
      exact (hfits.threads hx).2.2.1
  · rename_i t hx
    obtain ⟨hproc, _, hlock, _⟩ := hfits.back hx
    split at hs <;> cases hs
    · rename_i hused
      exact h.moves (by rw [hx]; nofun) nofun hsame ⟨hproc, rfl, hlock, hused⟩
    · exact h.moves (by rw [hx]; nofun) nofun hsame ⟨rfl, rfl, hlock⟩
  · cases hs
  · cases hs

end Machine

end Xv6
