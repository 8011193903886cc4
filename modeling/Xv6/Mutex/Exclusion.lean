import Xv6.Mutex.Waiting

/-! Mutual exclusion of a kthread mutex, and that no wakeup is lost: both halves
of `kthread_mutex_unlock` and every turn of the loop of `kthread_mutex_lock`
are separate steps. -/

namespace Xv6.Kernel

open Runs

variable {k k' : Kernel} {l : Label} {c r : ThreadRef} {m : MutexIx} {id : Int}

/-- The steps that keep mutex `id` allocated and its holders alive. -/
def Kept (id : Int) : Guard Kernel Label := fun k l k' =>
  (∀ m, (k.mutex m).mid = id → ¬ Frees k l m) ∧
  ∀ r, (k.thread r).Alive → holds (k.thread r).tid id k.hist → (k'.thread r).Alive

structure LockInv (id : Int) (k : Kernel) : Prop extends WaitInv (· = id) k where
  alive : ∀ t, holds t id k.hist → ∃ r, (k.thread r).Alive ∧ (k.thread r).tid = t

theorem holds_step {t : Int} (hs : LockStep k l k') (ht : holds t id k'.hist) :
    holds t id k.hist ∨ ∃ r, (k'.thread r).Alive ∧ (k'.thread r).tid = t := by
  cases hs with
  | quiet hq =>
    obtain ⟨es, hes, he⟩ := hq.hist
    rw [hes, holds_append he] at ht
    exact .inl ht
  | @take c mid m x ha hx hu =>
    simp only [takeEntry_hist, holds] at ht
    split at ht
    · rename_i e
      exact .inr ⟨c, by simp [Thread.Alive, ha.2.1], by simp [e.1]⟩
    · exact .inl ht
  | unlock =>
    simp only [clearEntry_hist, holds] at ht
    split at ht
    · cases ht
    · exact .inl ht
  | _ => exact .inl ht

theorem LockInv.step (h : LockInv id k) (hi : HistInv k) (hsl : SleepInv k) (h0 : id ≠ 0)
    (hkept : Kept id k l k') (hs : k.step l = some k') : LockInv id k' where
  toWaitInv := by
    refine h.toWaitInv.step hi hsl (fun v hv => hv ▸ h0) ?_ hs
    rintro r m v rfl ha hx
    exact hkept.1 m (h.waits r m v rfl ha hx)
  alive t ht := by
    have he := turn_of_step hs
    rcases holds_step (Kernel.lockStep hi.toInv he) ht with hh | hnew
    · obtain ⟨r, ha, rfl⟩ := h.alive t hh
      have ha' := hkept.2 r ha hh
      exact ⟨r, ha', (fate hi.toInv he r).alive_tid ha ha'⟩
    · exact hnew

theorem reachable_lockInv (h0 : id ≠ 0) (hr : Run Kernel.step (Kept id) boot k) : LockInv id k := by
  have hboot : LockInv id boot := ⟨boot_waitInv _, fun t h => by cases h⟩
  apply hr.invariant_with (fun _ hb => And.intro (reachable_histInv hb) (reachable_sleepInv hb))
    hboot
  intro a l b hi h hs hg
  exact h.step hi.1 hi.2 h0 hg hs

/-- **Mutual exclusion and no lost wakeup.** In every run that keeps the
allocated mutex `id` and the threads that hold it, one thread at a time is
between a `kthread_mutex_lock(id)` that returned 0 and its
`kthread_mutex_unlock(id)`, and while a thread sleeps in `kthread_mutex_lock(id)`
the mutex is locked or a wakeup is on its way. -/
theorem kthread_mutex_exclusion (hr : Run Kernel.step (Kept id) boot k)
    (hid : ∃ tid pid, Event.alloc tid pid id ∈ k.hist) :
    (∀ t t', holds t id k.hist → holds t' id k.hist → t = t') ∧
    ∀ r m, (k.thread r).state = .TSLEEPING → (k.thread r).context = .lockLoop m id →
      (k.mutex m).mid = id ∧ (k.thread r).chan = some (.mutex m) ∧
      ((k.mutex m).state = .MLOCKED ∨ WakePending k m) := by
  obtain ⟨tid, pid, hmem⟩ := hid
  have hhist := reachable_histInv hr
  have h0 : id ≠ 0 := by
    have : Issued k (.alloc tid pid id) := hhist.issued _ hmem
    simp only [Issued] at this
    omega
  have h := reachable_lockInv h0 hr
  constructor
  · intro t t' ht ht'
    obtain ⟨r, ha, rfl⟩ := h.alive t ht
    obtain ⟨r', ha', rfl⟩ := h.alive t' ht'
    obtain ⟨m, hm, _, ho⟩ := h.owned r id rfl ha ht
    obtain ⟨m', hm', _, ho'⟩ := h.owned r' id rfl ha' ht'
    have hmm : m = m' := hhist.mutexes.mid_inj m m' (hm.trans hm'.symm) (hm ▸ h0)
    subst hmm
    cases ho.symm.trans ho'
    rfl
  · intro r m hst hx
    refine ⟨h.waits r m id rfl (by simp [Thread.Alive, hst]) hx, ?_, h.asleep r m id rfl hst hx⟩
    exact (reachable_sleepInv hr).chan r m id hst hx

/-- A step that neither ends a thread nor frees a mutex. -/
def gentle (k : Kernel) (l : Label) : Bool :=
  (k.removals l).isEmpty && (k.deallocates l).isNone &&
    match l with
    | .run c _ _ => !(k.thread c).context.ends && (k.thread c).context != .safeExit
    | _ => true

theorem kept_of_gentle (h : Inv k) (hg : gentle k l) (hs : k.step l = some k') :
    Kept id k l k' := by
  simp only [gentle, Bool.and_eq_true, List.isEmpty_iff, Option.isNone_iff_eq_none] at hg
  obtain ⟨⟨hrem, hdeal⟩, hend⟩ := hg
  refine ⟨?_, ?_⟩
  · rintro m _ ⟨_, _, hf | ⟨t, ht, _⟩⟩
    · rw [hdeal] at hf; cases hf
    · rw [hrem] at ht; cases ht
  · intro r ha _
    rcases (fate h (turn_of_step hs) r).alive ha with
      h | hm | ⟨x, ⟨⟨page, copied, rfl⟩, _, rfl⟩, hx⟩
    · exact h
    · rw [hrem] at hm; cases hm
    · simp only [Bool.and_eq_true, Bool.not_eq_true', bne_iff_ne, ne_eq] at hend
      rcases hx with hx | hx
      · rw [hend.1] at hx; cases hx
      · exact absurd hx hend.2

/-- Thread 1 locks mutex 1, then thread 2 waits for it. -/
def contended : List Label :=
  [.dispatch (0, 0)] ++ Label.calls (0, 0) .kthreadCreate ++ Label.calls (0, 0) .mutexAlloc ++
    Label.calls (0, 0) (.mutexLock 1) ++
    [.dispatch (0, 1), .syscall (0, 1) (.mutexLock 1), .run (0, 1) none true]

theorem contended_run : Run Kernel.step (Kept 1) boot (after contended) :=
  run_reaches (g := gentle) (fun _ _ _ hr hg hs => kept_of_gentle (reachable_inv hr) hg hs)
    (by decide +kernel)

theorem kthread_mutex_exclusion_contended : holds 1 1 (after contended).hist ∧
    ((after contended).thread (0, 1)).state = .TSLEEPING ∧
    (∀ t, holds t 1 (after contended).hist → t = 1) ∧
    (((after contended).mutex 0).state = .MLOCKED ∨
      WakePending (after contended) 0) := by
  have hholds : holds 1 1 (after contended).hist := by decide +kernel
  have hsleep : ((after contended).thread (0, 1)).state = .TSLEEPING := by
    decide +kernel
  have halloc : Event.alloc 1 1 1 ∈ (after contended).hist := by decide +kernel
  have hctx : ((after contended).thread (0, 1)).context = .lockLoop 0 1 := by
    decide +kernel
  obtain ⟨hexcl, hwake⟩ := kthread_mutex_exclusion contended_run ⟨1, 1, halloc⟩
  exact ⟨hholds, hsleep, fun t ht => hexcl t 1 ht hholds, (hwake _ _ hsleep hctx).2.2⟩

end Xv6.Kernel
