import Xv6.Kernel.History
import Xv6.Mutex.Holding

/-! Waiters and owners. For the ids in a set `P`, a thread inside
`kthread_mutex_lock(id)` waits on the entry that has the id, a live thread that
holds the id owns that entry, and no wakeup is lost; this survives every step
that frees no entry on which a thread waits for an id in `P`. -/

namespace Xv6.Kernel

open Runs

variable {k k' : Kernel} {l : Label} {c r : ThreadRef} {m : MutexIx} {v : Int} {P : Int → Prop}

/-! ## Sleepers and wakers -/

/-- A sleeper in `kthread_mutex_lock` sleeps on its entry, and a thread about to
call `wakeup` does not sleep. -/
structure SleepInv (k : Kernel) : Prop where
  chan : ∀ r m v, (k.thread r).state = .TSLEEPING → (k.thread r).context = .lockLoop m v →
    (k.thread r).chan = some (.mutex m)
  waker : ∀ r m, (k.thread r).context = .unlockWake m → (k.thread r).state ≠ .TSLEEPING

theorem boot_sleepInv : SleepInv boot := by
  have hctx : ∀ r, (boot.thread r).context.locking = false := by
    intro r; simp only [boot]; split <;> rfl
  refine ⟨?_, ?_⟩
  · intro r m v _ h
    have := hctx r
    rw [h] at this; cases this
  · intro r m h
    have := hctx r
    rw [h] at this; cases this

/-- Waking a thread that is not asleep, or sleeps elsewhere, changes nothing. -/
theorem wake_cases (x : Thread) (w : Chan) :
    x.wake w = x ∨ (x.state = .TSLEEPING ∧ x.chan = some w ∧
      x.wake w = { x with state := .TRUNNABLE }) := by
  unfold Thread.wake
  split
  · rename_i h; exact .inr ⟨h.1, h.2, rfl⟩
  · exact .inl rfl

theorem SleepInv.lockStep (h : SleepInv k) (hs : LockStep k l k') : SleepInv k' := by
  cases hs with
  | quiet hq =>
    refine ⟨?_, ?_⟩
    · intro r m v hst hx
      have hl : (k'.thread r).context.locking := by rw [hx]; rfl
      obtain ⟨hst', hch⟩ := (hq.thread r).asleep hst hl
      obtain ⟨_, hx'⟩ := (hq.thread r).context (by simp [Thread.Alive, hst]) hl
      rw [hch]
      exact h.chan r m v hst' (hx'.trans hx)
    · intro r m hx hst
      have hl : (k'.thread r).context.locking := by rw [hx]; rfl
      obtain ⟨hst', _⟩ := (hq.thread r).asleep hst hl
      obtain ⟨_, hx'⟩ := (hq.thread r).context (by simp [Thread.Alive, hst]) hl
      exact h.waker r m (hx'.trans hx) hst'
  | @take c mid m x ha hx hu =>
    constructor <;> intro r <;> simp only [takeEntry_thread] <;> split
    · intro m v _ hc; cases hc
    · exact h.chan r
    · intro m hc; cases hc
    · exact h.waker r
  | @lockSleep c mid m x ha hx hl =>
    constructor <;> intro r <;> simp only [sleep_thread] <;> split
    · intro m' v _ hc; cases hc; rfl
    · exact h.chan r
    · intro m hc; cases hc
    · exact h.waker r
  | @unlock c o mid m ha hm hl ho htid =>
    constructor <;> intro r <;> simp only [clearEntry_thread] <;> split
    · intro m' v _ hc; cases hc
    · exact h.chan r
    · rename_i e; subst e; intro _ _; simp [ha.2.1]
    · exact h.waker r
  | @wake c m ha =>
    constructor <;> intro r <;> simp only [sysret_thread, wakeup1_thread] <;> split
    · intro m' v _ hc; cases hc
    · rcases wake_cases (k.thread r) (.mutex m) with e | ⟨_, _, e⟩ <;> rw [e]
      · exact h.chan r
      · intro m' v hst; cases hst
    · intro m' hc; cases hc
    · rcases wake_cases (k.thread r) (.mutex m) with e | ⟨_, _, e⟩ <;> rw [e]
      · exact h.waker r
      · intro m' _ hst; cases hst

theorem reachable_sleepInv {G : Guard Kernel Label} (hr : Run Kernel.step G boot k) : SleepInv k :=
  hr.invariant_with (fun _ => reachable_inv) boot_sleepInv fun _ _ _ hi h hs _ =>
    h.lockStep (Kernel.lockStep hi (turn_of_step hs))

/-! ## Waiters and owners -/

/-- Some thread has cleared entry `m` and not performed its `wakeup(m)` yet. -/
def WakePending (k : Kernel) (m : MutexIx) : Prop :=
  ∃ u, (k.thread u).Alive ∧ (k.thread u).context = .unlockWake m

structure WaitInv (P : Int → Prop) (k : Kernel) : Prop where
  waits : ∀ r m v, P v → (k.thread r).Alive → (k.thread r).context = .lockLoop m v →
    (k.mutex m).mid = v
  owned : ∀ r v, P v → (k.thread r).Alive → holds (k.thread r).tid v k.hist →
    ∃ m, (k.mutex m).mid = v ∧ (k.mutex m).state = .MLOCKED ∧ (k.mutex m).mythread = some r
  asleep : ∀ r m v, P v → (k.thread r).state = .TSLEEPING →
    (k.thread r).context = .lockLoop m v → (k.mutex m).state = .MLOCKED ∨ WakePending k m

theorem boot_waitInv (P : Int → Prop) : WaitInv P boot := by
  have hctx : ∀ r m v, (boot.thread r).context ≠ .lockLoop m v := by
    intro r m v; simp only [boot]; split <;> simp [Thread.zero]
  refine ⟨?_, ?_, ?_⟩
  · intro r m v _ _ h; exact absurd h (hctx r m v)
  · intro r v _ _ h; cases h
  · intro r m v _ _ h; exact absurd h (hctx r m v)

/-- The entry that a lock turn of `c` works on. -/
theorem WaitInv.entry_mid (h : WaitInv P k) (hv : P v) {x : Context} (ha : Acts k l c x)
    (hx : (x = .call (.mutexLock v) ∧ k.findMutex v = some m) ∨ x = .lockLoop m v) :
    (k.mutex m).mid = v := by
  obtain ⟨_, hrun, hctx⟩ := ha
  rcases hx with ⟨_, hm⟩ | rfl
  · exact findMutex_some hm
  · exact h.waits c m v hv ⟨by simp [hrun], by simp [hrun]⟩ hctx

theorem Quiet.mutex_eq (hq : Quiet k l k') (h0 : (k.mutex m).mid ≠ 0) (hf : ¬ Frees k l m) :
    k'.mutex m = k.mutex m := by
  rcases hq.mutex m with e | ⟨hf', _⟩ | ⟨hz, _⟩
  · exact e
  · exact absurd hf' hf
  · exact absurd hz h0

theorem not_frees_of_locked (h : (k.mutex m).state = .MLOCKED) : ¬ Frees k l m := fun hf => hf.2.1 h

/-- The step frees no entry on which a thread waits for an id in `P`. -/
def SparesWaiters (P : Int → Prop) (k : Kernel) (l : Label) : Prop :=
  ∀ r m v, P v → (k.thread r).Alive → (k.thread r).context = .lockLoop m v → ¬ Frees k l m

/-- A thread that has just been started has no past. -/
theorem HistInv.holder_before (h : HistInv k) (hf : Fate k l k' r) (ha : (k'.thread r).Alive)
    (hh : holds (k'.thread r).tid v k.hist) :
    (k.thread r).Alive ∧ (k'.thread r).tid = (k.thread r).tid := by
  rcases hf.born ha with ha' | ⟨htid, _⟩
  · exact ⟨ha', hf.alive_tid ha' ha⟩
  · obtain ⟨m, hm⟩ := lock_of_holds hh
    have hlt : (k'.thread r).tid < k.nexttid := h.issued _ hm
    omega

theorem Inv.eq_of_tid (h : Inv k) (ha : (k.thread r).Alive)
    (ht : (k.thread c).tid = (k.thread r).tid) : c = r :=
  (h.tids.inj r c ht.symm (h.tids.pos r ha.1)).symm

/-- A thread in the loop of `kthread_mutex_lock` was there before the step or
has just found its entry. -/
theorem lockLoop_step (hs : LockStep k l k') (ha : (k'.thread r).Alive)
    (hx : (k'.thread r).context = .lockLoop m v) :
    ((k.thread r).Alive ∧ (k.thread r).context = .lockLoop m v) ∨
    (Acts k l r (.call (.mutexLock v)) ∧ k.findMutex v = some m ∧ k'.mutex = k.mutex) := by
  cases hs with
  | quiet hq =>
    obtain ⟨ha', hx'⟩ := (hq.thread r).context ha (by rw [hx]; rfl)
    exact .inl ⟨ha', hx'.trans hx⟩
  | take =>
    simp only [takeEntry_thread] at ha hx
    split at hx
    · cases hx
    · rename_i e; rw [if_neg e] at ha; exact .inl ⟨ha, hx⟩
  | @lockSleep c mid m' x hact hx' hl =>
    simp only [sleep_thread] at ha hx
    split at hx
    · rename_i e
      subst e
      cases hx
      rcases hx' with ⟨rfl, hm⟩ | rfl
      · exact .inr ⟨hact, hm, rfl⟩
      · exact .inl ⟨by simp [Thread.Alive, hact.2.1], hact.2.2⟩
    · rename_i e; rw [if_neg e] at ha; exact .inl ⟨ha, hx⟩
  | unlock =>
    simp only [clearEntry_thread] at ha hx
    split at hx
    · cases hx
    · rename_i e; rw [if_neg e] at ha; exact .inl ⟨ha, hx⟩
  | @wake c m' hact =>
    simp only [sysret_thread, wakeup1_thread] at ha hx
    split at hx
    · cases hx
    · rename_i e
      rw [if_neg e] at ha
      refine .inl ⟨(Thread.Calm.wake (k.thread r) (.mutex m')).alive.1 ha, ?_⟩
      rcases wake_cases (k.thread r) (.mutex m') with e | ⟨_, _, e⟩ <;> rw [e] at hx <;> exact hx

/-- An allocated entry keeps its id unless it is freed. -/
theorem mid_step (hs : LockStep k l k') (h0 : (k.mutex m).mid ≠ 0) (hf : ¬ Frees k l m) :
    (k'.mutex m).mid = (k.mutex m).mid := by
  cases hs with
  | quiet hq => rw [hq.mutex_eq h0 hf]
  | take => simp only [takeEntry_mutex]; split <;> rfl
  | unlock => simp only [clearEntry_mutex]; split <;> rfl
  | _ => rfl

theorem WaitInv.waits_step (h : WaitInv P k) (hP : ∀ v, P v → v ≠ 0)
    (hfree : SparesWaiters P k l) (hs : LockStep k l k') (r : ThreadRef) (n : MutexIx) (v : Int)
    (hv : P v) (hra : (k'.thread r).Alive) (hrx : (k'.thread r).context = .lockLoop n v) :
    (k'.mutex n).mid = v := by
  rcases lockLoop_step hs hra hrx with ⟨ha, hx⟩ | ⟨_, hm, e⟩
  · have hm := h.waits r n v hv ha hx
    rw [mid_step hs (hm.symm ▸ hP v hv) (hfree r n v hv ha hx), hm]
  · rw [e]; exact findMutex_some hm

theorem WaitInv.owned_step (h : WaitInv P k) (hi : HistInv k) (hP : ∀ v, P v → v ≠ 0)
    (hs : LockStep k l k') (r : ThreadRef) (hf : Fate k l k' r) (v : Int) (hv : P v)
    (hra : (k'.thread r).Alive) (hh : holds (k'.thread r).tid v k'.hist) :
    ∃ m, (k'.mutex m).mid = v ∧ (k'.mutex m).state = .MLOCKED ∧ (k'.mutex m).mythread = some r := by
  -- what holds when the thread held the mutex before the step
  have hold : holds (k'.thread r).tid v k.hist → ∃ m, (k.mutex m).mid = v ∧
      (k.mutex m).state = .MLOCKED ∧ (k.mutex m).mythread = some r := by
    intro hh
    obtain ⟨ha, ht⟩ := hi.holder_before hf hra hh
    exact h.owned r v hv ha (ht ▸ hh)
  cases hs with
  | quiet hq =>
    obtain ⟨es, hes, he⟩ := hq.hist
    rw [hes, holds_append he] at hh
    obtain ⟨m, hm, hl, ho⟩ := hold hh
    have e := hq.mutex_eq (hm.symm ▸ hP v hv) (not_frees_of_locked hl)
    exact ⟨m, by rw [e, hm], by rw [e, hl], by rw [e, ho]⟩
  | @take c mid m x ha hx hu =>
    simp only [takeEntry_hist, holds] at hh
    split at hh
    · rename_i e
      obtain ⟨htid, rfl⟩ := e
      have hrc : c = r := by
        rcases eq_or_ne r c with e | e
        · exact e.symm
        · rw [takeEntry_thread, if_neg e] at hra htid
          exact hi.eq_of_tid hra htid
      refine ⟨m, ?_, ?_, ?_⟩ <;> simp [h.entry_mid hv ha hx, hrc]
    · obtain ⟨m', hm, hl, ho⟩ := hold hh
      have hne : m' ≠ m := by rintro rfl; rw [hu] at hl; cases hl
      exact ⟨m', by simp [hne, hm], by simp [hne, hl], by simp [hne, ho]⟩
  | @unlock c o mid m ha hm hl ho htid =>
    simp only [clearEntry_hist, holds] at hh
    split at hh
    · cases hh
    · rename_i hne
      obtain ⟨m', hm', hl', ho'⟩ := hold hh
      -- the owner is not the thread that unlocks, so the entry is another one
      have hmm : m' ≠ m := by
        rintro rfl
        cases ho.symm.trans ho'
        obtain ⟨_, ht⟩ := hi.holder_before hf hra hh
        exact hne ⟨htid.symm.trans ht.symm, (findMutex_some hm).symm.trans hm'⟩
      exact ⟨m', by simp [hmm, hm'], by simp [hmm, hl'], by simp [hmm, ho']⟩
  | _ => exact hold hh

/-- The thread that acts is not about to wake somebody, so a pending wakeup stays
pending when only the acting thread changes. -/
theorem WakePending.keep {x : Context} (h : WakePending k m) (ha : Acts k l c x)
    (hx : x ≠ .unlockWake m) (ho : ∀ s, s ≠ c → k'.thread s = k.thread s) : WakePending k' m := by
  obtain ⟨u, hu, hux⟩ := h
  have huc : u ≠ c := by rintro rfl; exact hx (ha.2.2.symm.trans hux)
  exact ⟨u, by rw [ho u huc]; exact hu, by rw [ho u huc]; exact hux⟩

theorem WaitInv.asleep_step (h : WaitInv P k) (hsl : SleepInv k) (hP : ∀ v, P v → v ≠ 0)
    (hfree : SparesWaiters P k l) (hs : LockStep k l k') (r : ThreadRef) (n : MutexIx) (v : Int)
    (hv : P v) (hst : (k'.thread r).state = .TSLEEPING)
    (hrx : (k'.thread r).context = .lockLoop n v) :
    (k'.mutex n).state = .MLOCKED ∨ WakePending k' n := by
  cases hs with
  | quiet hq =>
    have hloc : (k'.thread r).context.locking := by rw [hrx]; rfl
    obtain ⟨hst', _⟩ := (hq.thread r).asleep hst hloc
    obtain ⟨ha, hx⟩ := (hq.thread r).context (by simp [Thread.Alive, hst]) hloc
    have hm := h.waits r n v hv ha (hx.trans hrx)
    rcases h.asleep r n v hv hst' (hx.trans hrx) with hl | ⟨u, hu, hux⟩
    · left
      rw [hq.mutex_eq (hm.symm ▸ hP v hv) (hfree r n v hv ha (hx.trans hrx))]
      exact hl
    · right
      obtain ⟨hu', _, hux'⟩ := (hq.thread u).awake hu (hsl.waker u n hux) (by rw [hux]; rfl)
      exact ⟨u, hu', hux'.trans hux⟩
  | @take c mid m x ha hx hu =>
    simp only [takeEntry_thread] at hst hrx
    split at hrx
    · cases hrx
    · rename_i e
      rw [if_neg e] at hst
      rcases h.asleep r n v hv hst hrx with hl | hw
      · left; simp only [takeEntry_mutex]; split
        · rfl
        · exact hl
      · right
        refine hw.keep ha ?_ fun s hs => by simp [hs]
        rcases hx with ⟨rfl, _⟩ | rfl <;> simp
  | @lockSleep c mid m x ha hx hl =>
    simp only [sleep_thread] at hst hrx
    split at hrx
    · cases hrx; exact .inl hl
    · rename_i e
      rw [if_neg e] at hst
      rcases h.asleep r n v hv hst hrx with hl | hw
      · exact .inl hl
      · right
        refine hw.keep ha ?_ fun s hs => by simp [hs]
        rcases hx with ⟨rfl, _⟩ | rfl <;> simp
  | @unlock c o mid m ha hm hl ho htid =>
    simp only [clearEntry_thread] at hst hrx
    split at hrx
    · cases hrx
    · rename_i e
      rw [if_neg e] at hst
      rcases h.asleep r n v hv hst hrx with hl | hw
      · rcases eq_or_ne n m with rfl | hnm
        · exact .inr ⟨c, by simp [Thread.Alive, ha.2.1], by simp⟩
        · left; simp [hnm, hl]
      · right
        exact hw.keep ha (by simp) fun s hs => by simp [hs]
  | @wake c m ha =>
    simp only [sysret_thread, wakeup1_thread] at hst hrx
    split at hrx
    · cases hrx
    · rename_i e
      rw [if_neg e] at hst
      rcases wake_cases (k.thread r) (.mutex m) with ew | ⟨_, _, ew⟩
      · rw [ew] at hst hrx
        -- `r` sleeps on and was not woken, so it sleeps on another entry
        have hnm : n ≠ m := by
          rintro rfl
          have hch := hsl.chan r n v hst hrx
          simp [Thread.wake, hst, hch] at ew
          rw [← ew] at hst
          cases hst
        rcases h.asleep r n v hv hst hrx with hl | ⟨u, hu, hux⟩
        · exact .inl hl
        · right
          have huc : u ≠ c := by
            rintro rfl
            rw [ha.2.2] at hux
            cases hux
            exact hnm rfl
          refine ⟨u, ?_, ?_⟩
          · simpa [huc] using (Thread.Calm.wake (k.thread u) (.mutex m)).alive.2 hu
          · rcases wake_cases (k.thread u) (.mutex m) with e | ⟨_, _, e⟩ <;> simp [huc, e, hux]
      · rw [ew] at hst; cases hst

theorem WaitInv.step (h : WaitInv P k) (hi : HistInv k) (hsl : SleepInv k)
    (hP : ∀ v, P v → v ≠ 0) (hfree : SparesWaiters P k l) (hs : k.step l = some k') :
    WaitInv P k' := by
  have he := turn_of_step hs
  have hls := Kernel.lockStep hi.toInv he
  exact ⟨h.waits_step hP hfree hls, fun r => h.owned_step hi hP hls r (fate hi.toInv he r),
    h.asleep_step hsl hP hfree hls⟩

end Xv6.Kernel
