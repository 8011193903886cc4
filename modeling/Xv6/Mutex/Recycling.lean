import Xv6.Mutex.Waiting

/-! Waiters keep a raw pointer to an entry of `mtable`, and entries name their
owner by a raw pointer to a thread record. Both tables recycle their records.
This module says what goes wrong and which steps have to be left out for the
pointers to stay valid. -/

namespace Xv6.Kernel

open Runs

variable {k k' : Kernel} {l : Label} {c r t : ThreadRef} {m : MutexIx} {v : Int}

/-! ## Entries under waiters -/

/-- The steps that free no entry on which a thread waits, and start no
`kthread_mutex_lock(0)` on a free entry. -/
def WaitersKept : Guard Kernel Label := fun k l _ =>
  SparesWaiters (fun _ => True) k l ∧
  ∀ c, Acts k l c (.call (.mutexLock 0)) → k.findMutex 0 = none

/-- Besides the facts about waiters and owners: nobody waits for or holds id 0. -/
structure NamedInv (k : Kernel) : Prop extends WaitInv (· ≠ 0) k where
  named : ∀ r m v, (k.thread r).Alive → (k.thread r).context = .lockLoop m v → v ≠ 0
  zero : ∀ t, holds t 0 k.hist = false

/-- The id of a lock turn is not 0. -/
theorem NamedInv.lock_ne_zero (h : NamedInv k) {x : Context} (ha : Acts k l c x)
    (hx : (x = .call (.mutexLock v) ∧ k.findMutex v = some m) ∨ x = .lockLoop m v)
    (hg : ∀ c, Acts k l c (.call (.mutexLock 0)) → k.findMutex 0 = none) : v ≠ 0 := by
  rcases hx with ⟨rfl, hm⟩ | rfl
  · rintro rfl
    rw [hg c ha] at hm
    cases hm
  · exact h.named c m v ⟨by simp [ha.2.1], by simp [ha.2.1]⟩ ha.2.2

theorem NamedInv.step (h : NamedInv k) (hi : HistInv k) (hsl : SleepInv k)
    (hg : WaitersKept k l k') (hs : k.step l = some k') : NamedInv k' where
  toWaitInv := h.toWaitInv.step hi hsl (fun _ hv => hv)
    (fun r m v _ => hg.1 r m v trivial) hs
  named r m v ha hx := by
    have hls := Kernel.lockStep hi.toInv (turn_of_step hs)
    rcases lockLoop_step hls ha hx with ⟨ha, hx⟩ | ⟨hact, hm, _⟩
    · exact h.named r m v ha hx
    · exact h.lock_ne_zero hact (.inl ⟨rfl, hm⟩) hg.2
  zero t := by
    have hls := Kernel.lockStep hi.toInv (turn_of_step hs)
    cases hls with
    | quiet hq =>
      obtain ⟨es, hes, he⟩ := hq.hist
      rw [hes, holds_append he]
      exact h.zero t
    | @take c mid m x ha hx hu =>
      have h0 := h.lock_ne_zero ha hx hg.2
      simp only [takeEntry_hist, holds]
      rw [if_neg fun e => h0 e.2]
      exact h.zero t
    | unlock =>
      simp only [clearEntry_hist, holds]
      split
      · rfl
      · exact h.zero t
    | _ => exact h.zero t

theorem boot_namedInv : NamedInv boot where
  toWaitInv := boot_waitInv _
  named r m v _ hx := by
    simp only [boot] at hx
    split at hx <;> cases hx
  zero _ := rfl

theorem namedInv_of_run {G : Guard Kernel Label} (hG : ∀ a l b, G a l b → WaitersKept a l b)
    (hr : Run Kernel.step G boot k) : NamedInv k := by
  apply hr.invariant_with (fun _ hb => And.intro (reachable_histInv hb) (reachable_sleepInv hb))
    boot_namedInv
  intro a l b hi h hs hg
  exact h.step hi.1 hi.2 (hG a l b hg) hs

/-- The step at which `kthread_mutex_lock` gets its mutex. -/
theorem LockStep.of_lock_event {tid id : Int} (hs : LockStep k l k')
    (hh : k'.hist = .lock tid id m :: k.hist) :
    ∃ c x, Acts k l c x ∧ ((x = .call (.mutexLock id) ∧ k.findMutex id = some m) ∨
      x = .lockLoop m id) ∧ k' = k.takeEntry c m id ∧ tid = (k.thread c).tid := by
  cases hs with
  | quiet hq =>
    obtain ⟨es, hes, he⟩ := hq.hist
    have hes' : es = [.lock tid id m] := List.append_cancel_right (hes.symm.trans (hh.trans rfl))
    have := he (.lock tid id m) (by rw [hes']; simp)
    cases this
  | @take c mid m' x ha hx hu =>
    rw [takeEntry_hist] at hh
    cases hh
    exact ⟨c, x, ha, hx, rfl, rfl⟩
  | unlock => rw [clearEntry_hist] at hh; cases hh
  | _ => exact absurd hh.symm (List.cons_ne_self _ _)

/-- **A lock that returns 0 has locked its own mutex**, in every run in which no
entry is freed under a waiter and no free entry is locked; hence no two live
threads hold the same id. -/
theorem kthread_mutex_lock_own_entry (hr : Run Kernel.step WaitersKept boot k)
    (hs : k.step l = some k') (hg : WaitersKept k l k') :
    (∀ tid id m, k'.hist = .lock tid id m :: k.hist →
      id ≠ 0 ∧ (k'.mutex m).mid = id ∧ (k'.mutex m).state = .MLOCKED ∧
      ∃ r, (k'.mutex m).mythread = some r ∧ (k'.thread r).tid = tid ∧
        (k'.thread r).context = .ret 0) ∧ ∀ r r' id, (k'.thread r).Alive → (k'.thread r').Alive →
      holds (k'.thread r).tid id k'.hist → holds (k'.thread r').tid id k'.hist → r = r' := by
  have hi := reachable_histInv hr
  have h := namedInv_of_run (fun _ _ _ hg => hg) hr
  have h' := h.step hi (reachable_sleepInv hr) hg hs
  have hi' := hi.step hs
  constructor
  · intro tid id m hh
    obtain ⟨c, x, ha, hx, rfl, rfl⟩ := (Kernel.lockStep hi.toInv (turn_of_step hs)).of_lock_event hh
    have h0 := h.lock_ne_zero ha hx hg.2
    refine ⟨h0, ?_, ?_, c, ?_, ?_, ?_⟩ <;> simp [h.entry_mid h0 ha hx]
  · intro r r' id ha ha' hh hh'
    have h0 : id ≠ 0 := by
      rintro rfl
      rw [h'.zero] at hh
      cases hh
    obtain ⟨m, hm, _, ho⟩ := h'.owned r id h0 ha hh
    obtain ⟨m', hm', _, ho'⟩ := h'.owned r' id h0 ha' hh'
    have hmm : m = m' := hi'.mutexes.mid_inj m m' (hm.trans hm'.symm) (hm ▸ h0)
    subst hmm
    exact Option.some.inj (ho.symm.trans ho')

/-- Thread 1 locks mutex 1, thread 2 waits for it, and thread 1 unlocks it. -/
def handedOver : List Label :=
  [.dispatch (0, 0)] ++ Label.calls (0, 0) .kthreadCreate ++ Label.calls (0, 0) .mutexAlloc ++
    Label.calls (0, 0) (.mutexLock 1) ++
    [.dispatch (0, 1), .syscall (0, 1) (.mutexLock 1), .run (0, 1) none true] ++
    Label.calls (0, 0) (.mutexUnlock 1) ++ [.run (0, 0) none true, .dispatch (0, 1)]

/-- A step that removes no thread, frees no mutex and does not lock id 0. -/
def placid (k : Kernel) (l : Label) : Bool :=
  (k.removals l).isEmpty && (k.deallocates l).isNone &&
    match l with
    | .run c _ _ => (k.thread c).context != .call (.mutexLock 0)
    | _ => true

theorem waitersKept_of_placid (hg : placid k l) : WaitersKept k l k' := by
  simp only [placid, Bool.and_eq_true, List.isEmpty_iff, Option.isNone_iff_eq_none] at hg
  obtain ⟨⟨hrem, hdeal⟩, hlock⟩ := hg
  constructor
  · rintro r m v _ _ _ ⟨_, _, hf | ⟨t, ht, _⟩⟩
    · rw [hdeal] at hf; cases hf
    · rw [hrem] at ht; cases ht
  · rintro c ⟨⟨page, copied, rfl⟩, _, hx⟩
    simp only [hx] at hlock
    cases hlock

theorem handedOver_run : Run Kernel.step WaitersKept boot (after handedOver) :=
  run_final waitersKept_of_placid

theorem kthread_mutex_lock_own_entry_handedOver :
    ((next Kernel.step (after handedOver) (.run (0, 1) none true)).mutex 0).mid = 1 := by
  have hs := step_next Kernel.step (after handedOver) (.run (0, 1) none true) (by decide +kernel)
  have hg : WaitersKept (after handedOver) (.run (0, 1) none true)
      (next Kernel.step (after handedOver) (.run (0, 1) none true)) :=
    waitersKept_of_placid (by decide +kernel)
  have hlock : (next Kernel.step (after handedOver) (.run (0, 1) none true)).hist =
      .lock 2 1 0 :: (after handedOver).hist := by decide +kernel
  exact ((kthread_mutex_lock_own_entry handedOver_run hs hg).1 2 1 0 hlock).2.1

/-- The same, and thread 1 deallocates the mutex before thread 2 runs. -/
def freedUnderWaiter : List Label := handedOver ++ Label.calls (0, 0) (.mutexDealloc 1)

/-- The lock of thread 2 returns 0 and has locked a free entry. -/
theorem kthread_mutex_lock_free_entry : ∃ k l k', Run Kernel.step free boot k ∧
    k.step l = some k' ∧ k'.hist = .lock 2 1 0 :: k.hist ∧ (k'.mutex 0).mid = 0 :=
  ⟨after freedUnderWaiter, .run (0, 1) none true, _,
    run_free, step_next _ _ _ (by decide +kernel), by decide +kernel⟩

/-! ## Records of owners -/

/-- The steps that moreover remove no thread that owns a locked mutex. -/
def OwnersKept : Guard Kernel Label := fun k l k' =>
  WaitersKept k l k' ∧
  ∀ t ∈ k.removals l, ∀ m, (k.mutex m).state = .MLOCKED → (k.mutex m).mythread ≠ some t

/-- The owner of a locked mutex is the thread that locked it: its record has not
been given to another thread. -/
def OwnInv (k : Kernel) : Prop :=
  ∀ m, (k.mutex m).state = .MLOCKED → (k.mutex m).mid ≠ 0 ∧
    ∃ r, (k.mutex m).mythread = some r ∧ Seated k r ∧ holds (k.thread r).tid (k.mutex m).mid k.hist

theorem holds_lock {t i : Int} {h : List Event} {tid mid : Int} (hh : holds tid mid h) :
    holds tid mid (.lock t i m :: h) := by
  simp only [holds]
  split
  · rfl
  · exact hh

theorem OwnInv.step (h : OwnInv k) (hn : NamedInv k) (hi : HistInv k) (hg : OwnersKept k l k')
    (hs : k.step l = some k') : OwnInv k' := by
  have he := turn_of_step hs
  have hls := Kernel.lockStep hi.toInv he
  -- the owner before the step still has its record
  have hseat : ∀ m, (k.mutex m).state = .MLOCKED → ∃ r, (k.mutex m).mythread = some r ∧
      Seated k' r ∧ (k'.thread r).tid = (k.thread r).tid ∧
      holds (k.thread r).tid (k.mutex m).mid k.hist := by
    intro m hl
    obtain ⟨_, r, ho, hseated, hh⟩ := h m hl
    obtain ⟨htid, hseated'⟩ := (fate hi.toInv he r).seated hseated fun hr => hg.2 r hr m hl ho
    exact ⟨r, ho, hseated', htid, hh⟩
  intro m hl
  cases hls with
  | quiet hq =>
    obtain ⟨es, hes, hev⟩ := hq.hist
    have e : k'.mutex m = k.mutex m := by
      rcases hq.mutex m with e | ⟨_, e⟩ | ⟨_, _, hu, _⟩
      · exact e
      · rw [e] at hl; cases hl
      · rw [hu] at hl; cases hl
    rw [e] at hl ⊢
    obtain ⟨r, ho, hseated, htid, hh⟩ := hseat m hl
    exact ⟨(h m hl).1, r, ho, hseated, by rw [hes, holds_append hev, htid]; exact hh⟩
  | @take c mid n x ha hx hu =>
    have h0 := hn.lock_ne_zero ha hx hg.1.2
    rcases eq_or_ne m n with rfl | hne
    · have hmid := hn.entry_mid h0 ha hx
      refine ⟨by simpa [hmid] using h0, c, by simp, ?_, by simp [holds, hmid]⟩
      exact .inl (by simp [ha.2.1])
    · rw [takeEntry_mutex, if_neg hne] at hl ⊢
      obtain ⟨r, ho, hseated, htid, hh⟩ := hseat m hl
      exact ⟨(h m hl).1, r, ho, hseated, by rw [htid, takeEntry_hist]; exact holds_lock hh⟩
  | @unlock c o mid n ha hm _ ho' htid' =>
    rcases eq_or_ne m n with rfl | hne
    · simp at hl
    · rw [clearEntry_mutex, if_neg hne] at hl ⊢
      obtain ⟨r, ho, hseated, htid, hh⟩ := hseat m hl
      have h0 := (h m hl).1
      refine ⟨h0, r, ho, hseated, ?_⟩
      rw [htid, clearEntry_hist]
      simp only [holds]
      -- the id that is unlocked is the id of another entry
      rw [if_neg]
      · exact hh
      · rintro ⟨_, e⟩
        exact hne (hi.mutexes.mid_inj m n (e.symm.trans (findMutex_some hm).symm) h0)
  | _ =>
    obtain ⟨r, ho, hseated, htid, hh⟩ := hseat m hl
    exact ⟨(h m hl).1, r, ho, hseated, by rw [htid]; exact hh⟩

theorem ownInv_of_run (hr : Run Kernel.step OwnersKept boot k) : OwnInv k := by
  have hboot : OwnInv boot := by intro m hl; cases hl
  apply hr.invariant_with (fun _ hb => And.intro (reachable_histInv hb)
    (namedInv_of_run (fun _ _ _ hg => hg.1) hb)) hboot
  intro a l b hi h hs hg
  exact h.step hi.2 hi.1 hg hs

/-- The step at which `kthread_mutex_unlock` clears its mutex. -/
theorem LockStep.of_unlock_event {tid id : Int} (hs : LockStep k l k')
    (hh : k'.hist = .unlock tid id :: k.hist) :
    ∃ c o m, k.findMutex id = some m ∧ (k.mutex m).state = .MLOCKED ∧
      (k.mutex m).mythread = some o ∧ (k.thread o).tid = (k.thread c).tid ∧
      tid = (k.thread c).tid := by
  cases hs with
  | quiet hq =>
    obtain ⟨es, hes, he⟩ := hq.hist
    have hes' : es = [.unlock tid id] := List.append_cancel_right (hes.symm.trans (hh.trans rfl))
    have := he (.unlock tid id) (by rw [hes']; simp)
    cases this
  | take => rw [takeEntry_hist] at hh; cases hh
  | @unlock c o mid m ha hm hl ho htid =>
    rw [clearEntry_hist] at hh
    cases hh
    exact ⟨c, o, m, hm, hl, ho, htid, rfl⟩
  | _ => exact absurd hh.symm (List.cons_ne_self _ _)

/-- **Only the thread that locked a mutex unlocks it**, in every run in which
moreover no thread that owns a locked mutex is removed; and the owner of a
locked mutex is always a thread that locked it. -/
theorem kthread_mutex_unlock_by_locker (hr : Run Kernel.step OwnersKept boot k)
    (hs : k.step l = some k') (hg : OwnersKept k l k') :
    (∀ tid id, k'.hist = .unlock tid id :: k.hist → holds tid id k.hist) ∧
    ∀ m r, (k'.mutex m).state = .MLOCKED → (k'.mutex m).mythread = some r →
      holds (k'.thread r).tid (k'.mutex m).mid k'.hist := by
  have hi := reachable_histInv hr
  have h := ownInv_of_run hr
  have hn := namedInv_of_run (fun _ _ _ hg => hg.1) hr
  constructor
  · intro tid id hh
    obtain ⟨c, o, m, hm, hl, ho, htid, rfl⟩ :=
      (Kernel.lockStep hi.toInv (turn_of_step hs)).of_unlock_event hh
    obtain ⟨_, r, ho', _, hh'⟩ := h m hl
    cases ho.symm.trans ho'
    rw [findMutex_some hm, htid] at hh'
    exact hh'
  · intro m r hl ho
    obtain ⟨_, r', ho', _, hh⟩ := h.step hn hi hg hs m hl
    cases ho.symm.trans ho'
    exact hh

/-- Thread 1 locks mutex 1 and is about to unlock it. -/
def lockedOnce : List Label :=
  [.dispatch (0, 0)] ++ Label.calls (0, 0) .mutexAlloc ++ Label.calls (0, 0) (.mutexLock 1) ++
    [.syscall (0, 0) (.mutexUnlock 1)]

theorem ownersKept_of_placid (hg : placid k l) : OwnersKept k l k' := by
  refine ⟨waitersKept_of_placid hg, ?_⟩
  simp only [placid, Bool.and_eq_true, List.isEmpty_iff] at hg
  intro t ht
  rw [hg.1.1] at ht
  cases ht

theorem lockedOnce_run : Run Kernel.step OwnersKept boot (after lockedOnce) :=
  run_final ownersKept_of_placid

theorem kthread_mutex_unlock_by_locker_once : holds 1 1 (after lockedOnce).hist := by
  have hs := step_next Kernel.step (after lockedOnce) (.run (0, 0) none true) (by decide +kernel)
  have hg : OwnersKept (after lockedOnce) (.run (0, 0) none true)
      (next Kernel.step (after lockedOnce) (.run (0, 0) none true)) :=
    ownersKept_of_placid (by decide +kernel)
  exact (kthread_mutex_unlock_by_locker lockedOnce_run hs hg).1 1 1 (by decide +kernel)

/-- Thread 2 locks mutex 1 and exits, thread 1 joins it and creates thread 3,
which gets the record of thread 2. -/
def inheritedMutex : List Label :=
  [.dispatch (0, 0)] ++ Label.calls (0, 0) .kthreadCreate ++ Label.calls (0, 0) .mutexAlloc ++
    [.dispatch (0, 1)] ++ Label.calls (0, 1) (.mutexLock 1) ++
    [.syscall (0, 1) .kthreadExit, .run (0, 1) none true] ++
    Label.calls (0, 0) (.kthreadJoin 2) ++ Label.calls (0, 0) .kthreadCreate ++
    [.dispatch (0, 1), .syscall (0, 1) (.mutexUnlock 1)]

/-- The unlock of thread 3 returns 0 although thread 3 never locked the mutex. -/
theorem kthread_mutex_unlock_by_heir : ∃ k l k', Run Kernel.step free boot k ∧
    k.step l = some k' ∧ k'.hist = .unlock 3 1 :: k.hist ∧ holds 3 1 k.hist = false :=
  ⟨after inheritedMutex, .run (0, 1) none true, _,
    run_free, step_next _ _ _ (by decide +kernel), by decide +kernel⟩

end Xv6.Kernel
