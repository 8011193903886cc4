import Xv6.Kernel.Lifetime

/-! Who holds which mutex, read off the history, and what a step does to the
mutex table: four steps lock, wait, unlock and wake; every other step is quiet
(`lockStep`), it can only allocate a free entry or free an unlocked one. -/

namespace Xv6

/-- Thread `tid` has a `kthread_mutex_lock(mid)` that returned 0 and no
`kthread_mutex_unlock(mid)` since. The history has its latest event first. -/
def holds (tid mid : Int) : List Event → Bool
  | [] => false
  | .lock t i _ :: h => if t = tid ∧ i = mid then true else holds tid mid h
  | .unlock t i :: h => if t = tid ∧ i = mid then false else holds tid mid h
  | _ :: h => holds tid mid h

def Event.locking : Event → Bool
  | .lock .. | .unlock .. => true
  | _ => false

theorem holds_append {tid mid : Int} {es h : List Event} (hes : ∀ e ∈ es, e.locking = false) :
    holds tid mid (es ++ h) = holds tid mid h := by
  induction es with
  | nil => rfl
  | cons e es ih =>
    have he := hes e (List.mem_cons_self ..)
    have hrest := ih fun e' he' => hes e' (List.mem_cons_of_mem _ he')
    cases e with
    | lock | unlock => cases he
    | alloc | dealloc | reclaim | reaped => exact hrest

theorem lock_of_holds {tid mid : Int} {h : List Event} (hh : holds tid mid h) :
    ∃ m, .lock tid mid m ∈ h := by
  induction h with
  | nil => cases hh
  | cons e h ih =>
    have hrest : holds tid mid h → ∃ m, Event.lock tid mid m ∈ e :: h :=
      fun hh => (ih hh).imp fun _ => List.mem_cons_of_mem _
    cases e with
    | lock t i m =>
      simp only [holds] at hh
      split at hh
      · rename_i e; obtain ⟨rfl, rfl⟩ := e; exact ⟨m, List.mem_cons_self ..⟩
      · exact hrest hh
    | unlock t i =>
      simp only [holds] at hh
      split at hh
      · cases hh
      · exact hrest hh
    | alloc | dealloc | reclaim | reaped => exact hrest hh

/-- Inside `kthread_mutex_lock` or `kthread_mutex_unlock`. -/
def Context.locking : Context → Bool
  | .lockLoop _ _ | .unlockWake _ => true
  | _ => false

theorem Context.not_locking_of_plain {x : Context} (h : x.plain) : x.locking = false := by
  cases x <;> simp_all [Context.locking, Context.plain]

theorem Context.not_locking_of_elsewhere {x : Context} (h : x.elsewhere) : x.locking = false := by
  cases x <;> simp_all [Context.locking, Context.elsewhere]

/-- A change of a thread record that does not touch its use of mutexes. -/
structure Thread.Undisturbed (t t' : Thread) : Prop where
  context : t'.Alive → t'.context.locking → t.Alive ∧ t.context = t'.context
  asleep : t'.state = .TSLEEPING → t'.context.locking → t.state = .TSLEEPING ∧ t'.chan = t.chan
  awake : t.Alive → t.state ≠ .TSLEEPING → t.context.locking →
    t'.Alive ∧ t'.state ≠ .TSLEEPING ∧ t'.context = t.context

namespace Thread.Undisturbed

variable {t t' : Thread}

/-- Neither before nor after the step is the thread about to go on in a mutex
operation. -/
theorem outside (h : t.Alive → t.state ≠ .TSLEEPING → t.context.locking = false)
    (h' : t'.Alive → t'.context.locking = false) : Undisturbed t t' where
  context ha hx := by rw [h' ha] at hx; cases hx
  asleep hs hx := by rw [h' (by simp [Alive, hs])] at hx; cases hx
  awake ha hs hx := by rw [h ha hs] at hx; cases hx

theorem refl (t : Thread) : Undisturbed t t :=
  ⟨fun ha _ => ⟨ha, rfl⟩, fun hs _ => ⟨hs, rfl⟩, fun ha hs _ => ⟨ha, hs, rfl⟩⟩

theorem asleep_of_calm (h : t.Calm t') (hs : t'.state = .TSLEEPING) (hx : t'.context.locking) :
    t.state = .TSLEEPING ∧ t'.chan = t.chan := by
  rcases h.asleep hs with e | hp | he
  · exact e
  · rw [Context.not_locking_of_plain hp] at hx; cases hx
  · rw [Context.not_locking_of_elsewhere he] at hx; cases hx

theorem of_calm (h : t.Calm t') : Undisturbed t t' where
  context ha hx := by
    refine ⟨h.alive.1 ha, ?_⟩
    rcases h.context with e | ⟨_, hp, _⟩
    · exact e.symm
    · rw [Context.not_locking_of_plain hp] at hx; cases hx
  asleep := asleep_of_calm h
  awake ha hs hx := by
    have hc : t'.context = t.context := by
      rcases h.context with e | ⟨_, _, hp | hp⟩
      · exact e
      · rw [Context.not_locking_of_plain hp] at hx; cases hx
      · rw [hp] at hx; cases hx
    refine ⟨h.alive.2 ha, ?_, hc⟩
    intro hs'
    exact hs (asleep_of_calm h hs' (hc ▸ hx)).1

end Thread.Undisturbed

namespace Kernel

open Runs

variable {k k' : Kernel} {l : Label} {c r t : ThreadRef} {m n : MutexIx} {tid mid : Int}

/-! ## The four steps on a mutex -/

@[simp] theorem takeEntry_mutex : (k.takeEntry c m mid).mutex n =
    if n = m then { k.mutex n with state := .MLOCKED, mythread := some c } else k.mutex n := rfl
@[simp] theorem takeEntry_thread : (k.takeEntry c m mid).thread r =
    if r = c then { k.thread r with context := .ret 0 } else k.thread r := rfl
@[simp] theorem takeEntry_hist : (k.takeEntry c m mid).hist =
    .lock (k.thread c).tid mid m :: k.hist := rfl

@[simp] theorem sleep_mutex (w : Chan) (x : Context) : (k.sleep c w x).mutex = k.mutex := rfl
@[simp] theorem sleep_thread (w : Chan) (x : Context) : (k.sleep c w x).thread r =
    if r = c then { k.thread r with chan := some w, state := .TSLEEPING, context := x }
    else k.thread r := rfl
@[simp] theorem sleep_hist (w : Chan) (x : Context) : (k.sleep c w x).hist = k.hist := rfl

@[simp] theorem clearEntry_mutex : (k.clearEntry c m mid).mutex n =
    if n = m then { k.mutex n with mythread := none, state := .MUNLOCKED } else k.mutex n := rfl
@[simp] theorem clearEntry_thread : (k.clearEntry c m mid).thread r =
    if r = c then { k.thread r with context := .unlockWake m } else k.thread r := rfl
@[simp] theorem clearEntry_hist : (k.clearEntry c m mid).hist =
    .unlock (k.thread c).tid mid :: k.hist := rfl

@[simp] theorem sysret_mutex (v : Int) : (k.sysret c v).mutex = k.mutex := rfl
@[simp] theorem sysret_thread (v : Int) : (k.sysret c v).thread r =
    if r = c then { k.thread r with context := .ret v } else k.thread r := rfl
@[simp] theorem sysret_hist (v : Int) : (k.sysret c v).hist = k.hist := rfl

/-- The id that a step passes to `kthread_mutex_dealloc` as a system call. -/
def deallocates (k : Kernel) : Label → Option Int
  | .run c _ _ =>
    match (k.thread c).context with
    | .call (.mutexDealloc mid) => some mid
    | _ => none
  | _ => none

/-- The step frees the allocated entry `m`. -/
def Frees (k : Kernel) (l : Label) (m : MutexIx) : Prop :=
  (k.mutex m).mid ≠ 0 ∧ (k.mutex m).state ≠ .MLOCKED ∧
    (k.deallocates l = some (k.mutex m).mid ∨ ∃ t ∈ k.removals l, (k.thread t).mutex = some m)

instance (k : Kernel) (l : Label) (m : MutexIx) : Decidable (Frees k l m) := by
  unfold Frees; infer_instance

/-- A step that locks and unlocks nothing. -/
structure Quiet (k : Kernel) (l : Label) (k' : Kernel) : Prop where
  mutex : ∀ n, k'.mutex n = k.mutex n ∨ (Frees k l n ∧ k'.mutex n = (k.mutex n).free) ∨
    ((k.mutex n).mid = 0 ∧ (k'.mutex n).mid = k.nextmid ∧ (k'.mutex n).state = .MUNLOCKED ∧
      ∃ c, Acts k l c (.call .mutexAlloc))
  hist : ∃ es, k'.hist = es ++ k.hist ∧ ∀ e ∈ es, e.locking = false
  thread : ∀ r, (k.thread r).Undisturbed (k'.thread r)

/-- What a step does to the mutex table. -/
inductive LockStep (k : Kernel) (l : Label) : Kernel → Prop
  | quiet {k' : Kernel} (h : Quiet k l k') : LockStep k l k'
  | take {c : ThreadRef} {mid : Int} {m : MutexIx} {x : Context} (ha : Acts k l c x)
      (hx : (x = .call (.mutexLock mid) ∧ k.findMutex mid = some m) ∨ x = .lockLoop m mid)
      (hu : (k.mutex m).state = .MUNLOCKED) : LockStep k l (k.takeEntry c m mid)
  | lockSleep {c : ThreadRef} {mid : Int} {m : MutexIx} {x : Context} (ha : Acts k l c x)
      (hx : (x = .call (.mutexLock mid) ∧ k.findMutex mid = some m) ∨ x = .lockLoop m mid)
      (hl : (k.mutex m).state = .MLOCKED) :
      LockStep k l (k.sleep c (.mutex m) (.lockLoop m mid))
  | unlock {c o : ThreadRef} {mid : Int} {m : MutexIx}
      (ha : Acts k l c (.call (.mutexUnlock mid))) (hm : k.findMutex mid = some m)
      (hl : (k.mutex m).state = .MLOCKED) (ho : (k.mutex m).mythread = some o)
      (htid : (k.thread o).tid = (k.thread c).tid) : LockStep k l (k.clearEntry c m mid)
  | wake {c : ThreadRef} {m : MutexIx} (ha : Acts k l c (.unlockWake m)) :
      LockStep k l ((k.wakeup1 (.mutex m)).sysret c 0)

/-- The threads given to `remove_thread` free only entries their records point at. -/
theorem Swept.quiet_mutex {vs : List ThreadRef} (h : Swept k k' c vs) (hk : MutexInv k)
    (hr : k.removals l = vs) (n : MutexIx) :
    k'.mutex n = k.mutex n ∨ (Frees k l n ∧ k'.mutex n = (k.mutex n).free) := by
  rcases h.mutex_cases n with e | ⟨hl, ht, e⟩
  · exact .inl e
  · by_cases h0 : (k.mutex n).mid = 0
    · exact .inl (e.trans (hk.free_eq h0 hl))
    · exact .inr ⟨⟨h0, hl, .inr (hr ▸ ht)⟩, e⟩

theorem Swept.quiet_hist {vs : List ThreadRef} (h : Swept k k' c vs) :
    ∃ es, k'.hist = es ++ k.hist ∧ ∀ e ∈ es, e.locking = false := by
  obtain ⟨es, hes, he⟩ := h.hist
  refine ⟨es, hes, ?_⟩
  intro e hm
  obtain ⟨_, _, _, rfl, _⟩ := he e hm
  rfl

/-- The running thread goes on, outside the mutex operations. -/
theorem undisturbed_self {x : Thread} (hx : (k.thread c).context.locking = false)
    (hx' : x.context.locking = false) : (k.thread c).Undisturbed x :=
  .outside (fun _ _ => hx) fun _ => hx'

/-- A thread that is removed does not run. -/
theorem undisturbed_removed (h : (k.thread r).Alive → (k.thread r).state = .TSLEEPING) :
    (k.thread r).Undisturbed (k.thread r).remove :=
  .outside (fun ha hs => absurd (h ha) hs) fun ha => absurd rfl ha.1

theorem Removes.quiet {vs : List ThreadRef} (hr : Removes k k' c vs) (h : Inv k)
    (hx : (k.thread c).context.plain) (hv : k.removals l = vs) : Quiet k l k' := by
  have hsw := hr.swept h.mutexes
  obtain ⟨m, v, hc⟩ := hr.caller h.mutexes
  refine ⟨fun n => ?_, ?_, ?_⟩
  · rw [hr.mutex]
    exact (hsw.quiet_mutex h.mutexes hv n).imp_right .inl
  · obtain ⟨es, hes, he⟩ := hsw.quiet_hist
    obtain ⟨es', hes', he'⟩ := hr.hist
    refine ⟨es' ++ es, by rw [hes', hes, List.append_assoc], ?_⟩
    intro e hm
    rcases List.mem_append.1 hm with hm | hm
    · obtain ⟨pid, rfl⟩ := he' e hm
      rfl
    · exact he e hm
  · intro r
    by_cases hm : r ∈ vs
    · rw [hr.gone hm]
      exact undisturbed_removed fun ha => absurd ha (hr.idle r hm)
    · rcases eq_or_ne r c with rfl | e
      · exact undisturbed_self (Context.not_locking_of_plain hx) (by rw [hc]; rfl)
      · rw [hr.other hm e]
        exact .refl _

theorem quiet_teardown (h : Inv k) {a : Caller}
    (hx : (k.thread c).context.locking = false) (hr : k.removals l = k.victims c) :
    Quiet k l (k.killTurn c a) := by
  have hsw := killScan_swept (c := c) h.mutexes
  obtain ⟨f, hf⟩ := killTurn_scan k c a
  refine ⟨?_, ?_, ?_⟩
  · intro n
    rw [hf, setThread_mutex]
    exact (hsw.quiet_mutex h.mutexes hr n).imp_right .inl
  · rw [hf, setThread_hist]; exact hsw.quiet_hist
  · intro r
    by_cases e : r = c
    · subst e
      refine undisturbed_self hx ?_
      rcases killTurn_cases k r a with ⟨_, h⟩ | ⟨_, h⟩ <;> rw [h, setThread_thread, if_pos rfl]
      · rfl
      · cases a <;> rfl
    · rw [killTurn_thread k a e]
      split
      · unfold scanned
        split
        · rename_i hv
          refine undisturbed_removed fun ha => ?_
          simp only [victim, decide_eq_true_eq] at hv
          exact hv.2.resolve_right ha.2
        · split
          · exact ⟨fun ha _ => ⟨ha, rfl⟩, fun hs _ => ⟨hs, rfl⟩, fun ha hs _ => ⟨ha, hs, rfl⟩⟩
          · exact .refl _
      · exact .refl _

/-- Neither a new thread nor its creator is in a mutex operation. -/
theorem Starts.quiet (hs : Starts k k' c t) (hx : (k.thread c).context.plain) : Quiet k l k' := by
  refine ⟨fun n => .inl (by rw [hs.mutex]), ⟨[], hs.hist, by simp⟩, ?_⟩
  intro r
  rcases eq_or_ne r t with rfl | e
  · refine .outside (fun ha => absurd hs.unused ha.1) fun ha => ?_
    rw [hs.context ha.1]
    rfl
  · rcases eq_or_ne r c with rfl | e'
    · obtain ⟨v, hc⟩ := hs.caller
      exact undisturbed_self (Context.not_locking_of_plain hx) (by rw [hc]; rfl)
    · rw [hs.other r e e']; exact .refl _

theorem lockStep (h : Inv k) (he : Turn k l k') : LockStep k l k' := by
  cases he with
  | calm hc =>
    obtain ⟨ht, hs, -⟩ := hc.spec
    exact .quiet ⟨fun n => .inl (by rw [hs.mutex]), ⟨[], hs.hist, by simp⟩,
      fun r => .of_calm (ht r)⟩
  | @dies _ c x ha hx hq hd =>
    have hs := hd.same
    refine .quiet ⟨fun n => .inl (by rw [hs.mutex]), ⟨[], hs.hist, by simp⟩, ?_⟩
    intro r
    by_cases e : r = c
    · subst e
      refine undisturbed_self ?_ (by rw [hd.self]; rfl)
      rw [ha.2.2]; exact Context.not_locking_of_plain (Context.plain_of_ends hx)
    · exact .of_calm (hd.calm e)
  | @alloc c m ha hm =>
    refine .quiet ⟨?_, ⟨[_], rfl, by simp [Event.locking]⟩, ?_⟩
    · intro n
      by_cases e : n = m
      · subst e
        exact .inr (.inr ⟨findMutex_some hm, by simp [allocEntry, sysret],
          by simp [allocEntry, sysret], c, ha⟩)
      · exact .inl (by simp [allocEntry, sysret, e])
    · intro r
      by_cases e : r = c
      · subst e
        exact undisturbed_self (by rw [ha.2.2]; rfl) (by simp [allocEntry, sysret, Context.locking])
      · simpa [allocEntry, sysret, e] using Thread.Undisturbed.refl _
  | @dealloc c mid m ha hm hu =>
    refine .quiet ⟨?_, ⟨[_], rfl, by simp [Event.locking]⟩, ?_⟩
    · intro n
      by_cases e : n = m
      · subst e
        have hfree : (((k.freeEntry c n).log (.dealloc mid)).sysret c 0).mutex n =
            (k.mutex n).free := by simp [freeEntry, sysret]
        have hmid := findMutex_some hm
        by_cases h0 : (k.mutex n).mid = 0
        · exact .inl (hfree.trans (h.mutexes.free_eq h0 hu))
        · refine .inr (.inl ⟨⟨h0, hu, .inl ?_⟩, hfree⟩)
          obtain ⟨⟨page, copied, rfl⟩, _, hctx⟩ := ha
          simp only [deallocates, hctx, hmid]
      · exact .inl (by simp [freeEntry, sysret, e])
    · intro r
      by_cases e : r = c
      · subst e
        exact undisturbed_self (by rw [ha.2.2]; rfl) (by simp [freeEntry, sysret, Context.locking])
      · simpa [freeEntry, sysret, e] using Thread.Undisturbed.refl _
  | take ha hx hq hu => exact .take ha hx hu
  | lockSleep ha hx hq hl => exact .lockSleep ha hx hl
  | unlock ha hm hl ho htid => exact .unlock ha hm hl ho htid
  | wake ha => exact .wake ha
  | create hl ha ht =>
    exact .quiet ((h.create_starts ha.2.1 ht _ _).quiet (by rw [ha.2.2]; rfl))
  | createFail hl ha ht =>
    exact .quiet ((h.createFail_starts ha.2.1 ht _).quiet (by rw [ha.2.2]; rfl))
  | fork hl ha hp => exact .quiet ((h.fork_starts ha.2.1 hp _ _).quiet (by rw [ha.2.2]; rfl))
  | forkFail hl hfail ha hp =>
    exact .quiet ((h.forkFail_starts ha.2.1 hp _).quiet (by rw [ha.2.2]; rfl))
  | join ha hx hn hp ht hr =>
    exact .quiet ((h.join_removes ha.2.1 ht).quiet h (by rw [ha.2.2]; exact hx) hr)
  | scan ha hx hr =>
    refine .quiet (quiet_teardown h ?_ hr)
    rw [ha.2.2]
    rcases hx.teardown with rfl | ⟨hx, _⟩
    · rfl
    · exact Context.not_locking_of_plain hx
  | @exited c ha =>
    obtain ⟨hm, hh, _⟩ := safeExit_same k c
    refine .quiet ⟨fun n => .inl (by rw [hm]), ⟨[], hh, by simp⟩, ?_⟩
    intro r
    by_cases e : r = c
    · subst e
      exact undisturbed_self (by rw [ha.2.2]; rfl) (by rw [safeExit_self ha.2.1]; rfl)
    · exact .of_calm (safeExit_calm e)
  | reap ha hx hp hr =>
    refine .quiet ((h.reap_removes ha.2.1 hp _).quiet h ?_ hr)
    rw [ha.2.2]
    rcases hx with rfl | rfl <;> rfl

end Kernel
end Xv6
