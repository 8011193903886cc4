import Xv6.Mutex.Pointers

/-! What `remove_thread` reclaims. First: whether the mutex it deallocates is one
of the thread it removes. Then: whether a process that has been reaped leaves
mutexes behind. Both come down to the single `mutex` pointer per thread record. -/

namespace Xv6

/-- Every mutex deallocated with a thread had been allocated by that thread, and
not deallocated since. -/
def OwnReclaims (h : List Event) : Prop :=
  ∀ h1 tid pid v h2, h = h1 ++ .reclaim tid pid v :: h2 → v ≠ 0 →
    .alloc tid pid v ∈ h2 ∧ Undealloc v h2

theorem OwnReclaims.cons {e : Event} {h : List Event} (hown : OwnReclaims h)
    (he : ∀ tid pid v, e = .reclaim tid pid v → v ≠ 0 → .alloc tid pid v ∈ h ∧ Undealloc v h) :
    OwnReclaims (e :: h) := by
  intro h1 tid pid v h2 heq h0
  cases h1 with
  | nil =>
    obtain ⟨rfl, rfl⟩ := List.cons.inj heq
    exact he tid pid v rfl h0
  | cons _ h1 => exact hown h1 tid pid v h2 (List.cons.inj heq).2 h0

theorem OwnReclaims.append {es h : List Event} (hown : OwnReclaims h)
    (hes : ∀ e ∈ es, e.locking) : OwnReclaims (es ++ h) := by
  induction es with
  | nil => exact hown
  | cons e es ih =>
    refine (ih fun e' he' => hes e' (List.mem_cons_of_mem _ he')).cons ?_
    rintro tid pid v rfl
    cases hes _ (List.mem_cons_self ..)

namespace Kernel

open Runs

variable {k k' : Kernel} {l : Label} {c s t : ThreadRef} {m n : MutexIx} {ts : List ThreadRef}

/-! ## Whose mutex is deallocated -/

/-- The steps that allocate no entry to which another record still points, and
remove no thread whose record points at a locked mutex. -/
def PointersKept : Guard Kernel Label := fun k l _ =>
  (∀ c m, Acts k l c (.call .mutexAlloc) → k.findMutex 0 = some m →
    ∀ t, t ≠ c → (k.thread t).mutex ≠ some m) ∧
  ∀ t ∈ k.removals l, ∀ m, (k.thread t).mutex = some m → (k.mutex m).mid ≠ 0 →
    (k.mutex m).state ≠ .MLOCKED

/-- A record that points at an allocated entry belongs to the thread that
allocated it. -/
def PtrInv (k : Kernel) : Prop :=
  ∀ t m, (k.thread t).mutex = some m → (k.mutex m).mid ≠ 0 →
    Seated k t ∧ .alloc (k.thread t).tid (k.proc t.1).pid (k.mutex m).mid ∈ k.hist

theorem Removing.own (h : Removing c k ts k') (hk : MutexInv k) (hl : Live k)
    (hown : OwnReclaims k.hist)
    (hptr : ∀ t ∈ ts, ∀ m, (k.thread t).mutex = some m → (k.mutex m).mid ≠ 0 →
      .alloc (k.thread t).tid (k.proc t.1).pid (k.mutex m).mid ∈ k.hist) : OwnReclaims k'.hist := by
  induction h with
  | done => exact hown
  | @mark k k' t ts hc h ih =>
    refine ih ((Swept.setThread hc _).mutexInv hk) hl hown ?_
    intro s hs m
    have hsame : ∀ x : Thread, ({ x with killed := true } : Thread).mutex = x.mutex ∧
        ({ x with killed := true } : Thread).tid = x.tid := fun _ => ⟨rfl, rfl⟩
    have hth : ((k.setThread t fun x => { x with killed := true }).thread s).mutex =
        (k.thread s).mutex ∧ ((k.setThread t fun x => { x with killed := true }).thread s).tid =
        (k.thread s).tid := by
      simp only [setThread_thread]
      split
      · exact hsame _
      · exact ⟨rfl, rfl⟩
    rw [hth.1, hth.2]
    exact hptr s hs m
  | @remove k k' t ts hc ht h ih =>
    have hsw := Swept.removeThread t hk hc
    refine ih (hsw.mutexInv hk) (hl.removeThread hk) ?_ ?_
    · rcases removeThread_cases k c t with ⟨e, _⟩ | ⟨m, n, hm, hfind, _, e⟩ <;> rw [e]
      · exact hown
      · refine hown.cons ?_
        rintro tid pid v e h0
        cases e
        exact ⟨hptr t (List.mem_cons_self ..) m hm h0, hl m h0⟩
    · intro s hs m hm h0
      have hth : (k.removeThread c t).thread s = k.thread s := by
        rw [removeThread_thread _ _ _ (h.ne_of_mem s hs), if_neg (by rintro rfl; exact ht hs)]
      have hmut : (k.removeThread c t).mutex m = k.mutex m := by
        rcases hsw.mutex_cases m with e | ⟨_, _, e⟩
        · exact e
        · rw [e] at h0; exact absurd rfl h0
      obtain ⟨es, hes, _⟩ := hsw.hist
      rw [hth] at hm ⊢
      rw [hmut] at h0 ⊢
      rw [(removeThread_frame _ _).1, hes]
      exact List.mem_append_right _ (hptr s (List.mem_cons_of_mem _ hs) m hm h0)

/-- A pointer to an allocated entry was there before the step, and its record
is not removed, or it is stored by the allocation. -/
theorem PtrStep.back (hs : PtrStep k l k') (hi : Inv k) (hg : PointersKept k l k')
    (hm : (k'.thread t).mutex = some m) (h0 : (k'.mutex m).mid ≠ 0) :
    ((k.thread t).mutex = some m ∧ (k'.mutex m).mid = (k.mutex m).mid ∧ t ∉ k.removals l) ∨
    (Acts k l t (.call .mutexAlloc) ∧ k' = k.allocEntry t m) := by
  -- a record that is removed points at an entry that is freed
  have hkept : ∀ {c k1}, Removing c k (k.removals l) k1 → (k1.thread t).mutex = some m →
      (k1.mutex m).mid ≠ 0 →
      (k.thread t).mutex = some m ∧ (k1.mutex m).mid = (k.mutex m).mid ∧ t ∉ k.removals l := by
    intro c k1 hrem hm h0
    have hsw := hrem.swept hi.mutexes
    have hmid : (k1.mutex m).mid = (k.mutex m).mid := by rw [hrem.mutex_eq hi.mutexes h0]
    have hptr : (k.thread t).mutex = some m := by
      rcases eq_or_ne t c with rfl | e
      · rcases hsw.caller with e | e <;> rw [e] at hm
        · exact hm
        · cases hm
      · rw [← hrem.ptr e]; exact hm
    refine ⟨hptr, hmid, fun hmem => ?_⟩
    have hu := hg.2 t hmem m hptr (hmid ▸ h0)
    rw [hsw.freed m hu t hmem hptr] at h0
    exact h0 rfl
  cases hs with
  | same ptr mid _ _ hr =>
    rw [ptr] at hm
    exact .inl ⟨hm, mid m, by rw [hr]; exact List.not_mem_nil⟩
  | @alloc c n ha hfree =>
    rcases eq_or_ne t c with rfl | e
    · have : some n = some m := by simpa [allocEntry, sysret] using hm
      cases this
      exact .inr ⟨ha, rfl⟩
    · have hm' : (k.thread t).mutex = some m := by simpa [allocEntry, sysret, e] using hm
      have hmn : m ≠ n := by rintro rfl; exact hg.1 c m ha hfree t e hm'
      refine .inl ⟨hm', by simp [allocEntry, sysret, hmn], ?_⟩
      rw [removals_of_acts ha rfl]
      exact List.not_mem_nil
  | @dealloc c mid n ha hfind hu =>
    have htc : t ≠ c := by
      rintro rfl
      simp [freeEntry, sysret] at hm
    have hm' : (k.thread t).mutex = some m := by simpa [freeEntry, sysret, htc] using hm
    have hmn : m ≠ n := by
      rintro rfl
      refine h0 ?_
      simp [freeEntry, sysret, Mutex.free]
    refine .inl ⟨hm', by simp [freeEntry, sysret, hmn], ?_⟩
    rw [removals_of_acts ha rfl]
    exact List.not_mem_nil
  | sweep k1 _ hrem ptr mutex _ _ | reap k1 _ _ _ _ hrem ptr mutex _ _ _ =>
    rw [ptr] at hm
    rw [mutex] at h0 ⊢
    exact .inl (hkept hrem hm h0)

theorem Seated.in_use (hs : Seated k t) (hi : Inv k) : (k.proc t.1).state ≠ .PUNUSED := by
  rcases hs with h | h
  · rw [hi.used t h]; decide
  · rw [h]; decide

theorem Seated.pid (hs : Seated k t) (hs' : Seated k' t) (hi : Inv k) (hi' : Inv k')
    (hp : PidStep k k') : (k'.proc t.1).pid = (k.proc t.1).pid := by
  cases hp with
  | keep pid => exact pid t.1
  | fork p unused _ other =>
    rw [other t.1 (by rintro e; exact hs.in_use hi (e ▸ unused))]
  | reap p _ _ unused other =>
    rw [other t.1 (by rintro e; exact hs'.in_use hi' (e ▸ unused))]

theorem PtrInv.step (h : PtrInv k) (hi : HistInv k) (hg : PointersKept k l k')
    (hs : k.step l = some k') : PtrInv k' := by
  have he := turn_of_step hs
  have hi' := hi.step hs
  obtain ⟨⟨es, hes, _⟩, _⟩ := histStep hi.toInv hi.pids he
  intro t m hm h0
  rcases (ptrStep hi.toInv he).back hi.toInv hg hm h0 with ⟨hm, hmid, hr⟩ | ⟨ha, rfl⟩
  · rw [hmid] at h0 ⊢
    obtain ⟨hseat, halloc⟩ := h t m hm h0
    obtain ⟨htid, hseat'⟩ := (fate hi.toInv he t).seated hseat hr
    rw [htid, hseat.pid hseat' hi.toInv hi'.toInv (pidStep hi.toInv he), hes]
    exact ⟨hseat', List.mem_append_right _ halloc⟩
  · refine ⟨.inl (by simp [allocEntry, sysret, ha.2.1]), ?_⟩
    simp [allocEntry, sysret]

theorem ownReclaims_step (h : PtrInv k) (hi : HistInv k) (ht : TableInv k)
    (hown : OwnReclaims k.hist) (hs : PtrStep k l k') : OwnReclaims k'.hist := by
  have hptr : ∀ t ∈ k.removals l, ∀ m, (k.thread t).mutex = some m → (k.mutex m).mid ≠ 0 →
      .alloc (k.thread t).tid (k.proc t.1).pid (k.mutex m).mid ∈ k.hist :=
    fun t _ m hm h0 => (h t m hm h0).2
  cases hs with
  | same _ _ hist =>
    obtain ⟨es, hes, hev⟩ := hist
    rw [hes]
    exact hown.append hev
  | alloc | dealloc => exact hown.cons (by simp)
  | sweep k1 _ hrem _ _ hist =>
    rw [hist]
    exact hrem.own hi.mutexes ht.live hown hptr
  | reap k1 _ _ _ _ hrem _ _ hist =>
    rw [hist]
    exact (hrem.own hi.mutexes ht.live hown hptr).cons (by simp)

/-- **`remove_thread` deallocates mutexes of the thread it removes only**, in every
run in which no entry is allocated while another record points at it and no
thread is removed that points at a locked mutex. -/
theorem remove_thread_reclaims_own (hr : Run Kernel.step PointersKept boot k) :
    ∀ h1 tid pid mid h2, k.hist = h1 ++ .reclaim tid pid mid :: h2 → mid ≠ 0 →
      .alloc tid pid mid ∈ h2 ∧ Undealloc mid h2 ∧
      ∀ tid' pid', .alloc tid' pid' mid ∈ k.hist → tid' = tid ∧ pid' = pid := by
  have hboot : PtrInv boot ∧ OwnReclaims boot.hist := by
    refine ⟨?_, ?_⟩
    · intro t m _ h0; exact absurd rfl h0
    · intro h1 tid pid v h2 heq
      exact absurd heq (by simp [boot])
  have hinv : PtrInv k ∧ OwnReclaims k.hist := by
    apply hr.invariant_with (fun _ hb => And.intro (reachable_histInv hb) (reachable_tableInv hb))
      hboot
    rintro a l b ⟨hi, ht⟩ ⟨hp, hown⟩ hs hg
    exact ⟨hp.step hi hg hs, ownReclaims_step hp hi ht hown (ptrStep hi.toInv (turn_of_step hs))⟩
  intro h1 tid pid mid h2 heq h0
  obtain ⟨halloc, hund⟩ := hinv.2 h1 tid pid mid h2 heq h0
  refine ⟨halloc, hund, ?_⟩
  intro tid' pid' halloc'
  have hmem : .alloc tid pid mid ∈ k.hist := by
    rw [heq]
    exact List.mem_append_right _ (List.mem_cons_of_mem _ halloc)
  exact (reachable_tableInv hr).unique tid' pid' tid pid mid halloc' hmem

/-- Thread 2 allocates a mutex and exits; thread 1 joins it. -/
def joinedAllocator : List Label :=
  [.dispatch (0, 0)] ++ Label.calls (0, 0) .kthreadCreate ++ [.dispatch (0, 1)] ++
    Label.calls (0, 1) .mutexAlloc ++ [.syscall (0, 1) .kthreadExit, .run (0, 1) none true] ++
    Label.calls (0, 0) (.kthreadJoin 2)

/-- No record other than `c` points at entry `m`. -/
def soleHolder (k : Kernel) (c : ThreadRef) (m : MutexIx) : Bool :=
  (List.finRange NPROC).all fun p => (slots p).all fun t => t = c || (k.thread t).mutex != some m

/-- The guard `PointersKept`, tested. -/
def pointersTest (k : Kernel) (l : Label) : Bool :=
  (match l, k.findMutex 0 with
    | .run c _ _, some m => (k.thread c).context != .call .mutexAlloc || k.soleHolder c m
    | _, _ => true) &&
  (k.removals l).all fun t =>
    match (k.thread t).mutex with
    | some m => (k.mutex m).state != .MLOCKED
    | none => true

theorem pointersKept_of_test (hg : pointersTest k l) : PointersKept k l k' := by
  simp only [pointersTest, Bool.and_eq_true, List.all_eq_true] at hg
  obtain ⟨halloc, hrem⟩ := hg
  constructor
  · rintro c m ⟨⟨page, copied, rfl⟩, _, hx⟩ hm t htc htm
    simp only [hm, hx, bne_self_eq_false, Bool.false_or, soleHolder, List.all_eq_true] at halloc
    have h := halloc t.1 (List.mem_finRange _) t (mem_slots.2 rfl)
    simp [htc, htm] at h
  · intro t ht m hm _
    have h := hrem t ht
    simp only [hm] at h
    simpa using h

theorem joinedAllocator_run : Run Kernel.step PointersKept boot (after joinedAllocator) :=
  run_final pointersKept_of_test

theorem remove_thread_reclaims_own_joined :
    (after joinedAllocator).hist = [.reclaim 2 1 1, .alloc 2 1 1] ∧
    Event.alloc 2 1 1 ∈ [Event.alloc 2 1 1] := by
  have hhist : (after joinedAllocator).hist = [.reclaim 2 1 1, .alloc 2 1 1] := by
    decide +kernel
  exact ⟨hhist, (remove_thread_reclaims_own joinedAllocator_run [] 2 1 1 [.alloc 2 1 1] hhist
    (by decide)).1⟩

/-- A thread of process 2 allocates a mutex, exits and is joined: its record
still points at the entry, which process 3 then allocates. When process 2 is
reaped, `remove_thread` follows the pointer. -/
def strayPointer : List Label :=
  [.dispatch (0, 0)] ++ Label.calls (0, 0) .fork ++ Label.calls (0, 0) .fork ++
    [.dispatch (1, 0)] ++ Label.calls (1, 0) .kthreadCreate ++ [.dispatch (1, 1)] ++
    Label.calls (1, 1) .mutexAlloc ++ [.syscall (1, 1) .kthreadExit, .run (1, 1) none true] ++
    Label.calls (1, 0) (.kthreadJoin 4) ++ [.dispatch (2, 0)] ++ Label.calls (2, 0) .mutexAlloc ++
    Label.calls (1, 0) .exit ++ Label.calls (0, 0) .wait

/-- Reaping process 2 deallocates the mutex that thread 3 of process 3 allocated. -/
theorem remove_thread_reclaims_foreign : ∃ k h, Run Kernel.step free boot k ∧
    k.hist = .reaped 2 :: .reclaim 0 2 2 :: h ∧ .alloc 0 2 2 ∉ h ∧ .alloc 3 3 2 ∈ h :=
  ⟨after strayPointer, [.alloc 3 3 2, .reclaim 4 2 1, .alloc 4 2 1],
    run_free, by decide +kernel, by decide, by decide⟩

/-! ## What a reaped process leaves behind -/

/-- The record of `c` is not the only one of its process that points at the
allocated entry it names. -/
def Spare (k : Kernel) (c : ThreadRef) : Prop :=
  ∀ m, (k.thread c).mutex = some m → (k.mutex m).mid ≠ 0 →
    ∃ t, t ≠ c ∧ t.1 = c.1 ∧ (k.thread t).mutex = some m

/-- The removal of `t` can deallocate an entry, which clears the `mutex` field of
the remover. -/
def Reclaimable (k : Kernel) (t : ThreadRef) : Prop :=
  ∃ m, (k.thread t).mutex = some m ∧ ((k.mutex m).mid = 0 ∨ (k.mutex m).state ≠ .MLOCKED)

/-- The steps that overwrite no last pointer to an allocated entry, and reap no
process with a locked mutex of its own. -/
def Accounted : Guard Kernel Label := fun k l _ =>
  (∀ c m, Acts k l c (.call .mutexAlloc) → k.findMutex 0 = some m → Spare k c) ∧
  (∀ c mid m, Acts k l c (.call (.mutexDealloc mid)) → k.findMutex mid = some m →
    (k.mutex m).state ≠ .MLOCKED → Spare k c ∨ (k.thread c).mutex = some m) ∧
  (∀ c x, Acts k l c x → (∃ t ∈ k.removals l, Reclaimable k t) → Spare k c) ∧
  ∀ c p, (Acts k l c (.call .wait) ∨ Acts k l c .waitLoop) → k.zombieChild c.1 = some p →
    ∀ t ∈ slots p, ∀ m, (k.thread t).mutex = some m → (k.mutex m).mid ≠ 0 →
      (k.mutex m).state ≠ .MLOCKED

/-- Every allocated entry is named by a record of the process that allocated it. -/
def BackedInv (k : Kernel) : Prop :=
  ∀ m tid pid, (k.mutex m).mid ≠ 0 → .alloc tid pid (k.mutex m).mid ∈ k.hist →
    ∃ s, (k.thread s).mutex = some m ∧ (k.proc s.1).pid = pid ∧ (k.proc s.1).state ≠ .PUNUSED

/-- If no removal can deallocate an entry, the remover keeps its pointer. -/
theorem Removing.caller_ptr (h : Removing c k ts k') (hk : MutexInv k)
    (hidle : ∀ t ∈ ts, ¬ Reclaimable k t) : (k'.thread c).mutex = (k.thread c).mutex := by
  induction h with
  | done => rfl
  | @mark k k' t ts hc h ih =>
    have hptr : ∀ s, ((k.setThread t fun x => { x with killed := true }).thread s).mutex =
        (k.thread s).mutex := by
      intro s
      simp only [setThread_thread]
      split <;> rfl
    rw [ih ((Swept.setThread hc _).mutexInv hk), hptr]
    intro s hs hrec
    refine hidle s hs ?_
    unfold Reclaimable at hrec ⊢
    rwa [hptr] at hrec
  | @remove k k' t ts hc ht h ih =>
    have hremove : k.removeThread c t = k.setThread t Thread.remove := by
      rcases removeThread_cases k c t with ⟨e, _⟩ | ⟨m, n, hm, hfind, hu, _⟩
      · exact e
      · refine absurd ?_ (hidle t (List.mem_cons_self ..))
        refine ⟨m, hm, ?_⟩
        by_cases h0 : (k.mutex m).mid = 0
        · exact .inl h0
        · rw [hk.findMutex_mid h0] at hfind
          cases hfind
          exact .inr hu
    have hptr : ∀ s, ((k.setThread t Thread.remove).thread s).mutex = (k.thread s).mutex := by
      intro s
      simp only [setThread_thread]
      split <;> rfl
    rw [hremove] at ih
    rw [ih ((Swept.setThread hc _).mutexInv hk), hptr]
    intro s hs hrec
    refine hidle s (List.mem_cons_of_mem _ hs) ?_
    unfold Reclaimable at hrec ⊢
    rwa [hptr] at hrec

/-- The pointers that survive the removals by `c`: every backing record keeps its
pointer, or another record of the same process has it. -/
theorem Removing.backing (h : Removing c k ts k') (hk : MutexInv k)
    (hsp : (∃ t ∈ ts, Reclaimable k t) → Spare k c) (h0 : (k.mutex m).mid ≠ 0)
    (hs : (k.thread s).mutex = some m) : ∃ t, t.1 = s.1 ∧ (k'.thread t).mutex = some m := by
  rcases eq_or_ne s c with rfl | e
  · by_cases hrec : ∃ t ∈ ts, Reclaimable k t
    · obtain ⟨t, htc, htp, htm⟩ := hsp hrec m hs h0
      exact ⟨t, htp, by rw [h.ptr htc]; exact htm⟩
    · refine ⟨s, rfl, ?_⟩
      rw [h.caller_ptr hk fun t ht hr => hrec ⟨t, ht, hr⟩]
      exact hs
  · exact ⟨s, rfl, by rw [h.ptr e]; exact hs⟩

theorem BackedInv.step (h : BackedInv k) (hi : HistInv k) (hg : Accounted k l k')
    (hs : k.step l = some k') : BackedInv k' := by
  obtain ⟨hga, hgd, hgr, hgw⟩ := hg
  have hptr := ptrStep hi.toInv (turn_of_step hs)
  intro m tid pid h0 halloc
  -- the record that backed the entry before, if the entry is not a new one
  have hold : (k'.mutex m).mid = (k.mutex m).mid → (k.mutex m).mid ≠ 0 ∧
      ∃ s, (k.thread s).mutex = some m ∧ (k.proc s.1).pid = pid ∧
        (k.proc s.1).state ≠ .PUNUSED := by
    intro hmid
    rw [hmid] at h0 halloc
    exact ⟨h0, h m tid pid h0 (hptr.alloc_old hi.mutexes halloc (hi.mutexes.mid_lt m))⟩
  cases hptr with
  | same ptr mid _ procs hr =>
    obtain ⟨-, s, hsm, hpid, hst⟩ := hold (mid m)
    obtain ⟨hpid', hst'⟩ := procs s.1 hst
    exact ⟨s, by rw [ptr]; exact hsm, hpid'.trans hpid, hst'⟩
  | @alloc c n ha hfree =>
    rcases eq_or_ne m n with rfl | e
    · have hmid : ((k.allocEntry c m).mutex m).mid = k.nextmid := by simp [allocEntry, sysret]
      rw [hmid] at halloc
      have hpid : (k.proc c.1).pid = pid := by
        rcases List.mem_cons.1 halloc with e | hm
        · exact (Event.alloc.inj e).2.1.symm
        · have : Issued k (.alloc tid pid k.nextmid) := hi.issued _ hm
          simp [Issued] at this
      have hused := hi.used c (by simp [ha.2.1])
      exact ⟨c, by simp [allocEntry, sysret], hpid, by simp [allocEntry, sysret, hused]⟩
    · obtain ⟨h0', s, hsm, hpid, hst⟩ := hold (by simp [allocEntry, sysret, e])
      rcases eq_or_ne s c with rfl | hsc
      · obtain ⟨t, htc, htp, htm⟩ := hga s n ha hfree m hsm h0'
        exact ⟨t, by simpa [allocEntry, sysret, htc] using htm, by rw [htp]; exact hpid,
          by rw [htp]; exact hst⟩
      · exact ⟨s, by simpa [allocEntry, sysret, hsc] using hsm, hpid, hst⟩
  | @dealloc c mid n ha hfind hu =>
    have hmn : m ≠ n := by
      rintro rfl
      refine h0 ?_
      simp [freeEntry, sysret, Mutex.free]
    obtain ⟨h0', s, hsm, hpid, hst⟩ := hold (by simp [freeEntry, sysret, hmn])
    rcases eq_or_ne s c with rfl | hsc
    · rcases hgd s mid n ha hfind hu with hsp | hown
      · obtain ⟨t, htc, htp, htm⟩ := hsp m hsm h0'
        exact ⟨t, by simpa [freeEntry, sysret, htc] using htm, by rw [htp]; exact hpid,
          by rw [htp]; exact hst⟩
      · rw [hown] at hsm
        exact absurd (Option.some.inj hsm).symm hmn
    · exact ⟨s, by simpa [freeEntry, sysret, hsc] using hsm, hpid, hst⟩
  | @sweep c x _ k1 ha hrem ptr mutex hist proc =>
    rw [mutex] at h0 hold
    obtain ⟨h0', s, hsm, hpid, hst⟩ := hold (by rw [hrem.mutex_eq hi.mutexes h0])
    obtain ⟨t, hts, htm⟩ := hrem.backing hi.mutexes (hgr c x ha) h0' hsm
    exact ⟨t, by rw [ptr]; exact htm, by rw [proc, hts]; exact hpid, by rw [proc, hts]; exact hst⟩
  | @reap c p x _ k1 ha hx hp hr hrem ptr mutex hist proc _ =>
    rw [mutex] at h0 hold
    obtain ⟨h0', s, hsm, hpid, hst⟩ := hold (by rw [hrem.mutex_eq hi.mutexes h0])
    -- a record of the reaped process would have had its entry freed
    have hsp : s.1 ≠ p := by
      intro e
      have hslot : s ∈ slots p := mem_slots.2 e
      have hact : Acts k l c (.call .wait) ∨ Acts k l c .waitLoop := by
        rcases hx with rfl | rfl
        · exact .inl ha
        · exact .inr ha
      have hu := hgw c p hact hp s hslot m hsm h0'
      rw [(hrem.swept hi.mutexes).freed m hu s (hr ▸ hslot) hsm] at h0
      exact h0 rfl
    obtain ⟨t, hts, htm⟩ := hrem.backing hi.mutexes (hgr c x ha) h0' hsm
    have htp : t.1 ≠ p := by rw [hts]; exact hsp
    exact ⟨t, by rw [ptr]; exact htm, by rw [proc t.1 htp, hts]; exact hpid,
      by rw [proc t.1 htp, hts]; exact hst⟩

/-- **A reaped process leaves no mutex behind**, in every run in which no last
pointer to an allocated entry is overwritten and no process is reaped with a
locked mutex of its own. -/
theorem wait_leaves_no_mutex (hr : Run Kernel.step Accounted boot k) :
    ∀ pid, .reaped pid ∈ k.hist → ∀ m, (k.mutex m).mid ≠ 0 →
      ∀ tid, .alloc tid pid (k.mutex m).mid ∉ k.hist := by
  have hboot : BackedInv boot := by intro m tid pid h0; exact absurd rfl h0
  have hinv : BackedInv k := by
    apply hr.invariant_with (fun _ hb => reachable_histInv hb) hboot
    intro a l b hi h hs hg
    exact h.step hi hg hs
  intro pid hreaped m h0 tid halloc
  obtain ⟨s, _, hpid, _⟩ := hinv m tid pid h0 halloc
  exact (reachable_tableInv hr).reaped pid hreaped s.1 hpid

/-- Process 2 allocates a mutex and exits; init reaps it. -/
def reapedAllocator : List Label :=
  [.dispatch (0, 0)] ++ Label.calls (0, 0) .fork ++ [.dispatch (1, 0)] ++
    Label.calls (1, 0) .mutexAlloc ++ Label.calls (1, 0) .exit ++ Label.calls (0, 0) .wait

/-- Enough for `Accounted`: the acting thread has no pointer to lose, and the
process that is reaped has no locked mutex. -/
def accountedTest (k : Kernel) (l : Label) : Bool :=
  match l with
  | .run c _ _ =>
    ((k.thread c).mutex.isNone ||
      ((k.thread c).context != .call .mutexAlloc && (k.deallocates l).isNone &&
        (k.removals l).isEmpty)) &&
    match k.zombieChild c.1 with
    | some p => (slots p).all fun t =>
      match (k.thread t).mutex with
      | some m => (k.mutex m).state != .MLOCKED
      | none => true
    | none => true
  | _ => true

theorem spare_of_none (h : (k.thread c).mutex.isNone) : Spare k c := by
  intro m hm
  rw [hm] at h
  cases h

theorem accounted_of_test (hg : accountedTest k l) : Accounted k l k' := by
  refine ⟨?_, ?_, ?_, ?_⟩
  · rintro c m ⟨⟨page, copied, rfl⟩, _, hx⟩ _
    simp only [accountedTest, hx, bne_self_eq_false, Bool.false_and, Bool.or_false,
      Bool.and_eq_true] at hg
    exact spare_of_none hg.1
  · rintro c mid m ⟨⟨page, copied, rfl⟩, _, hx⟩ _ _
    simp only [accountedTest, hx, deallocates, Option.isNone_some, Bool.and_false, Bool.false_and,
      Bool.or_false, Bool.and_eq_true] at hg
    exact .inl (spare_of_none hg.1)
  · rintro c x ⟨⟨page, copied, rfl⟩, _, _⟩ ⟨t, ht, _⟩
    simp only [accountedTest, Bool.and_eq_true, Bool.or_eq_true, List.isEmpty_iff] at hg
    rcases hg.1 with hn | hn
    · exact spare_of_none hn
    · rw [hn.2] at ht; cases ht
  · intro c p hact hp t ht m hm _
    obtain ⟨page, copied, rfl⟩ : ∃ page copied, l = .run c page copied := by
      rcases hact with h | h <;> exact h.1
    simp only [accountedTest, hp, Bool.and_eq_true, List.all_eq_true] at hg
    have h := hg.2 t ht
    simp only [hm] at h
    simpa using h

theorem reapedAllocator_run : Run Kernel.step Accounted boot (after reapedAllocator) :=
  run_final accounted_of_test

theorem wait_leaves_no_mutex_reaped : Event.alloc 2 2 1 ∈ (after reapedAllocator).hist ∧
    ∀ m, ((after reapedAllocator).mutex m).mid ≠ 1 := by
  have halloc : Event.alloc 2 2 1 ∈ (after reapedAllocator).hist := by
    decide +kernel
  have hreaped : Event.reaped 2 ∈ (after reapedAllocator).hist := by decide +kernel
  refine ⟨halloc, fun m hm => ?_⟩
  refine wait_leaves_no_mutex reapedAllocator_run 2 hreaped m (by rw [hm]; decide) 2 ?_
  rw [hm]
  exact halloc

/-- A thread of process 2 allocates two mutexes: its record names the second
one only. -/
def twoMutexes : List Label :=
  [.dispatch (0, 0)] ++ Label.calls (0, 0) .fork ++ [.dispatch (1, 0)] ++
    Label.calls (1, 0) .mutexAlloc ++ Label.calls (1, 0) .mutexAlloc ++ Label.calls (1, 0) .exit ++
    Label.calls (0, 0) .wait

/-- Process 2 has been reaped and its first mutex is still allocated. -/
theorem wait_leaves_a_mutex : ∃ k, Run Kernel.step free boot k ∧ .reaped 2 ∈ k.hist ∧
    (k.mutex 0).mid = 1 ∧ .alloc 2 2 1 ∈ k.hist :=
  ⟨after twoMutexes, run_free, by decide +kernel⟩

end Kernel
end Xv6
