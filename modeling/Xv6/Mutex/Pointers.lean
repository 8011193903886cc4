import Xv6.Kernel.History
import Xv6.Mutex.Holding

/-! The `mutex` field of a thread record: the raw pointer into `mtable` that
`kthread_mutex_alloc` stores, `kthread_mutex_dealloc` clears in the record of
its caller, and `remove_thread` follows. -/

namespace Xv6

/-- Mutex `v` has not been deallocated, neither by a call nor with a thread. -/
def Undealloc (v : Int) (h : List Event) : Prop :=
  .dealloc v ∉ h ∧ ∀ tid pid, .reclaim tid pid v ∉ h

variable {h : List Event} {e : Event}

theorem mem_of_mem_locking {es : List Event} (hes : ∀ e ∈ es, e.locking)
    (he : e.locking = false) (hm : e ∈ es ++ h) : e ∈ h := by
  rcases List.mem_append.1 hm with hm | hm
  · rw [hes e hm] at he; cases he
  · exact hm

variable {v : Int}

theorem Undealloc.cons (hu : Undealloc v h)
    (h1 : e ≠ .dealloc v) (h2 : ∀ tid pid, e ≠ .reclaim tid pid v) : Undealloc v (e :: h) := by
  refine ⟨fun hm => ?_, fun tid pid hm => ?_⟩
  · rcases List.mem_cons.1 hm with e' | hm
    · exact h1 e'.symm
    · exact hu.1 hm
  · rcases List.mem_cons.1 hm with e' | hm
    · exact h2 tid pid e'.symm
    · exact hu.2 tid pid hm

theorem Undealloc.append {es : List Event} (hu : Undealloc v h)
    (hes : ∀ e ∈ es, e.locking) : Undealloc v (es ++ h) :=
  ⟨fun hm => hu.1 (mem_of_mem_locking hes rfl hm),
    fun tid pid hm => hu.2 tid pid (mem_of_mem_locking hes rfl hm)⟩

namespace Kernel

open Runs

variable {k k' k1 : Kernel} {l : Label} {c s t : ThreadRef} {m n : MutexIx}
  {ts : List ThreadRef}

/-- A process in use stays in use and keeps its id. -/
def ProcsKept (k k' : Kernel) : Prop :=
  ∀ p, (k.proc p).state ≠ .PUNUSED →
    (k'.proc p).pid = (k.proc p).pid ∧ (k'.proc p).state ≠ .PUNUSED

theorem ProcsKept.of_eq (h : k'.proc = k.proc) : ProcsKept k k' := by
  intro p hp
  rw [h]
  exact ⟨rfl, hp⟩

/-- What a step does to the `mutex` fields and the ids in `mtable`. -/
inductive PtrStep (k : Kernel) (l : Label) : Kernel → Prop
  | same {k' : Kernel} (ptr : ∀ t, (k'.thread t).mutex = (k.thread t).mutex)
      (mid : ∀ m, (k'.mutex m).mid = (k.mutex m).mid)
      (hist : ∃ es, k'.hist = es ++ k.hist ∧ ∀ e ∈ es, e.locking)
      (procs : ProcsKept k k') (hr : k.removals l = []) : PtrStep k l k'
  | alloc {c : ThreadRef} {m : MutexIx} (ha : Acts k l c (.call .mutexAlloc))
      (hm : k.findMutex 0 = some m) : PtrStep k l (k.allocEntry c m)
  | dealloc {c : ThreadRef} {mid : Int} {m : MutexIx}
      (ha : Acts k l c (.call (.mutexDealloc mid))) (hm : k.findMutex mid = some m)
      (hu : (k.mutex m).state ≠ .MLOCKED) :
      PtrStep k l (((k.freeEntry c m).log (.dealloc mid)).sysret c 0)
  | sweep {c : ThreadRef} {x : Context} {k' : Kernel} (k1 : Kernel) (ha : Acts k l c x)
      (h : Removing c k (k.removals l) k1)
      (ptr : ∀ t, (k'.thread t).mutex = (k1.thread t).mutex) (mutex : k'.mutex = k1.mutex)
      (hist : k'.hist = k1.hist) (proc : k'.proc = k.proc) : PtrStep k l k'
  | reap {c : ThreadRef} {p : ProcIx} {x : Context} {k' : Kernel} (k1 : Kernel) (ha : Acts k l c x)
      (hx : x = .call .wait ∨ x = .waitLoop) (hp : k.zombieChild c.1 = some p)
      (hr : k.removals l = slots p) (h : Removing c k (k.removals l) k1)
      (ptr : ∀ t, (k'.thread t).mutex = (k1.thread t).mutex) (mutex : k'.mutex = k1.mutex)
      (hist : k'.hist = .reaped (k.proc p).pid :: k1.hist)
      (proc : ∀ q, q ≠ p → k'.proc q = k.proc q) (pid : (k'.proc p).pid = 0) : PtrStep k l k'

theorem Starts.ptrStep (hs : Starts k k' c t) (hp : ProcsKept k k') (hr : k.removals l = []) :
    PtrStep k l k' := by
  refine .same ?_ (fun m => by rw [hs.mutex]) ⟨[], hs.hist, by simp⟩ hp hr
  intro s
  rcases eq_or_ne s t with rfl | e
  · exact hs.pointer
  · exact (hs.keep e).2.2.2

theorem Starts.ptrStep_fork {p : ProcIx} (hs : Starts k k' c (p, 0)) (hp : k.freeProc = some p)
    (hr : k.removals l = []) : PtrStep k l k' := by
  apply hs.ptrStep _ hr
  intro q hq
  have hqp : q ≠ p := by rintro rfl; exact hq (freeProc_some hp)
  rw [hs.proc q hqp]
  exact ⟨rfl, hq⟩

theorem ptrStep (h : Inv k) (he : Turn k l k') : PtrStep k l k' := by
  cases he with
  | calm hc =>
    obtain ⟨ht, hs, hr⟩ := hc.spec
    refine .same (fun t => (ht t).mutex) (fun m => by rw [hs.mutex]) ⟨[], hs.hist, by simp⟩ ?_ hr
    intro p hp
    rw [hs.pid, hs.procState]
    exact ⟨rfl, hp⟩
  | @dies _ c x ha hx hq hd =>
    have hs := hd.same
    refine .same ?_ (fun m => by rw [hs.mutex]) ⟨[], hs.hist, by simp⟩ ?_ hq.1
    · intro t
      rcases eq_or_ne t c with rfl | e
      · rw [hd.self]
      · exact (hd.calm e).mutex
    · intro p hp
      rw [hs.pid, hs.procState]
      exact ⟨rfl, hp⟩
  | alloc ha hm => exact .alloc ha hm
  | dealloc ha hm hu => exact .dealloc ha hm hu
  | @take c mid m x ha hx hq hu =>
    refine .same ?_ ?_ ⟨[_], rfl, by simp [Event.locking]⟩ (.of_eq rfl) hq.1
    · intro t; simp only [takeEntry_thread]; split <;> rfl
    · intro n; simp only [takeEntry_mutex]; split <;> rfl
  | @lockSleep c mid m x ha hx hq hl =>
    refine .same ?_ (fun _ => rfl) ⟨[], rfl, by simp⟩ (.of_eq rfl) hq.1
    intro t; simp only [sleep_thread]; split <;> rfl
  | @unlock c o mid m ha hm hl ho htid =>
    refine .same ?_ ?_ ⟨[_], rfl, by simp [Event.locking]⟩ (.of_eq rfl) (removals_of_acts ha rfl)
    · intro t; simp only [clearEntry_thread]; split <;> rfl
    · intro n; simp only [clearEntry_mutex]; split <;> rfl
  | @wake c m ha =>
    refine .same ?_ (fun _ => rfl) ⟨[], rfl, by simp⟩ (.of_eq rfl) (removals_of_acts ha rfl)
    intro t
    have hcalm := (Thread.Calm.wake (k.thread t) (.mutex m)).mutex
    simp only [sysret_thread, wakeup1_thread]
    split <;> exact hcalm
  | create hl ha ht =>
    exact (h.create_starts ha.2.1 ht _ _).ptrStep (.of_eq rfl) (removals_of_acts ha rfl)
  | createFail hl ha ht =>
    exact (h.createFail_starts ha.2.1 ht _).ptrStep (.of_eq rfl) (removals_of_acts ha rfl)
  | fork hl ha hp =>
    exact (h.fork_starts ha.2.1 hp _ _).ptrStep_fork hp (removals_of_acts ha rfl)
  | forkFail hl hfail ha hp =>
    exact (h.forkFail_starts ha.2.1 hp _).ptrStep_fork hp (removals_of_acts ha rfl)
  | @join c t x ha hx hn hp ht hr =>
    have hct : c ≠ t := by rintro rfl; rw [ha.2.1] at ht; cases ht
    refine .sweep (k.removeThread c t) ha ?_ ?_ rfl rfl (by simp [sysret])
    · rw [hr]; exact .remove hct (by simp) (.done _)
    · intro s; simp only [sysret_thread]; split <;> rfl
  | @scan c a x ha hx hr =>
    obtain ⟨f, hf⟩ := killTurn_scan k c a
    refine .sweep (k.killScan c).2 ha (hr ▸ killScan_removing k c) ?_ ?_ ?_ ?_
    · intro s
      rcases killTurn_cases k c a with ⟨_, e⟩ | ⟨_, e⟩ <;> rw [e, setThread_thread] <;> split <;>
        rfl
    · rw [hf, setThread_mutex]
    · rw [hf, setThread_hist]
    · rw [hf, setThread_proc, ((killScan_removing k c).swept h.mutexes).proc]
  | @exited c ha =>
    obtain ⟨hm, hh, _, _, _, hst, hpid⟩ := safeExit_same k c
    refine .same ?_ (fun n => by rw [hm]) ⟨[], hh, by simp⟩ ?_ (removals_of_acts ha rfl)
    · intro t
      rcases eq_or_ne t c with rfl | e
      · rw [safeExit_self ha.2.1]
      · exact (safeExit_calm e).mutex
    · intro p hp
      refine ⟨(hpid p).1, ?_⟩
      rw [hst]
      split
      · decide
      · exact hp
  | @reap c p x ha hx hp hr =>
    have hc := h.not_mem_slots ha.2.1 hp
    have hrem := foldl_removing (k := k) hc (slots_nodup p)
    refine .reap ((slots p).foldl (fun k t => k.removeThread c t) k) ha hx hp hr
      (by rw [hr]; exact hrem) ?_ rfl rfl ?_ ?_
    · intro t; simp only [sysret_thread]; split <;> rfl
    · intro q hq
      simp only [sysret, setThread_proc, Kernel.reap, log_proc, setProc_proc, if_neg hq,
        (hrem.swept h.mutexes).proc]
    · simp [sysret, Kernel.reap]

/-! ## One removal after the other -/

/-- Nobody but the remover loses a pointer. -/
theorem Removing.ptr (h : Removing c k ts k') (hs : s ≠ c) :
    (k'.thread s).mutex = (k.thread s).mutex := by
  induction h with
  | done => rfl
  | mark _ _ ih =>
    rw [ih, setThread_thread]
    split <;> rfl
  | remove _ _ _ ih =>
    rw [ih, removeThread_thread _ _ _ hs]
    split <;> rfl

theorem Removing.mutex_eq (h : Removing c k ts k') (hk : MutexInv k)
    (h0 : (k'.mutex m).mid ≠ 0) : k'.mutex m = k.mutex m := by
  rcases (h.swept hk).mutex_cases m with e | ⟨_, _, e⟩
  · exact e
  · rw [e] at h0; exact absurd rfl h0

/-- The ids in the table have not been deallocated. -/
def Live (k : Kernel) : Prop := ∀ m, (k.mutex m).mid ≠ 0 → Undealloc (k.mutex m).mid k.hist

/-- Deallocating entry `n`, with an event for its id, leaves the other ids alive. -/
theorem Live.free (h : Live k) (hk : MutexInv k)
    (he : ∀ v, v ≠ (k.mutex n).mid → e ≠ .dealloc v ∧ ∀ tid pid, e ≠ .reclaim tid pid v)
    (hm : ∀ i, k'.mutex i = if i = n then (k.mutex i).free else k.mutex i)
    (hh : k'.hist = e :: k.hist) : Live k' := by
  intro i h0
  have hin : i ≠ n := by rintro rfl; rw [hm, if_pos rfl] at h0; exact h0 rfl
  rw [hm, if_neg hin] at h0 ⊢
  rw [hh]
  obtain ⟨h1, h2⟩ := he (k.mutex i).mid fun e => hin (hk.mid_inj i n e h0)
  exact (h i h0).cons h1 h2

theorem Live.removeThread (h : Live k) (hk : MutexInv k) : Live (k.removeThread c t) := by
  rcases removeThread_cases k c t with ⟨e, _⟩ | ⟨m, n, _, hfind, _, e⟩ <;> rw [e]
  · exact h
  · refine h.free (n := n) hk (e := .reclaim (k.thread t).tid (k.proc t.1).pid (k.mutex m).mid)
      ?_ (fun _ => rfl) rfl
    intro v hv
    rw [findMutex_some hfind] at hv
    refine ⟨by simp, fun tid pid e => ?_⟩
    cases e
    exact hv rfl

theorem Removing.live (h : Removing c k ts k') (hk : MutexInv k) (hl : Live k) : Live k' := by
  induction h with
  | done => exact hl
  | mark hc _ ih => exact ih ((Swept.setThread hc _).mutexInv hk) hl
  | remove hc _ _ ih => exact ih ((Swept.removeThread _ hk hc).mutexInv hk) (hl.removeThread hk)

/-! ## Every run -/

/-- What holds of ids in the table and in the history, whatever the threads do. -/
structure TableInv (k : Kernel) : Prop where
  live : Live k
  unique : ∀ tid pid tid' pid' v, .alloc tid pid v ∈ k.hist → .alloc tid' pid' v ∈ k.hist →
    tid = tid' ∧ pid = pid'
  reaped : ∀ pid, .reaped pid ∈ k.hist → ∀ p, (k.proc p).pid ≠ pid

theorem Removing.mem_hist (h : Removing c k ts k') (hk : MutexInv k)
    (he : ∀ tid pid mid, e ≠ .reclaim tid pid mid) : e ∈ k'.hist ↔ e ∈ k.hist := by
  obtain ⟨es, hes, hev⟩ := (h.swept hk).hist
  rw [hes, List.mem_append]
  refine ⟨fun hm => hm.resolve_left fun hm => ?_, .inr⟩
  obtain ⟨tid, pid, mid, e', _⟩ := hev e hm
  exact he tid pid mid e'

variable {pid : Int}

/-- The allocations and reapings of a step. -/
theorem PtrStep.alloc_mem (hs : PtrStep k l k') (hk : MutexInv k) {tid : Int}
    (hm : .alloc tid pid v ∈ k'.hist) : .alloc tid pid v ∈ k.hist ∨
      ∃ c m, Acts k l c (.call .mutexAlloc) ∧ k.findMutex 0 = some m ∧ k' = k.allocEntry c m ∧
        tid = (k.thread c).tid ∧ pid = (k.proc c.1).pid ∧ v = k.nextmid := by
  cases hs with
  | same _ _ hist =>
    obtain ⟨es, hes, he⟩ := hist
    rw [hes] at hm
    exact .inl (mem_of_mem_locking he rfl hm)
  | @alloc c m ha hfree =>
    rcases List.mem_cons.1 hm with e | hm
    · cases e; exact .inr ⟨c, m, ha, hfree, rfl, rfl, rfl, rfl⟩
    · exact .inl hm
  | dealloc =>
    rcases List.mem_cons.1 hm with e | hm
    · cases e
    · exact .inl hm
  | sweep _ _ h _ _ hist =>
    rw [hist, h.mem_hist hk (by simp)] at hm
    exact .inl hm
  | reap _ _ _ _ _ h _ _ hist =>
    rw [hist] at hm
    rcases List.mem_cons.1 hm with e | hm
    · cases e
    · rw [h.mem_hist hk (by simp)] at hm
      exact .inl hm

theorem PtrStep.alloc_old (hs : PtrStep k l k') (hk : MutexInv k) {tid : Int}
    (hm : .alloc tid pid v ∈ k'.hist) (hv : v < k.nextmid) : .alloc tid pid v ∈ k.hist := by
  rcases hs.alloc_mem hk hm with hm | ⟨_, _, _, _, _, _, _, e⟩
  · exact hm
  · exact absurd e (ne_of_lt hv)

theorem PtrStep.reaped_mem (hs : PtrStep k l k') (hk : MutexInv k)
    (hm : .reaped pid ∈ k'.hist) : .reaped pid ∈ k.hist ∨ ∃ p, (k.proc p).state = .PZOMBIE ∧
      pid = (k.proc p).pid ∧ (k'.proc p).pid = 0 ∧ ∀ q, q ≠ p → k'.proc q = k.proc q := by
  cases hs with
  | same _ _ hist =>
    obtain ⟨es, hes, he⟩ := hist
    rw [hes] at hm
    exact .inl (mem_of_mem_locking he rfl hm)
  | alloc | dealloc =>
    rcases List.mem_cons.1 hm with e | hm
    · cases e
    · exact .inl hm
  | sweep _ _ h _ _ hist =>
    rw [hist, h.mem_hist hk (by simp)] at hm
    exact .inl hm
  | @reap c p _ _ _ _ _ hp _ h _ _ hist proc hpid =>
    rw [hist] at hm
    rcases List.mem_cons.1 hm with e | hm
    · cases e; exact .inr ⟨p, (zombieChild_some hp).2, rfl, hpid, proc⟩
    · rw [h.mem_hist hk (by simp)] at hm
      exact .inl hm

theorem Live.step (h : Live k) (hi : HistInv k) (hs : PtrStep k l k') : Live k' := by
  cases hs with
  | same _ mid hist =>
    obtain ⟨es, hes, he⟩ := hist
    intro m h0
    rw [mid] at h0 ⊢
    rw [hes]
    exact (h m h0).append he
  | @alloc c m ha hm =>
    intro n h0
    rcases eq_or_ne n m with rfl | e
    · have hmid : ((k.allocEntry c n).mutex n).mid = k.nextmid := by simp [allocEntry, sysret]
      rw [hmid]
      -- the next id does not occur in the history yet
      have hnew : Undealloc k.nextmid k.hist :=
        ⟨fun hm => lt_irrefl _ (hi.issued _ hm : k.nextmid < k.nextmid),
          fun _ _ hm => lt_irrefl _ (hi.issued _ hm : k.nextmid < k.nextmid)⟩
      exact hnew.cons (by simp) (by simp)
    · have hmut : (k.allocEntry c m).mutex n = k.mutex n := by simp [allocEntry, sysret, e]
      rw [hmut] at h0 ⊢
      exact (h n h0).cons (by simp) (by simp)
  | @dealloc c mid m ha hm hu =>
    refine h.free (n := m) hi.mutexes (e := .dealloc mid) ?_ (fun _ => rfl) rfl
    intro v hv
    rw [findMutex_some hm] at hv
    exact ⟨fun e => hv (Event.dealloc.inj e).symm, by simp⟩
  | sweep _ _ hrem _ mutex hist =>
    intro m
    rw [mutex, hist]
    exact hrem.live hi.mutexes h m
  | reap _ _ _ _ _ hrem _ mutex hist =>
    intro m h0
    rw [mutex] at h0 ⊢
    rw [hist]
    exact (hrem.live hi.mutexes h m h0).cons (by simp) (by simp)

theorem TableInv.step (h : TableInv k) (hi : HistInv k) (hs : k.step l = some k') :
    TableInv k' := by
  have he := turn_of_step hs
  have hptr := ptrStep hi.toInv he
  refine ⟨h.live.step hi hptr, ?_, ?_⟩
  · intro tid pid tid' pid' v hm hm'
    have hold : ∀ tid pid v, .alloc tid pid v ∈ k.hist → v < k.nextmid := by
      intro tid pid v hm
      have : Issued k (.alloc tid pid v) := hi.issued _ hm
      simp only [Issued] at this
      omega
    rcases hptr.alloc_mem hi.mutexes hm with hm | ⟨c, _, ⟨⟨_, _, rfl⟩, _⟩, _, _, rfl, rfl, rfl⟩
    · rcases hptr.alloc_mem hi.mutexes hm' with hm' | ⟨_, _, _, _, _, _, _, rfl⟩
      · exact h.unique tid pid tid' pid' v hm hm'
      · exact absurd (hold _ _ _ hm) (lt_irrefl _)
    · rcases hptr.alloc_mem hi.mutexes hm' with hm' | ⟨c', _, ⟨⟨_, _, e⟩, _⟩, _, _, rfl, rfl, _⟩
      · exact absurd (hold _ _ _ hm') (lt_irrefl _)
      · cases e; exact ⟨rfl, rfl⟩
  · intro pid hm p
    rcases hptr.reaped_mem hi.mutexes hm with hm | ⟨q, hz, rfl, hq, ho⟩
    · have hold := h.reaped pid hm
      have hiss : 0 < pid ∧ pid < k.nextpid := hi.issued _ hm
      -- an id that is issued in this step is a new one
      cases pidStep hi.toInv he with
      | keep hpid => rw [hpid]; exact hold p
      | fork q _ hpid other | reap q _ hpid _ other =>
        rcases eq_or_ne p q with rfl | e
        · rw [hpid]; omega
        · rw [other p e]; exact hold p
    · have hpos := hi.pids.pid_pos (p := q) (by rw [hz]; decide)
      rcases eq_or_ne p q with rfl | e
      · rw [hq]; omega
      · rw [ho p e]
        exact fun e' => e (hi.pids.inj p q e' (by omega))

theorem reachable_tableInv {G : Guard Kernel Label} (hr : Run Kernel.step G boot k) :
    TableInv k := by
  have hboot : TableInv boot := by
    refine ⟨?_, ?_, ?_⟩
    · intro m h; exact absurd rfl h
    · intro _ _ _ _ _ h; cases h
    · intro _ h; cases h
  apply hr.invariant_with (fun _ hb => reachable_histInv hb) hboot
  intro a l b hi h hs _
  exact h.step hi hs

/-! ## Ids of no mutex -/

/-- `id` is the id of a mutex that is allocated now. -/
def Allocated (k : Kernel) (id : Int) : Prop := id ≠ 0 ∧ ∃ m, (k.mutex m).mid = id

/-- The system calls that look a mutex up by its id. -/
def lookups (id : Int) : List Call := [.mutexLock id, .mutexUnlock id, .mutexDealloc id]

theorem findMutex_eq_none {id : Int} (h : ∀ m, (k.mutex m).mid ≠ id) : k.findMutex id = none := by
  cases hf : k.findMutex id with
  | none => rfl
  | some m => exact absurd (findMutex_some hf) (h m)

/-- An id that was never issued, that is negative or that was deallocated is not allocated. -/
theorem TableInv.not_allocated (h : TableInv k) (hk : MutexInv k) {id : Int}
    (hid : id < 0 ∨ k.nextmid ≤ id ∨ ¬Undealloc id k.hist) : ¬k.Allocated id := by
  rintro ⟨h0, m, rfl⟩
  rcases hid with hneg | hlast | hdead
  · exact absurd (hk.mid_nonneg m) (not_le.2 hneg)
  · exact absurd (hk.mid_lt m) (not_lt.2 hlast)
  · exact hdead (h.live m h0)

/-- Each of the calls of `c` returns -1 and changes nothing else, and so does
`kthread_mutex_dealloc` when the kernel itself calls it. -/
def Refused (k : Kernel) (c : ThreadRef) (id : Int) : Prop :=
  k.mutexFree c id = none ∧ ∀ page copied, ∀ op ∈ lookups id,
    k.runContext c page copied (.call op) =
      some (k.setThread c fun t => { t with context := .ret (-1) })

theorem refused_of_none {id : Int} (hf : k.findMutex id = none) : k.Refused c id := by
  have hfree : k.mutexFree c id = none := by rw [mutexFree, hf]
  refine ⟨hfree, fun page copied op hop => ?_⟩
  simp only [lookups, List.mem_cons, List.not_mem_nil, or_false] at hop
  rcases hop with rfl | rfl | rfl
  · simp only [runContext, runCall, kthreadMutexLock, hf, sysret]
  · simp only [runContext, runCall, kthreadMutexUnlock, hf, sysret]
  · simp only [runContext, runCall, kthreadMutexDealloc, hfree, sysret]

/-- An entry that is found can be deallocated, or locked by the caller or by somebody else. -/
theorem MutexInv.not_refused (hk : MutexInv k) {id : Int} (hf : k.findMutex id = some m) :
    ¬k.Refused c id := by
  rintro ⟨hfree, hops⟩
  have hl : (k.mutex m).state = .MLOCKED := by
    by_contra hl
    simp [mutexFree, hf, hl] at hfree
  obtain ⟨o, ho⟩ := hk.locked_owned m hl
  rcases eq_or_ne o c with rfl | hne
  · have hun := congrArg (fun k => (k.thread o).context)
      (Option.some.inj (hops none true (.mutexUnlock id) (by simp [lookups])))
    simp [kthreadMutexUnlock, hf, hl, ho] at hun
  · have hlock := congrArg (fun k => (k.thread c).context)
      (Option.some.inj (hops none true (.mutexLock id) (by simp [lookups])))
    simp [kthreadMutexLock, hf, hl, ho, hne, lockTurn, sleep] at hlock

/-- With an id that is not allocated, the three calls are refused unless the id is 0 and there is
an entry that is not in use. -/
theorem mutex_not_allocated (hr : Run Kernel.step free boot k) (id : Int) :
    ((id < 0 ∨ k.nextmid ≤ id ∨ ¬Undealloc id k.hist) → ¬k.Allocated id) ∧
    (¬k.Allocated id →
      ∀ c, k.Refused c id ↔ id ≠ 0 ∨ ∀ m, (k.mutex m).mid ≠ 0) := by
  have hi := reachable_histInv hr
  refine ⟨(reachable_tableInv hr).not_allocated hi.mutexes, fun hn c => ⟨fun h => ?_, fun h => ?_⟩⟩
  · by_contra hc
    rw [not_or, not_not, not_forall] at hc
    obtain ⟨rfl, m, hm⟩ := hc
    cases hf : k.findMutex 0 with
    | none => exact hm fun h0 => findMutex_none hf m h0
    | some m => exact hi.mutexes.not_refused hf h
  · apply refused_of_none
    refine findMutex_eq_none fun m hm => ?_
    rcases h with h0 | hfull
    · exact hn ⟨h0, m, hm⟩
    · have h0 : id ≠ 0 := hm ▸ hfull m
      exact hn ⟨h0, m, hm⟩

/-- The first thread enters the kernel with a mutex call. -/
def entering (op : Call) : Kernel := after [.dispatch (0, 0), .syscall (0, 0) op]

theorem mutex_not_allocated_negative : (entering (.mutexLock (-1))).Refused (0, 0) (-1) := by
  have h := mutex_not_allocated (k := entering (.mutexLock (-1))) run_free (-1)
  exact (h.2 (h.1 (.inl (by decide))) (0, 0)).2 (.inl (by decide))

/-- A free entry has id 0: `kthread_mutex_lock(0)` locks one and returns 0, and
`kthread_mutex_dealloc(0)` returns 0. -/
theorem mutex_zero :
    Run Kernel.step free boot (entering (.mutexLock 0)) ∧ ¬(entering (.mutexLock 0)).Allocated 0 ∧
    (∃ k', (entering (.mutexLock 0)).step (.run (0, 0) none true) = some k' ∧
      (k'.thread (0, 0)).context = .ret 0 ∧ ((entering (.mutexLock 0)).mutex 0).state = .MUNLOCKED ∧
      (k'.mutex 0).state = .MLOCKED) ∧
    ∃ k', (entering (.mutexDealloc 0)).step (.run (0, 0) none true) = some k' ∧
      (k'.thread (0, 0)).context = .ret 0 := by
  refine ⟨run_free, fun h => h.1 rfl, ⟨_, rfl, ?_, ?_, ?_⟩, ⟨_, rfl, ?_⟩⟩ <;>
    decide +kernel

end Kernel
end Xv6
