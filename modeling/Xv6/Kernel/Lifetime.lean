import Xv6.Kernel.Invariant

/-! What a step can do to one thread record. A record is seated from the
moment it gets a thread until `remove_thread` is applied to it: the record of
the last thread of a process stays seated while the process is a zombie. -/

namespace Xv6

/-- In the loop of `kill_other_threads`, or past it in `exit` or `exec`. -/
def Context.tearing : Context → Bool
  | .killLoop _ | .safeExit | .execBody => true
  | _ => false

theorem Context.tearing_of_plain {x : Context} (h : x.plain) : x.tearing = false := by
  cases x <;> first | rfl | cases h

namespace Kernel

variable {k k' : Kernel} {l : Label} {c r s t : ThreadRef} {a : Caller} {x : Context}

/-! ## One record in one step -/

/-- What a step is to record `s`. -/
inductive Seen (k : Kernel) (l : Label) (k' : Kernel) (s : ThreadRef) : Prop
  /-- Another thread takes the step and wakes the thread, or leaves it alone. -/
  | woken (h : Woken (k.thread s) (k'.thread s))
  /-- The thread is scheduled, or runs code that is not modelled. -/
  | goes (h : (k.thread s).Goes (k'.thread s))
  | naps {w : Chan} {y : Context} (hrun : (k.thread s).state = .TRUNNING)
      (hx : ∀ a, (k.thread s).context ≠ .killLoop a) (why : Nap k l s w y) (e : k' = k.sleep s w y)
  /-- The thread runs a section of a system call that neither ends it nor puts it to sleep. -/
  | acts {x : Context} (ha : Acts k l s x) (hx : x.tearing = false)
      (tid : (k'.thread s).tid = (k.thread s).tid)
      (killed : (k'.thread s).killed = (k.thread s).killed)
      (state : (k'.thread s).state = .TRUNNING) (context : (k'.thread s).context.tearing = false)
  | scans {a : Caller} {x : Context} (ha : Acts k l s x) (hx : Enters k s a x)
      (e : k' = k.killTurn s a)
  /-- The scan of another thread of the process marks the thread. -/
  | marked {a : Caller} {c : ThreadRef} {x : Context} (ha : Acts k l c x) (hx : Enters k c a x)
      (e : k' = k.killTurn c a) (h : k'.thread s = { k.thread s with killed := true })
  | dies {x : Context} (ha : Acts k l s x) (hx : x.ends) (hd : Dies k l s k')
  | starts {c : ThreadRef} (hs : Starts k k' c s) (hp : (k.proc s.1).state ≠ .PZOMBIE)
      (new : (k'.thread s).state ≠ .TUNUSED → (k.proc s.1).state = .PUNUSED ∨
        ∃ c a copied, l = .run c (some a) copied ∧ Acts k l c (.call .kthreadCreate) ∧
          k.freeSlot c.1 = some s)
  | removed (hm : s ∈ k.removals l) (h : k'.thread s = (k.thread s).remove)
  | exits (ha : Acts k l s .safeExit) (e : k' = k.safeExit s)

theorem Moves.seen (hs : Moves k k' c) (ha : Acts k l c x) (hx : x.tearing = false)
    (hst : (k'.thread c).state = .TRUNNING) (r : ThreadRef) : Seen k l k' r := by
  rcases eq_or_ne r c with rfl | e
  · refine .acts ha hx hs.tid hs.killed hst ?_
    rcases hs.context with h | ⟨m, mid, h⟩ | ⟨m, h⟩
    · exact Context.tearing_of_plain h
    · rw [h]; rfl
    · rw [h]; rfl
  · exact .woken (hs.other r e)

theorem Starts.seen (hs : Starts k k' c t) {y : Call} (ha : Acts k l c (.call y))
    (hp : (k.proc t.1).state ≠ .PZOMBIE)
    (new : (k'.thread t).state ≠ .TUNUSED → (k.proc t.1).state = .PUNUSED ∨
      ∃ c a copied, l = .run c (some a) copied ∧ Acts k l c (.call .kthreadCreate) ∧
        k.freeSlot c.1 = some t) (r : ThreadRef) : Seen k l k' r := by
  rcases eq_or_ne r t with rfl | e
  · exact .starts hs hp new
  · rcases eq_or_ne r c with rfl | e'
    · obtain ⟨v, hc⟩ := hs.caller
      refine .acts ha rfl ?_ ?_ ?_ ?_ <;> rw [hc]
      · exact ha.2.1
      · rfl
    · exact .woken (.of_eq (hs.other r e e'))

theorem Removes.seen {vs : List ThreadRef} (hr : Removes k k' c vs) (h : Inv k)
    (hv : k.removals l = vs) (ha : Acts k l c x) (hx : x.tearing = false) (r : ThreadRef) :
    Seen k l k' r := by
  by_cases hm : r ∈ vs
  · exact .removed (by rw [hv]; exact hm) (hr.gone hm)
  · rcases eq_or_ne r c with rfl | e
    · obtain ⟨m, v, hc⟩ := hr.caller h.mutexes
      refine .acts ha hx ?_ ?_ ?_ ?_ <;> rw [hc]
      · exact ha.2.1
      · rfl
    · exact .woken (.of_eq (hr.other hm e))

theorem killTurn_seen (ha : Acts k l c x) (hx : Enters k c a x)
    (hr : k.removals l = k.victims c) (r : ThreadRef) : Seen k l (k.killTurn c a) r := by
  rcases eq_or_ne r c with rfl | e
  · exact .scans ha hx rfl
  · have hth := killTurn_thread k a e
    split at hth
    · rename_i hrc
      unfold scanned at hth
      split at hth
      · rename_i hv
        refine .removed ?_ hth
        rw [hr]
        exact List.mem_filter.2 ⟨mem_slots.2 hrc, hv⟩
      · split at hth
        · exact .marked ha hx rfl hth
        · exact .woken (.of_eq hth)
    · exact .woken (.of_eq hth)

theorem sleep_seen {w : Chan} {y : Context} (hrun : (k.thread c).state = .TRUNNING)
    (hx : ∀ a, (k.thread c).context ≠ .killLoop a) (why : Nap k l c w y) (r : ThreadRef) :
    Seen k l (k.sleep c w y) r := by
  rcases eq_or_ne r c with rfl | e
  · exact .naps hrun hx why rfl
  · exact .woken (.of_eq (by simp [sleep, e]))

theorem goes_seen {k1 : Kernel} {f : Thread → Thread} (hth : k1.thread = k.thread)
    (hg : (k.thread c).Goes (f (k.thread c))) (r : ThreadRef) :
    Seen k l (k1.setThread c f) r := by
  rcases eq_or_ne r c with rfl | e
  · exact .goes (by rw [setThread_thread, if_pos rfl, hth]; exact hg)
  · exact .woken (.of_eq (by rw [setThread_thread, if_neg e, hth]))

/-- **One record in one step.** -/
theorem seen (h : Inv k) (he : Turn k l k') (r : ThreadRef) : Seen k l k' r := by
  cases he with
  | calm hc =>
    cases hc with
    | goes hl hq hg => exact goes_seen rfl hg r
    | sleeps hl hq hrun hy why =>
      refine sleep_seen hrun ?_ why r
      rintro a e
      rw [e] at hy
      rcases hy with ⟨rfl, hy⟩ | ⟨_, hy⟩ <;> cases hy
    | notify hl => exact .woken (.wake _ .same)
    | @marks c p y hl hq hrun hx hy why =>
      refine goes_seen (f := fun t => { t with context := y }) ?_ (.runs hrun (.inl hx) hy) r
      rfl
  | @dies _ c x ha hx hq hd =>
    rcases eq_or_ne r c with rfl | e
    · exact .dies ha hx hd
    · exact .woken (hd.woken e)
  | alloc ha hm => exact (moves_alloc ha.2.1).seen ha rfl (by simp [allocEntry, sysret, ha.2.1]) r
  | dealloc ha hm hu =>
    exact (moves_dealloc ha.2.1 _).seen ha rfl (by simp [freeEntry, sysret, ha.2.1]) r
  | take ha hx hq hu =>
    refine (moves_take ha.2.1).seen ha ?_ (by simp [takeEntry, sysret, ha.2.1]) r
    rcases hx with ⟨rfl, _⟩ | rfl <;> rfl
  | lockSleep ha hx hq hu =>
    refine sleep_seen ha.2.1 (fun a e => ?_) .lock r
    rw [ha.2.2] at e
    subst e
    rcases hx with ⟨e, _⟩ | e <;> cases e
  | unlock ha hm hu ho htid =>
    exact (moves_unlock ha.2.1).seen ha rfl (by simp [clearEntry, ha.2.1]) r
  | wake ha =>
    exact (moves_wake ha.2.1).seen ha rfl (by simp [sysret, wake_of_running ha.2.1, ha.2.1]) r
  | @create c t a copied hl ha ht =>
    exact (h.create_starts ha.2.1 ht _ _).seen ha (h.freeSlot_fresh ha.2.1 ht).2.2
      (fun _ => .inr ⟨c, a, copied, hl, ha, ht⟩) r
  | createFail hl ha ht =>
    obtain ⟨hne, _, hz⟩ := h.freeSlot_fresh ha.2.1 ht
    refine (h.createFail_starts ha.2.1 ht _).seen ha hz (fun hu => absurd ?_ hu) r
    simp [spoilThread, sysret, hne.symm]
  | fork hl ha hp =>
    exact (h.fork_starts ha.2.1 hp _ _).seen ha (h.freeProc_fresh ha.2.1 hp).2.2
      (fun _ => .inl (freeProc_some hp)) r
  | forkFail hl hfail ha hp =>
    exact (h.forkFail_starts ha.2.1 hp _).seen ha (h.freeProc_fresh ha.2.1 hp).2.2
      (fun _ => .inl (freeProc_some hp)) r
  | join ha hx hn hp ht hr =>
    exact (h.join_removes ha.2.1 ht).seen h hr ha (Context.tearing_of_plain hx) r
  | scan ha hx hr => exact killTurn_seen ha hx hr r
  | @exited c ha =>
    rcases eq_or_ne r c with rfl | e
    · exact .exits ha rfl
    · exact .woken (safeExit_woken e)
  | reap ha hx hp hr =>
    refine (h.reap_removes ha.2.1 hp _).seen h hr ha ?_ r
    rcases hx with rfl | rfl <;> rfl

/-! ## What a step does to the process table -/

inductive Kin (k : Kernel) (l : Label) (k' : Kernel) : Prop
  | same (state : ∀ p, (k'.proc p).state = (k.proc p).state)
      (parent : ∀ p, (k'.proc p).parent = (k.proc p).parent)
      (pid : ∀ p, (k'.proc p).pid = (k.proc p).pid)
      (killed : ∀ p, (k'.proc p).killed = (k.proc p).killed ∨ (k.proc p).state ≠ .PUNUSED ∨
        ∃ c, Acts k l c (.call (.kill (k.proc p).pid)))
      (next : k'.nextpid = k.nextpid)
  | failed {p : ProcIx} (state : ∀ p, (k'.proc p).state = (k.proc p).state)
      (parent : ∀ p, (k'.proc p).parent = (k.proc p).parent)
      (unused : (k.proc p).state = .PUNUSED) (pid : (k'.proc p).pid = k.nextpid)
      (killed : (k'.proc p).killed = (k.proc p).killed) (other : ∀ q, q ≠ p → k'.proc q = k.proc q)
      (next : k'.nextpid = k.nextpid + 1)
  | born {c : ThreadRef} {p : ProcIx} (ha : Acts k l c (.call .fork))
      (unused : (k.proc p).state = .PUNUSED) (state : (k'.proc p).state = .PUSED)
      (parent : (k'.proc p).parent = some c.1) (other : ∀ q, q ≠ p → k'.proc q = k.proc q)
      (thread : (k'.thread (p, 0)).state = .TRUNNABLE) (pid : (k'.proc p).pid = k.nextpid)
      (next : k'.nextpid = k.nextpid + 1)
  | exited {c : ThreadRef} (ha : Acts k l c .safeExit) (eq : k' = k.safeExit c)
  | reaped {c : ThreadRef} {p : ProcIx} {x : Context} (ha : Acts k l c x)
      (hx : x = .call .wait ∨ x = .waitLoop) (zombie : k.zombieChild c.1 = some p)
      (state : (k'.proc p).state = .PUNUSED) (parent : (k'.proc p).parent = none)
      (other : ∀ q, q ≠ p → k'.proc q = k.proc q)
      (ret : (k'.thread c).context = .ret (k.proc p).pid) (pid : (k'.proc p).pid = 0)
      (killed : (k'.proc p).killed = false)
      (gone : ∀ t, t.1 = p → t ∈ k.removals l ∧ k'.thread t = (k.thread t).remove)
      (next : k'.nextpid = k.nextpid)

theorem Kin.of_proc (h : k'.proc = k.proc) (hn : k'.nextpid = k.nextpid) : Kin k l k' :=
  .same (fun p => by rw [h]) (fun p => by rw [h]) (fun p => by rw [h])
    (fun p => .inl (by rw [h])) hn

theorem kin (h : Inv k) (he : Turn k l k') : Kin k l k' := by
  cases he with
  | calm hc =>
    have hs := hc.spec.2.1
    refine .same hs.procState hs.parent hs.pid ?_ hs.nextpid
    intro q
    cases hc with
    | goes | sleeps | notify => exact .inl rfl
    | @marks c p y hl hq hrun hx hy why =>
      simp only [setThread_proc, setProc_proc]
      split
      · rename_i e
        subst e
        refine .inr (why.imp ?_ fun ha => ⟨c, ha⟩)
        -- a running thread belongs to a process in use
        rintro rfl
        rw [h.used c (by simp [hrun])]
        decide
      · exact .inl rfl
  | dies ha hx hq hd => cases hd <;> exact .of_proc rfl rfl
  | alloc | dealloc | take | lockSleep | unlock | wake | create | createFail =>
    exact .of_proc rfl rfl
  | @fork c p a hl ha hp =>
    have hne := h.ne_of_freeProc (i := 0) ha.2.1 hp
    refine .born ha (freeProc_some hp) ?_ ?_ ?_ ?_ ?_ rfl
    · simp [takeProc, startThread, sysret]
    · simp [takeProc, startThread, sysret]
    · intro q hq
      simp [takeProc, startThread, sysret, hq]
    · simp [takeProc, startThread, sysret, hne.symm]
    · simp [takeProc, startThread, sysret]
  | @forkFail c p _ _ hl hfail ha hp =>
    refine .failed (p := p) ?_ ?_ (freeProc_some hp) ?_ ?_ ?_ rfl
    · intro q
      simp only [takeProc, spoilThread, sysret, setThread_proc, setProc_proc]
      split <;> rfl
    · intro q
      simp only [takeProc, spoilThread, sysret, setThread_proc, setProc_proc]
      split <;> rfl
    · simp [takeProc, spoilThread, sysret]
    · simp [takeProc, spoilThread, sysret]
    · intro q hq
      simp [takeProc, spoilThread, sysret, hq]
  | join => exact .of_proc (by simp [sysret]) (by simp [sysret])
  | @scan c a x ha hx hr =>
    have hsw := killScan_swept (c := c) h.mutexes
    obtain ⟨f, hf⟩ := killTurn_scan k c a
    exact .of_proc (by rw [hf]; exact hsw.proc) (by rw [hf]; exact hsw.nextpid)
  | exited ha => exact .exited ha rfl
  | @reap c p x ha hx hp hr =>
    have hsw := h.swept_reap ha.2.1 hp
    refine .reaped ha hx hp ?_ ?_ ?_ ?_ ?_ ?_ ?_ hsw.nextpid
    · simp [reap, sysret]
    · simp [reap, sysret]
    · intro q hq
      simp only [sysret, setThread_proc, reap, log_proc, setProc_proc, if_neg hq, hsw.proc]
    · simp [sysret]
    · simp [reap, sysret]
    · simp [reap, sysret]
    · intro t ht
      have hm := mem_slots.2 ht
      exact ⟨by rw [hr]; exact hm, (h.reap_removes ha.2.1 hp _).gone hm⟩

/-- A zombie process stays one until its records are removed. -/
theorem zombie_or_removed (h : Inv k) (he : Turn k l k') (r : ThreadRef) :
    ((k.proc r.1).state = .PZOMBIE → (k'.proc r.1).state = .PZOMBIE) ∨ r ∈ k.removals l ∧
      k'.thread r = (k.thread r).remove := by
  cases kin h he with
  | same state | failed state => exact .inl (by rw [state]; exact id)
  | born ha unused state parent other =>
    refine .inl fun hz => ?_
    rw [other _ (by rintro rfl; rw [unused] at hz; cases hz)]
    exact hz
  | @exited c ha e =>
    obtain ⟨_, _, _, _, _, hst, _⟩ := safeExit_same k c
    refine .inl fun hz => ?_
    rw [e, hst, hz, ite_self]
  | @reaped c p x ha hx zombie state parent other ret pid killed gone =>
    rcases eq_or_ne r.1 p with e | e
    · exact .inr (gone r e)
    · exact .inl (by rw [other _ e]; exact id)

/-- The caller of a scan is alive after it and is not asleep. -/
theorem killTurn_caller (h : Inv k) (hrun : (k.thread c).state = .TRUNNING) :
    ((k.killTurn c a).thread c).tid = (k.thread c).tid ∧
    ((k.killTurn c a).thread c).killed = (k.thread c).killed ∧
    (((k.killTurn c a).thread c).state = .TRUNNABLE ∨
      ((k.killTurn c a).thread c).state = .TRUNNING) := by
  have hc := (killScan_swept (c := c) h.mutexes).caller
  rcases killTurn_cases k c a with ⟨_, e⟩ | ⟨_, e⟩ <;> rw [e, setThread_thread, if_pos rfl]
  · rcases hc with hc | hc <;> simp [hc]
  · rcases hc with hc | hc <;> simp [hc, hrun]

theorem killTurn_alive (h : Inv k) (hrun : (k.thread c).state = .TRUNNING) :
    ((k.killTurn c a).thread c).Alive := by
  rcases (killTurn_caller (a := a) h hrun).2.2 with e | e <;> simp [Thread.Alive, e]

/-! ## The fate of a record -/

/-- Record `r` cannot be given to a new thread. -/
def Seated (k : Kernel) (r : ThreadRef) : Prop :=
  (k.thread r).state ≠ .TUNUSED ∨ (k.proc r.1).state = .PZOMBIE

/-- What happens to record `r` in a step. -/
inductive Fate (k : Kernel) (l : Label) (k' : Kernel) (r : ThreadRef) : Prop
  | stays (tid : (k'.thread r).tid = (k.thread r).tid)
      (unused : (k'.thread r).state = .TUNUSED ↔ (k.thread r).state = .TUNUSED)
      (zombie : (k.thread r).state = .TZOMBIE → (k'.thread r).state = .TZOMBIE)
      (ends : (k'.thread r).state = .TZOMBIE →
        (k.thread r).state = .TZOMBIE ∨ ∃ x, Acts k l r x ∧ x.ends)
      (proc : (k.proc r.1).state = .PZOMBIE → (k'.proc r.1).state = .PZOMBIE)
  | starts (unused : (k.thread r).state = .TUNUSED) (proc : (k.proc r.1).state ≠ .PZOMBIE)
      (tid : (k'.thread r).tid = k.nexttid)
      (context : (k'.thread r).state ≠ .TUNUSED → (k'.thread r).context = .user)
  | removed (mem : r ∈ k.removals l) (tid : (k'.thread r).tid = 0)
      (unused : (k'.thread r).state = .TUNUSED)
  | exits (acts : Acts k l r .safeExit) (tid : (k'.thread r).tid = (k.thread r).tid)
      (unused : (k'.thread r).state = .TUNUSED) (proc : (k'.proc r.1).state = .PZOMBIE)

theorem Fate.calm (ht : (k.thread r).Calm (k'.thread r))
    (hp : (k.proc r.1).state = .PZOMBIE → (k'.proc r.1).state = .PZOMBIE) : Fate k l k' r :=
  .stays ht.tid ht.unused ht.zombie.2 (fun h => .inl (ht.zombie.1 h)) hp

theorem Fate.self (hrun : (k.thread c).state = .TRUNNING)
    (htid : (k'.thread c).tid = (k.thread c).tid) (ha : (k'.thread c).Alive)
    (hp : (k.proc c.1).state = .PZOMBIE → (k'.proc c.1).state = .PZOMBIE) : Fate k l k' c :=
  .stays htid (by simp [hrun, ha.1]) (by simp [hrun]) (fun h => absurd h ha.2) hp

/-- **The fate of a thread record.** -/
theorem fate (h : Inv k) (he : Turn k l k') (r : ThreadRef) : Fate k l k' r := by
  rcases zombie_or_removed h he r with hp | ⟨hm, e⟩
  swap
  · exact .removed hm (by rw [e]; rfl) (by rw [e]; rfl)
  cases seen h he r with
  | woken h => exact .calm h.calm hp
  | goes h => exact .calm h.calm hp
  | naps hrun hx why e =>
    exact .self hrun (by simp [e, sleep]) (by simp [e, sleep, Thread.Alive]) hp
  | acts ha hx tid killed state => exact .self ha.2.1 tid (by simp [Thread.Alive, state]) hp
  | scans ha hx e =>
    subst e
    exact .self ha.2.1 (killTurn_caller h ha.2.1).1 (killTurn_alive h ha.2.1) hp
  | marked ha hx e ht => refine .stays ?_ ?_ ?_ ?_ hp <;> simp +contextual [ht]
  | dies ha hx hd =>
    have hc := hd.self
    exact .stays (by rw [hc]) (by simp [hc, ha.2.1]) (by simp [hc]) (fun _ => .inr ⟨_, ha, hx⟩) hp
  | starts hs hz => exact .starts hs.unused hz hs.tid hs.context
  | removed hm e => exact .removed hm (by rw [e]; rfl) (by rw [e]; rfl)
  | exits ha e =>
    obtain ⟨_, _, _, _, _, hst, _⟩ := safeExit_same k r
    have hself := safeExit_self ha.2.1
    subst e
    exact .exits ha (by rw [hself]) (by rw [hself]) (by rw [hst, if_pos rfl])

/-- A seated record keeps its thread unless it is removed. -/
theorem Fate.seated (hf : Fate k l k' r) (hs : Seated k r) (hr : r ∉ k.removals l) :
    (k'.thread r).tid = (k.thread r).tid ∧ Seated k' r := by
  cases hf with
  | stays tid unused _ _ proc =>
    exact ⟨tid, hs.imp (fun h => (not_congr unused).2 h) proc⟩
  | starts unused proc => exact absurd hs (not_or.2 ⟨not_not.2 unused, proc⟩)
  | removed mem => exact absurd mem hr
  | exits _ tid _ proc => exact ⟨tid, .inr proc⟩

theorem Fate.alive_tid (hf : Fate k l k' r) (ha : (k.thread r).Alive)
    (ha' : (k'.thread r).Alive) : (k'.thread r).tid = (k.thread r).tid := by
  cases hf with
  | stays tid | exits _ tid => exact tid
  | starts unused => exact absurd unused ha.1
  | removed _ _ unused => exact absurd unused ha'.1

theorem Fate.born (hf : Fate k l k' r) (ha : (k'.thread r).Alive) :
    (k.thread r).Alive ∨ ((k'.thread r).tid = k.nexttid ∧ (k'.thread r).context = .user) := by
  cases hf with
  | stays _ unused zombie =>
    exact .inl ⟨(not_congr unused).1 ha.1, fun hz => ha.2 (zombie hz)⟩
  | starts _ _ tid context => exact .inr ⟨tid, context ha.1⟩
  | removed _ _ unused => exact absurd unused ha.1
  | exits acts => exact .inl ⟨by simp [acts.2.1], by simp [acts.2.1]⟩

/-- How a live thread can end: it is removed, or runs a section that ends it. -/
theorem Fate.alive (hf : Fate k l k' r) (ha : (k.thread r).Alive) :
    (k'.thread r).Alive ∨ r ∈ k.removals l ∨ ∃ x, Acts k l r x ∧ (x.ends ∨ x = .safeExit) := by
  cases hf with
  | stays _ unused _ ends =>
    by_cases hz : (k'.thread r).state = .TZOMBIE
    · obtain ⟨x, hx, he⟩ := (ends hz).resolve_left ha.2
      exact .inr (.inr ⟨x, hx, .inl he⟩)
    · exact .inl ⟨(not_congr unused).2 ha.1, hz⟩
  | starts unused => exact absurd unused ha.1
  | removed mem => exact .inr (.inl mem)
  | exits acts => exact .inr (.inr ⟨_, acts, .inr rfl⟩)

/-- A live thread that is removed is asleep. -/
theorem Inv.asleep_of_removed (h : Inv k) (ht : t ∈ k.removals l) (ha : (k.thread t).Alive) :
    (k.thread t).state = .TSLEEPING := by
  have hvictim : ∀ c, t ∈ k.victims c → (k.thread t).state = .TSLEEPING := by
    intro c hv
    simp only [victims, victim, List.mem_filter, decide_eq_true_eq] at hv
    exact hv.2.2.resolve_right ha.2
  have hchild : ∀ c p : ProcIx, k.zombieChild c = some p → t ∈ slots p →
      (k.thread t).state = .TSLEEPING := by
    intro c p hp hm
    have hproc := h.used t ha.1
    rw [mem_slots.1 hm, (zombieChild_some hp).2] at hproc
    cases hproc
  have hjoin : ∀ r : ThreadRef, t ∈ (if (k.thread r).state = .TZOMBIE then [r] else []) →
      (k.thread t).state = .TSLEEPING := by
    intro r hm
    split at hm
    · rename_i hz
      rw [List.mem_singleton.1 hm] at ha
      exact absurd hz ha.2
    · cases hm
  unfold removals at ht
  split at ht
  · rename_i c _ _
    split at ht
    · split at ht
      · cases ht
      · exact hvictim c ht
    · split at ht
      · cases ht
      · exact hvictim c ht
    · split at ht
      · cases ht
      · exact hvictim c ht
    · exact hvictim c ht
    · split at ht
      · exact hjoin _ ht
      · cases ht
    · exact hjoin _ ht
    · split at ht
      · rename_i p hp
        exact hchild _ p hp ht
      · cases ht
    · split at ht
      · rename_i p hp
        exact hchild _ p hp ht
      · cases ht
    · cases ht
  · cases ht

end Kernel
end Xv6
