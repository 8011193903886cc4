import Xv6.Kernel.Effect
import Xv6.Lib.Runs

/-! The invariants of every run of the kernel, whatever the threads do: mutex
and thread ids are distinct, only processes in use have threads, and a thread
past `kill_other_threads` is the only one of its process. -/

namespace Xv6

/-- Past `kill_other_threads`. -/
def Context.solo : Context → Bool
  | .safeExit | .execBody => true
  | _ => false

theorem Context.not_plain_of_solo {x : Context} (h : x.solo) : ¬ x.plain := by
  cases x <;> simp_all [Context.solo, Context.plain]

theorem Thread.Calm.solo {t t' : Thread} (h : t.Calm t') (ha : t'.Alive) (hs : t'.context.solo) :
    t.Alive ∧ t.context.solo := by
  refine ⟨h.alive.1 ha, ?_⟩
  rcases h.context with e | ⟨_, hp, _⟩
  · rwa [e] at hs
  · exact absurd hp (Context.not_plain_of_solo hs)

namespace Kernel

open Runs

variable {k k' : Kernel} {l : Label} {c t : ThreadRef} {m : MutexIx} {mid : Int}

/-! ## The mutex table -/

theorem MutexInv.congr (h : MutexInv k) (hm : k'.mutex = k.mutex) (hn : k'.nextmid = k.nextmid) :
    MutexInv k' := by
  obtain ⟨h1, h2, h3, h4, h5, h6⟩ := h
  constructor <;> simpa only [hm, hn]

/-- Each operation changes one entry, which keeps its id, drops it or gets the next one. -/
theorem MutexInv.setMutex (h : MutexInv k) (f : Mutex → Mutex) (hle : k.nextmid ≤ k'.nextmid)
    (hk : ∀ n, k'.mutex n = if n = m then f (k.mutex n) else k.mutex n)
    (hid : (f (k.mutex m)).mid = (k.mutex m).mid ∨ (f (k.mutex m)).mid = 0 ∨
      (f (k.mutex m)).mid = k.nextmid ∧ k.nextmid < k'.nextmid)
    (hl : (f (k.mutex m)).state = .MLOCKED → ∃ o, (f (k.mutex m)).mythread = some o)
    (hu : (f (k.mutex m)).state = .MUNLOCKED → (f (k.mutex m)).mythread = none) : MutexInv k' := by
  refine h.step (some m) hle fun n => ?_
  rw [hk n]
  split
  · rename_i e
    subst e
    exact ⟨hid.imp_right (.imp_right fun hnew => ⟨rfl, hnew⟩), hl, hu⟩
  · exact ⟨.inl rfl, h.locked_owned n, h.unlocked_free n⟩

theorem MutexInv.alloc (h : MutexInv k) : MutexInv (k.allocEntry c m) :=
  h.setMutex (fun _ => ⟨none, some c.1, k.nextmid, .MUNLOCKED⟩) (Int.le_add_one le_rfl)
    (fun _ => rfl) (.inr (.inr ⟨rfl, Int.lt_succ _⟩)) (by intro hl; cases hl) fun _ => rfl

theorem MutexInv.freeEntry (h : MutexInv k) : MutexInv (k.freeEntry c m) :=
  h.setMutex Mutex.free le_rfl (fun _ => rfl) (.inr (.inl rfl)) (by intro hl; cases hl) fun _ => rfl

theorem MutexInv.takeEntry (h : MutexInv k) : MutexInv (k.takeEntry c m mid) :=
  h.setMutex (fun x => { x with state := .MLOCKED, mythread := some c }) le_rfl (fun _ => rfl)
    (.inl rfl) (fun _ => ⟨c, rfl⟩) (by intro hu; cases hu)

theorem MutexInv.clearEntry (h : MutexInv k) : MutexInv (k.clearEntry c m mid) :=
  h.setMutex (fun x => { x with mythread := none, state := .MUNLOCKED }) le_rfl (fun _ => rfl)
    (.inl rfl) (by intro hl; cases hl) fun _ => rfl

/-! ## Thread ids -/

/-- Thread ids are issued once; 0 marks a record without a thread. -/
structure TidInv (k : Kernel) : Prop where
  nonneg : ∀ r, 0 ≤ (k.thread r).tid
  lt : ∀ r, (k.thread r).tid < k.nexttid
  inj : ∀ r s, (k.thread r).tid = (k.thread s).tid → (k.thread r).tid ≠ 0 → r = s
  pos : ∀ r, (k.thread r).state ≠ .TUNUSED → (k.thread r).tid ≠ 0

/-- Records keep their threads or lose them, and record `t` may get a new thread. -/
theorem TidInv.step (h : TidInv k) (t : Option ThreadRef) (hle : k.nexttid ≤ k'.nexttid)
    (ht : ∀ s, ((k'.thread s).tid = (k.thread s).tid ∧
        ((k'.thread s).state ≠ .TUNUSED → (k.thread s).state ≠ .TUNUSED)) ∨
      ((k'.thread s).tid = 0 ∧ (k'.thread s).state = .TUNUSED) ∨
      t = some s ∧ (k'.thread s).tid = k.nexttid ∧ k.nexttid < k'.nexttid) : TidInv k' := by
  have hids : Ids.Distinct (fun s => (k.thread s).tid) k.nexttid := ⟨h.nonneg, h.lt, h.inj⟩
  obtain ⟨h1, h2, h3⟩ := hids.step t hle fun s => (ht s).imp And.left (.imp_left And.left)
  refine ⟨h1, h2, h3, fun s hs => ?_⟩
  rcases ht s with ⟨e, hu⟩ | ⟨_, hu⟩ | ⟨_, e, _⟩
  · rw [e]
    exact h.pos s (hu hs)
  · exact absurd hu hs
  · have := h.nonneg s
    have := h.lt s
    omega

/-! ## All steps -/

structure Inv (k : Kernel) : Prop where
  mutexes : MutexInv k
  tids : TidInv k
  nexttid_pos : 0 < k.nexttid
  used : ∀ r, (k.thread r).state ≠ .TUNUSED → (k.proc r.1).state = .PUSED
  solo : ∀ r, (k.thread r).Alive → (k.thread r).context.solo →
    ∀ s, s.1 = r.1 → s ≠ r → (k.thread s).state = .TUNUSED

theorem boot_inv : Inv boot where
  mutexes := by
    refine ⟨by decide, fun _ => le_refl _, fun _ => show (0 : Int) < 1 by decide, ?_, ?_,
      fun _ _ => rfl⟩
    · intro m n _ h; exact absurd rfl h
    · intro m h; cases h
  tids := by
    have htid : ∀ r, (boot.thread r).tid = if r = (initproc, 0) then 1 else 0 := by
      intro r; simp only [boot]; split <;> rfl
    have hinit : ∀ r, (boot.thread r).tid ≠ 0 → r = (initproc, 0) := by
      intro r h0
      by_contra hr
      exact h0 (by rw [htid, if_neg hr])
    refine ⟨?_, ?_, ?_, ?_⟩
    · intro r; rw [htid]; split <;> decide
    · intro r; rw [htid]; split <;> decide
    · intro r s e h0
      rw [hinit r h0, hinit s (e ▸ h0)]
    · intro r hr
      rw [htid]
      split
      · decide
      · rename_i h; exact absurd (by simp [boot, h, Thread.zero]) hr
  nexttid_pos := by decide
  used r hr := by
    simp only [boot] at hr ⊢
    split at hr
    · rename_i h; rw [h]; rfl
    · exact absurd rfl hr
  solo r _ hs := by
    simp only [boot] at hs
    split at hs <;> cases hs

theorem Inv.keep (h : Inv k) (hm : MutexInv k') (hn : k'.nexttid = k.nexttid)
    (hp : ∀ p, (k'.proc p).state = (k.proc p).state)
    (ht : ∀ s, (k'.thread s).tid = (k.thread s).tid)
    (hu : ∀ s, (k'.thread s).state = .TUNUSED ↔ (k.thread s).state = .TUNUSED)
    (hx : ∀ s, (k'.thread s).Alive → (k'.thread s).context.solo →
      (k.thread s).Alive ∧ (k.thread s).context.solo) : Inv k' where
  mutexes := hm
  tids := h.tids.step none hn.ge fun s => .inl ⟨ht s, (not_congr (hu s)).1⟩
  nexttid_pos := hn ▸ h.nexttid_pos
  used r hr := by rw [hp]; exact h.used r ((not_congr (hu r)).1 hr)
  solo r ha hs s hsr hne := by
    obtain ⟨ha, hs⟩ := hx r ha hs
    exact (hu s).2 (h.solo r ha hs s hsr hne)

theorem Moves.not_solo (hs : Moves k k' c) : (k'.thread c).context.solo = false := by
  rcases hs.context with hx | ⟨m, mid, hx⟩ | ⟨m, hx⟩
  · exact Bool.eq_false_iff.2 fun h => Context.not_plain_of_solo h hx
  · rw [hx]; rfl
  · rw [hx]; rfl

theorem Inv.moves (h : Inv k) (hs : Moves k k' c) (hm : MutexInv k') : Inv k' := by
  refine h.keep hm hs.nexttid (fun p => by rw [hs.proc]) ?_ ?_ ?_
  · intro s
    rcases eq_or_ne s c with rfl | e
    · exact hs.tid
    · exact (hs.other s e).calm.tid
  · intro s
    rcases eq_or_ne s c with rfl | e
    · simp [hs.running, hs.alive.1]
    · exact (hs.other s e).calm.unused
  · intro s ha hx
    rcases eq_or_ne s c with rfl | e
    · rw [hs.not_solo] at hx; cases hx
    · exact (hs.other s e).calm.solo ha hx

/-- A thread in a solo context has its process to itself, so no other thread of
the process runs. -/
theorem Inv.solo_eq (h : Inv k) {r : ThreadRef} (ha : (k.thread r).Alive)
    (hs : (k.thread r).context.solo) (hc : (k.thread c).state ≠ .TUNUSED) (hp : c.1 = r.1) :
    c = r := by
  by_contra hne
  exact hc (h.solo r ha hs c hp hne)

variable {p : ProcIx}

theorem Inv.unused_of_punused (h : Inv k) (hp : (k.proc p).state ≠ .PUSED)
    (hr : c.1 = p) : (k.thread c).state = .TUNUSED := by
  by_contra hu
  exact hp (hr ▸ h.used c hu)

theorem freeSlot_some (h : k.freeSlot c.1 = some t) : t.1 = c.1 ∧ (k.thread t).state = .TUNUSED :=
  ⟨mem_slots.1 (List.mem_of_find?_eq_some h), by simpa using List.find?_some h⟩

theorem freeProc_some (h : k.freeProc = some p) : (k.proc p).state = .PUNUSED := by
  unfold freeProc at h
  rcases Option.or_eq_some_iff.1 h with h | ⟨_, h⟩
  · have := List.find?_some h
    simp only [decide_eq_true_eq] at this
    exact this.2
  · simpa using List.find?_some h

theorem Inv.ne_of_freeProc (h : Inv k) (hrun : (k.thread c).state = .TRUNNING)
    {i : Fin NTHREAD} (hp : k.freeProc = some p) : c ≠ (p, i) := by
  rintro rfl
  have hu := h.used (p, i) (by simp [hrun])
  rw [show (k.proc p).state = .PUNUSED from freeProc_some hp] at hu
  cases hu

variable {q : ProcIx}

theorem zombieChild_some (h : k.zombieChild q = some p) :
    (k.proc p).parent = some q ∧ (k.proc p).state = .PZOMBIE := by
  have := List.find?_some h
  simpa [childOf] using this

section

variable (h : Inv k) (hrun : (k.thread c).state = .TRUNNING)

include h hrun

theorem Inv.freeSlot_fresh (ht : k.freeSlot c.1 = some t) :
    c ≠ t ∧ (k.thread t).state = .TUNUSED ∧ (k.proc t.1).state ≠ .PZOMBIE := by
  obtain ⟨htc, hu⟩ := freeSlot_some ht
  refine ⟨?_, hu, ?_⟩
  · rintro rfl; rw [hrun] at hu; cases hu
  · rw [htc, h.used c (by simp [hrun])]; decide

theorem Inv.freeProc_fresh (hp : k.freeProc = some p) :
    c ≠ (p, 0) ∧ (k.thread (p, 0)).state = .TUNUSED ∧ (k.proc p).state ≠ .PZOMBIE := by
  have hfree := freeProc_some hp
  refine ⟨h.ne_of_freeProc hrun hp, h.unused_of_punused ?_ rfl, ?_⟩ <;> rw [hfree] <;> decide

theorem Inv.create_starts (ht : k.freeSlot c.1 = some t) (a : Nat) (v : Int) :
    Starts k ((k.startThread t a).sysret c v) c t := by
  obtain ⟨hct, hu, _⟩ := h.freeSlot_fresh hrun ht
  exact starts_create hct hu a v

theorem Inv.createFail_starts
    (ht : k.freeSlot c.1 = some t) (v : Int) : Starts k ((k.spoilThread t).sysret c v) c t := by
  obtain ⟨hct, hu, _⟩ := h.freeSlot_fresh hrun ht
  exact starts_createFail hct hu v

theorem Inv.fork_starts (hp : k.freeProc = some p) (a : Nat) (v : Int) :
    Starts k ((((k.takeProc p).setProc p fun q => { q with
      state := .PUSED, parent := some c.1 }).startThread (p, 0) a).sysret c v) c (p, 0) := by
  obtain ⟨hct, hu, _⟩ := h.freeProc_fresh hrun hp
  exact starts_fork hct hu a v

theorem Inv.forkFail_starts (hp : k.freeProc = some p) (v : Int) :
    Starts k (((k.takeProc p).spoilThread (p, 0)).sysret c v) c (p, 0) := by
  obtain ⟨hct, hu, _⟩ := h.freeProc_fresh hrun hp
  exact starts_forkFail hct hu v

end

theorem Starts.tidInv (hs : Starts k k' c t) (h : Inv k) : TidInv k' := by
  have hnext := hs.nexttid
  refine h.tids.step (some t) (by omega) fun s => ?_
  rcases eq_or_ne s t with rfl | hst
  · exact .inr (.inr ⟨rfl, hs.tid, by omega⟩)
  · exact .inl ⟨(hs.keep hst).1, fun hu => (hs.keep hst).2.1 ▸ hu⟩

/-- Neither the new thread nor its creator is in a solo context. -/
theorem Starts.not_solo (hs : Starts k k' c t) (ha : (k'.thread r).Alive)
    (hx : (k'.thread r).context.solo) : r ≠ t ∧ r ≠ c := by
  constructor
  · rintro rfl
    rw [hs.context ha.1] at hx
    cases hx
  · rintro rfl
    obtain ⟨v, hc⟩ := hs.caller
    rw [hc] at hx
    cases hx

/-- `kthread_create`, whether or not it gets a kernel stack. -/
theorem Inv.create (h : Inv k) (hs : Starts k k' c t) (hrun : (k.thread c).state = .TRUNNING)
    (ht : k.freeSlot c.1 = some t) (hp : k'.proc = k.proc) : Inv k' := by
  have htc := (freeSlot_some ht).1
  have hcu : (k.thread c).state ≠ .TUNUSED := by simp [hrun]
  refine ⟨h.mutexes.congr hs.mutex hs.nextmid, hs.tidInv h, ?_, ?_, ?_⟩
  · rw [hs.nexttid]; have := h.nexttid_pos; omega
  · intro r hr
    rw [hp]
    rcases eq_or_ne r t with rfl | e
    · rw [htc]; exact h.used c hcu
    · exact h.used r ((hs.keep e).2.1 ▸ hr)
  · intro r hra hrs s hsr hne
    obtain ⟨hrt, hrc⟩ := hs.not_solo hra hrs
    rw [hs.other r hrt hrc] at hra hrs
    rcases eq_or_ne s t with rfl | e
    · -- `s` is in the process of `c`, which runs beside no solo thread
      have hcr : c = r := h.solo_eq hra hrs hcu (by rw [← htc, hsr])
      exact absurd hcr.symm hrc
    · rw [(hs.keep e).2.1]
      exact h.solo r hra hrs s hsr hne

/-- `fork`, whether or not it succeeds: process `p` was unused, its first record
takes the next id. -/
theorem Inv.fork (h : Inv k) (hs : Starts k k' c (p, 0)) (hp : k.freeProc = some p)
    (hpu : (k'.thread (p, 0)).state ≠ .TUNUSED → (k'.proc p).state = .PUSED) : Inv k' := by
  have hfree := freeProc_some hp
  have hunused : ∀ s : ThreadRef, s.1 = p → (k.thread s).state = .TUNUSED :=
    fun s hs => h.unused_of_punused (by rw [hfree]; decide) hs
  refine ⟨h.mutexes.congr hs.mutex hs.nextmid, hs.tidInv h, ?_, ?_, ?_⟩
  · rw [hs.nexttid]; have := h.nexttid_pos; omega
  · intro r hr
    rcases eq_or_ne r (p, 0) with rfl | e
    · exact hpu hr
    · have hr' : (k.thread r).state ≠ .TUNUSED := (hs.keep e).2.1 ▸ hr
      have hrp : r.1 ≠ p := fun hrp => hr' (hunused r hrp)
      rw [hs.proc r.1 hrp]; exact h.used r hr'
  · intro r hra hrs s hsr hne
    obtain ⟨hr0, hrc⟩ := hs.not_solo hra hrs
    rw [hs.other r hr0 hrc] at hra hrs
    have hs0 : s ≠ (p, 0) := by
      rintro rfl; exact hra.1 (hunused r hsr.symm)
    rw [(hs.keep hs0).2.1]
    exact h.solo r hra hrs s hsr hne

/-- Threads are removed: every record keeps its thread or loses it, and `c`, if
it goes on in a solo context, is alone. -/
theorem Inv.remove (h : Inv k) (hm : MutexInv k') (hn : k'.nexttid = k.nexttid)
    (hp : ∀ r, (k'.thread r).state ≠ .TUNUSED → (k'.proc r.1).state = (k.proc r.1).state)
    (ht : ∀ s, ((k'.thread s).tid = (k.thread s).tid ∧
        ((k'.thread s).state ≠ .TUNUSED → (k.thread s).state ≠ .TUNUSED)) ∨
      ((k'.thread s).tid = 0 ∧ (k'.thread s).state = .TUNUSED)) (hc : (k'.thread c).context.solo →
      ∀ s, s.1 = c.1 → s ≠ c → (k'.thread s).state = .TUNUSED)
    (ho : ∀ r, r ≠ c → (k'.thread r).Alive → (k'.thread r).context.solo →
      (k.thread r).Alive ∧ (k.thread r).context.solo) : Inv k' := by
  have hused : ∀ s, (k'.thread s).state ≠ .TUNUSED → (k.thread s).state ≠ .TUNUSED := by
    intro s hs
    rcases ht s with h | h
    · exact h.2 hs
    · exact absurd h.2 hs
  refine ⟨hm, h.tids.step none hn.ge fun s => (ht s).imp_right .inl, hn ▸ h.nexttid_pos, ?_, ?_⟩
  · intro r hr
    rw [hp r hr]; exact h.used r (hused r hr)
  · intro r hra hrs s hsr hne
    by_cases e : r = c
    · subst e; exact hc hrs s hsr hne
    · obtain ⟨ha, hs⟩ := ho r e hra hrs
      by_contra hsu
      exact hused s hsu (h.solo r ha hs s hsr hne)

/-! ## The end of a process -/

theorem wakeParent_eq (k : Kernel) (p : ProcIx) :
    k.wakeParent p = k ∨ ∃ q, k.wakeParent p = k.wakeup1 (.proc q) := by
  unfold wakeParent
  split
  · exact .inr ⟨_, rfl⟩
  · exact .inl rfl

theorem reparent_thread (k : Kernel) (p : ProcIx) (s : ThreadRef) :
    (k.reparent p).thread s = k.thread s ∨
    (k.reparent p).thread s = (k.thread s).wake (.proc initproc) := by
  unfold reparent
  simp only
  split
  · exact .inr rfl
  · exact .inl rfl

theorem reparent_same (k : Kernel) (p : ProcIx) :
    (k.reparent p).mutex = k.mutex ∧ (k.reparent p).hist = k.hist ∧
    (k.reparent p).nextpid = k.nextpid ∧ (k.reparent p).nexttid = k.nexttid ∧
    (k.reparent p).nextmid = k.nextmid ∧ (∀ q, ((k.reparent p).proc q).state = (k.proc q).state) ∧
    ∀ q, ((k.reparent p).proc q).pid = (k.proc q).pid ∧
      ((k.reparent p).proc q).killed = (k.proc q).killed := by
  unfold reparent
  simp only
  split <;> exact ⟨rfl, rfl, rfl, rfl, rfl, fun _ => rfl, fun _ => ⟨rfl, rfl⟩⟩

variable {s : ThreadRef}

theorem safeExit_woken (hs : s ≠ c) : Woken (k.thread s) ((k.safeExit c).thread s) := by
  have h1 : Woken (k.thread s) ((k.wakeParent c.1).thread s) := by
    rcases wakeParent_eq k c.1 with h | ⟨q, h⟩ <;> rw [h]
    · exact .same
    · exact .wake _ .same
  simp only [safeExit, setThread_thread, if_neg hs, setProc_thread]
  rcases reparent_thread (k.wakeParent c.1) c.1 s with h | h <;> rw [h]
  · exact h1
  · exact .wake _ h1

/-- The wakeups of `safe_exit` are calm. -/
theorem safeExit_calm (hs : s ≠ c) : (k.thread s).Calm ((k.safeExit c).thread s) :=
  (safeExit_woken hs).calm

theorem safeExit_self (hrun : (k.thread c).state = .TRUNNING) :
    (k.safeExit c).thread c = { k.thread c with state := .TUNUSED, context := .dead } := by
  have h1 : (k.wakeParent c.1).thread c = k.thread c := by
    rcases wakeParent_eq k c.1 with h | ⟨q, h⟩ <;> rw [h]
    exact wake_of_running hrun _
  have h2 : ((k.wakeParent c.1).reparent c.1).thread c = k.thread c := by
    rcases reparent_thread (k.wakeParent c.1) c.1 c with h | h <;> rw [h, h1]
    exact wake_of_running hrun _
  simp only [safeExit, setThread_thread, ↓reduceIte, setProc_thread, h2]

theorem safeExit_same (k : Kernel) (c : ThreadRef) :
    (k.safeExit c).mutex = k.mutex ∧ (k.safeExit c).hist = k.hist ∧
    (k.safeExit c).nextpid = k.nextpid ∧ (k.safeExit c).nexttid = k.nexttid ∧
    (k.safeExit c).nextmid = k.nextmid ∧
    (∀ q, ((k.safeExit c).proc q).state = if q = c.1 then .PZOMBIE else (k.proc q).state) ∧
    ∀ q, ((k.safeExit c).proc q).pid = (k.proc q).pid ∧
      ((k.safeExit c).proc q).killed = (k.proc q).killed := by
  have hp : (k.wakeParent c.1).proc = k.proc := by
    rcases wakeParent_eq k c.1 with h | ⟨q, h⟩ <;> rw [h]
    rfl
  have hw : Same k (k.wakeParent c.1) := by
    rcases wakeParent_eq k c.1 with h | ⟨q, h⟩ <;> rw [h] <;> exact Same.thread k _
  obtain ⟨h1, h2, h3, h4, h5, h6, h7⟩ := reparent_same (k.wakeParent c.1) c.1
  refine ⟨h1.trans hw.mutex, h2.trans hw.hist, h3.trans hw.nextpid, h4.trans hw.nexttid,
    h5.trans hw.nextmid, ?_, ?_⟩
  · intro q
    simp only [safeExit, setThread_proc, setProc_proc]
    split
    · rfl
    · rw [h6, hp]
  · intro q
    rw [← hp]
    simp only [safeExit, setThread_proc, setProc_proc]
    split <;> exact h7 q

theorem Inv.exited (h : Inv k) (ha : Acts k l c .safeExit) : Inv (k.safeExit c) := by
  obtain ⟨_, hrun, hctx⟩ := ha
  obtain ⟨hm, _, _, hn, hnm, hst, _⟩ := safeExit_same k c
  have hself := safeExit_self hrun
  have hother : ∀ s, s.1 = c.1 → s ≠ c → (k.thread s).state = .TUNUSED :=
    h.solo c ⟨by simp [hrun], by simp [hrun]⟩ (by rw [hctx]; rfl)
  refine h.remove (c := c) (h.mutexes.congr hm hnm) hn ?_ ?_ ?_ ?_
  · intro r hr
    rw [hst]
    by_cases e : r = c
    · rw [e, hself] at hr; exact absurd rfl hr
    · have hru := (not_congr (safeExit_calm e).unused).1 hr
      rw [if_neg fun hp => hru (hother r hp e)]
  · intro s
    left
    by_cases e : s = c
    · rw [e, hself]; exact ⟨rfl, fun h => absurd rfl h⟩
    · exact ⟨(safeExit_calm e).tid, (not_congr (safeExit_calm e).unused).1⟩
  · intro hs; rw [hself] at hs; cases hs
  · intro r hr hra hrs
    exact (safeExit_calm hr).solo hra hrs

/-! ## Removals -/

/-- The scan removes a thread or leaves its state and its context. -/
theorem scanned_cases (k : Kernel) (c s : ThreadRef) :
    ((k.scanned c s).tid = (k.thread s).tid ∧ (k.scanned c s).state = (k.thread s).state ∧
      (k.scanned c s).context = (k.thread s).context) ∨
    ((k.scanned c s).tid = 0 ∧ (k.scanned c s).state = .TUNUSED) := by
  unfold scanned
  split
  · exact .inr ⟨rfl, rfl⟩
  · left; split <;> exact ⟨rfl, rfl, rfl⟩

/-- When the scan finds no thread, the process has no other thread. -/
theorem Inv.unused_of_not_found (h : Inv k)
    (hf : (k.killScan c).1 = false) (hs : s.1 = c.1) (hne : s ≠ c) :
    (k.thread s).state = .TUNUSED := by
  rw [killScan_found] at hf
  have hd := List.any_eq_false.1 hf s (mem_slots.2 hs)
  simp only [doomed, decide_eq_true_eq, not_and, not_not] at hd
  by_contra hu
  refine hne (h.tids.inj s c ?_ (h.tids.pos s hu))
  by_contra htid
  exact hu (hd htid)

section

variable (h : Inv k) (hrun : (k.thread c).state = .TRUNNING)

include h hrun

theorem Inv.teardown (a : Caller) : Inv (k.killTurn c a) := by
  have hcu : (k.thread c).state ≠ .TUNUSED := by simp [hrun]
  have hsw := killScan_swept (c := c) h.mutexes
  obtain ⟨f, hf⟩ := killTurn_scan k c a
  refine h.remove (c := c) ?_ ?_ ?_ ?_ ?_ ?_
  · rw [hf]; exact (hsw.mutexInv h.mutexes).congr rfl rfl
  · rw [hf]; exact hsw.nexttid
  · intro r _; rw [hf, setThread_proc, hsw.proc]
  · intro s
    by_cases e : s = c
    · left
      subst e
      refine ⟨?_, fun _ => hcu⟩
      rcases killTurn_cases k s a with ⟨_, h⟩ | ⟨_, h⟩ <;> rw [h, setThread_thread, if_pos rfl] <;>
        exact hsw.caller_tid
    · rw [killTurn_thread k a e]
      split
      · rcases scanned_cases k c s with ⟨ht, hs, _⟩ | hs
        · exact .inl ⟨ht, fun hu => hs ▸ hu⟩
        · exact .inr hs
      · exact .inl ⟨rfl, id⟩
  · -- `c` leaves the loop only when it has found no thread
    intro hsolo s hs hne
    rcases killTurn_cases k c a with ⟨_, h'⟩ | ⟨hfound, _⟩
    · rw [h'] at hsolo
      simp [Context.solo] at hsolo
    · have hu := h.unused_of_not_found hfound hs hne
      rw [killTurn_thread k a hne, if_pos hs]
      rcases scanned_cases k c s with ⟨_, e, _⟩ | ⟨_, e⟩ <;> rw [e]
      exact hu
  · intro r hr
    rw [killTurn_thread k a hr]
    split
    · intro ha hs
      rcases scanned_cases k c r with ⟨_, hst, hx⟩ | ⟨_, hst⟩
      · unfold Thread.Alive at ha ⊢
        rw [hst] at ha
        rw [hx] at hs
        exact ⟨ha, hs⟩
      · exact absurd hst ha.1
    · exact fun ha hs => ⟨ha, hs⟩

/-- The threads of a zombie process are not the one that reaps it. -/
theorem Inv.not_mem_slots (hp : k.zombieChild q = some p) : c ∉ slots p := by
  intro hc
  have hu := h.used c (by simp [hrun])
  rw [mem_slots.1 hc, (zombieChild_some hp).2] at hu
  cases hu

theorem Inv.swept_reap (hp : k.zombieChild q = some p) :
    Swept k ((slots p).foldl (fun k t => k.removeThread c t) k) c (slots p) :=
  (foldl_removing (h.not_mem_slots hrun hp) (slots_nodup p)).swept h.mutexes

end

/-- `kthread_join` and `wait`: the running thread `c` passes the threads `vs`, none of them
alive, to `remove_thread` and returns. -/
structure Removes (k k' : Kernel) (c : ThreadRef) (vs : List ThreadRef) : Prop where
  running : (k.thread c).state = .TRUNNING
  notMem : c ∉ vs
  nodup : vs.Nodup
  idle : ∀ s ∈ vs, ¬ (k.thread s).Alive
  thread : ∃ v, k'.thread = ((vs.foldl (fun k t => k.removeThread c t) k).sysret c v).thread
  mutex : k'.mutex = (vs.foldl (fun k t => k.removeThread c t) k).mutex
  hist : ∃ es, k'.hist = es ++ (vs.foldl (fun k t => k.removeThread c t) k).hist ∧
    ∀ e ∈ es, ∃ pid, e = .reaped pid
  nexttid : k'.nexttid = k.nexttid
  nextmid : k'.nextmid = k.nextmid
  proc : ∀ s, s ∉ vs → k'.proc s.1 = k.proc s.1

theorem Inv.join_removes (h : Inv k) (hrun : (k.thread c).state = .TRUNNING)
    (ht : (k.thread t).state = .TZOMBIE) : Removes k ((k.removeThread c t).sysret c 0) c [t] := by
  have hct : c ≠ t := by rintro rfl; rw [hrun] at ht; cases ht
  have hsw := Swept.removeThread t h.mutexes hct
  refine ⟨hrun, by simpa using hct, by simp, by simp [Thread.Alive, ht], ⟨0, rfl⟩, rfl,
    ⟨[], rfl, by simp⟩, hsw.nexttid, hsw.nextmid, fun s _ => ?_⟩
  rw [sysret, setThread_proc, hsw.proc]

theorem Inv.reap_removes (h : Inv k) (hrun : (k.thread c).state = .TRUNNING)
    (hp : k.zombieChild q = some p) (v : Int) :
    Removes k ((k.reap c p).sysret c v) c (slots p) := by
  have hsw := h.swept_reap hrun hp
  refine ⟨hrun, h.not_mem_slots hrun hp, slots_nodup p, ?_, ⟨v, rfl⟩, rfl,
    ⟨[.reaped (k.proc p).pid], rfl, by simp⟩, hsw.nexttid, hsw.nextmid, ?_⟩
  · intro s hs ha
    have hu := h.used s ha.1
    rw [mem_slots.1 hs, (zombieChild_some hp).2] at hu
    cases hu
  · intro s hs
    simp only [sysret, setThread_proc, reap, log_proc, setProc_proc, hsw.proc,
      if_neg fun e => hs (mem_slots.2 e)]

section Removes

variable {vs : List ThreadRef} (hr : Removes k k' c vs)

include hr

theorem Removes.swept (hk : MutexInv k) :
    Swept k (vs.foldl (fun k t => k.removeThread c t) k) c vs :=
  (foldl_removing hr.notMem hr.nodup).swept hk

theorem Removes.caller (hk : MutexInv k) :
    ∃ m v, k'.thread c = { k.thread c with mutex := m, context := .ret v } := by
  obtain ⟨v, hv⟩ := hr.thread
  rw [hv, sysret, setThread_thread, if_pos rfl]
  rcases (hr.swept hk).caller with e | e <;> exact ⟨_, v, by rw [e]⟩

theorem Removes.gone (hs : s ∈ vs) : k'.thread s = (k.thread s).remove := by
  obtain ⟨v, hv⟩ := hr.thread
  have hne : s ≠ c := by rintro rfl; exact hr.notMem hs
  rw [hv, sysret, setThread_thread, if_neg hne, foldl_removeThread_thread hr.nodup hne, if_pos hs]

theorem Removes.other (hs : s ∉ vs) (hne : s ≠ c) : k'.thread s = k.thread s := by
  obtain ⟨v, hv⟩ := hr.thread
  rw [hv, sysret, setThread_thread, if_neg hne, foldl_removeThread_thread hr.nodup hne, if_neg hs]

theorem Removes.notMem_of_used (hu : (k'.thread s).state ≠ .TUNUSED) : s ∉ vs := by
  intro hs
  rw [hr.gone hs] at hu
  exact hu rfl

theorem Inv.removes (h : Inv k) : Inv k' := by
  have hsw := hr.swept h.mutexes
  obtain ⟨m, v, hc⟩ := hr.caller h.mutexes
  refine h.remove (c := c) ((hsw.mutexInv h.mutexes).congr hr.mutex ?_) hr.nexttid ?_ ?_ ?_ ?_
  · rw [hr.nextmid, hsw.nextmid]
  · intro s hs
    rw [hr.proc s (hr.notMem_of_used hs)]
  · intro s
    rcases eq_or_ne s c with rfl | e
    · exact .inl ⟨by rw [hc], fun _ => by simp [hr.running]⟩
    · by_cases hv : s ∈ vs
      · exact .inr (by rw [hr.gone hv]; exact ⟨rfl, rfl⟩)
      · exact .inl (by rw [hr.other hv e]; exact ⟨rfl, id⟩)
  · intro hs
    rw [hc] at hs
    cases hs
  · intro s hne ha
    have hv := hr.notMem_of_used ha.1
    rw [hr.other hv hne] at ha ⊢
    exact fun hs => ⟨ha, hs⟩

end Removes

/-! ## Every run -/

theorem Inv.turn (h : Inv k) (he : Turn k l k') : Inv k' := by
  cases he with
  | calm hc =>
    obtain ⟨ht, hs, _⟩ := hc.spec
    exact h.keep (h.mutexes.congr hs.mutex hs.nextmid) hs.nexttid hs.procState
      (fun s => (ht s).tid) (fun s => (ht s).unused) fun s => (ht s).solo
  | @dies _ c x ha hx hq hd =>
    have hc := hd.self
    have hs := hd.same
    refine h.keep (h.mutexes.congr hs.mutex hs.nextmid) hs.nexttid hs.procState ?_ ?_ ?_
    · intro s
      by_cases e : s = c
      · rw [e, hc]
      · exact (hd.calm e).tid
    · intro s
      by_cases e : s = c
      · rw [e, hc]; simp [ha.2.1]
      · exact (hd.calm e).unused
    · intro s hsa
      by_cases e : s = c
      · rw [e, hc] at hsa; exact absurd rfl hsa.2
      · exact (hd.calm e).solo hsa
  | alloc ha hm => exact h.moves (moves_alloc ha.2.1) h.mutexes.alloc
  | @dealloc c mid m ha hm hu =>
    have hmi : MutexInv (k.freeEntry c m) := h.mutexes.freeEntry
    exact h.moves (moves_dealloc ha.2.1 _) (hmi.congr rfl rfl)
  | take ha hx hq hu => exact h.moves (moves_take ha.2.1) h.mutexes.takeEntry
  | lockSleep ha hx hq hl => exact h.moves (moves_lockSleep ha.2.1) (h.mutexes.congr rfl rfl)
  | unlock ha hm hl ho htid => exact h.moves (moves_unlock ha.2.1) h.mutexes.clearEntry
  | wake ha => exact h.moves (moves_wake ha.2.1) (h.mutexes.congr rfl rfl)
  | create hl ha ht => exact h.create (h.create_starts ha.2.1 ht _ _) ha.2.1 ht rfl
  | createFail hl ha ht => exact h.create (h.createFail_starts ha.2.1 ht _) ha.2.1 ht rfl
  | fork hl ha hp =>
    refine h.fork (h.fork_starts ha.2.1 hp _ _) hp ?_
    simp [startThread, takeProc, sysret]
  | forkFail hl hfail ha hp =>
    refine h.fork (h.forkFail_starts ha.2.1 hp _) hp ?_
    simp [spoilThread, takeProc, sysret, (h.freeProc_fresh ha.2.1 hp).1.symm]
  | join ha hx hn hp ht hr => exact h.removes (h.join_removes ha.2.1 ht)
  | scan ha hx hr => exact h.teardown ha.2.1 _
  | exited ha => exact h.exited ha
  | reap ha hx hp hr => exact h.removes (h.reap_removes ha.2.1 hp _)

theorem Inv.step (h : Inv k) (hs : k.step l = some k') : Inv k' := h.turn (turn_of_step hs)

/-- The invariant holds in every state of every run from boot. -/
theorem reachable_inv {G : Guard Kernel Label} (hr : Run Kernel.step G boot k) : Inv k :=
  hr.invariant boot_inv fun _ _ _ h hs _ => h.step hs

/-- The state after the steps `ls` from boot. -/
abbrev after (ls : List Label) : Kernel := final Kernel.step boot ls

end Kernel
end Xv6
