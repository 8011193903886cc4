import Xv6.Kernel.Ops
import Xv6.Lib.Ids

/-! What each operation of `Ops.lean` leaves alone, and pointwise descriptions
of the operations that go through a whole table: `remove_thread` with the
deallocation in it, and the scan of `kill_other_threads`. -/

namespace Xv6.Kernel

variable (k : Kernel) (r s c t : ThreadRef) (p q : ProcIx) (m n : MutexIx)

/-! ## Field updates -/

section

variable (f : Thread → Thread) (g : Mutex → Mutex) (h : Proc → Proc) (e : Event) (ch : Chan)

@[simp] theorem setThread_thread :
    (k.setThread r f).thread s = if s = r then f (k.thread s) else k.thread s := rfl
@[simp] theorem setThread_proc : (k.setThread r f).proc = k.proc := rfl
@[simp] theorem setThread_mutex : (k.setThread r f).mutex = k.mutex := rfl
@[simp] theorem setThread_hist : (k.setThread r f).hist = k.hist := rfl
@[simp] theorem setThread_nextpid : (k.setThread r f).nextpid = k.nextpid := rfl
@[simp] theorem setThread_nexttid : (k.setThread r f).nexttid = k.nexttid := rfl
@[simp] theorem setThread_nextmid : (k.setThread r f).nextmid = k.nextmid := rfl

@[simp] theorem setMutex_mutex :
    (k.setMutex m g).mutex n = if n = m then g (k.mutex n) else k.mutex n := rfl
@[simp] theorem setMutex_thread : (k.setMutex m g).thread = k.thread := rfl
@[simp] theorem setMutex_proc : (k.setMutex m g).proc = k.proc := rfl
@[simp] theorem setMutex_hist : (k.setMutex m g).hist = k.hist := rfl

@[simp] theorem setProc_proc :
    (k.setProc p h).proc q = if q = p then h (k.proc q) else k.proc q := rfl
@[simp] theorem setProc_thread : (k.setProc p h).thread = k.thread := rfl
@[simp] theorem setProc_mutex : (k.setProc p h).mutex = k.mutex := rfl
@[simp] theorem setProc_hist : (k.setProc p h).hist = k.hist := rfl

@[simp] theorem log_hist : (k.log e).hist = e :: k.hist := rfl
@[simp] theorem log_thread : (k.log e).thread = k.thread := rfl
@[simp] theorem log_proc : (k.log e).proc = k.proc := rfl
@[simp] theorem log_mutex : (k.log e).mutex = k.mutex := rfl

@[simp] theorem wakeup1_thread : (k.wakeup1 ch).thread s = (k.thread s).wake ch := rfl
@[simp] theorem wakeup1_proc : (k.wakeup1 ch).proc = k.proc := rfl
@[simp] theorem wakeup1_mutex : (k.wakeup1 ch).mutex = k.mutex := rfl
@[simp] theorem wakeup1_hist : (k.wakeup1 ch).hist = k.hist := rfl

end

theorem mem_slots {p : ProcIx} {t : ThreadRef} : t ∈ slots p ↔ t.1 = p := by
  simp only [slots, List.mem_map, List.mem_finRange, true_and]
  constructor
  · rintro ⟨i, rfl⟩; rfl
  · rintro rfl; exact ⟨t.2, rfl⟩

theorem slots_nodup (p : ProcIx) : (slots p).Nodup :=
  (List.nodup_finRange _).map fun _ _ h => (Prod.mk.inj h).2

/-! ## The mutex table -/

variable {k m n}

theorem findMutex_some {mid : Int} (h : k.findMutex mid = some m) : (k.mutex m).mid = mid := by
  simpa using List.find?_some h

theorem findMutex_none {mid : Int} (h : k.findMutex mid = none) (m : MutexIx) :
    (k.mutex m).mid ≠ mid := by
  simpa using List.find?_eq_none.1 h m (List.mem_finRange m)

theorem exists_findMutex (m : MutexIx) : ∃ n, k.findMutex (k.mutex m).mid = some n := by
  cases h : k.findMutex (k.mutex m).mid with
  | none => exact absurd rfl (findMutex_none h m)
  | some n => exact ⟨n, rfl⟩

/-- What holds of the mutex table in every state: the ids in use are distinct
and already issued, a locked entry has an owner, an unlocked one has none. -/
structure MutexInv (k : Kernel) : Prop where
  nextmid_pos : 0 < k.nextmid
  mid_nonneg : ∀ m, 0 ≤ (k.mutex m).mid
  mid_lt : ∀ m, (k.mutex m).mid < k.nextmid
  mid_inj : ∀ m n, (k.mutex m).mid = (k.mutex n).mid → (k.mutex m).mid ≠ 0 → m = n
  locked_owned : ∀ m, (k.mutex m).state = .MLOCKED → ∃ o, (k.mutex m).mythread = some o
  unlocked_free : ∀ m, (k.mutex m).state = .MUNLOCKED → (k.mutex m).mythread = none

namespace MutexInv

/-- Entries keep their ids or lose them, and entry `t` may get a new one. -/
theorem step (h : MutexInv k) (t : Option MutexIx) (hle : k.nextmid ≤ k'.nextmid)
    (hm : ∀ n, ((k'.mutex n).mid = (k.mutex n).mid ∨ (k'.mutex n).mid = 0 ∨
        t = some n ∧ (k'.mutex n).mid = k.nextmid ∧ k.nextmid < k'.nextmid) ∧
      ((k'.mutex n).state = .MLOCKED → ∃ o, (k'.mutex n).mythread = some o) ∧
      ((k'.mutex n).state = .MUNLOCKED → (k'.mutex n).mythread = none)) : MutexInv k' := by
  have hids : Ids.Distinct (fun n => (k.mutex n).mid) k.nextmid :=
    ⟨h.mid_nonneg, h.mid_lt, h.mid_inj⟩
  obtain ⟨h1, h2, h3⟩ := hids.step t hle fun n => (hm n).1
  exact ⟨lt_of_lt_of_le h.nextmid_pos hle, h1, h2, h3, fun n => (hm n).2.1, fun n => (hm n).2.2⟩

theorem findMutex_mid (hk : MutexInv k) (h : (k.mutex m).mid ≠ 0) :
    k.findMutex (k.mutex m).mid = some m := by
  obtain ⟨n, hn⟩ := exists_findMutex (k := k) m
  have hmid := findMutex_some hn
  rw [hn, hk.mid_inj n m hmid (hmid ▸ h)]

/-- Deallocating an entry that is free already changes nothing. -/
theorem free_eq (hk : MutexInv k) (h0 : (k.mutex m).mid = 0)
    (hu : (k.mutex m).state ≠ .MLOCKED) : (k.mutex m).free = k.mutex m := by
  have hs : (k.mutex m).state = .MUNLOCKED := by
    cases h : (k.mutex m).state with
    | MUNLOCKED => rfl
    | MLOCKED => exact absurd h hu
  have hf := hk.unlocked_free m hs
  cases hx : k.mutex m with
  | mk o p i st =>
    rw [hx] at h0 hs hf
    simp only at h0 hs hf
    subst h0 hs hf
    rfl

end MutexInv

/-! ## `remove_thread` -/

/-- `remove_thread` has nothing to deallocate, or finds the entry locked, or
deallocates it. -/
theorem removeThread_cases (k : Kernel) (c t : ThreadRef) :
    (k.removeThread c t = k.setThread t Thread.remove ∧
      ((k.thread t).mutex = none ∨ ∃ m n, (k.thread t).mutex = some m ∧
        k.findMutex (k.mutex m).mid = some n ∧ (k.mutex n).state = .MLOCKED)) ∨
    ∃ m n, (k.thread t).mutex = some m ∧ k.findMutex (k.mutex m).mid = some n ∧
      (k.mutex n).state ≠ .MLOCKED ∧ k.removeThread c t = ((k.freeEntry c n).log
          (.reclaim (k.thread t).tid (k.proc t.1).pid (k.mutex m).mid)).setThread t
          Thread.remove := by
  unfold removeThread
  cases hm : (k.thread t).mutex with
  | none => exact .inl ⟨rfl, .inl rfl⟩
  | some m =>
    obtain ⟨n, hn⟩ := exists_findMutex (k := k) m
    by_cases hl : (k.mutex n).state = .MLOCKED
    · left
      refine ⟨?_, .inr ⟨m, n, rfl, hn, hl⟩⟩
      simp only [mutexFree, hn, hl, ↓reduceIte]
    · right
      refine ⟨m, n, rfl, hn, hl, ?_⟩
      simp only [mutexFree, hn, hl, ↓reduceIte]

theorem removeThread_thread (hs : s ≠ c) :
    (k.removeThread c t).thread s = if s = t then (k.thread s).remove else k.thread s := by
  rcases removeThread_cases k c t with ⟨h, _⟩ | ⟨m, n, _, _, _, h⟩ <;> rw [h] <;>
    simp [hs, freeEntry]

theorem removeThread_caller (hc : c ≠ t) : (k.removeThread c t).thread c = k.thread c ∨
    (k.removeThread c t).thread c = { k.thread c with mutex := none } := by
  rcases removeThread_cases k c t with ⟨h, _⟩ | ⟨m, n, _, _, _, h⟩
  · left; rw [h]; simp [hc]
  · right; rw [h]; simp [hc, freeEntry]

@[simp] theorem removeThread_frame : (k.removeThread c t).proc = k.proc ∧
    (k.removeThread c t).nextpid = k.nextpid ∧ (k.removeThread c t).nexttid = k.nexttid ∧
    (k.removeThread c t).nextmid = k.nextmid := by
  rcases removeThread_cases k c t with ⟨h, _⟩ | ⟨m, n, _, _, _, h⟩ <;> rw [h] <;>
    exact ⟨rfl, rfl, rfl, rfl⟩

/-- The mutex of the removed thread is deallocated unless it is locked; no
other entry changes. -/
theorem removeThread_mutex (hk : MutexInv k) (n : MutexIx) : (k.removeThread c t).mutex n =
      if (k.thread t).mutex = some n ∧ (k.mutex n).state ≠ .MLOCKED then (k.mutex n).free
      else k.mutex n := by
  rcases removeThread_cases k c t with
    ⟨h, hnone | ⟨m, m', hm, hfind, hl⟩⟩ | ⟨m, m', hm, hfind, hu, h⟩
  · rw [h]; simp [hnone]
  · -- the deallocation failed: the entry found is locked
    rw [h, hm]
    split
    · rename_i hc
      obtain ⟨hmn, hu⟩ := hc
      cases hmn
      by_cases h0 : (k.mutex n).mid = 0
      · exact (hk.free_eq h0 hu).symm
      · rw [hk.findMutex_mid h0] at hfind
        cases hfind
        exact absurd hl hu
    · rfl
  · rw [h, hm]
    simp only [freeEntry, setThread_mutex, log_mutex, setMutex_mutex]
    by_cases h0 : (k.mutex m).mid = 0
    · -- id 0 names a free entry, and freeing it again changes nothing
      have hm' : (k.mutex m').mid = 0 := by rw [findMutex_some hfind, h0]
      have hsame : ∀ i, (k.mutex i).mid = 0 → (k.mutex i).state ≠ .MLOCKED →
          (k.mutex i).free = k.mutex i := fun i => hk.free_eq
      split <;> split
      · rfl
      · rename_i e _; subst e; exact hsame _ hm' hu
      · rename_i _ hc
        obtain ⟨hmn, hun⟩ := hc
        cases hmn
        exact (hsame _ h0 hun).symm
      · rfl
    · rw [hk.findMutex_mid h0] at hfind
      cases hfind
      by_cases e : n = m
      · subst e; simp [hu]
      · have e' : ¬ m = n := fun h => e h.symm
        simp [e, e']

/-! ## Removing several threads -/

/-- `k'` is `k` after `c` has passed the threads `vs` to `remove_thread`, as far
as the mutex table, the processes and `c` itself go. -/
structure Swept (k k' : Kernel) (c : ThreadRef) (vs : List ThreadRef) : Prop where
  freed : ∀ n, (k.mutex n).state ≠ .MLOCKED → ∀ t ∈ vs, (k.thread t).mutex = some n →
    k'.mutex n = (k.mutex n).free
  kept : ∀ n, ((k.mutex n).state = .MLOCKED ∨ ∀ t ∈ vs, (k.thread t).mutex ≠ some n) →
    k'.mutex n = k.mutex n
  caller : k'.thread c = k.thread c ∨ k'.thread c = { k.thread c with mutex := none }
  hist : ∃ es, k'.hist = es ++ k.hist ∧
    ∀ e ∈ es, ∃ tid pid mid, e = .reclaim tid pid mid ∧ mid < k.nextmid
  proc : k'.proc = k.proc
  nextpid : k'.nextpid = k.nextpid
  nexttid : k'.nexttid = k.nexttid
  nextmid : k'.nextmid = k.nextmid

namespace Swept

variable {k1 k2 : Kernel} {c} {vs ws : List ThreadRef}

theorem refl (k : Kernel) (c : ThreadRef) : Swept k k c [] :=
  ⟨by simp, by simp, .inl rfl, ⟨[], rfl, by simp⟩, rfl, rfl, rfl, rfl⟩

/-- An entry is left alone, or it was not locked and is freed on account of a thread. -/
theorem mutex_cases (h : Swept k k1 c vs) (n : MutexIx) :
    k1.mutex n = k.mutex n ∨ ((k.mutex n).state ≠ .MLOCKED ∧
      (∃ t ∈ vs, (k.thread t).mutex = some n) ∧ k1.mutex n = (k.mutex n).free) := by
  by_cases hl : (k.mutex n).state = .MLOCKED
  · exact .inl (h.kept n (.inl hl))
  · by_cases hv : ∃ t ∈ vs, (k.thread t).mutex = some n
    · obtain ⟨t, ht, hm⟩ := hv
      exact .inr ⟨hl, ⟨t, ht, hm⟩, h.freed n hl t ht hm⟩
    · exact .inl (h.kept n (.inr fun t ht hm => hv ⟨t, ht, hm⟩))

theorem trans (h₁ : Swept k k1 c vs) (h₂ : Swept k1 k2 c ws)
    (hm : ∀ t ∈ ws, (k1.thread t).mutex = (k.thread t).mutex) : Swept k k2 c (vs ++ ws) where
  freed n hu t ht hn := by
    rcases h₁.mutex_cases n with e | ⟨_, _, e⟩
    · rcases List.mem_append.1 ht with ht | ht
      · -- freed by the first part, so its record is that of a free entry
        have hf := h₁.freed n hu t ht hn
        rcases h₂.mutex_cases n with e' | ⟨_, _, e'⟩ <;> rw [e', hf]
        rfl
      · rw [h₂.freed n (by rw [e]; exact hu) t ht (by rw [hm t ht]; exact hn), e]
    · rcases h₂.mutex_cases n with e' | ⟨_, _, e'⟩ <;> rw [e', e]
      rfl
  kept n h := by
    have e1 : k1.mutex n = k.mutex n :=
      h₁.kept n (h.imp_right fun h t ht => h t (List.mem_append_left _ ht))
    rw [h₂.kept n, e1]
    rw [e1]
    exact h.imp_right fun h t ht => hm t ht ▸ h t (List.mem_append_right _ ht)
  caller := by
    rcases h₁.caller with e1 | e1 <;> rcases h₂.caller with e2 | e2 <;> rw [e2, e1] <;> simp
  hist := by
    have hn := h₁.nextmid
    obtain ⟨es1, e1, h₁⟩ := h₁.hist
    obtain ⟨es2, e2, h₂⟩ := h₂.hist
    refine ⟨es2 ++ es1, by rw [e2, e1, List.append_assoc], ?_⟩
    intro e he
    rcases List.mem_append.1 he with h | h
    · exact hn ▸ h₂ e h
    · exact h₁ e h
  proc := h₂.proc.trans h₁.proc
  nextpid := h₂.nextpid.trans h₁.nextpid
  nexttid := h₂.nexttid.trans h₁.nexttid
  nextmid := h₂.nextmid.trans h₁.nextmid

theorem removeThread (hk : MutexInv k) (hc : c ≠ t) : Swept k (k.removeThread c t) c [t] where
  freed n hu s hs hn := by
    rw [List.mem_singleton.1 hs] at hn
    rw [removeThread_mutex _ _ hk n, if_pos ⟨hn, hu⟩]
  kept n h := by
    rw [removeThread_mutex _ _ hk n, if_neg]
    rintro ⟨hn, hu⟩
    rcases h with h | h
    · exact hu h
    · exact h t (List.mem_singleton_self t) hn
  caller := removeThread_caller _ _ hc
  hist := by
    rcases removeThread_cases k c t with ⟨h, _⟩ | ⟨m, n, _, _, _, h⟩
    · exact ⟨[], by rw [h]; rfl, by simp⟩
    · exact ⟨[_], by rw [h]; rfl, by simpa using hk.mid_lt m⟩
  proc := (removeThread_frame _ _).1
  nextpid := (removeThread_frame _ _).2.1
  nexttid := (removeThread_frame _ _).2.2.1
  nextmid := (removeThread_frame _ _).2.2.2

theorem mutexInv (h : Swept k k1 c vs) (hk : MutexInv k) : MutexInv k1 := by
  refine hk.step none h.nextmid.ge fun m => ?_
  rcases h.mutex_cases m with e | ⟨_, _, e⟩ <;> rw [e]
  · exact ⟨.inl rfl, hk.locked_owned m, hk.unlocked_free m⟩
  · exact ⟨.inr (.inl rfl), (by intro hl; cases hl), fun _ => rfl⟩

end Swept

/-! ## The removals of one section -/

/-- `c` passes the threads `ts` to `remove_thread`, one after the other, and may
mark threads as killed in between. -/
inductive Removing (c : ThreadRef) : Kernel → List ThreadRef → Kernel → Prop
  | done (k : Kernel) : Removing c k [] k
  | mark {k k' : Kernel} {t : ThreadRef} {ts : List ThreadRef} (hc : c ≠ t)
      (h : Removing c (k.setThread t fun x => { x with killed := true }) ts k') :
      Removing c k ts k'
  | remove {k k' : Kernel} {t : ThreadRef} {ts : List ThreadRef} (hc : c ≠ t) (ht : t ∉ ts)
      (h : Removing c (k.removeThread c t) ts k') : Removing c k (t :: ts) k'

variable {c t} {k' : Kernel} {ts : List ThreadRef}

theorem Removing.ne_of_mem (h : Removing c k ts k') : ∀ s ∈ ts, s ≠ c := by
  induction h with
  | done => intro s hs; cases hs
  | mark _ _ ih => exact ih
  | remove hc _ _ ih =>
    intro s hs
    rcases List.mem_cons.1 hs with rfl | hs
    · exact hc.symm
    · exact ih s hs

theorem Swept.setThread (hc : c ≠ t) (f : Thread → Thread) : Swept k (k.setThread t f) c [] :=
  ⟨by simp, by simp, by simp [hc], ⟨[], rfl, by simp⟩, rfl, rfl, rfl, rfl⟩

theorem Removing.swept (h : Removing c k ts k') (hk : MutexInv k) : Swept k k' c ts := by
  induction h with
  | done k => exact Swept.refl k c
  | @mark k k' t ts hc h ih =>
    have h₁ : Swept k (k.setThread t fun x => { x with killed := true }) c [] := .setThread hc _
    refine h₁.trans (ih (h₁.mutexInv hk)) ?_
    intro s _
    simp only [setThread_thread]
    split <;> rfl
  | @remove k k' t ts hc ht h ih =>
    have h₁ := Swept.removeThread t hk hc
    refine h₁.trans (ih (h₁.mutexInv hk)) ?_
    intro s hs
    rw [removeThread_thread _ _ _ (h.ne_of_mem s hs)]
    split <;> rfl

/-- The loop of `wait` over the threads of a zombie. -/
theorem foldl_removing (hc : c ∉ ts) (hts : ts.Nodup) :
    Removing c k ts (ts.foldl (fun k t => k.removeThread c t) k) := by
  induction ts generalizing k with
  | nil => exact .done k
  | cons t ts ih =>
    obtain ⟨htts, hnd⟩ := List.nodup_cons.1 hts
    have hct : c ≠ t := fun e => hc (e ▸ List.mem_cons_self ..)
    exact .remove hct htts (ih (fun h => hc (List.mem_cons_of_mem _ h)) hnd)

variable {s : ThreadRef}

theorem foldl_removeThread_thread (hts : ts.Nodup)
    (hs : s ≠ c) : (ts.foldl (fun k t => k.removeThread c t) k).thread s =
      if s ∈ ts then (k.thread s).remove else k.thread s := by
  induction ts generalizing k with
  | nil => rfl
  | cons t ts ih =>
    obtain ⟨htts, hnd⟩ := List.nodup_cons.1 hts
    rw [List.foldl_cons, ih hnd, removeThread_thread _ _ _ hs]
    by_cases e : s = t
    · subst e; simp [htts]
    · simp [e]

/-! ## The scan of `kill_other_threads` -/

/-- The record of a thread other than the scanning one after the scan has
visited it. -/
def scanned (k : Kernel) (c s : ThreadRef) : Thread :=
  if k.victim c s then (k.thread s).remove
  else if k.doomed c s then { k.thread s with killed := true } else k.thread s

theorem doomed_ne (h : k.doomed c t = true) : c ≠ t := by
  rintro rfl
  simp [doomed] at h

variable {k : Kernel}

theorem doomed_congr (hc : (k'.thread c).tid = (k.thread c).tid)
    (ht : t ≠ c → k'.thread t = k.thread t) : k'.doomed c t = k.doomed c t := by
  by_cases e : t = c
  · subst e; simp [doomed]
  · simp [doomed, hc, ht e]

theorem victim_congr (hc : (k'.thread c).tid = (k.thread c).tid)
    (ht : t ≠ c → k'.thread t = k.thread t) : k'.victim c t = k.victim c t := by
  by_cases e : t = c
  · subst e; simp [victim, doomed]
  · simp [victim, doomed, hc, ht e]

theorem Swept.caller_tid {vs : List ThreadRef} (h : Swept k k' c vs) :
    (k'.thread c).tid = (k.thread c).tid := by
  rcases h.caller with e | e <;> rw [e]

theorem killVisit_cases (k : Kernel) (c t : ThreadRef) (b : Bool) :
    (k.doomed c t = false ∧ k.victim c t = false ∧ killVisit c (b, k) t = (b, k)) ∨
    (k.doomed c t = true ∧ k.victim c t = false ∧ killVisit c (b, k) t =
      (true, k.setThread t fun x => { x with killed := true })) ∨
    (k.doomed c t = true ∧ k.victim c t = true ∧ killVisit c (b, k) t =
      (true, (k.setThread t fun x => { x with killed := true }).removeThread c t)) := by
  unfold killVisit
  cases hd : k.doomed c t with
  | false => exact .inl ⟨rfl, by simp [victim, hd], by simp⟩
  | true =>
    cases hv : k.victim c t with
    | false => exact .inr (.inl ⟨rfl, rfl, by simp⟩)
    | true => exact .inr (.inr ⟨rfl, rfl, by simp⟩)

theorem killVisit_found (k : Kernel) (c t : ThreadRef) (b : Bool) :
    (killVisit c (b, k) t).1 = (b || k.doomed c t) := by
  rcases killVisit_cases k c t b with ⟨hd, _, h⟩ | ⟨hd, _, h⟩ | ⟨hd, _, h⟩ <;> rw [h, hd] <;> simp

theorem killVisit_thread (k : Kernel) (b : Bool) (hs : s ≠ c) :
    (killVisit c (b, k) t).2.thread s = if s = t then k.scanned c s else k.thread s := by
  rcases killVisit_cases k c t b with ⟨hd, hv, h⟩ | ⟨hd, hv, h⟩ | ⟨hd, hv, h⟩ <;> rw [h]
  · split
    · rename_i e; subst e; simp [scanned, hd, hv]
    · rfl
  · by_cases e : s = t
    · subst e; simp [scanned, hd, hv]
    · simp [e]
  · rw [removeThread_thread _ _ _ hs]
    by_cases e : s = t
    · subst e; simp [scanned, hv, Thread.remove]
    · simp [e]

theorem killVisit_caller_tid (k : Kernel) (c t : ThreadRef) (b : Bool) :
    ((killVisit c (b, k) t).2.thread c).tid = (k.thread c).tid := by
  rcases killVisit_cases k c t b with ⟨_, _, h⟩ | ⟨hd, _, h⟩ | ⟨hd, _, h⟩ <;> rw [h]
  · simp [doomed_ne hd]
  · rcases removeThread_caller (k := k.setThread t fun x => { x with killed := true }) c t
      (doomed_ne hd) with e | e <;> rw [e] <;> simp [doomed_ne hd]

/-- The visit of `t` decides nothing about the threads visited later. -/
theorem killVisit_later (k : Kernel) (b : Bool) (hst : s ≠ t) :
    (killVisit c (b, k) t).2.doomed c s = k.doomed c s ∧
    (killVisit c (b, k) t).2.victim c s = k.victim c s := by
  have htid := killVisit_caller_tid k c t b
  have hth : s ≠ c → (killVisit c (b, k) t).2.thread s = k.thread s := by
    intro hs
    rw [killVisit_thread k b hs, if_neg hst]
  exact ⟨doomed_congr htid hth, victim_congr htid hth⟩

theorem foldl_killVisit_removing (hts : ts.Nodup) (b : Bool) :
    Removing c k (ts.filter (k.victim c)) (ts.foldl (killVisit c) (b, k)).2 := by
  induction ts generalizing k b with
  | nil => exact .done k
  | cons t ts ih =>
    obtain ⟨htts, hnd⟩ := List.nodup_cons.1 hts
    have hv : ∀ s ∈ ts, (killVisit c (b, k) t).2.victim c s = k.victim c s := by
      intro s hs
      exact (killVisit_later k b (by rintro rfl; exact htts hs)).2
    have hrest := ih (k := (killVisit c (b, k) t).2) hnd (killVisit c (b, k) t).1
    rw [List.filter_congr hv] at hrest
    rw [List.foldl_cons, List.filter_cons]
    rcases killVisit_cases k c t b with ⟨_, hvt, h⟩ | ⟨hd, hvt, h⟩ | ⟨hd, hvt, h⟩ <;>
      rw [h] at hrest ⊢ <;> rw [hvt]
    · exact hrest
    · exact .mark (doomed_ne hd) hrest
    · refine .mark (doomed_ne hd) (.remove (doomed_ne hd) ?_ hrest)
      exact fun hm => htts (List.mem_filter.1 hm).1

theorem foldl_killVisit_thread (hts : ts.Nodup) (b : Bool)
    (hs : s ≠ c) : (ts.foldl (killVisit c) (b, k)).2.thread s =
      if s ∈ ts then k.scanned c s else k.thread s := by
  induction ts generalizing k b with
  | nil => rfl
  | cons t ts ih =>
    obtain ⟨htts, hnd⟩ := List.nodup_cons.1 hts
    rw [List.foldl_cons,
      show killVisit c (b, k) t = ((killVisit c (b, k) t).1, (killVisit c (b, k) t).2) from rfl,
      ih hnd]
    by_cases e : s = t
    · subst e; simp [htts, killVisit_thread k b hs]
    · obtain ⟨hd, hv⟩ := killVisit_later (c := c) k b e
      simp [e, scanned, hd, hv, killVisit_thread k b hs]

theorem foldl_killVisit_found (hts : ts.Nodup) (b : Bool) :
    (ts.foldl (killVisit c) (b, k)).1 = (b || ts.any (k.doomed c)) := by
  induction ts generalizing k b with
  | nil => simp
  | cons t ts ih =>
    obtain ⟨htts, hnd⟩ := List.nodup_cons.1 hts
    have hd : ts.any ((killVisit c (b, k) t).2.doomed c) = ts.any (k.doomed c) := by
      rw [Bool.eq_iff_iff, List.any_eq_true, List.any_eq_true]
      refine exists_congr fun s => and_congr_right fun hs => ?_
      rw [(killVisit_later k b (by rintro rfl; exact htts hs)).1]
    rw [List.foldl_cons,
      show killVisit c (b, k) t = ((killVisit c (b, k) t).1, (killVisit c (b, k) t).2) from rfl,
      ih hnd, hd, killVisit_found, List.any_cons, Bool.or_assoc]

/-- The threads that the scan of `c` passes to `remove_thread`. -/
def victims (k : Kernel) (c : ThreadRef) : List ThreadRef := (slots c.1).filter (k.victim c)

theorem killScan_removing (k : Kernel) (c : ThreadRef) :
    Removing c k (k.victims c) (k.killScan c).2 :=
  foldl_killVisit_removing (slots_nodup c.1) false

theorem killScan_swept (hk : MutexInv k) : Swept k (k.killScan c).2 c (k.victims c) :=
  (killScan_removing k c).swept hk

theorem killScan_thread (hs : s ≠ c) :
    (k.killScan c).2.thread s = if s.1 = c.1 then k.scanned c s else k.thread s := by
  have h := foldl_killVisit_thread (k := k) (slots_nodup c.1) false hs
  simp only [mem_slots] at h
  exact h

theorem killScan_found (k : Kernel) (c : ThreadRef) :
    (k.killScan c).1 = (slots c.1).any (k.doomed c) :=
  foldl_killVisit_found (slots_nodup c.1) false

/-- A turn of the loop is a scan, after which `c` scans again or goes on. -/
theorem killTurn_cases (k : Kernel) (c : ThreadRef) (a : Caller) :
    ((k.killScan c).1 = true ∧ k.killTurn c a = (k.killScan c).2.setThread c
      fun t => { t with state := .TRUNNABLE, context := .killLoop a }) ∨
    ((k.killScan c).1 = false ∧ k.killTurn c a = (k.killScan c).2.setThread c
      fun t => { t with context := a.resume }) := by
  unfold killTurn
  cases h : (k.killScan c).1 with
  | true => exact .inl ⟨rfl, if_pos h⟩
  | false => exact .inr ⟨rfl, if_neg (by simp [h])⟩

/-- As far as the tables go, a turn is its scan. -/
theorem killTurn_scan (k : Kernel) (c : ThreadRef) (a : Caller) :
    ∃ f, k.killTurn c a = (k.killScan c).2.setThread c f := by
  rcases killTurn_cases k c a with ⟨_, h⟩ | ⟨_, h⟩ <;> exact ⟨_, h⟩

theorem killTurn_thread (k : Kernel) (a : Caller) (hs : s ≠ c) :
    (k.killTurn c a).thread s = if s.1 = c.1 then k.scanned c s else k.thread s := by
  obtain ⟨f, h⟩ := killTurn_scan k c a
  rw [h, setThread_thread, if_neg hs, killScan_thread hs]

/-! ## New threads -/

/-- What `kthread_create` and `fork` have in common, also when they fail: thread `c`
returns, and the unused record `t` takes the next tid. -/
structure Starts (k k' : Kernel) (c t : ThreadRef) : Prop where
  ne : c ≠ t
  unused : (k.thread t).state = .TUNUSED
  caller : ∃ v, k'.thread c = { k.thread c with context := .ret v }
  tid : (k'.thread t).tid = k.nexttid
  pointer : (k'.thread t).mutex = (k.thread t).mutex
  killed : (k'.thread t).killed = (k.thread t).killed
  context : (k'.thread t).state ≠ .TUNUSED → (k'.thread t).context = .user
  state : (k'.thread t).state = .TRUNNABLE ∨
    (k'.thread t).state = .TUNUSED ∧ (k'.thread t).context = (k.thread t).context
  other : ∀ s, s ≠ t → s ≠ c → k'.thread s = k.thread s
  proc : ∀ q, q ≠ t.1 → k'.proc q = k.proc q
  mutex : k'.mutex = k.mutex
  hist : k'.hist = k.hist
  nexttid : k'.nexttid = k.nexttid + 1
  nextmid : k'.nextmid = k.nextmid

theorem starts_create (hct : c ≠ t) (hu : (k.thread t).state = .TUNUSED) (a : Nat) (v : Int) :
    Starts k ((k.startThread t a).sysret c v) c t := by
  refine ⟨hct, hu, ⟨v, ?_⟩, ?_, ?_, ?_, ?_, ?_, ?_, fun _ _ => rfl, rfl, rfl, rfl, rfl⟩
  · simp [startThread, sysret, hct]
  on_goal 6 => intro s hst hsc; simp [startThread, sysret, hst, hsc]
  all_goals simp [startThread, sysret, hct.symm]

theorem starts_createFail (hct : c ≠ t) (hu : (k.thread t).state = .TUNUSED) (v : Int) :
    Starts k ((k.spoilThread t).sysret c v) c t := by
  refine ⟨hct, hu, ⟨v, ?_⟩, ?_, ?_, ?_, ?_, ?_, ?_, fun _ _ => rfl, rfl, rfl, rfl, rfl⟩
  · simp [spoilThread, sysret, hct]
  on_goal 6 => intro s hst hsc; simp [spoilThread, sysret, hst, hsc]
  all_goals simp [spoilThread, sysret, hct.symm]

/-- `allocthread` and `fork` write the process of the new thread as well. -/
theorem Starts.of_proc {k1 : Kernel} (h : Starts k1 k' c t) (hth : k1.thread = k.thread)
    (hp : ∀ q, q ≠ t.1 → k1.proc q = k.proc q) (hm : k1.mutex = k.mutex) (hh : k1.hist = k.hist)
    (hn : k1.nexttid = k.nexttid) (hn' : k1.nextmid = k.nextmid) : Starts k k' c t := by
  obtain ⟨h1, h2, h3, h4, h5, h6, h7, h8, h9, h10, h11, h12, h13, h14⟩ := h
  rw [hth] at h2 h3 h5 h6 h8
  rw [hn] at h4 h13
  exact ⟨h1, h2, h3, h4, h5, h6, h7, h8, fun s hst hsc => by rw [h9 s hst hsc, hth],
    fun q hq => (h10 q hq).trans (hp q hq), h11.trans hm, h12.trans hh, h13, h14.trans hn'⟩

variable {p}

theorem starts_fork (hct : c ≠ (p, 0)) (hu : (k.thread (p, 0)).state = .TUNUSED) (a : Nat)
    (v : Int) : Starts k ((((k.takeProc p).setProc p fun q => { q with
      state := .PUSED, parent := some c.1 }).startThread (p, 0) a).sysret c v) c (p, 0) := by
  have h := starts_create (k := (k.takeProc p).setProc p fun q => { q with
    state := .PUSED, parent := some c.1 }) hct hu a v
  exact h.of_proc rfl (fun q hq => by simp [takeProc, show q ≠ p from hq]) rfl rfl rfl rfl

theorem starts_forkFail (hct : c ≠ (p, 0)) (hu : (k.thread (p, 0)).state = .TUNUSED) (v : Int) :
    Starts k (((k.takeProc p).spoilThread (p, 0)).sysret c v) c (p, 0) := by
  have h := starts_createFail (k := k.takeProc p) hct hu v
  exact h.of_proc rfl (fun q hq => by simp [takeProc, show q ≠ p from hq]) rfl rfl rfl rfl

/-- Every record but `t` keeps its tid and stays used or unused. -/
theorem Starts.keep (h : Starts k k' c t) (hs : s ≠ t) :
    (k'.thread s).tid = (k.thread s).tid ∧ (k'.thread s).state = (k.thread s).state ∧
      (k'.thread s).killed = (k.thread s).killed ∧ (k'.thread s).mutex = (k.thread s).mutex := by
  rcases eq_or_ne s c with rfl | e
  · obtain ⟨v, hc⟩ := h.caller
    rw [hc]
    exact ⟨rfl, rfl, rfl, rfl⟩
  · rw [h.other s hs e]
    exact ⟨rfl, rfl, rfl, rfl⟩

end Xv6.Kernel
