import Xv6.Kernel.Family
import Xv6.Kernel.Join
import Xv6.Kernel.Teardown

/-! A process in use always has a live thread. The two sections that end a thread
look at different things: `kthread_exit` at the states of the other threads, the first
branch of `kill_other_threads` only at the mark of its own. The second is safe because a
thread is marked by another one that is in the loop of `kill_other_threads`, and that one
stays in the loop, neither asleep nor dead, as long as the marked thread is there. -/

namespace Xv6

/-- In the loop of `kill_other_threads` and not asleep. -/
def Thread.Kills (t : Thread) : Prop :=
  t.Alive ∧ t.state ≠ .TSLEEPING ∧ ∃ a, t.context = .killLoop a

/-- A change of a record that marks no thread and takes none out of the loop. -/
structure Thread.Tame (t t' : Thread) : Prop where
  killed : (t'.killed = t.killed ∧
      (t'.state = .TUNUSED → t.state = .TUNUSED ∨ (t.Alive ∧ t.context = .safeExit))) ∨
    (t'.state = .TUNUSED ∧ t'.killed = false)
  kills : t.Kills → t'.Kills

namespace Thread

variable {t t' : Thread}

theorem Kills.calm (h : t.Kills) (hc : t.Calm t') : t'.Kills := by
  obtain ⟨ha, hst, a, hx⟩ := h
  have hx' : t'.context = .killLoop a := by
    rcases hc.context with e | ⟨_, _, hp | hp⟩
    · exact e.trans hx
    · rw [hx] at hp
      cases hp
    · rw [hx] at hp
      cases hp
  refine ⟨hc.alive.2 ha, ?_, a, hx'⟩
  intro hs
  rcases hc.asleep hs with ⟨hs', _⟩ | hp | he
  · exact hst hs'
  · rw [hx'] at hp
    cases hp
  · rw [hx'] at he
    cases he

theorem Tame.calm (h : t.Calm t') : Tame t t' :=
  ⟨.inl ⟨h.killed, fun hu => .inl (h.unused.1 hu)⟩, fun hk => hk.calm h⟩

theorem Tame.remove (h : ¬ t.Kills) : Tame t t.remove := ⟨.inr ⟨rfl, rfl⟩, fun hk => absurd hk h⟩

theorem Tame.moves (hx : ∀ a, t.context ≠ .killLoop a)
    (hk : t'.killed = t.killed) (hu : t'.state ≠ .TUNUSED) : Tame t t' := by
  refine ⟨.inl ⟨hk, fun h => absurd h hu⟩, ?_⟩
  rintro ⟨_, _, a, ha⟩
  exact absurd ha (hx a)

end Thread

namespace Kernel

open Runs

variable {k k' : Kernel} {l : Label} {c r s t : ThreadRef}

/-! ## Marks -/

/-- **Marks.** A step is a scan of `kill_other_threads`, or it marks no thread and takes
no thread out of the loop. -/
theorem scan_or_tame (h : Inv k) (he : Turn k l k') :
    (∃ c a x, Acts k l c x ∧ k' = k.killTurn c a) ∨ ∀ s, (k.thread s).Tame (k'.thread s) := by
  by_cases hscan : ∃ c a x, Acts k l c x ∧ k' = k.killTurn c a
  · exact .inl hscan
  refine .inr fun s => ?_
  cases seen h he s with
  | woken h => exact .calm h.calm
  | goes h => exact .calm h.calm
  | naps hrun hx why e => exact .moves hx (by simp [e, sleep]) (by simp [e, sleep])
  | acts ha hx tid killed state =>
    refine .moves (fun a e => ?_) killed (by simp [state])
    rw [← ha.2.2, e] at hx
    cases hx
  | scans ha hx e => exact absurd ⟨s, _, _, ha, e⟩ hscan
  | marked ha hx e => exact absurd ⟨_, _, _, ha, e⟩ hscan
  | dies ha hx hd =>
    refine .moves (fun a e => ?_) (by rw [hd.self]) (by simp [hd.state])
    rw [← ha.2.2, e] at hx
    cases hx
  | starts hs =>
    exact ⟨.inl ⟨hs.killed, fun _ => .inl hs.unused⟩, fun hk => absurd hs.unused hk.1.1⟩
  | removed hm e =>
    rw [e]
    exact .remove fun hk => hk.2.1 (h.asleep_of_removed hm hk.1)
  | exits ha e =>
    rw [e, safeExit_self ha.2.1]
    refine ⟨.inl ⟨rfl, fun _ => .inr ⟨⟨by simp [ha.2.1], by simp [ha.2.1]⟩, ha.2.2⟩⟩, ?_⟩
    rintro ⟨_, _, a, hx⟩
    rw [ha.2.2] at hx
    cases hx

/-! ## The invariant -/

structure LiveInv (k : Kernel) : Prop where
  /-- A marked thread has been marked by another one, which is in the loop. -/
  killer : ∀ t, (k.thread t).Alive → (k.thread t).killed →
    ∃ r, r.1 = t.1 ∧ r ≠ t ∧ (k.thread r).Kills
  loop : ∀ r, InLoop k r → (k.thread r).state ≠ .TSLEEPING
  unmarked : ∀ t, (k.thread t).state = .TUNUSED → (k.thread t).killed = false
  peopled : ∀ p, (k.proc p).state = .PUSED → ∃ t, t.1 = p ∧ (k.thread t).Alive

theorem boot_liveInv : LiveInv boot where
  killer t _ hk := by
    simp only [boot] at hk
    split at hk <;> cases hk
  loop r hr := by
    obtain ⟨_, a, hx⟩ := hr
    simp only [boot] at hx
    split at hx <;> cases hx
  unmarked t _ := by
    simp only [boot]
    split <;> rfl
  peopled p hp := by
    simp only [boot] at hp
    split at hp
    · rename_i e
      exact ⟨(initproc, 0), e.symm, by simp [boot, Thread.Alive]⟩
    · cases hp

section Scan

variable {a : Caller}

/-- A scan that finds a thread leaves the caller in the loop. -/
theorem killTurn_kills (hi : Inv k) (ht : (k.thread t).state ≠ .TUNUSED) (hp : t.1 = c.1)
    (hne : t ≠ c) : ((k.killTurn c a).thread c).Kills := by
  rcases killTurn_cases k c a with ⟨_, e⟩ | ⟨hf, _⟩
  · rw [e, setThread_thread, if_pos rfl]
    exact ⟨⟨nofun, nofun⟩, nofun, a, rfl⟩
  · exact absurd (hi.unused_of_not_found hf hp hne) ht

/-- A scan keeps the other threads in the loop. -/
theorem kills_killTurn (hr : (k.thread r).Kills) (hne : r ≠ c) :
    ((k.killTurn c a).thread r).Kills := by
  rw [killTurn_thread k a hne]
  split
  · have hv : k.victim c r = false := by simp [victim, hr.1.2, hr.2.1]
    unfold scanned
    rw [hv]
    simp only [Bool.false_eq_true, ↓reduceIte]
    split <;> exact hr
  · exact hr

theorem LiveInv.killer_scan (h : LiveInv k) (hi : Inv k) (hrun : (k.thread c).state = .TRUNNING)
    (ht : ((k.killTurn c a).thread t).Alive) (hk : ((k.killTurn c a).thread t).killed) :
    ∃ r, r.1 = t.1 ∧ r ≠ t ∧ ((k.killTurn c a).thread r).Kills := by
  by_cases hsame : t ≠ c ∧ t.1 = c.1
  · -- marked by the scan itself: `c` stays in the loop
    obtain ⟨hne, hp⟩ := hsame
    refine ⟨c, hp.symm, hne.symm, killTurn_kills hi ?_ hp hne⟩
    rw [killTurn_thread k a hne, if_pos hp] at ht
    rcases scanned_cases k c t with ⟨_, hst, _⟩ | ⟨_, hst⟩
    · exact hst ▸ ht.1
    · exact absurd hst ht.1
  · -- marked before: the one who did it is not `c`
    have hold : (k.thread t).Alive ∧ (k.thread t).killed := by
      by_cases e : t = c
      · subst e
        exact ⟨⟨by simp [hrun], by simp [hrun]⟩, (killTurn_caller hi hrun).2.1 ▸ hk⟩
      · have hp : t.1 ≠ c.1 := fun hp => hsame ⟨e, hp⟩
        rw [killTurn_thread k a e, if_neg hp] at ht hk
        exact ⟨ht, hk⟩
    obtain ⟨r, hrp, hne, hkills⟩ := h.killer t hold.1 hold.2
    refine ⟨r, hrp, hne, kills_killTurn hkills ?_⟩
    rintro rfl
    exact hsame ⟨hne.symm, hrp.symm⟩

theorem LiveInv.loop_scan (h : LiveInv k) (hr : InLoop (k.killTurn c a) r) :
    ((k.killTurn c a).thread r).state ≠ .TSLEEPING := by
  by_cases e : r = c
  · subst e
    obtain ⟨_, a', hx⟩ := hr
    rcases killTurn_cases k r a with ⟨_, e⟩ | ⟨_, e⟩ <;>
      rw [e, setThread_thread, if_pos rfl] at hx ⊢
    · nofun
    · cases a <;> cases hx
  · have hl := hr.of_killTurn e
    exact (kills_killTurn ⟨hl.1, h.loop r hl, hl.2⟩ e).2.1

theorem LiveInv.unmarked_scan (h : LiveInv k) (hi : Inv k) (hrun : (k.thread c).state = .TRUNNING)
    (ht : ((k.killTurn c a).thread t).state = .TUNUSED) :
    ((k.killTurn c a).thread t).killed = false := by
  by_cases e : t = c
  · subst e
    exact absurd ht (killTurn_alive hi hrun).1
  · rw [killTurn_thread k a e] at ht ⊢
    split at ht
    · rename_i hp
      rw [if_pos hp]
      unfold scanned at ht ⊢
      split
      · rfl
      · rename_i hv
        rw [if_neg hv] at ht
        split
        · rename_i hd
          rw [if_pos hd] at ht
          simp only [doomed, decide_eq_true_eq] at hd
          exact absurd ht hd.2
        · rename_i hd
          rw [if_neg hd] at ht
          exact h.unmarked t ht
    · rename_i hp
      rw [if_neg hp]
      exact h.unmarked t ht

end Scan

section Tame

variable (h : LiveInv k) (hi : Inv k) (hs : k.step l = some k')
  (htame : ∀ s, (k.thread s).Tame (k'.thread s))

include h hi htame

theorem LiveInv.unmarked_tame (ht : (k'.thread t).state = .TUNUSED) :
    (k'.thread t).killed = false := by
  rcases (htame t).killed with ⟨hk, hu⟩ | ⟨_, hk⟩
  · rw [hk]
    rcases hu ht with hu | ⟨ha, hx⟩
    · exact h.unmarked t hu
    · -- the last thread of a process that exits has nobody left to mark it
      by_contra hmarked
      obtain ⟨r, hp, hne, hkills⟩ := h.killer t ha (by simpa using hmarked)
      exact hkills.1.1 (hi.solo t ha (by rw [hx]; rfl) r hp hne)
  · exact hk

include hs

theorem LiveInv.killer_tame (ht : (k'.thread t).Alive) (hk : (k'.thread t).killed) :
    ∃ r, r.1 = t.1 ∧ r ≠ t ∧ (k'.thread r).Kills := by
  obtain ⟨hkilled, _⟩ := (htame t).killed.resolve_right fun hu => ht.1 hu.1
  rw [hkilled] at hk
  have hold : (k.thread t).Alive := by
    cases fate hi (turn_of_step hs) t with
    | stays tid unused zombie => exact ⟨(not_congr unused).1 ht.1, fun hz => ht.2 (zombie hz)⟩
    | starts unused =>
      rw [h.unmarked t unused] at hk
      cases hk
    | removed mem tid unused | exits acts tid unused => exact absurd unused ht.1
  obtain ⟨r, hp, hne, hkills⟩ := h.killer t hold hk
  exact ⟨r, hp, hne, (htame r).kills hkills⟩

theorem LiveInv.loop_tame (hr : InLoop k' r) : (k'.thread r).state ≠ .TSLEEPING := by
  obtain ⟨ha, a, hx⟩ := hr
  rcases tearing_of_step hi hs (r := r) (by rw [hx]; rfl) with e | ⟨a', x, hact, _, rfl⟩
  · rcases (fate hi (turn_of_step hs) r).born ha with ha' | ⟨_, hx'⟩
    · rw [hx] at e
      exact ((htame r).kills ⟨ha', h.loop r ⟨ha', a, e⟩, a, e⟩).2.1
    · rw [hx] at hx'
      cases hx'
  · exact h.loop_scan ⟨ha, a, hx⟩

end Tame

/-- A process in use was in use before the step, or has just been forked. -/
theorem used_of_step (hi : Inv k) (hs : k.step l = some k') {p : ProcIx}
    (hp : (k'.proc p).state = .PUSED) : (k.proc p).state = .PUSED ∨ (k'.thread (p, 0)).Alive := by
  cases kin hi (turn_of_step hs) with
  | same state | failed state => exact .inl (state p ▸ hp)
  | @born c q ha unused state parent other thread =>
    by_cases e : p = q
    · subst e
      exact .inr ⟨by simp [thread], by simp [thread]⟩
    · exact .inl (other p e ▸ hp)
  | @exited c ha e =>
    subst e
    obtain ⟨_, _, _, _, _, hst, _⟩ := safeExit_same k c
    rw [hst] at hp
    split at hp
    · cases hp
    · exact .inl hp
  | @reaped c q x ha hx zombie state parent other ret =>
    by_cases e : p = q
    · subst e
      rw [state] at hp
      cases hp
    · exact .inl (other p e ▸ hp)

/-- The two sections that make a thread a zombie leave another one alive. -/
theorem LiveInv.survivor (h : LiveInv k) (hd : Dies k l t k') (ha : (k.thread t).Alive) :
    ∃ s, s.1 = t.1 ∧ (k'.thread s).Alive := by
  have hkeep : ∀ s, s ≠ t → (k.thread s).Alive → (k'.thread s).Alive := by
    intro s hs halive
    rcases hd.other hs with ⟨e, _⟩ | e <;> rw [e]
    · exact halive
    · exact (Thread.Calm.wake _ _).alive.2 halive
  cases id hd with
  | exits hact hothers =>
    obtain ⟨s, hs, hcond⟩ := List.any_eq_true.1 hothers
    obtain ⟨hne, hu, hz⟩ := of_decide_eq_true hcond
    exact ⟨s, mem_slots.1 hs, hkeep s hne ⟨hu, hz⟩⟩
  | killed hact hk =>
    obtain ⟨r, hp, hne, hkills⟩ := h.killer t ha hk
    exact ⟨r, hp, hkeep r hne hkills.1⟩

theorem LiveInv.peopled_step (h : LiveInv k) (hi : Inv k) (hs : k.step l = some k') {p : ProcIx}
    (hp : (k'.proc p).state = .PUSED) : ∃ t, t.1 = p ∧ (k'.thread t).Alive := by
  have he := turn_of_step hs
  rcases used_of_step hi hs hp with hp' | hnew
  · obtain ⟨t, rfl, ha⟩ := h.peopled p hp'
    cases fate hi he t with
    | stays tid unused =>
      by_cases hz : (k'.thread t).state = .TZOMBIE
      · exact h.survivor ((zombie_of_step hi hs hz).resolve_left ha.2) ha
      · exact ⟨t, rfl, (not_congr unused).2 ha.1, hz⟩
    | starts unused => exact absurd unused ha.1
    | removed mem =>
      obtain ⟨c, a, hrun, hv, rfl⟩ := scan_of_removed hi he mem ha
      have hmem : t ∈ slots c.1 := List.mem_of_mem_filter hv
      exact ⟨c, (mem_slots.1 hmem).symm, killTurn_alive hi hrun⟩
    | exits acts tid unused proc =>
      rw [proc] at hp
      cases hp
  · exact ⟨(p, 0), rfl, hnew⟩

theorem LiveInv.step (h : LiveInv k) (hi : Inv k) (hs : k.step l = some k') : LiveInv k' := by
  have hpeopled := fun p hp => h.peopled_step hi hs (p := p) hp
  rcases scan_or_tame hi (turn_of_step hs) with ⟨c, a, x, ha, rfl⟩ | htame
  · exact ⟨fun _ => h.killer_scan hi ha.2.1, fun _ => h.loop_scan,
      fun _ => h.unmarked_scan hi ha.2.1, hpeopled⟩
  · exact ⟨fun _ => h.killer_tame hi hs htame, fun _ => h.loop_tame hi hs htame,
      fun _ => h.unmarked_tame hi htame, hpeopled⟩

variable {G : Guard Kernel Label}

theorem reachable_liveInv (hr : Run Kernel.step G boot k) : LiveInv k := by
  apply hr.invariant_with (fun _ hb => reachable_inv hb) boot_liveInv
  intro a l b hi h hs _
  exact h.step hi hs

theorem reachable_valid (hr : Run Kernel.step G boot k) (s : ThreadRef) :
    (k.thread s).state ≠ .TINVALID := by
  have hboot : ∀ s, (boot.thread s).state ≠ .TINVALID := by
    intro s hs
    simp only [boot] at hs
    split at hs <;> cases hs
  have h : ∀ s, (k.thread s).state ≠ .TINVALID := by
    apply hr.invariant_with (I := fun k => ∀ s, (k.thread s).state ≠ .TINVALID)
      (fun _ hb => reachable_inv hb) hboot
    intro a l b hi h hs _ s hv
    exact h s (invalid_of_step hi hs hv)
  exact h s

/-- **A process in use has a live thread**, in every reachable state: it is never left
with zombies and unused records only. -/
theorem used_process_live (hr : Run Kernel.step free boot k) {p : ProcIx}
    (hp : (k.proc p).state = .PUSED) :
    ∃ t, t.1 = p ∧ ((k.thread t).state = .TEMBRYO ∨ (k.thread t).state = .TSLEEPING ∨
      (k.thread t).state = .TRUNNABLE ∨ (k.thread t).state = .TRUNNING) := by
  obtain ⟨t, ht, hu, hz⟩ := (reachable_liveInv hr).peopled p hp
  have hv := reachable_valid hr t
  refine ⟨t, ht, ?_⟩
  cases hst : (k.thread t).state <;> simp_all

/-- The first thread of process 2 is in the loop and has marked the second one. -/
theorem used_process_live_exiting : ((after exiting).proc 1).state = .PUSED ∧
    ((after exiting).thread (1, 1)).killed = true ∧
    ∃ t, t.1 = (1 : ProcIx) ∧ (((after exiting).thread t).state = .TEMBRYO ∨
      ((after exiting).thread t).state = .TSLEEPING ∨
      ((after exiting).thread t).state = .TRUNNABLE ∨
      ((after exiting).thread t).state = .TRUNNING) := by
  have hrun : Run Kernel.step free boot (after exiting) := run_free
  have hp : ((after exiting).proc 1).state = .PUSED := by decide +kernel
  exact ⟨hp, by decide +kernel, used_process_live hrun hp⟩

/-! ## After `kill_other_threads` -/

/-- The steps in which thread `tid` in record `c` does not create a thread. -/
def Abstains (c : ThreadRef) (tid : Int) : Guard Kernel Label := fun k l _ =>
  ∀ page copied, l = .run c page copied → (k.thread c).tid = tid →
    (k.thread c).context ≠ .call .kthreadCreate

/-- Thread `tid` is in record `c`, and the process has no other thread. -/
structure Alone (k : Kernel) (c : ThreadRef) (tid : Int) : Prop where
  tid : (k.thread c).tid = tid
  seated : Seated k c
  others : ∀ s, s.1 = c.1 → s ≠ c → (k.thread s).state = .TUNUSED

variable {tid : Int}

theorem Alone.eq_of_running (h : Alone k c tid)
    (hr : (k.thread r).state = .TRUNNING) (hp : r.1 = c.1) : r = c := by
  by_contra hne
  rw [h.others r hp hne] at hr
  cases hr

/-- Only `c` itself could start another thread in the process. -/
theorem Alone.others_step (h : Alone k c tid) (hi : Inv k)
    (hs : k.step l = some k') (hg : Abstains c tid k l k') (hp : s.1 = c.1) (hne : s ≠ c) :
    (k'.thread s).state = .TUNUSED := by
  have hu := h.others s hp hne
  by_contra hu'
  cases loopStep hi hs with
  | @scan r a x ha hx =>
    have hsr : s ≠ r := by
      rintro rfl
      exact hne (h.eq_of_running ha.2.1 hp)
    rw [killTurn_thread k a hsr] at hu'
    split at hu'
    · rcases scanned_cases k r s with ⟨_, hst, _⟩ | ⟨_, hst⟩
      · exact hu' (hst.trans hu)
      · exact hu' hst
    · exact hu' hu
  | other loop threads =>
    rcases threads s hu' with ⟨hused, _⟩ | hproc | ⟨r, a, copied, hl, ha, hfree⟩
    · exact hused hu
    · rw [hp] at hproc
      rcases h.seated with hst | hz
      · rw [hi.used c hst] at hproc
        cases hproc
      · rw [hz] at hproc
        cases hproc
    · have hrp : r.1 = c.1 := (freeSlot_some hfree).1.symm.trans hp
      have e := h.eq_of_running ha.2.1 hrp
      subst e
      exact hg _ _ hl h.tid ha.2.2

theorem Alone.step (h : Alone k c tid) (hpos : tid ≠ 0) (hi : HistInv k)
    (hs : k.step l = some k') (hg : Abstains c tid k l k') : Alone k' c tid ∨ Gone k' tid := by
  by_cases htid : (k'.thread c).tid = (k.thread c).tid
  · left
    refine ⟨htid.trans h.tid, ?_, fun s hp hne => h.others_step hi.toInv hs hg hp hne⟩
    cases fate hi.toInv (turn_of_step hs) c with
    | stays tid unused zombie ends proc => exact h.seated.imp (not_congr unused).2 proc
    | starts unused proc => exact absurd h.seated (not_or.2 ⟨not_not.2 unused, proc⟩)
    | removed mem tid => exact absurd (h.tid.symm.trans (htid.symm.trans tid)) hpos
    | exits acts tid unused proc => exact .inr proc
  · right
    rw [← h.tid]
    exact gone_of_lost hi hs (h.tid ▸ hpos) htid

/-- **The caller of `kill_other_threads` is alone.** When `kill_other_threads` has returned
to `exit` or `exec` in thread `c`, every other record of the process is unused, and this
stays so as long as `c` holds that thread, in every run in which the thread itself does
not call `kthread_create`. -/
theorem kill_other_threads_alone_after {a : Caller} (hr : Run Kernel.step free boot k)
    (ha : (k.thread c).Alive) (hx : (k.thread c).context = a.resume)
    (hr' : Run Kernel.step (Abstains c (k.thread c).tid) k k')
    (htid : (k'.thread c).tid = (k.thread c).tid) (hp : s.1 = c.1) (hne : s ≠ c) :
    (k'.thread s).state = .TUNUSED := by
  have hinv := reachable_inv hr
  have hpos := hinv.tids.pos c ha.1
  have hstart : Alone k c (k.thread c).tid :=
    ⟨rfl, .inl ha.1, hinv.solo c ha (by rw [hx]; cases a <;> rfl)⟩
  have hreach : ∀ b, Run Kernel.step (Abstains c (k.thread c).tid) k b → HistInv b := by
    intro b hb
    exact reachable_histInv (hr.trans (hb.mono fun _ _ _ _ _ => trivial))
  have h : Alone k' c (k.thread c).tid ∨ Gone k' (k.thread c).tid := by
    apply hr'.invariant_with hreach (.inl hstart)
    intro a l b hi h hs hg
    rcases h with h | h
    · exact h.step hpos hi hs hg
    · exact .inr (h.step hi hs)
  rcases h with h | h
  · exact h.others s hp hne
  · exact absurd htid (h.none c)

/-- The second thread of process 2 creates a third one while the first is in `exit`;
they end, the first one leaves the loop, and runs to the end of `safe_exit`. -/
def tornDown : List Label :=
  [.dispatch (0, 0)] ++ Label.calls (0, 0) .fork ++ [.dispatch (1, 0)] ++
    Label.calls (1, 0) .kthreadCreate ++
    [.dispatch (1, 1), .syscall (1, 1) .kthreadCreate, .syscall (1, 0) .exit,
      .run (1, 0) none true, .run (1, 1) (some 0) true, .run (1, 1) none true,
      .run (1, 1) none true, .dispatch (1, 2), .dispatch (1, 0), .run (1, 0) none true,
      .timer (1, 2), .run (1, 2) none true, .dispatch (1, 0), .run (1, 0) none true,
      .dispatch (1, 0), .run (1, 0) none true]

theorem kill_other_threads_alone_after_tornDown :
    ((after tornDown).thread (1, 0)).context = .safeExit ∧
    ∀ i, i ≠ 0 → ((final Kernel.step (after tornDown)
      [.run (1, 0) none true]).thread (1, i)).state = .TUNUSED := by
  have hrun : Run Kernel.step free boot (after tornDown) := run_free
  have hx : ((after tornDown).thread (1, 0)).context = .safeExit := by
    decide +kernel
  have hst : ((after tornDown).thread (1, 0)).state = .TRUNNING := by
    decide +kernel
  have htid : ((after tornDown).thread (1, 0)).tid = 2 := by decide +kernel
  have hafter : Run Kernel.step (Abstains (1, 0) ((after tornDown).thread (1, 0)).tid)
      (after tornDown)
      (final Kernel.step (after tornDown) [.run (1, 0) none true]) := by
    refine run_final (g := fun k _ => (k.thread (1, 0)).context ≠ .call .kthreadCreate) ?_
      (by decide +kernel)
    intro a l b hg page copied _ _
    simpa using hg
  refine ⟨hx, ?_⟩
  intro i hi
  exact kill_other_threads_alone_after (a := .exit) (c := (1, 0)) hrun
    ⟨by rw [hst]; decide, by rw [hst]; decide⟩ hx hafter
    (by rw [htid]; decide +kernel) rfl (by simpa using hi)

end Kernel
end Xv6
