import Xv6.Kernel.Outcome

/-! The loop of `kill_other_threads`. Its first scan marks every other thread of
the process as killed, and a marked thread that comes to `kill_other_threads`
ends there. What this leaves open is a thread that is marked while it is inside
`kthread_create`: the thread it creates is not marked. -/

namespace Xv6.Kernel

open Runs

variable {k k' : Kernel} {l : Label} {c r s t : ThreadRef}

/-- Thread `r` is inside the `for(;;)` of `kill_other_threads`. -/
def InLoop (k : Kernel) (r : ThreadRef) : Prop :=
  (k.thread r).Alive ∧ ∃ a, (k.thread r).context = .killLoop a

/-- What a step means to the loop: a scan, or a step after which the threads in
the loop were in it before, and every thread was there before unmarked or not,
or is new. -/
inductive LoopStep (k : Kernel) (l : Label) : Kernel → Prop
  | scan {c : ThreadRef} {a : Caller} {x : Context} (ha : Acts k l c x)
      (hx : x = .killLoop a ∨ (x.plain ∧ (k.thread c).killed = false)) :
      LoopStep k l (k.killTurn c a)
  | other {k' : Kernel} (loop : ∀ r, InLoop k' r → InLoop k r)
      (threads : ∀ s, (k'.thread s).state ≠ .TUNUSED →
        ((k.thread s).state ≠ .TUNUSED ∧ (k'.thread s).killed = (k.thread s).killed) ∨
        (k.proc s.1).state = .PUNUSED ∨
        ∃ c a copied, l = .run c (some a) copied ∧ Acts k l c (.call .kthreadCreate) ∧
          k.freeSlot c.1 = some s) : LoopStep k l k'

theorem loopStep (hi : Inv k) (h : k.step l = some k') : LoopStep k l k' := by
  by_cases hscan : ∃ c a x, Acts k l c x ∧ Enters k c a x ∧ k' = k.killTurn c a
  · obtain ⟨c, a, x, ha, hx, rfl⟩ := hscan
    exact .scan ha hx.teardown
  have hcalm {s : ThreadRef} (hc : (k.thread s).Calm (k'.thread s))
      (hu : (k'.thread s).state ≠ .TUNUSED) :
      (k.thread s).state ≠ .TUNUSED ∧ (k'.thread s).killed = (k.thread s).killed :=
    ⟨(not_congr hc.unused).1 hu, hc.killed⟩
  apply LoopStep.other
  · rintro r ⟨ha, a, hx⟩
    rcases tearing_of_step hi h (r := r) (by rw [hx]; rfl) with e | hs
    · rcases (fate hi (turn_of_step h) r).born ha with ha' | ⟨_, hu⟩
      · exact ⟨ha', a, e.trans hx⟩
      · rw [hu] at hx
        cases hx
    · exact absurd ⟨r, hs⟩ hscan
  · intro s hu
    cases seen hi (turn_of_step h) s with
    | woken h => exact .inl (hcalm h.calm hu)
    | goes h => exact .inl (hcalm h.calm hu)
    | naps hrun hx why e => exact .inl ⟨by simp [hrun], by simp [e, sleep]⟩
    | acts ha hx tid killed => exact .inl ⟨by simp [ha.2.1], killed⟩
    | scans ha hx e => exact absurd ⟨s, _, _, ha, hx, e⟩ hscan
    | marked ha hx e => exact absurd ⟨_, _, _, ha, hx, e⟩ hscan
    | dies ha hx hd => exact .inl ⟨by simp [ha.2.1], by rw [hd.self]⟩
    | starts hs hp new => exact .inr (new hu)
    | removed hm h => simp [h, Thread.remove] at hu
    | exits ha e => simp [e, safeExit_self ha.2.1] at hu

/-! ## One thread at a time -/

/-- The steps in which no thread is created in a process that has a thread in the
loop. -/
def NoLateCreate : Guard Kernel Label := fun k l _ =>
  ∀ c a copied, l = .run c (some a) copied → (k.thread c).context = .call .kthreadCreate →
    ∀ r, r.1 = c.1 → InLoop k r → k.freeSlot c.1 = none

/-- While a thread is in the loop, every other thread of its process is marked
and not in the loop. -/
def LoopInv (k : Kernel) : Prop :=
  ∀ r, InLoop k r → ∀ s, s.1 = r.1 → s ≠ r → (k.thread s).state ≠ .TUNUSED →
    (k.thread s).killed ∧ ¬ InLoop k s

/-- The scan marks every thread of the process that it does not remove. -/
theorem Inv.scanned_killed (h : Inv k) (hne : s ≠ c)
    (hu : (k.scanned c s).state ≠ .TUNUSED) : (k.scanned c s).killed := by
  unfold scanned at hu ⊢
  split
  · rename_i hv; rw [if_pos hv] at hu; exact absurd rfl hu
  · rename_i hv
    rw [if_neg hv] at hu
    split
    · rfl
    · rename_i hd
      rw [if_neg hd] at hu
      refine absurd ?_ hd
      have htid : (k.thread s).tid ≠ (k.thread c).tid :=
        fun e => hne (h.tids.inj s c e (h.tids.pos s hu))
      simp [doomed, htid, hu]

/-- A thread other than `c` that is in the loop after the scan was in it before. -/
theorem InLoop.of_killTurn {a : Caller} (hl : InLoop (k.killTurn c a) r) (hr : r ≠ c) :
    InLoop k r := by
  unfold InLoop at hl ⊢
  rw [killTurn_thread k a hr] at hl
  split at hl
  · rcases scanned_cases k c r with ⟨_, hst, hctx⟩ | ⟨_, hst⟩
    · unfold Thread.Alive at hl ⊢
      rwa [hst, hctx] at hl
    · exact absurd hst hl.1.1
  · exact hl

theorem LoopInv.scan (hI : LoopInv k) (h : Inv k) {a : Caller} {x : Context} (ha : Acts k l c x)
    (hx : x = .killLoop a ∨ (x.plain ∧ (k.thread c).killed = false)) :
    LoopInv (k.killTurn c a) := by
  have hrun := ha.2.1
  have hca : (k.thread c).Alive := ⟨by simp [hrun], by simp [hrun]⟩
  have hback : ∀ r, r ≠ c → InLoop (k.killTurn c a) r → InLoop k r :=
    fun _ hr hl => hl.of_killTurn hr
  -- no other thread of the process is in the loop
  have hnone : ∀ r, r.1 = c.1 → r ≠ c → ¬ InLoop k r := by
    intro r hrc hne hl
    rcases hx with rfl | ⟨_, hk⟩
    · exact (hI c ⟨hca, a, ha.2.2⟩ r hrc hne hl.1.1).2 hl
    · have := (hI r hl c hrc.symm hne.symm hca.1).1
      rw [hk] at this
      cases this
  intro r hl s hsr hne hu
  rcases eq_or_ne r c with rfl | hrc
  · rw [killTurn_thread k a hne, if_pos hsr] at hu ⊢
    exact ⟨h.scanned_killed hne hu, fun hl' => hnone s hsr hne (hback s hne hl')⟩
  · have hl' := hback r hrc hl
    have hrp : r.1 ≠ c.1 := fun e => hnone r e hrc hl'
    have hsc : s ≠ c := by rintro rfl; exact hrp hsr.symm
    have hsp : s.1 ≠ c.1 := fun e => hrp (hsr.symm.trans e)
    rw [killTurn_thread k a hsc, if_neg hsp] at hu ⊢
    obtain ⟨hk, hnl⟩ := hI r hl' s hsr hne hu
    exact ⟨hk, fun hl'' => hnl (hback s hsc hl'')⟩

theorem LoopInv.step (hI : LoopInv k) (h : Inv k) (hg : NoLateCreate k l k')
    (hs : k.step l = some k') : LoopInv k' := by
  cases loopStep h hs with
  | scan ha hx => exact hI.scan h ha hx
  | other loop threads =>
    intro r hl s hsr hne hu
    have hr := loop r hl
    rcases threads s hu with ⟨hu', hk⟩ | hp | ⟨c, a, copied, hlab, ha, hfree⟩
    · obtain ⟨hk', hnl⟩ := hI r hr s hsr hne hu'
      exact ⟨hk.trans hk', fun hl' => hnl (loop s hl')⟩
    · rw [hsr, h.used r hr.1.1] at hp
      cases hp
    · -- the new thread would be an unmarked one beside `r`
      have hrc : r.1 = c.1 := hsr.symm.trans (freeSlot_some hfree).1
      rw [hg c a copied hlab ha.2.2 r hrc hr] at hfree
      cases hfree

/-- **At most one thread of a process is in the loop** of `kill_other_threads`, in
every run in which no thread is created beside a thread in the loop. -/
theorem kill_other_threads_alone (hr : Run Kernel.step NoLateCreate boot k) (hs : InLoop k s)
    (ht : InLoop k t) (hp : s.1 = t.1) : s = t := by
  have hboot : LoopInv boot := by
    rintro r ⟨_, a, hx⟩
    simp only [boot] at hx
    split at hx <;> cases hx
  have hI : LoopInv k := by
    apply hr.invariant_with (fun _ hb => reachable_inv hb) hboot
    intro a l b hi h hs hg
    exact h.step hi hg hs
  by_contra hne
  exact (hI t ht s hp hne hs.1.1).2 hs

/-- Process 2 has two threads, and its first one calls `exit`. -/
def exiting : List Label :=
  [.dispatch (0, 0)] ++ Label.calls (0, 0) .fork ++ [.dispatch (1, 0)] ++
    Label.calls (1, 0) .kthreadCreate ++
    [.dispatch (1, 1), .syscall (1, 0) .exit, .run (1, 0) none true]

/-- Not a section of `kthread_create`, or one in a process with no thread in the loop. -/
def timelyCreate (k : Kernel) : Label → Bool
  | .run c _ _ => (k.thread c).context != .call .kthreadCreate ||
      (slots c.1).all fun r =>
        match (k.thread r).context with
        | .killLoop _ => false
        | _ => true
  | _ => true

theorem noLateCreate_of_timely (hg : timelyCreate k l) : NoLateCreate k l k' := by
  rintro c a copied rfl hx r hrc ⟨_, a', hr⟩
  simp only [timelyCreate, hx, bne_self_eq_false, Bool.false_or, List.all_eq_true] at hg
  have h := hg r (mem_slots.2 hrc)
  simp [hr] at h

theorem exiting_run : Run Kernel.step NoLateCreate boot (after exiting) :=
  run_final noLateCreate_of_timely

theorem kill_other_threads_alone_exiting : InLoop (after exiting) (1, 0) ∧
    ∀ i, InLoop (after exiting) (1, i) → i = 0 := by
  have hctx : ((after exiting).thread (1, 0)).context = .killLoop .exit := by
    decide +kernel
  have hst : ((after exiting).thread (1, 0)).state = .TRUNNABLE := by
    decide +kernel
  have hl : InLoop (after exiting) (1, 0) := ⟨⟨by rw [hst]; decide, by rw [hst]; decide⟩, _, hctx⟩
  refine ⟨hl, fun i hi => ?_⟩
  have h := kill_other_threads_alone exiting_run hi hl rfl
  exact (Prod.mk.inj h).2

/-- The second thread of process 2 is past the checks of `trap`, on its way into
`kthread_create`, when the first one calls `exit`; the thread it creates then
calls `exit` as well. -/
def mutualExit : List Label :=
  [.dispatch (0, 0)] ++ Label.calls (0, 0) .fork ++ [.dispatch (1, 0)] ++
    Label.calls (1, 0) .kthreadCreate ++
    [.dispatch (1, 1), .syscall (1, 1) .kthreadCreate, .syscall (1, 0) .exit,
      .run (1, 0) none true, .run (1, 1) (some 0) true, .dispatch (1, 2),
      .syscall (1, 2) .exit, .run (1, 2) none true]

/-- Two threads of one process are in the loop, each waiting for the other. -/
theorem kill_other_threads_together : ∃ k, Run Kernel.step free boot k ∧
    InLoop k (1, 0) ∧ InLoop k (1, 2) := by
  have h0 : ((after mutualExit).thread (1, 0)).state = .TRUNNABLE ∧
      ((after mutualExit).thread (1, 0)).context = .killLoop .exit := by
    decide +kernel
  have h2 : ((after mutualExit).thread (1, 2)).state = .TRUNNABLE ∧
      ((after mutualExit).thread (1, 2)).context = .killLoop .exit := by
    decide +kernel
  refine ⟨after mutualExit, run_free, ?_, ?_⟩
  · exact ⟨⟨by rw [h0.1]; decide, by rw [h0.1]; decide⟩, _, h0.2⟩
  · exact ⟨⟨by rw [h2.1]; decide, by rw [h2.1]; decide⟩, _, h2.2⟩

end Xv6.Kernel
