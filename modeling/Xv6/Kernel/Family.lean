import Xv6.Kernel.Outcome
import Xv6.Mutex.Pointers

/-! Parents and children. `fork` gives a new process its parent, `safe_exit` passes
the children of a process to init, and `wait` takes the zombies among the children
of the caller. Every process has a living parent, a parent that sleeps in `wait` has
no zombie to take, and no pid comes back from `wait` twice. -/

namespace Xv6.Kernel

open Runs

variable {k k' : Kernel} {l : Label} {c r s : ThreadRef} {p q : ProcIx}

/-- The children of the process that exits are passed to init. -/
theorem safeExit_parent (k : Kernel) (c : ThreadRef) (q : ProcIx) : ((k.safeExit c).proc q).parent =
      if (k.proc q).parent = some c.1 then some initproc else (k.proc q).parent := by
  have hw : (k.wakeParent c.1).proc = k.proc := by
    rcases wakeParent_eq k c.1 with e | ⟨_, e⟩ <;> rw [e]
    rfl
  have hr : (((k.wakeParent c.1).reparent c.1).proc q).parent =
      if (k.proc q).parent = some c.1 then some initproc else (k.proc q).parent := by
    unfold reparent
    simp only
    split <;> simp [childOf, hw, cond_eq_ite]
  simp only [safeExit, setThread_proc, setProc_proc]
  split <;> exact hr

/-- Whoever is asleep after the end of a process was asleep before it, and did not
wait for that process, nor as init for a zombie that is passed to it. -/
theorem asleep_of_safeExit (hrun : (k.thread c).state = .TRUNNING)
    (hs : ((k.safeExit c).thread s).state = .TSLEEPING) : (k.safeExit c).thread s = k.thread s ∧
    (∀ p, (k.proc c.1).parent = some p → (k.thread s).chan ≠ some (.proc p)) ∧
    ((k.zombieChild c.1).isSome → (k.thread s).chan ≠ some (.proc initproc)) := by
  have hsc : s ≠ c := by
    rintro rfl
    rw [safeExit_self hrun] at hs
    cases hs
  have hth : (k.safeExit c).thread s = ((k.wakeParent c.1).reparent c.1).thread s := by
    simp only [safeExit, setThread_thread, if_neg hsc, setProc_thread]
  rw [hth] at hs ⊢
  -- first the wake-up of init, which comes last, then the one of the parent
  have hinit : ((k.wakeParent c.1).reparent c.1).thread s = (k.wakeParent c.1).thread s ∧
      ((k.zombieChild c.1).isSome →
        ((k.wakeParent c.1).thread s).chan ≠ some (.proc initproc)) := by
    have hz : (k.wakeParent c.1).zombieChild c.1 = k.zombieChild c.1 := by
      rcases wakeParent_eq k c.1 with e | ⟨_, e⟩ <;> rw [e]
      rfl
    unfold reparent at hs ⊢
    simp only [hz] at hs ⊢
    split at hs
    · rename_i hsome
      obtain ⟨e, _, hch⟩ := asleep_of_wake hs
      rw [if_pos hsome]
      exact ⟨e, fun _ => hch⟩
    · rename_i hsome
      rw [if_neg hsome]
      exact ⟨rfl, fun h => absurd h hsome⟩
  have hparent : (k.wakeParent c.1).thread s = k.thread s ∧
      ∀ p, (k.proc c.1).parent = some p → (k.thread s).chan ≠ some (.proc p) := by
    rw [hinit.1] at hs
    unfold wakeParent at hs ⊢
    split at hs
    · rename_i q hq
      obtain ⟨e, _, hch⟩ := asleep_of_wake hs
      rw [hq]
      refine ⟨e, ?_⟩
      rintro p ⟨⟩
      exact hch
    · rename_i hq
      rw [hq]
      refine ⟨rfl, ?_⟩
      intro p hp
      cases hp
  rw [hinit.1, hparent.1]
  exact ⟨rfl, hparent.2, hparent.1 ▸ hinit.2⟩

theorem zombieChild_none (h : k.zombieChild p = none) (hq : (k.proc q).parent = some p) :
    (k.proc q).state ≠ .PZOMBIE := by
  intro hz
  have hn := List.find?_eq_none.1 h q (List.mem_finRange q)
  simp [childOf, hq, hz] at hn

/-! ## The family -/

/-- A process other than init that is in use has a parent, which is alive. -/
def Fostered (k : Kernel) (q : ProcIx) : Prop :=
  ∃ p, (k.proc q).parent = some p ∧ (k.proc p).state = .PUSED

/-- Thread `s` waits for the children of its process and none of them is a zombie. -/
structure Expects (k : Kernel) (s : ThreadRef) : Prop where
  chan : (k.thread s).chan = some (.proc s.1)
  alive : ∀ q, (k.proc q).parent = some s.1 → (k.proc q).state ≠ .PZOMBIE

structure FamilyInv (k : Kernel) : Prop where
  init : (k.proc initproc).state = .PUSED
  /-- `exit` panics in init. -/
  leaves : ∀ r, (k.thread r).context = .killLoop .exit ∨ (k.thread r).context = .safeExit →
    r.1 ≠ initproc
  root : (k.proc initproc).parent = none
  distinct : ∀ q, (k.proc q).parent ≠ some q
  fostered : ∀ q, q ≠ initproc → (k.proc q).state ≠ .PUNUSED → Fostered k q
  expects : ∀ s, (k.thread s).state = .TSLEEPING → (k.thread s).context = .waitLoop → Expects k s

theorem boot_familyInv : FamilyInv boot where
  init := rfl
  leaves r hr := by
    simp only [boot] at hr
    split at hr <;> simp [Thread.zero] at hr
  root := rfl
  distinct q := by
    simp only [boot]
    split <;> simp [Proc.zero]
  fostered q hq hu := by simp [boot, hq, Proc.zero] at hu
  expects s hs := by
    simp only [boot] at hs
    split at hs <;> cases hs

theorem FamilyInv.leaves_step (h : FamilyInv k) (hi : Inv k) (hs : k.step l = some k')
    (hr : (k'.thread r).context = .killLoop .exit ∨ (k'.thread r).context = .safeExit) :
    r.1 ≠ initproc := by
  have ht : (k'.thread r).context.tearing := by rcases hr with e | e <;> rw [e] <;> rfl
  rcases tearing_of_step hi hs ht with e | ⟨a, x, ha, henters, rfl⟩
  · exact h.leaves r (e ▸ hr)
  · cases henters with
    | loop =>
      refine h.leaves r (.inl ?_)
      rw [ha.2.2]
      rcases killTurn_context k r a with e | e <;> rw [e] at hr <;> cases a <;>
        simp [Caller.resume] at hr ⊢
    | exec hk =>
      rcases killTurn_context k r .exec with e | e <;> rw [e] at hr <;>
        simp [Caller.resume] at hr
    | exit hk hinit hx => exact hinit

theorem FamilyInv.fostered_step (h : FamilyInv k) (hi : Inv k) (hs : Kin k l k') (hq : q ≠ initproc)
    (hu : (k'.proc q).state ≠ .PUNUSED) : Fostered k' q := by
  cases hs with
  | same state parent | failed state parent =>
    rw [state] at hu
    obtain ⟨p, hp, hused⟩ := h.fostered q hq hu
    exact ⟨p, (parent q).trans hp, (state p).trans hused⟩
  | @born c p ha unused state parent other thread =>
    have hne : ∀ p', (k.proc p').state = .PUSED → p' ≠ p := by
      rintro _ hp' rfl
      rw [unused] at hp'
      cases hp'
    by_cases e : q = p
    · subst e
      have hc := hi.used c (by simp [ha.2.1])
      exact ⟨c.1, parent, by rw [other _ (hne _ hc)]; exact hc⟩
    · rw [other q e] at hu
      obtain ⟨p', hp', hused⟩ := h.fostered q hq hu
      exact ⟨p', by rw [other q e]; exact hp', by rw [other _ (hne _ hused)]; exact hused⟩
  | @exited c ha e =>
    subst e
    have hc := h.leaves c (.inr ha.2.2)
    obtain ⟨_, _, _, _, _, hst, _⟩ := safeExit_same k c
    have hu' : (k.proc q).state ≠ .PUNUSED := by
      rw [hst] at hu
      split at hu
      · rename_i e
        rw [e, hi.used c (by simp [ha.2.1])]
        decide
      · exact hu
    obtain ⟨p, hp, hused⟩ := h.fostered q hq hu'
    -- a child of the process that exits now belongs to init
    by_cases e : p = c.1
    · refine ⟨initproc, ?_, ?_⟩
      · rw [safeExit_parent, if_pos (e ▸ hp)]
      · rw [hst, if_neg hc.symm]
        exact h.init
    · refine ⟨p, ?_, ?_⟩
      · rw [safeExit_parent, hp, if_neg (by simpa using e)]
      · rw [hst, if_neg e]
        exact hused
  | @reaped c p x ha hx zombie state parent other ret =>
    have e : q ≠ p := by
      rintro rfl
      exact hu state
    rw [other q e] at hu
    obtain ⟨p', hp', hused⟩ := h.fostered q hq hu
    have hne : p' ≠ p := by
      rintro rfl
      rw [(zombieChild_some zombie).2] at hused
      cases hused
    exact ⟨p', by rw [other q e]; exact hp', by rw [other _ hne]; exact hused⟩

/-- Init stays in use and without a parent, and no process is its own parent. -/
theorem FamilyInv.init_step (h : FamilyInv k) (hi : Inv k) (hs : Kin k l k') :
    (k'.proc initproc).state = .PUSED ∧ (k'.proc initproc).parent = none ∧
    ∀ q, (k'.proc q).parent ≠ some q := by
  cases hs with
  | same state parent | failed state parent =>
    refine ⟨by rw [state]; exact h.init, by rw [parent]; exact h.root, ?_⟩
    intro q
    rw [parent]
    exact h.distinct q
  | @born c p ha unused state parent other thread =>
    have hne : initproc ≠ p := by
      rintro rfl
      rw [h.init] at unused
      cases unused
    rw [other initproc hne]
    refine ⟨h.init, h.root, ?_⟩
    intro q
    by_cases e : q = p
    · subst e
      rw [parent]
      intro hq
      have hc := hi.used c (by simp [ha.2.1])
      rw [Option.some.inj hq, unused] at hc
      cases hc
    · rw [other q e]
      exact h.distinct q
  | @exited c ha e =>
    subst e
    have hc := h.leaves c (.inr ha.2.2)
    obtain ⟨_, _, _, _, _, hst, _⟩ := safeExit_same k c
    rw [hst, if_neg hc.symm, safeExit_parent, h.root]
    refine ⟨h.init, by simp, ?_⟩
    intro q hq
    rw [safeExit_parent] at hq
    split at hq
    · rename_i hp
      rw [← Option.some.inj hq, h.root] at hp
      cases hp
    · exact h.distinct q hq
  | @reaped c p x ha hx zombie state parent other ret =>
    have hne : initproc ≠ p := by
      rintro rfl
      have hz := (zombieChild_some zombie).2
      rw [h.init] at hz
      cases hz
    rw [other initproc hne]
    refine ⟨h.init, h.root, ?_⟩
    intro q
    by_cases e : q = p
    · rw [e, parent]
      nofun
    · rw [other q e]
      exact h.distinct q

/-- A process that has a zombie child is found by the scan of `wait`. -/
theorem zombieChild_isSome (hq : (k.proc q).parent = some p) (hz : (k.proc q).state = .PZOMBIE) :
    (k.zombieChild p).isSome := by
  rw [Option.isSome_iff_ne_none]
  exact fun h => zombieChild_none h hq hz

/-- A sleeper of `wait` that a step leaves asleep has no zombie child after it. -/
theorem Expects.step (h : Expects k s) (hI : FamilyInv k) (hs : Kin k l k')
    (hk' : (k'.thread s).state = .TSLEEPING)
    (hch : (k'.thread s).chan = (k.thread s).chan) : Expects k' s := by
  refine ⟨hch.trans h.chan, ?_⟩
  intro q hq hz
  cases hs with
  | same state parent | failed state parent =>
    rw [parent] at hq
    rw [state] at hz
    exact h.alive q hq hz
  | @born c p ha unused state parent other thread =>
    by_cases e : q = p
    · subst e
      rw [state] at hz
      cases hz
    · rw [other q e] at hq hz
      exact h.alive q hq hz
  | @exited c ha e =>
    subst e
    obtain ⟨_, _, _, _, _, hst, _⟩ := safeExit_same k c
    obtain ⟨_, hparent, hinit⟩ := asleep_of_safeExit ha.2.1 hk'
    rw [safeExit_parent] at hq
    split at hq
    · -- a zombie that is passed to init: the scan of `safe_exit` has found it
      rename_i hc
      have e : q ≠ c.1 := by
        rintro rfl
        exact hI.distinct c.1 hc
      rw [hst, if_neg e] at hz
      refine hinit (zombieChild_isSome hc hz) ?_
      rw [h.chan, Option.some.inj hq]
    · by_cases e : q = c.1
      · subst e
        exact hparent _ hq h.chan
      · rw [hst, if_neg e] at hz
        exact h.alive q hq hz
  | @reaped c p x ha hx zombie state parent other ret =>
    have e : q ≠ p := by
      rintro rfl
      rw [state] at hz
      cases hz
    rw [other q e] at hq hz
    exact h.alive q hq hz

theorem FamilyInv.step (h : FamilyInv k) (hi : Inv k) (hs : k.step l = some k') : FamilyInv k' := by
  have hkin := kin hi (turn_of_step hs)
  obtain ⟨hinit, hroot, hdistinct⟩ := h.init_step hi hkin
  refine ⟨hinit, fun r hr => h.leaves_step hi hs hr, hroot, hdistinct,
    fun q hq hu => h.fostered_step hi hkin hq hu, ?_⟩
  intro s hst hx
  rcases asleep_of_step hi hs hst with ⟨hst', hch, hx'⟩ | ⟨w, y, rfl, why⟩
  · exact (h.expects s hst' (hx' ▸ hx)).step h hkin hst hch
  simp only [sleep, setThread_thread, if_true] at hx
  cases why with
  | other hel =>
    rw [hx] at hel
    cases hel
  | lock | join => cases hx
  | wait hz => exact ⟨by simp [sleep], fun q hq => zombieChild_none hz hq⟩

theorem reachable_familyInv {G : Guard Kernel Label} (hr : Run Kernel.step G boot k) :
    FamilyInv k := by
  apply hr.invariant_with (fun _ hb => reachable_inv hb) boot_familyInv
  intro a l b hi h hs _
  exact h.step hi hs

/-! ## What `wait` returns -/

/-- The pid that a `wait` call returns in the step, with the thread that made it. -/
def waitReturns (k : Kernel) (l : Label) (k' : Kernel) : List (ThreadRef × Int) :=
  match l with
  | .run c _ _ =>
    if (k.thread c).context = .call .wait ∨ (k.thread c).context = .waitLoop then
      match (k'.thread c).context with
      | .ret v => if v = -1 then [] else [(c, v)]
      | _ => []
    else []
  | _ => []

/-- The section of `wait` that returns a pid takes a zombie child of the caller. -/
structure Reaps (k : Kernel) (k' : Kernel) (c : ThreadRef) (v : Int) (q : ProcIx) : Prop where
  zombie : (k.proc q).state = .PZOMBIE
  parent : (k.proc q).parent = some c.1
  pid : (k.proc q).pid = v
  unused : (k'.proc q).state = .PUNUSED
  logged : .reaped v ∈ k'.hist

theorem reaps_reap (hz : k.zombieChild c.1 = some q) :
    Reaps k ((k.reap c q).sysret c (k.proc q).pid) c (k.proc q).pid q := by
  obtain ⟨hparent, hzombie⟩ := zombieChild_some hz
  exact ⟨hzombie, hparent, rfl, by simp [reap, sysret], by simp [reap, sysret]⟩

theorem waitReturns_cases (hs : k.step l = some k') : waitReturns k l k' = [] ∨
    ∃ c v q, waitReturns k l k' = [(c, v)] ∧ Reaps k k' c v q := by
  unfold waitReturns
  split
  · rename_i c page copied
    split
    · rename_i hx
      have hturn : k' = k.waitTurn c := by
        simp only [step] at hs
        split at hs
        · rcases hx with e | e <;> rw [e] at hs <;> cases hs <;> rfl
        · cases hs
      cases hz : k.zombieChild c.1 with
      | some q =>
        have e : k' = (k.reap c q).sysret c (k.proc q).pid := by rw [hturn, waitTurn, hz]
        have hret : (k'.thread c).context = .ret (k.proc q).pid := by simp [e, sysret]
        rw [hret]
        simp only
        split
        · exact .inl rfl
        · exact .inr ⟨c, _, q, rfl, e ▸ reaps_reap hz⟩
      | none =>
        left
        rw [waitTurn, hz] at hturn
        simp only at hturn
        split at hturn
        · have hret : (k'.thread c).context = .ret (-1) := by simp [hturn, sysret]
          rw [hret]
          rfl
        · have hret : (k'.thread c).context = .waitLoop := by simp [hturn, sleep]
          rw [hret]
    · exact .inl rfl
  · exact .inl rfl

/-- What has been returned is in the history, once. -/
structure ReturnInv (s : Kernel × List (ThreadRef × Int)) : Prop where
  logged : ∀ e ∈ s.2, .reaped e.2 ∈ s.1.hist
  nodup : (s.2.map Prod.snd).Nodup

/-- A pid that `wait` returns has not been returned before. -/
theorem ReturnInv.fresh {s : Kernel × List (ThreadRef × Int)} (h : ReturnInv s)
    (ht : TableInv s.1) {v : Int} (hr : Reaps s.1 k' c v q) : v ∉ s.2.map Prod.snd := by
  intro hv
  obtain ⟨e, he, rfl⟩ := List.mem_map.1 hv
  exact ht.reaped _ (h.logged e he) q hr.pid

theorem ReturnInv.step {s t : Kernel × List (ThreadRef × Int)} (h : ReturnInv s)
    (hi : HistInv s.1) (ht : TableInv s.1)
    (hs : logging Kernel.step waitReturns s l = some t) : ReturnInv t := by
  obtain ⟨hstep, hlog⟩ := logging_some hs
  obtain ⟨⟨es, hes, _⟩, _⟩ := histStep hi.toInv hi.pids (turn_of_step hstep)
  have hold : ∀ e ∈ s.2, .reaped e.2 ∈ t.1.hist := by
    intro e he
    rw [hes]
    exact List.mem_append_right _ (h.logged e he)
  rcases waitReturns_cases hstep with e | ⟨c, v, q, e, hr⟩
  · rw [e, List.nil_append] at hlog
    exact ⟨hlog ▸ hold, hlog ▸ h.nodup⟩
  · rw [e, List.singleton_append] at hlog
    refine ⟨?_, ?_⟩
    · intro e he
      rw [hlog] at he
      rcases List.mem_cons.1 he with rfl | he
      · exact hr.logged
      · exact hold e he
    · rw [hlog, List.map_cons, List.nodup_cons]
      exact ⟨h.fresh ht hr, h.nodup⟩

/-- **Parents and children.** In every run with any forks, exits and waits: a process
in use has a parent in use; nobody sleeps in `wait` beside a zombie child; and every
pid that `wait` returns is the one of a zombie child of the caller, and is returned
once. -/
theorem wait_exit_family {s : Kernel × List (ThreadRef × Int)}
    (hr : Run (logging Kernel.step waitReturns) free (boot, []) s) :
    (∀ q, q ≠ initproc → (s.1.proc q).state ≠ .PUNUSED →
      ∃ p, (s.1.proc q).parent = some p ∧ (s.1.proc p).state = .PUSED) ∧
    (∀ r, (s.1.thread r).state = .TSLEEPING → (s.1.thread r).context = .waitLoop →
      (s.1.thread r).chan = some (.proc r.1) ∧
      ∀ q, (s.1.proc q).parent = some r.1 → (s.1.proc q).state ≠ .PZOMBIE) ∧
    (s.2.map Prod.snd).Nodup ∧ ∀ l k' c v, s.1.step l = some k' → (c, v) ∈ waitReturns s.1 l k' →
      v ∉ s.2.map Prod.snd ∧ ∃ q, (s.1.proc q).pid = v ∧ (s.1.proc q).state = .PZOMBIE ∧
        (s.1.proc q).parent = some c.1 ∧ (k'.proc q).state = .PUNUSED := by
  have hfam := reachable_familyInv hr.of_logging
  have hret : ReturnInv s := by
    apply hr.invariant_with (J := fun s => HistInv s.1 ∧ TableInv s.1)
    · intro b hb
      exact ⟨reachable_histInv hb.of_logging, reachable_tableInv hb.of_logging⟩
    · exact ⟨nofun, List.nodup_nil⟩
    · intro a l b hJ h hs _
      exact h.step hJ.1 hJ.2 hs
  refine ⟨hfam.fostered, ?_, hret.nodup, ?_⟩
  · intro r hst hx
    obtain ⟨hch, halive⟩ := hfam.expects r hst hx
    exact ⟨hch, halive⟩
  · intro l k' c v hs hmem
    rcases waitReturns_cases hs with e | ⟨c', v', q, e, hreaps⟩
    · rw [e] at hmem
      cases hmem
    · rw [e, List.mem_singleton] at hmem
      cases hmem
      exact ⟨hret.fresh (reachable_tableInv hr.of_logging) hreaps, q, hreaps.pid, hreaps.zombie,
        hreaps.parent, hreaps.unused⟩

/-- Init forks process 2 and sleeps in `wait`; process 2 exits, and init wakes up. -/
def forkWait : List Label :=
  [.dispatch (0, 0)] ++ Label.calls (0, 0) .fork ++
    [.syscall (0, 0) .wait, .run (0, 0) none true, .dispatch (1, 0), .syscall (1, 0) .exit,
      .run (1, 0) none true, .run (1, 0) none true, .dispatch (0, 0), .run (0, 0) none true]

abbrev logged (ls : List Label) : Kernel × List (ThreadRef × Int) :=
  final (logging Kernel.step waitReturns) (boot, []) ls

theorem wait_exit_family_forkWait :
    ((logged (forkWait.take 6)).1.thread (0, 0)).context = .waitLoop ∧
    ((logged (forkWait.take 6)).1.proc 1).state ≠ .PZOMBIE ∧
    (logged forkWait).2 = [((0, 0), 2)] ∧ ((logged forkWait).2.map Prod.snd).Nodup := by
  have hrun : Run (logging Kernel.step waitReturns) free (boot, []) (logged (forkWait.take 6)) :=
    run_free
  have hrun' : Run (logging Kernel.step waitReturns) free (boot, []) (logged forkWait) := run_free
  refine ⟨by decide +kernel, ?_, by decide +kernel, (wait_exit_family hrun').2.2.1⟩
  exact ((wait_exit_family hrun).2.1 (0, 0) (by decide +kernel) (by decide +kernel)).2 1
    (by decide +kernel)

end Xv6.Kernel
