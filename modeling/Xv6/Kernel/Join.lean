import Xv6.Kernel.History
import Xv6.Kernel.Outcome

/-! `kthread_join`. A joiner sleeps on the record of its target, and it is never
asleep when the target is gone: both ways to become a zombie wake it, and the scan of
`kill_other_threads`, which removes sleeping threads without a wake-up, removes the
joiner as well. After the loop, `kthread_join` looks only at the state of the record.
A record that has been given to another thread meanwhile passes that test when the
other thread is a zombie. -/

namespace Xv6.Kernel

open Runs

variable {k k' : Kernel} {l : Label} {c r s : ThreadRef}

/-! ## Sleeping joiners -/

/-- Thread `s` waits for the thread `id` in record `i`, which is alive. -/
structure Joins (k : Kernel) (s : ThreadRef) (i : Fin NTHREAD) (id : Int) : Prop where
  chan : (k.thread s).chan = some (.thread (s.1, i))
  tid : (k.thread (s.1, i)).tid = id
  alive : (k.thread (s.1, i)).Alive

def JoinInv (k : Kernel) : Prop :=
  ∀ s i id, (k.thread s).state = .TSLEEPING → (k.thread s).context = .joinLoop i id → Joins k s i id

/-- A live thread is removed by the scan of `kill_other_threads` only. -/
theorem scan_of_removed (h : Inv k) (he : Turn k l k') (hr : r ∈ k.removals l)
    (ha : (k.thread r).Alive) :
    ∃ c a, (k.thread c).state = .TRUNNING ∧ r ∈ k.victims c ∧ k' = k.killTurn c a := by
  have hnone (hrem : k.removals l = []) : r ∉ k.removals l := by
    rw [hrem]
    exact List.not_mem_nil
  cases he with
  | calm hc => exact absurd hr (hnone hc.spec.2.2)
  | dies hact hx hq | take hact hx hq | lockSleep hact hx hq => exact absurd hr (hnone hq.1)
  | alloc hact | dealloc hact | unlock hact | wake hact | exited hact
  | create _ hact | createFail _ hact | fork _ hact | forkFail _ _ hact =>
    exact absurd hr (hnone (removals_of_acts hact rfl))
  | join hact hx hn hp hz hrem =>
    rw [hrem] at hr
    rw [List.mem_singleton.1 hr] at ha
    exact absurd hz ha.2
  | @scan c a x hact hx hrem => exact ⟨c, a, hact.2.1, hrem ▸ hr, rfl⟩
  | reap hact hx hp hrem =>
    rw [hrem] at hr
    have hused := h.used r ha.1
    rw [mem_slots.1 hr, (zombieChild_some hp).2] at hused
    cases hused

/-- The scan that removes a thread removes all sleeping threads of the process. -/
theorem asleep_of_scan (h : Inv k) (hc : (k.thread c).state = .TRUNNING) (hp : s.1 = c.1)
    (hs : (k.thread s).state = .TSLEEPING) (a : Caller) :
    ((k.killTurn c a).thread s).state = .TUNUSED := by
  have hne : s ≠ c := by
    rintro rfl
    rw [hc] at hs
    cases hs
  have hu : (k.thread s).state ≠ .TUNUSED := by simp [hs]
  have htid : (k.thread s).tid ≠ (k.thread c).tid :=
    fun e => hne (h.tids.inj s c e (h.tids.pos s hu))
  have hv : k.victim c s = true := by simp [victim, doomed, htid, hs]
  rw [killTurn_thread k a hne, if_pos hp, scanned, if_pos hv]
  rfl

/-- A joiner that a step leaves asleep still waits for a live thread. -/
theorem Joins.step {i : Fin NTHREAD} {id : Int} (h : Joins k s i id) (hi : Inv k)
    (hs : k.step l = some k') (hst : (k.thread s).state = .TSLEEPING)
    (hst' : (k'.thread s).state = .TSLEEPING) (hch : (k'.thread s).chan = (k.thread s).chan) :
    Joins k' s i id := by
  have he := turn_of_step hs
  suffices h' : (k'.thread (s.1, i)).tid = id ∧ (k'.thread (s.1, i)).Alive from
    ⟨hch.trans h.chan, h'.1, h'.2⟩
  cases fate hi he (s.1, i) with
  | stays tid unused zombie ends proc =>
    refine ⟨tid.trans h.tid, (not_congr unused).2 h.alive.1, ?_⟩
    intro hz
    rcases zombie_of_step hi hs hz with hz | hd
    · exact h.alive.2 hz
    · exact (hd.asleep hst').2 rfl h.chan
  | starts unused => exact absurd unused h.alive.1
  | removed mem =>
    obtain ⟨c, a, hc, hv, rfl⟩ := scan_of_removed hi he mem h.alive
    have hmem : (s.1, i) ∈ slots c.1 := List.mem_of_mem_filter hv
    have hp : s.1 = c.1 := (mem_slots (t := (s.1, i))).1 hmem
    rw [asleep_of_scan hi hc hp hst a] at hst'
    cases hst'
  | exits acts =>
    -- the last section of `safe_exit` runs with no other thread in the process
    have hne : s ≠ (s.1, i) := by
      intro e
      rw [e, acts.2.1] at hst
      cases hst
    have hu := hi.solo (s.1, i) h.alive (by rw [acts.2.2]; rfl) s rfl hne
    rw [hst] at hu
    cases hu

theorem JoinInv.step (h : JoinInv k) (hi : Inv k) (hs : k.step l = some k') : JoinInv k' := by
  intro s i id hst hx
  rcases asleep_of_step hi hs hst with ⟨hst', hch, hx'⟩ | ⟨w, y, rfl, why⟩
  · exact (h s i id hst' (hx' ▸ hx)).step hi hs hst' hst hch
  simp only [sleep, setThread_thread, if_true] at hx
  cases why with
  | other hel =>
    rw [hx] at hel
    cases hel
  | join htid ha =>
    cases hx
    refine ⟨by simp [sleep], ?_, ?_⟩
    · simp only [sleep, setThread_thread]
      split <;> exact htid
    · -- a thread may wait for itself
      simp only [sleep, setThread_thread]
      split
      · constructor <;> intro e <;> cases e
      · exact ha
  | _ => cases hx

theorem boot_joinInv : JoinInv boot := by
  intro s i id hs
  simp only [boot] at hs
  split at hs <;> cases hs

theorem reachable_joinInv {G : Guard Kernel Label} (hr : Run Kernel.step G boot k) : JoinInv k := by
  apply hr.invariant_with (fun _ hb => reachable_inv hb) boot_joinInv
  intro a l b hi h hs _
  exact h.step hi hs

/-- **No joiner misses the end of its target.** In every reachable state, a thread
that sleeps in `kthread_join(id)` on a record sleeps on the channel of that record,
which belongs to the thread `id`, and this thread is neither a zombie nor gone. -/
theorem kthread_join_asleep {i : Fin NTHREAD} {id : Int} (hr : Run Kernel.step free boot k)
    (hs : (k.thread s).state = .TSLEEPING) (hx : (k.thread s).context = .joinLoop i id) :
    (k.thread s).chan = some (.thread (s.1, i)) ∧ (k.thread (s.1, i)).tid = id ∧
    (k.thread (s.1, i)).state ≠ .TZOMBIE ∧ (k.thread (s.1, i)).state ≠ .TUNUSED := by
  obtain ⟨hch, htid, ha⟩ := reachable_joinInv hr s i id hs hx
  exact ⟨hch, htid, ha.2, ha.1⟩

/-- Thread 3 waits for thread 2 of init. -/
def joining : List Label :=
  [.dispatch (0, 0)] ++ Label.calls (0, 0) .kthreadCreate ++ Label.calls (0, 0) .kthreadCreate ++
    [.dispatch (0, 2), .syscall (0, 2) (.kthreadJoin 2), .run (0, 2) none true]

theorem kthread_join_asleep_joining : ((after joining).thread (0, 2)).state = .TSLEEPING ∧
    ((after joining).thread (0, 1)).tid = 2 ∧
    ((after joining).thread (0, 1)).state ≠ .TZOMBIE := by
  have hrun : Run Kernel.step free boot (after joining) := run_free
  have hst : ((after joining).thread (0, 2)).state = .TSLEEPING := by
    decide +kernel
  obtain ⟨_, htid, hz, _⟩ := kthread_join_asleep (s := (0, 2)) (i := 1) hrun hst
    (show _ = Context.joinLoop 1 2 by decide +kernel)
  exact ⟨hst, htid, hz⟩

/-! ## Successful joins -/

/-- The records of process `p` that are in use in `k` and unused in `k'`. -/
def vacated (k k' : Kernel) (p : ProcIx) : List ThreadRef :=
  (slots p).filter fun t => (k.thread t).state ≠ .TUNUSED ∧ (k'.thread t).state = .TUNUSED

/-- A `kthread_join(id)` that returns 0 in the step: `id`, and what was in the records
that it removed. -/
def joinReturns (k : Kernel) (l : Label) (k' : Kernel) : List (Int × List Thread) :=
  match l with
  | .run c _ _ =>
    match (k.thread c).context with
    | .call (.kthreadJoin id) | .joinLoop _ id =>
      if (k'.thread c).context = .ret 0 then [(id, (k.vacated k' c.1).map k.thread)] else []
    | _ => []
  | _ => []

/-- The steps in which no joiner comes back from `sleep` to a record that holds
another thread, which is a zombie. -/
def SameTarget : Guard Kernel Label := fun k l _ =>
  ∀ c page copied i id, l = .run c page copied → (k.thread c).context = .joinLoop i id →
    (k.thread (c.1, i)).state = .TZOMBIE → (k.thread (c.1, i)).tid = id

theorem vacated_removeThread (hrun : (k.thread c).state = .TRUNNING) (hp : r.1 = c.1)
    (hz : (k.thread r).state = .TZOMBIE) :
    k.vacated ((k.removeThread c r).sysret c 0) c.1 = [r] := by
  have hcr : c ≠ r := by
    rintro rfl
    rw [hrun] at hz
    cases hz
  have hiff : ∀ t ∈ slots c.1, decide ((k.thread t).state ≠ .TUNUSED ∧
      (((k.removeThread c r).sysret c 0).thread t).state = .TUNUSED) = decide (t = r) := by
    intro t _
    rw [decide_eq_decide]
    by_cases htc : t = c
    · subst htc
      have hst : (((k.removeThread t r).sysret t 0).thread t).state = .TRUNNING := by
        rcases removeThread_caller (k := k) t r hcr with e | e <;> simp [sysret, e, hrun]
      simp [hst, hcr]
    · simp only [sysret, setThread_thread, if_neg htc, removeThread_thread _ _ _ htc]
      by_cases htr : t = r
      · subst htr
        simp [hz, Thread.remove]
      · simp [htr]
  rw [vacated, List.filter_congr hiff, List.filter_eq, List.count_eq_one_of_mem (slots_nodup _)
    (mem_slots.2 hp)]
  rfl

/-- Thread `c` runs a turn of `kthread_join(id)` on record `i`. -/
theorem joinReturns_turn {i : Fin NTHREAD} {id : Int} (hrun : (k.thread c).state = .TRUNNING)
    (hret : ((k.joinTurn c i id).thread c).context = .ret 0) :
    (k.thread (c.1, i)).state = .TZOMBIE ∧ k.vacated (k.joinTurn c i id) c.1 = [(c.1, i)] := by
  unfold joinTurn at hret ⊢
  simp only at hret ⊢
  split at hret
  · simp [sleep] at hret
  · split at hret
    · rename_i hcond hz
      rw [if_neg hcond, if_pos hz]
      exact ⟨hz, vacated_removeThread hrun rfl hz⟩
    · simp [sysret] at hret

/-- A join that returns 0 has removed one record, a zombie with the tid asked for. -/
theorem joinReturns_cases (hs : k.step l = some k') (hg : SameTarget k l k') :
    joinReturns k l k' = [] ∨ ∃ r, joinReturns k l k' = [((k.thread r).tid, [k.thread r])] ∧
      (k.thread r).state = .TZOMBIE ∧ (k'.thread r).state = .TUNUSED := by
  have hturn : ∀ c i id, (k.thread c).state = .TRUNNING → k' = k.joinTurn c i id →
      (k'.thread c).context = .ret 0 →
      ((k.thread (c.1, i)).state = .TZOMBIE → (k.thread (c.1, i)).tid = id) →
      ∃ r, [(id, (k.vacated k' c.1).map k.thread)] = [((k.thread r).tid, [k.thread r])] ∧
        (k.thread r).state = .TZOMBIE ∧ (k'.thread r).state = .TUNUSED := by
    rintro c i id hrun rfl hret htid
    obtain ⟨hz, hv⟩ := joinReturns_turn hrun hret
    have hmem : (c.1, i) ∈ k.vacated (k.joinTurn c i id) c.1 := hv ▸ List.mem_singleton_self _
    refine ⟨(c.1, i), by rw [hv, htid hz]; rfl, hz, ?_⟩
    exact (of_decide_eq_true (List.mem_filter.1 hmem).2).2
  unfold joinReturns
  split
  · rename_i c page copied
    simp only [step] at hs
    split at hs
    · rename_i hrun
      split
      · rename_i id hx
        rw [hx] at hs
        cases hs
        split
        · rename_i hret
          cases hfind : (List.finRange NTHREAD).find? fun i => (k.thread (c.1, i)).tid = id with
          | some i =>
            have e : k.kthreadJoin c id = k.joinTurn c i id := by rw [kthreadJoin, hfind]
            have htid : (k.thread (c.1, i)).tid = id := by simpa using List.find?_some hfind
            exact .inr (hturn c i id hrun e hret fun _ => htid)
          | none =>
            have e : k.kthreadJoin c id = k.sysret c (-1) := by rw [kthreadJoin, hfind]
            rw [e] at hret
            simp [sysret] at hret
        · exact .inl rfl
      · rename_i i id hx
        rw [hx] at hs
        cases hs
        split
        · rename_i hret
          exact .inr (hturn c i id hrun rfl hret (hg c page copied i id rfl hx))
        · exact .inl rfl
      · exact .inl rfl
    · cases hs
  · exact .inl rfl

/-- The id of a thread that is gone: it has been issued and no record has it. -/
structure Gone (k : Kernel) (id : Int) : Prop where
  pos : 0 < id
  lt : id < k.nexttid
  none : ∀ r, (k.thread r).tid ≠ id

theorem Gone.step {id : Int} (h : Gone k id) (hi : HistInv k) (hs : k.step l = some k') :
    Gone k' id := by
  have he := turn_of_step hs
  have hn := (histStep hi.toInv hi.pids he).nexttid
  refine ⟨h.pos, lt_of_lt_of_le h.lt hn, ?_⟩
  intro r
  cases fate hi.toInv he r with
  | stays tid | exits acts tid => exact tid ▸ h.none r
  | starts unused proc tid => exact tid ▸ h.lt.ne'
  | removed mem tid => exact tid ▸ h.pos.ne

/-- A thread whose record loses its tid is gone. -/
theorem gone_of_lost (hi : HistInv k) (hs : k.step l = some k') (hpos : (k.thread r).tid ≠ 0)
    (hlost : (k'.thread r).tid ≠ (k.thread r).tid) : Gone k' (k.thread r).tid := by
  have he := turn_of_step hs
  have hn := (histStep hi.toInv hi.pids he).nexttid
  have hnonneg := hi.tids.nonneg r
  have hlt := hi.tids.lt r
  refine ⟨by omega, by omega, ?_⟩
  intro s hs'
  have hsr : (k'.thread s).tid ≠ (k.thread s).tid := by
    intro e
    have hrs := hi.tids.inj r s (hs'.symm.trans e) hpos
    subst hrs
    exact hlost e
  cases fate hi.toInv he s with
  | stays tid | exits acts tid => exact hsr tid
  | starts unused proc tid | removed mem tid => omega

/-- A zombie that a step removes is gone after it. -/
theorem gone_of_vacated (hi : HistInv k) (hs : k.step l = some k')
    (hz : (k.thread r).state = .TZOMBIE) (hu : (k'.thread r).state = .TUNUSED) :
    Gone k' (k.thread r).tid := by
  have hpos := hi.tids.pos r (by simp [hz])
  refine gone_of_lost hi hs hpos ?_
  cases fate hi.toInv (turn_of_step hs) r with
  | stays tid unused =>
    rw [unused.1 hu] at hz
    cases hz
  | starts unused =>
    rw [unused] at hz
    cases hz
  | removed mem tid => exact tid ▸ hpos.symm
  | exits acts =>
    rw [acts.2.1] at hz
    cases hz

/-- Every successful join has removed the zombie it asked for, and no two of them
the same. -/
structure ReapInv (s : Kernel × List (Int × List Thread)) : Prop where
  right : ∀ e ∈ s.2, ∃ t : Thread, e.2 = [t] ∧ t.state = .TZOMBIE ∧ t.tid = e.1
  gone : ∀ e ∈ s.2, Gone s.1 e.1
  nodup : (s.2.map Prod.fst).Nodup

theorem ReapInv.step {s t : Kernel × List (Int × List Thread)} (h : ReapInv s) (hi : HistInv s.1)
    (hs : logging Kernel.step joinReturns s l = some t) (hg : SameTarget s.1 l t.1) :
    ReapInv t := by
  obtain ⟨hstep, hlog⟩ := logging_some hs
  rcases joinReturns_cases hstep hg with e | ⟨r, e, hz, hu⟩
  · rw [e, List.nil_append] at hlog
    refine ⟨hlog ▸ h.right, ?_, hlog ▸ h.nodup⟩
    intro e he
    exact (h.gone e (hlog ▸ he)).step hi hstep
  · rw [e, List.singleton_append] at hlog
    obtain ⟨k', log⟩ := t
    subst hlog
    refine ⟨?_, ?_, ?_⟩
    · intro e he
      rcases List.mem_cons.1 he with rfl | he
      · exact ⟨_, rfl, hz, rfl⟩
      · exact h.right e he
    · intro e he
      rcases List.mem_cons.1 he with rfl | he
      · exact gone_of_vacated hi hstep hz hu
      · exact (h.gone e he).step hi hstep
    · rw [List.map_cons, List.nodup_cons]
      refine ⟨?_, h.nodup⟩
      intro hm
      obtain ⟨e, he, heq⟩ := List.mem_map.1 hm
      exact (h.gone e he).none r heq.symm

/-- **A join takes its own target.** In every run in which no joiner comes back from
`sleep` to a record that holds another thread, a zombie: whenever `kthread_join(id)` has
returned 0, it has removed one record, of the zombie with tid `id`, and each thread is
joined at most once. -/
theorem kthread_join_target {s : Kernel × List (Int × List Thread)}
    (hr : Run (logging Kernel.step joinReturns) (fun s l t => SameTarget s.1 l t.1) (boot, []) s) :
    (∀ e ∈ s.2, ∃ t : Thread, e.2 = [t] ∧ t.state = .TZOMBIE ∧ t.tid = e.1) ∧
    (s.2.map Prod.fst).Nodup := by
  have h : ReapInv s := by
    apply hr.invariant_with (J := fun s => HistInv s.1)
      (fun b hb => reachable_histInv hb.of_logging)
    · exact ⟨nofun, nofun, List.nodup_nil⟩
    · intro a l b hi h hs hg
      exact h.step hi hs hg
  exact ⟨h.right, h.nodup⟩

/-- Decides `SameTarget`. -/
def sameTarget (k : Kernel) : Label → Bool
  | .run c _ _ =>
    match (k.thread c).context with
    | .joinLoop i id =>
      (k.thread (c.1, i)).state != .TZOMBIE || (k.thread (c.1, i)).tid == id
    | _ => true
  | _ => true

theorem sameTarget_of_test (hg : sameTarget k l) : SameTarget k l k' := by
  rintro c page copied i id rfl hx hz
  simpa [sameTarget, hx, hz] using hg

/-- Thread 2 exits, and the joiner wakes up and returns. -/
def joined : List Label :=
  joining ++ [.dispatch (0, 1), .syscall (0, 1) .kthreadExit, .run (0, 1) none true,
    .dispatch (0, 2), .run (0, 2) none true]

theorem kthread_join_target_joined :
    (final (logging Kernel.step joinReturns) (boot, []) joined).2.map Prod.fst = [2] ∧
    ∀ e ∈ (final (logging Kernel.step joinReturns) (boot, []) joined).2,
      ∃ t : Thread, e.2 = [t] ∧ t.state = .TZOMBIE ∧ t.tid = e.1 := by
  have hrun : Run (logging Kernel.step joinReturns) (fun s l t => SameTarget s.1 l t.1) (boot, [])
      (final (logging Kernel.step joinReturns) (boot, []) joined) :=
    run_final sameTarget_of_test
  exact ⟨by decide +kernel, (kthread_join_target hrun).1⟩

/-- Thread 3 waits for thread 2. When thread 2 has exited, thread 1 joins it and creates
thread 4 in its record, which exits as well before thread 3 runs. -/
def stolen : List Label :=
  joining ++ [.dispatch (0, 1), .syscall (0, 1) .kthreadExit, .run (0, 1) none true] ++
    Label.calls (0, 0) (.kthreadJoin 2) ++ Label.calls (0, 0) .kthreadCreate ++
    [.dispatch (0, 1), .syscall (0, 1) .kthreadExit, .run (0, 1) none true,
      .dispatch (0, 2), .run (0, 2) none true]

/-- The second `kthread_join(2)` removes thread 4 and returns 0. -/
theorem kthread_join_stolen : ∃ s, Run (logging Kernel.step joinReturns) free (boot, []) s ∧
    s.2.map (fun e => (e.1, e.2.map Thread.tid)) = [(2, [4]), (2, [2])] :=
  ⟨final (logging Kernel.step joinReturns) (boot, []) stolen, run_free, by decide +kernel⟩

end Xv6.Kernel
