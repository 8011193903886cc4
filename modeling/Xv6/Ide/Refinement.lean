import Mathlib.Algebra.Order.BigOperators.Group.Finset
import Mathlib.Data.Set.Finite.Basic
import Xv6.Ide.Order

/-! `ide.c` refines `memide.c`. Every request is started once and in the order of the queue;
when all calls have returned, the buffers and the disk are those that `memide.c` makes of the
same requests. The calls do return: while one has not, the callers, the handler or the disk
can make a step, and without new calls they make only so many. -/

namespace Xv6.Ide

open Format Runs Function

variable {ρ D : Type*}

/-- A step of a caller in `iderw`, of the handler or of the disk. -/
def Label.own : Label ρ → Bool
  | .caller _ | .interrupt | .ideintr | .disk => true
  | .call _ | .wake _ => false

/-- All calls have returned. -/
def Finished (s : State ρ D) : Prop := ∀ r, s.pc r = .idle ∨ s.pc r = .returned

section Progress

variable [DecidableEq ρ] {m : Memide.State ρ D} {sectors : Nat → Nat → D} {s t : State ρ D}
  {queued begun fin : List ρ} {r : ρ}

/-! ### A step is possible -/

section

variable (h : Inv m sectors s queued begun fin)

include h

theorem iderw_isSome (hready : ∀ r, (m.buf r).Ready)
    (hr : (s.pc r).holds) : (iderw s r).isSome := by
  cases hpc : s.pc r with
  | append | release => simp [iderw, hpc]
  | test =>
    rw [iderw, hpc]
    dsimp only
    split <;> rfl
  | start =>
    rw [iderw, hpc]
    by_cases hhead : s.idequeue.head? = some r
    · obtain ⟨t, ht, -⟩ := h.begin hready hpc hhead
      simp [hhead, ht]
    · simp [hhead]
  | idle | acquire | asleep | woken | returned =>
    rw [hpc] at hr
    cases hr

theorem ideintr_isSome (hready : ∀ r, (m.buf r).Ready)
    (hh : s.handler.holds) : (ideintr s).isSome := by
  cases hx : s.handler with
  | take | insl b | wakeup b =>
    rw [ideintr, hx]
    dsimp only
    split <;> rfl
  | next =>
    rw [ideintr, hx]
    dsimp only
    obtain ⟨hqueue, -⟩ | ⟨b, q, t, hqueue, ht, -⟩ := h.next hready hx
    · split
      · rfl
      · rename_i hcons
        rw [hqueue] at hcons
        cases hcons
    · split
      · rfl
      · rename_i hcons
        rw [hqueue] at hcons
        cases hcons
        rw [ht]
        rfl
  | flags b | release => simp [ideintr, hx]
  | idle | acquire =>
    rw [hx] at hh
    cases hh

/-- The request of a sleeper is in the queue, so the disk works or its interrupt is due. -/
theorem Inv.progress_asleep (hlock : s.idelock = none)
    (hpc : s.pc r = .asleep) : ∃ l : Label ρ, l.own ∧ (Ide.step true s l).isSome := by
  have hpanic : ¬ s.panic.isSome = true := by simp [h.panic]
  have hhandler : s.handler.holds = false := by
    by_contra hh
    have := h.handler_holds.1 (by simpa using hh)
    rw [hlock] at this
    cases this
  have hqueued : r ∈ s.idequeue := by
    refine ((h.callers r).asleep hpc).resolve_right fun htaken => ?_
    cases hx : s.handler <;> simp_all [Handler.taken, Handler.holds]
  cases hx : s.handler with
  | acquire =>
    refine ⟨.ideintr, rfl, ?_⟩
    rw [Ide.step.eq_def, if_neg hpanic]
    simp [Ide.ideintr, hx, hlock]
  | idle =>
    cases h.stage with
    | idle _ _ _ hqueue =>
      rw [hx] at hqueue
      obtain hnil | ⟨b, hb, hstart⟩ := hqueue
      · rw [hnil] at hqueued
        exact absurd hqueued List.not_mem_nil
      · have := (h.callers b).holds.1 (by rw [hstart]; rfl)
        rw [hlock] at this
        cases this
    | busy b q _ _ hcmd _ _ _ =>
      refine ⟨.disk, rfl, ?_⟩
      rw [Ide.step.eq_def, if_neg hpanic]
      simp only [Disk.finish, hcmd, command]
      cases (m.buf b).dirty <;> rfl
    | raised b q _ _ _ hirq _ _ =>
      have hirq : s.disk.irq = true := by simpa [hx, Handler.resting] using hirq
      refine ⟨.interrupt, rfl, ?_⟩
      rw [Ide.step.eq_def, if_neg hpanic]
      simp [hx, hirq]
  | _ =>
    rw [hx] at hhandler
    cases hhandler

/-- While a call has not returned, some agent can go on. -/
theorem Inv.progress (hready : ∀ r, (m.buf r).Ready)
    (hfin : ¬ Finished s) : ∃ l : Label ρ, l.own ∧ (Ide.step true s l).isSome := by
  have hpanic : ¬ s.panic.isSome = true := by simp [h.panic]
  rw [Finished] at hfin
  push Not at hfin
  obtain ⟨r, hidle, hreturned⟩ := hfin
  cases hlock : s.idelock with
  | some x =>
    cases x with
    | caller a =>
      refine ⟨.caller a, rfl, ?_⟩
      rw [Ide.step.eq_def, if_neg hpanic]
      exact iderw_isSome h hready ((h.callers a).holds.2 hlock)
    | handler =>
      refine ⟨.ideintr, rfl, ?_⟩
      rw [Ide.step.eq_def, if_neg hpanic]
      exact ideintr_isSome h hready (h.handler_holds.2 hlock)
  | none =>
    have hfree : ∀ a, (s.pc a).holds = false := by
      intro a
      by_contra ha
      have := (h.callers a).holds.1 (by simpa using ha)
      rw [hlock] at this
      cases this
    cases hpc : s.pc r with
    | acquire | woken =>
      refine ⟨.caller r, rfl, ?_⟩
      rw [Ide.step.eq_def, if_neg hpanic]
      simp [iderw, hpc, hlock]
    | asleep => exact h.progress_asleep hlock hpc
    | idle => exact absurd hpc hidle
    | returned => exact absurd hpc hreturned
    | append | start | test | release =>
      have := hfree r
      rw [hpc] at this
      cases this

end

/-! ### Only so many steps are possible -/

/-- How far a caller is from its return; `up` says that its request is done. -/
def Pc.weight (up : Bool) : Pc → Nat
  | .idle => 0
  | .acquire => 30
  | .append => 29
  | .start => 16
  | .test => if up then 3 else 10
  | .asleep => 9
  | .woken => if up then 4 else 11
  | .release => 2
  | .returned => 1

def Handler.weight : Handler ρ → Nat
  | .take => 0
  | .acquire => 1
  | .idle => 5
  | .release => 6
  | .next => 8
  | .wakeup _ => 9
  | .flags _ => 10
  | .insl _ => 11

def Disk.weight (d : Disk D) : Nat :=
  if d.cmd.isSome then 1 else if d.irq then 0 else 2

def State.callerWork (s : State ρ D) (r : ρ) : Nat := (s.pc r).weight (s.buf r).upToDate

/-- The work of the disk and the handler: one round of the handler takes one request from the
queue. -/
def State.diskWork (s : State ρ D) : Nat :=
  12 * s.idequeue.length + s.handler.weight + s.disk.weight

/-- The work that is left for the calls in `A`. -/
def State.work (A : Finset ρ) (s : State ρ D) : Nat := ∑ r ∈ A, s.callerWork r + s.diskWork

omit [DecidableEq ρ] in
theorem Disk.weight_le (d : Disk D) : d.weight ≤ 2 := by
  rw [Disk.weight]
  split
  · decide
  · split <;> decide

variable {e : List (Event ρ)}

omit [DecidableEq ρ] in
theorem idestart_work (hs : idestart s r = some (t, e)) :
    t.pc = s.pc ∧ t.buf = s.buf ∧ t.handler = s.handler ∧ t.idequeue = s.idequeue ∧
      t.disk.weight ≤ s.disk.weight + 1 := by
  rw [idestart] at hs
  split at hs
  · cases hs
    exact ⟨rfl, rfl, rfl, rfl, Nat.le_succ _⟩
  · split at hs
    · cases hs
    · cases hs
      exact ⟨rfl, rfl, rfl, rfl, by simp [Disk.weight]⟩

/-- A step of a caller brings its return nearer by more than it adds to the work of the
disk. -/
theorem iderw_work (hs : iderw s r = some (t, e)) :
    s.pc r ≠ .idle ∧ (∀ a, a ≠ r → t.pc a = s.pc a) ∧ t.buf = s.buf ∧
      t.callerWork r + t.diskWork < s.callerWork r + s.diskWork := by
  cases hpc : s.pc r with
  | idle | asleep | returned => simp [iderw, hpc] at hs
  | acquire =>
    obtain ⟨-, hs⟩ := Option.ite_none_right_eq_some.1 (by rwa [iderw, hpc] at hs)
    cases hs
    refine ⟨by simp, fun a ha => update_of_ne ha .., rfl, ?_⟩
    simp [State.callerWork, State.diskWork, State.goto, hpc, Pc.weight]
  | append =>
    rw [iderw, hpc] at hs
    cases hs
    refine ⟨by simp, fun a ha => update_of_ne ha .., rfl, ?_⟩
    simp [State.callerWork, State.diskWork, State.goto, hpc, Pc.weight]
    omega
  | start =>
    have htest : Pc.weight (s.buf r).upToDate .test + 6 ≤ 16 := by
      rw [Pc.weight]
      split <;> decide
    rw [iderw, hpc] at hs
    dsimp only at hs
    split at hs
    · obtain ⟨ht, hbuf, hhandler, hqueue, hdisk⟩ := idestart_work hs
      refine ⟨by simp, fun a ha => by rw [ht]; exact update_of_ne ha .., hbuf, ?_⟩
      simp only [State.callerWork, State.diskWork, ht, hbuf, hhandler, hqueue, State.goto,
        update_self, hpc] at hdisk htest ⊢
      simp only [Pc.weight] at htest ⊢
      omega
    · cases hs
      refine ⟨by simp, fun a ha => update_of_ne ha .., rfl, ?_⟩
      simp only [State.callerWork, State.diskWork, State.goto, update_self, hpc]
      simp only [Pc.weight] at htest ⊢
      omega
  | test =>
    rw [iderw, hpc] at hs
    dsimp only at hs
    split at hs
    · rename_i hup
      cases hs
      refine ⟨by simp, fun a ha => update_of_ne ha .., rfl, ?_⟩
      simp [State.callerWork, State.diskWork, State.goto, hpc, Pc.weight, hup]
    · rename_i hup
      cases hs
      refine ⟨by simp, fun a ha => update_of_ne ha .., rfl, ?_⟩
      simp [State.callerWork, State.diskWork, State.goto, hpc, Pc.weight, hup]
  | woken =>
    obtain ⟨-, hs⟩ := Option.ite_none_right_eq_some.1 (by rwa [iderw, hpc] at hs)
    cases hs
    refine ⟨by simp, fun a ha => update_of_ne ha .., rfl, ?_⟩
    cases hup : (s.buf r).upToDate <;>
      simp [State.callerWork, State.diskWork, State.goto, hpc, Pc.weight, hup]
  | release =>
    rw [iderw, hpc] at hs
    cases hs
    refine ⟨by simp, fun a ha => update_of_ne ha .., rfl, ?_⟩
    simp [State.callerWork, State.diskWork, State.goto, hpc, Pc.weight]

theorem Pc.weight_anti (c : Pc) (up : Bool) : c.weight true ≤ c.weight up := by
  cases c <;> cases up <;> decide

/-- A step of the handler adds nothing to what a caller has to do. -/
theorem Inv.ideintr_work (h : Inv m sectors s queued begun fin) (hs : Ide.ideintr s = some (t, e)) :
    (∀ r, s.pc r = .idle → t.pc r = .idle) ∧ (∀ r, t.callerWork r ≤ s.callerWork r) ∧
      t.diskWork < s.diskWork := by
  cases hh : s.handler with
  | idle => simp [Ide.ideintr, hh] at hs
  | acquire =>
    obtain ⟨-, hs⟩ := Option.ite_none_right_eq_some.1 (by rwa [Ide.ideintr, hh] at hs)
    cases hs
    exact ⟨fun _ => id, fun _ => le_rfl, by simp [State.diskWork, hh, Handler.weight]⟩
  | take =>
    obtain ⟨b, q, hqueue, -⟩ := h.take hh
    simp only [Ide.ideintr, hh, hqueue] at hs
    cases hs
    refine ⟨fun _ => id, fun _ => le_rfl, ?_⟩
    simp only [State.diskWork, hh, hqueue, Handler.weight, List.length_cons]
    omega
  | insl b =>
    rw [Ide.ideintr, hh] at hs
    dsimp only at hs
    split at hs
    · cases hs
      exact ⟨fun _ => id, fun _ => le_rfl, by simp [State.diskWork, hh, Handler.weight]⟩
    · cases hs
      refine ⟨fun _ => id, fun r => ?_, by simp [State.diskWork, State.setBuf, hh, Handler.weight]⟩
      by_cases hr : r = b
      · simp [State.callerWork, State.setBuf, hr, Buf.upToDate]
      · simp [State.callerWork, State.setBuf, hr]
  | flags b =>
    rw [Ide.ideintr, hh] at hs
    cases hs
    refine ⟨fun _ => id, fun r => ?_, by simp [State.diskWork, State.setBuf, hh, Handler.weight]⟩
    by_cases hr : r = b
    · simpa [State.callerWork, State.setBuf, hr, Buf.upToDate] using Pc.weight_anti ..
    · simp [State.callerWork, State.setBuf, hr]
  | wakeup b =>
    rw [Ide.ideintr, hh] at hs
    dsimp only at hs
    split at hs
    · rename_i hasleep
      cases hs
      have hup : (s.buf b).upToDate = true := by
        obtain ⟨-, hfin⟩ := h.stage.at hh
        rw [h.bufs b (by simp [hh, Handler.changing])]
        exact Memide.after_upToDate hfin
      refine ⟨fun r hr => ?_, fun r => ?_, by simp [State.diskWork, State.goto, hh, Handler.weight]⟩
      · have hne : r ≠ b := by
          rintro rfl
          rw [hasleep] at hr
          cases hr
        simpa [State.goto, hne] using hr
      · by_cases hr : r = b
        · simp [State.callerWork, State.goto, hr, hasleep, hup, Pc.weight]
        · simp [State.callerWork, State.goto, hr]
    · cases hs
      exact ⟨fun _ => id, fun _ => le_rfl, by simp [State.diskWork, hh, Handler.weight]⟩
  | next =>
    rw [Ide.ideintr, hh] at hs
    dsimp only at hs
    split at hs
    · cases hs
      exact ⟨fun _ => id, fun _ => le_rfl, by simp [State.diskWork, hh, Handler.weight]⟩
    · obtain ⟨hpc, hbuf, hhandler, hqueue, hdisk⟩ := idestart_work hs
      refine ⟨fun r hr => by rw [hpc]; exact hr, fun r => ?_, ?_⟩
      · simp [State.callerWork, hpc, hbuf]
      · simp only [State.diskWork, hhandler, hqueue, hh, Handler.weight] at hdisk ⊢
        omega
  | release =>
    rw [Ide.ideintr, hh] at hs
    cases hs
    exact ⟨fun _ => id, fun _ => le_rfl, by simp [State.diskWork, hh, Handler.weight]⟩

theorem finish_weight {d d' : Disk D} (h : d.finish = some d') : d'.weight < d.weight := by
  rw [Disk.finish] at h
  split at h
  · cases h
  · rename_i hcmd
    cases h
    simp [Disk.weight, hcmd]
  · rename_i hcmd
    cases h
    simp [Disk.weight, hcmd]

variable {A : Finset ρ} {l : Label ρ} {e log : List (Event ρ)}

/-- Every step of the driver or of the disk leaves less to do. -/
theorem Inv.own_step (h : Inv m sectors s queued begun fin)
    (hA : ∀ r, s.pc r ≠ .idle → r ∈ A) (hl : l.own) (hs : Ide.step true s l = some (t, e)) :
    (∀ r, t.pc r ≠ .idle → r ∈ A) ∧ t.work A < s.work A := by
  rw [Ide.step.eq_def, if_neg (by simp [h.panic])] at hs
  cases l with
  | call r | wake r => cases hl
  | caller r =>
    obtain ⟨hidle, hpc, hbuf, hwork⟩ := iderw_work hs
    refine ⟨fun a ha => ?_, ?_⟩
    · by_cases har : a = r
      · exact hA a (har ▸ hidle)
      · exact hA a (hpc a har ▸ ha)
    · have hother : ∑ a ∈ A.erase r, t.callerWork a = ∑ a ∈ A.erase r, s.callerWork a := by
        refine Finset.sum_congr rfl fun a ha => ?_
        rw [State.callerWork, State.callerWork, hpc a (Finset.ne_of_mem_erase ha), hbuf]
      rw [State.work, State.work, ← Finset.add_sum_erase A _ (hA r hidle),
        ← Finset.add_sum_erase A s.callerWork (hA r hidle), hother]
      omega
  | interrupt =>
    dsimp only at hs
    split at hs
    · rename_i hh
      obtain ⟨hirq, hs⟩ := Option.ite_none_right_eq_some.1 hs
      cases hs
      refine ⟨hA, Nat.add_lt_add_left ?_ _⟩
      have := Disk.weight_le { s.disk with irq := false }
      simp only [State.diskWork, hh, Handler.weight] at this ⊢
      omega
    · cases hs
  | ideintr =>
    obtain ⟨hidle, hcallers, hdisk⟩ := h.ideintr_work hs
    refine ⟨fun a ha => hA a fun hs => ha (hidle a hs), ?_⟩
    exact Nat.add_lt_add_of_le_of_lt (Finset.sum_le_sum fun a _ => hcallers a) hdisk
  | disk =>
    obtain ⟨d, hd, he⟩ := Option.map_eq_some_iff.1 hs
    cases he
    exact ⟨hA, Nat.add_lt_add_left (Nat.add_lt_add_left (finish_weight hd) _) _⟩

theorem Inv.only_so_many (h : Inv m sectors s (appended log) (started log) fin)
    (hready : ∀ r, (m.buf r).Ready) (hA : ∀ r, s.pc r ≠ .idle → r ∈ A) {ls : List (Label ρ)}
    (hown : ∀ l ∈ ls, l.own)
    (hls : (exec (recording (Ide.step true)) (fun _ _ => true) (s, log) ls).isSome) :
    ls.length ≤ s.work A := by
  induction ls generalizing s log fin with
  | nil => exact Nat.zero_le _
  | cons l ls ih =>
    rw [exec, if_pos rfl] at hls
    obtain ⟨u, hu⟩ := Option.isSome_iff_exists.1 hls
    obtain ⟨⟨t, log'⟩, ht, hrest⟩ := Option.bind_eq_some_iff.1 hu
    obtain ⟨e, hs, rfl⟩ := recording_some ht
    obtain ⟨hA', hwork⟩ := h.own_step hA (hown l List.mem_cons_self) hs
    obtain ⟨fin', h'⟩ := h.step hready hs
    have hle := ih h' hA' (fun a ha => hown a (List.mem_cons_of_mem l ha))
      (Option.isSome_iff_exists.2 ⟨u, hrest⟩)
    rw [List.length_cons]
    omega

theorem step_pc_of_not_own (hl : ¬ l.own) (hs : step true s l = some (t, e)) :
    ∃ r, ∀ a, a ≠ r → t.pc a = s.pc a := by
  rw [step.eq_def] at hs
  split at hs
  · cases hs
  cases l with
  | call r =>
    obtain ⟨t', ht, he⟩ := Option.map_eq_some_iff.1 hs
    cases he
    refine ⟨r, fun a ha => ?_⟩
    rw [call] at ht
    split_ifs at ht <;> cases ht
    · rfl
    · rfl
    · rfl
    · exact update_of_ne ha ..
  | wake r =>
    obtain ⟨-, hs⟩ := Option.ite_none_right_eq_some.1 hs
    cases hs
    exact ⟨r, fun a ha => update_of_ne ha ..⟩
  | caller | interrupt | ideintr | disk => exact absurd rfl hl

/-- The invariant along a run; only finitely many calls have been made. -/
theorem inv_of_run {buf : ρ → Buf D} {sectors : Nat → Nat → D} {port : D}
    (hready : ∀ r, (buf r).Ready)
    (hr : Run (recording (step true)) free (start buf sectors port, []) (s, log)) :
    ∃ fin A, Inv ⟨buf, sectors 1⟩ sectors s (appended log) (started log) fin ∧
      ∀ r, s.pc r ≠ .idle → r ∈ (A : Finset ρ) := by
  refine hr.invariant (I := fun u => ∃ fin A, Inv ⟨buf, sectors 1⟩ sectors u.1 (appended u.2)
    (started u.2) fin ∧ ∀ r, u.1.pc r ≠ .idle → r ∈ (A : Finset ρ)) ?_ ?_
  · refine ⟨[], ∅, ?_, fun r hr => absurd rfl hr⟩
    exact
      { panic := rfl
        queue := rfl
        nodup := List.nodup_nil
        callers := fun r => ⟨by simp [appended, start, Pc.queued], by simp [start, Pc.holds],
          by simp [start, Pc.done], by simp [start]⟩
        handler_holds := by simp [start, Handler.holds]
        bufs := fun r _ => rfl
        stage := .idle rfl rfl (update_eq_self 1 sectors).symm (.inl rfl) }
  · rintro ⟨a, la⟩ l ⟨b, lb⟩ ⟨fin, A, h, hA⟩ hs -
    obtain ⟨e, hs, rfl⟩ := recording_some hs
    obtain ⟨fin', h'⟩ := h.step hready hs
    by_cases hl : l.own
    · exact ⟨fin', A, h', (h.own_step hA hl hs).1⟩
    · obtain ⟨r, hpc⟩ := step_pc_of_not_own hl hs
      refine ⟨fin', insert r A, h', fun x hx => ?_⟩
      by_cases hxr : x = r
      · exact hxr ▸ Finset.mem_insert_self r A
      · exact Finset.mem_insert_of_mem (hA x (hpc x hxr ▸ hx))

end Progress

/-! ### The refinement -/

variable [DecidableEq ρ] {m : Memide.State ρ D}

/-- When all calls have returned, every request has been started and done. -/
theorem Inv.finished {sectors : Nat → Nat → D} {s : State ρ D}
    {queued begun fin : List ρ} (h : Inv m sectors s queued begun fin) (hfin : Finished s) :
    queued = fin ∧ begun = fin ∧ (∀ r, s.pc r = .returned ↔ r ∈ fin) ∧ s.buf = (m.after fin).buf ∧
      s.disk.sectors = update sectors 1 (m.after fin).memdisk := by
  have hreturned : ∀ r, r ∈ queued → s.pc r = .returned := by
    intro r hr
    refine (hfin r).resolve_left fun hidle => ?_
    have := (h.callers r).queued.1 hr
    rw [hidle] at this
    cases this
  have hempty : s.idequeue = [] := by
    refine List.eq_nil_iff_forall_not_mem.2 fun r hr => h.notMem_of_queue hr ?_
    have hpc := hreturned r (by rw [h.queue]; exact List.mem_append_right _ hr)
    exact ((h.callers r).done (by rw [hpc]; rfl)).1
  have hqueued : queued = fin := by rw [h.queue, hempty, List.append_nil]
  have hchanging : ∀ r, s.handler.changing ≠ some r := by
    intro r hr
    have hpc := hreturned r (by rw [hqueued]; exact h.stage.changing_mem hr)
    exact ((h.callers r).done (by rw [hpc]; rfl)).2 hr
  have hstage : begun = fin ∧
      s.disk.sectors = update sectors 1 (m.after fin).memdisk := by
    cases h.stage with
    | idle _ _ hdisk _ => exact ⟨rfl, hdisk⟩
    | busy b q hqueue _ _ _ _ _ | raised b q hqueue _ _ _ _ _ => simp [hempty] at hqueue
  refine ⟨hqueued, hstage.1, fun r => ⟨fun hpc => ?_, fun hr => ?_⟩, ?_, hstage.2⟩
  · exact ((h.callers r).done (by rw [hpc]; rfl)).1
  · exact hreturned r (hqueued ▸ hr)
  · funext r
    exact h.bufs r (hchanging r)

/-- What was started is the first part of what was appended. -/
theorem Stage.started_prefix {sectors : Nat → Nat → D} {s : State ρ D}
    {begun fin : List ρ} (h : Stage m sectors s fin begun) : begun <+: fin ++ s.idequeue := by
  cases h with
  | idle => exact List.prefix_append ..
  | busy b q hqueue | raised b q hqueue =>
    rw [hqueue]
    exact ⟨q, by simp⟩

/-- **Refinement.** Whatever the order in which callers, interrupts and the disk take their
steps: there is no panic; no request is appended twice, and the requests are started in the
order of the queue, each once; who returns has valid and clean data. When all calls have
returned, everything that was appended was started and the buffers and the disk are as
`memide.c` leaves them after the same requests in the order of the queue. All calls do return:
until then some caller, the handler or the disk can go on, and unless new calls or foreign
wakeups come they do so only a bounded number of times. -/
theorem ide_refines_memide {buf : ρ → Buf D} {sectors : Nat → Nat → D} {port : D}
    {s : State ρ D} {log : List (Event ρ)} {disksize : Nat} (hready : ∀ r, (buf r).Ready)
    (hsize : FSSIZE ≤ disksize)
    (hr : Run (recording (step true)) free (start buf sectors port, []) (s, log)) :
    s.panic = none ∧ (appended log).Nodup ∧ started log <+: appended log ∧
      (∀ r, s.pc r = .returned → (s.buf r).valid = true ∧ (s.buf r).dirty = false) ∧
      (Finished s → started log = appended log ∧ (∀ r, s.pc r = .returned ↔ r ∈ appended log) ∧
        ∃ m, Memide.State.run disksize ⟨buf, sectors 1⟩ (appended log) = .ok m ∧
          s.buf = m.buf ∧ s.disk.sectors = update sectors 1 m.memdisk) ∧
      (¬ Finished s → ∃ l : Label ρ, l.own ∧ (step true s l).isSome) ∧
      ∃ n, ∀ ls : List (Label ρ), (∀ l ∈ ls, l.own) →
        (exec (recording (step true)) (fun _ _ => true) (s, log) ls).isSome → ls.length ≤ n := by
  obtain ⟨fin, A, h, hA⟩ := inv_of_run hready hr
  refine ⟨h.panic, h.nodup, ?_, ?_, ?_, h.progress hready,
    s.work A, fun ls hown hls => h.only_so_many hready hA hown hls⟩
  · rw [h.queue]
    exact h.stage.started_prefix
  · intro r hpc
    obtain ⟨hfin, hchanging⟩ := (h.callers r).done (by rw [hpc]; rfl)
    rw [h.bufs r hchanging]
    exact Buf.valid_of_upToDate (Memide.after_upToDate hfin)
  · intro hdone
    obtain ⟨hqueued, hbegun, hreturned, hbuf, hdisk⟩ := h.finished hdone
    refine ⟨hbegun.trans hqueued.symm, by rw [hqueued]; exact hreturned, _,
      Memide.run_eq_after hsize hready h.nodup, ?_, ?_⟩
    · rw [hqueued, hbuf]
    · rw [hqueued, hdisk]

/-- Two blocks: request 0 reads block 7, request 1 writes block 3. -/
def twoBufs (r : Fin 2) : Buf Nat where
  locked := true
  valid := r = 1
  dirty := r = 1
  dev := 1
  blockno := if r = 0 then 7 else 3
  data := if r = 0 then 0 else 33

/-- Request 1 comes while the disk reads for request 0, whose caller is woken too early
once. -/
def twoLabels : List (Label (Fin 2)) :=
  [.call 0, .caller 0, .caller 0, .caller 0, .caller 0,
   .call 1, .caller 1, .caller 1, .wake 0, .disk, .interrupt, .caller 1, .caller 1,
   .caller 0, .caller 0, .ideintr, .ideintr, .ideintr, .ideintr, .ideintr, .ideintr, .ideintr,
   .caller 0, .caller 0, .caller 0, .disk, .interrupt,
   .ideintr, .ideintr, .ideintr, .ideintr, .ideintr, .ideintr, .ideintr,
   .caller 1, .caller 1, .caller 1]

def twoRequests : State (Fin 2) Nat × List (Event (Fin 2)) :=
  final (recording (step true)) (start twoBufs (fun _ n => n) 0, []) twoLabels

theorem ide_refines_memide_two : Finished twoRequests.1 ∧ started twoRequests.2 = [0, 1] ∧
      ∃ m, Memide.State.run FSSIZE ⟨twoBufs, fun n => n⟩ [0, 1] = .ok m ∧
        twoRequests.1.buf = m.buf ∧ twoRequests.1.disk.sectors 1 = m.memdisk := by
  have hfinished : Finished twoRequests.1 := by
    intro r
    revert r
    decide +kernel
  have happended : appended twoRequests.2 = [0, 1] := by decide +kernel
  have hready : ∀ r, (twoBufs r).Ready := by
    intro r
    have : r = 0 ∨ r = 1 := by omega
    obtain rfl | rfl := this <;> exact ⟨rfl, rfl, rfl, by decide⟩
  have hrun : Run (recording (step true)) free (start twoBufs (fun _ n => n) 0, [])
      (twoRequests.1, twoRequests.2) := by
    rw [Prod.mk.eta]
    exact run_free
  obtain ⟨-, -, -, -, hdone, -⟩ := ide_refines_memide hready (le_refl FSSIZE) hrun
  obtain ⟨hstarted, -, m, hm, hbuf, hdisk⟩ := hdone hfinished
  rw [happended] at hstarted hm
  exact ⟨hfinished, hstarted, m, hm, hbuf, by rw [hdisk]; simp⟩

end Xv6.Ide
