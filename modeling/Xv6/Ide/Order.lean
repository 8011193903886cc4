import Mathlib.Data.List.Induction
import Xv6.Ide.Model

/-! The order of the requests. The queue is what has been appended and not yet been taken by
`ideintr`; its head is the request that the disk works on, from `idestart` until the handler
takes it. So the requests are started one at a time and in the order in which they were
appended, and what is on the disk at any time is what `memide.c` would have there after the
requests that the disk has finished. -/

namespace Xv6.Ide

open Format Runs Function

variable {ρ D : Type*}

/-- What both drivers expect of a request: the buffer is locked, there is something to do, and
it is a block of disk 1. -/
structure Buf.Ready (b : Buf D) : Prop where
  locked : b.locked = true
  stale : b.upToDate = false
  dev : b.dev = 1
  blockno : b.blockno < FSSIZE

theorem Buf.valid_of_upToDate {b : Buf D} (h : b.upToDate = true) :
    b.valid = true ∧ b.dirty = false := by
  simpa [Buf.upToDate] using h

/-! ### The requests that `memide.c` has done -/

namespace Memide

/-- The buffer after the request. -/
def synced (b : Buf D) (memdisk : Nat → D) : Buf D :=
  { b with valid := true, dirty := false, data := if b.dirty then b.data else memdisk b.blockno }

/-- The disk after the request. -/
def written (b : Buf D) (memdisk : Nat → D) : Nat → D :=
  if b.dirty then update memdisk b.blockno b.data else memdisk

theorem iderw_ready {b : Buf D} (h : b.Ready) {disksize : Nat} (hsize : FSSIZE ≤ disksize)
    (memdisk : Nat → D) : iderw disksize b memdisk = .ok (synced b memdisk, written b memdisk) := by
  have hblock : ¬ b.blockno ≥ disksize := Nat.not_le.mpr (h.blockno.trans_le hsize)
  rw [iderw, if_neg (by simp [h.locked]), if_neg (by simp [h.stale]),
    if_neg (by simp [h.dev]), if_neg hblock]
  cases hdirty : b.dirty with
  | true => simp [synced, written, hdirty]
  | false =>
    rw [if_neg (by simp), synced, written, hdirty]
    simp

variable [DecidableEq ρ]

def State.sync (m : State ρ D) (r : ρ) : State ρ D where
  buf := update m.buf r (synced (m.buf r) m.memdisk)
  memdisk := written (m.buf r) m.memdisk

/-- The state after the requests in `l`. -/
def State.after (m : State ρ D) (l : List ρ) : State ρ D := l.foldl State.sync m

variable {m : State ρ D} {l : List ρ} {r r' : ρ}

theorem after_concat : m.after (l ++ [r]) = (m.after l).sync r := by
  simp [State.after]

theorem sync_buf_self : (m.sync r).buf r = synced (m.buf r) m.memdisk := update_self ..

theorem sync_buf_of_ne (h : r' ≠ r) : (m.sync r).buf r' = m.buf r' := update_of_ne h ..

theorem after_buf_of_notMem (h : r ∉ l) : (m.after l).buf r = m.buf r := by
  induction l using List.reverseRecOn with
  | nil => rfl
  | append_singleton l a ih =>
    simp only [List.mem_append, List.mem_singleton, not_or] at h
    rw [after_concat, sync_buf_of_ne h.2]
    exact ih h.1

theorem after_upToDate (h : r ∈ l) : ((m.after l).buf r).upToDate = true := by
  induction l using List.reverseRecOn with
  | nil => exact absurd h List.not_mem_nil
  | append_singleton l a ih =>
    rw [after_concat]
    by_cases hr : r = a
    · rw [hr, sync_buf_self]
      rfl
    · rw [sync_buf_of_ne hr]
      refine ih ?_
      simpa [hr] using h

/-- On requests that are made once, `memide.c` does not panic. -/
theorem run_eq_after {disksize : Nat} (hsize : FSSIZE ≤ disksize) (hready : ∀ r, (m.buf r).Ready)
    (hnodup : l.Nodup) : m.run disksize l = .ok (m.after l) := by
  induction l using List.reverseRecOn with
  | nil => rfl
  | append_singleton l a ih =>
    obtain ⟨hl, -, hdisjoint⟩ := List.nodup_append.mp hnodup
    have ha : a ∉ l := fun hmem => hdisjoint a hmem a (List.mem_singleton_self a) rfl
    have hbuf : (m.after l).buf a = m.buf a := after_buf_of_notMem ha
    have hlast : (m.after l).iderw disksize a = .ok ((m.after l).sync a) := by
      rw [State.iderw, hbuf, iderw_ready (hready a) hsize, State.sync, hbuf]
      rfl
    rw [State.run, List.foldlM_append]
    rw [State.run] at ih
    rw [ih hl, after_concat]
    exact congrArg (· >>= pure) hlast

end Memide

/-! ### The events -/

def Event.appended? : Event ρ → Option ρ
  | .appended r => some r
  | .started _ => none

def Event.started? : Event ρ → Option ρ
  | .appended _ => none
  | .started r => some r

/-- The requests in the order in which they were put into the queue. -/
def appended (log : List (Event ρ)) : List ρ := (log.filterMap Event.appended?).reverse

/-- The requests in the order in which `idestart` gave them to the disk. -/
def started (log : List (Event ρ)) : List ρ := (log.filterMap Event.started?).reverse

section Events

variable (log : List (Event ρ)) (r : ρ)

@[simp] theorem appended_appended : appended (.appended r :: log) = appended log ++ [r] := by
  simp [appended, Event.appended?]

@[simp] theorem appended_started : appended (.started r :: log) = appended log := by
  simp [appended, Event.appended?, List.filterMap_cons]

@[simp] theorem started_appended : started (.appended r :: log) = started log := by
  simp [started, Event.started?, List.filterMap_cons]

@[simp] theorem started_started : started (.started r :: log) = started log ++ [r] := by
  simp [started, Event.started?]

end Events

/-! ### The invariant -/

/-- The caller has put its request into the queue. -/
def Pc.queued : Pc → Bool
  | .idle | .acquire | .append => false
  | _ => true

/-- The caller holds `idelock`. -/
def Pc.holds : Pc → Bool
  | .append | .start | .test | .release => true
  | _ => false

/-- The caller has seen that its request is done. -/
def Pc.done : Pc → Bool
  | .release | .returned => true
  | _ => false

/-- The handler holds `idelock`. -/
def Handler.holds : Handler ρ → Bool
  | .idle | .acquire => false
  | _ => true

/-- The handler is not at work on a request. -/
def Handler.resting : Handler ρ → Bool
  | .idle | .release => true
  | _ => false

/-- The request whose buffer the handler is changing. -/
def Handler.changing : Handler ρ → Option ρ
  | .insl b | .flags b => some b
  | _ => none

/-- The request that the handler has taken and whose caller it has not woken. -/
def Handler.taken : Handler ρ → Option ρ
  | .insl b | .flags b | .wakeup b => some b
  | _ => none

section Invariant

/-- What is known of the caller of `r`, which is at `c`, when `idelock` is `lock`, the queue is `q`
and the handler is at `x`. -/
structure Caller (lock : Option (Holder ρ)) (q : List ρ) (x : Handler ρ) (queued fin : List ρ)
    (r : ρ) (c : Pc) : Prop where
  queued : r ∈ queued ↔ c.queued
  holds : c.holds ↔ lock = some (.caller r)
  done : c.done → r ∈ fin ∧ x.changing ≠ some r
  /-- A sleeper is woken by the handler. -/
  asleep : c = .asleep → r ∈ q ∨ x.taken = some r

theorem changing_of_not_holds {x : Handler ρ} (h : x.holds = false) : x.changing = none := by
  cases x <;> first | rfl | cases h

variable [DecidableEq ρ] (m : Memide.State ρ D) (sectors : Nat → Nat → D)

/-- Where the handler can be while the disk is idle. `fin` are the requests that it has taken. -/
def Resting (s : State ρ D) (fin : List ρ) : Handler ρ → Prop
  -- A request may be in the queue whose caller is about to start it.
  | .idle | .release => s.idequeue = [] ∨ ∃ r, s.idequeue = [r] ∧ s.pc r = .start
  | .acquire | .take => False
  | .insl b => ∃ f, fin = f ++ [b] ∧ s.buf b = m.buf b ∧
      ((m.buf b).dirty = false → s.disk.port = (m.after f).memdisk (m.buf b).blockno)
  | .flags b => ∃ f, fin = f ++ [b] ∧
      s.buf b = { m.buf b with data := (Memide.synced (m.buf b) (m.after f).memdisk).data }
  | .wakeup b => b ∈ fin
  | .next => True

/-- What the disk and the handler are doing; `begun` are the requests that were started. -/
inductive Stage (s : State ρ D) (fin : List ρ) : List ρ → Prop
  | idle (hcmd : s.disk.cmd = none) (hirq : s.disk.irq = false)
      (hdisk : s.disk.sectors = update sectors 1 (m.after fin).memdisk)
      (hhandler : Resting m s fin s.handler) : Stage s fin fin
  /-- The disk works on the head of the queue. -/
  | busy (b : ρ) (q : List ρ) (hqueue : s.idequeue = b :: q) (hpc : s.pc b ≠ .start)
      (hcmd : s.disk.cmd = some (command (m.buf b))) (hirq : s.disk.irq = false)
      (hhandler : s.handler.resting)
      (hdisk : s.disk.sectors = update sectors 1 (m.after fin).memdisk) :
      Stage s fin (fin ++ [b])
  /-- The disk has finished the head of the queue, and the handler has not taken it. -/
  | raised (b : ρ) (q : List ρ) (hqueue : s.idequeue = b :: q) (hpc : s.pc b ≠ .start)
      (hcmd : s.disk.cmd = none)
      (hirq : s.disk.irq = true ∧ s.handler.resting ∨
        s.disk.irq = false ∧ (s.handler = .acquire ∨ s.handler = .take))
      (hport : (m.buf b).dirty = false → s.disk.port = (m.after fin).memdisk (m.buf b).blockno)
      (hdisk : s.disk.sectors = update sectors 1 (m.after (fin ++ [b])).memdisk) :
      Stage s fin (fin ++ [b])

structure Inv (s : State ρ D) (queued begun : List ρ) (fin : List ρ) : Prop where
  panic : s.panic = none
  queue : queued = fin ++ s.idequeue
  nodup : queued.Nodup
  callers : ∀ r, Caller s.idelock s.idequeue s.handler queued fin r (s.pc r)
  handler_holds : s.handler.holds ↔ s.idelock = some .handler
  /-- Only the handler changes a buffer. -/
  bufs : ∀ r, s.handler.changing ≠ some r → s.buf r = (m.after fin).buf r
  stage : Stage m sectors s fin begun

variable {m sectors} {s t : State ρ D} {queued begun fin : List ρ} {r : ρ} {c : Pc}

variable (m sectors s begun fin) in
/-- The stage that belongs to a place of the handler. -/
def At : Handler ρ → Prop
  | .idle | .release => True
  | .acquire | .take => ∃ b q, begun = fin ++ [b] ∧ s.idequeue = b :: q ∧ s.pc b ≠ .start ∧
      s.disk.cmd = none ∧ s.disk.irq = false ∧
      ((m.buf b).dirty = false → s.disk.port = (m.after fin).memdisk (m.buf b).blockno) ∧
      s.disk.sectors = update sectors 1 (m.after (fin ++ [b])).memdisk
  | x => (begun = fin ∧ s.disk.cmd = none ∧ s.disk.irq = false ∧
      s.disk.sectors = update sectors 1 (m.after fin).memdisk) ∧ Resting m s fin x

/-! ### The steps of a caller -/

section

variable (h : Stage m sectors s fin begun)

include h

/-- The disk and the handler do not see where a caller is, except for the one that is about to
start its request. -/
theorem Stage.goto (hstart : c ≠ .start)
    (hfrom : s.pc r = .start → s.idequeue ≠ [r]) (lock : Option (Holder ρ)) :
    Stage m sectors { s.goto r c with idelock := lock } fin begun := by
  have hkeeps : ∀ b, s.pc b ≠ .start → update s.pc r c b ≠ .start := by
    intro b hb
    by_cases hbr : b = r
    · rw [hbr, update_self]
      exact hstart
    · rwa [update_of_ne hbr]
  cases h with
  | idle hcmd hirq hdisk hhandler =>
    refine .idle hcmd hirq hdisk ?_
    show Resting m { s.goto r c with idelock := lock } _ s.handler
    revert hhandler
    cases s.handler with
    | idle | release =>
      rintro (hnil | ⟨b, hb, hpc⟩)
      · exact .inl hnil
      · have hne : b ≠ r := fun he => hfrom (he ▸ hpc) (he ▸ hb)
        exact .inr ⟨b, hb, by simpa [State.goto, hne] using hpc⟩
    | _ => exact id
  | busy b q hqueue hpc hcmd hirq hhandler hdisk =>
    exact .busy b q hqueue (hkeeps b hpc) hcmd hirq hhandler hdisk
  | raised b q hqueue hpc hcmd hirq hport hdisk =>
    exact .raised b q hqueue (hkeeps b hpc) hcmd hirq hport hdisk

/-- What the place of the handler says of the disk. -/
theorem Stage.at {x : Handler ρ} (hx : s.handler = x) : At m sectors s begun fin x := by
  subst hx
  have hrest : s.handler.resting → At m sectors s begun fin s.handler := by
    cases s.handler <;> simp [Handler.resting, At]
  cases h with
  | idle hcmd hirq hdisk hx =>
    revert hx
    cases s.handler with
    | idle | release => exact fun _ => trivial
    | acquire | take => exact False.elim
    | _ => exact fun hx => ⟨⟨rfl, hcmd, hirq, hdisk⟩, hx⟩
  | busy _ _ _ _ _ _ hr _ => exact hrest hr
  | raised b q hqueue hpc hcmd hirq hport hdisk =>
    obtain ⟨-, hr⟩ | ⟨hirq, hx | hx⟩ := hirq
    · exact hrest hr
    · rw [hx]
      exact ⟨b, q, rfl, hqueue, hpc, hcmd, hirq, hport, hdisk⟩
    · rw [hx]
      exact ⟨b, q, rfl, hqueue, hpc, hcmd, hirq, hport, hdisk⟩

theorem Stage.changing_mem (hr : s.handler.changing = some r) : r ∈ fin := by
  cases hh : s.handler with
  | insl b | flags b =>
    rw [hh] at hr
    cases hr
    obtain ⟨-, f, hfin, -⟩ := h.at hh
    simp [hfin]
  | _ => simp [hh, Handler.changing] at hr

end

section

variable (h : Inv m sectors s queued begun fin)

include h

/-- A caller goes on and leaves the buffers alone. -/
theorem Inv.callerTo {queued' begun' : List ρ}
    (hpc : t.pc = update s.pc r c) (hpanic : t.panic = s.panic) (hbuf : t.buf = s.buf)
    (hchanging : t.handler.changing = s.handler.changing)
    (hqueue : queued' = fin ++ t.idequeue) (hnodup : queued'.Nodup)
    (hself : Caller t.idelock t.idequeue t.handler queued' fin r c)
    (hothers : ∀ a, a ≠ r → Caller s.idelock s.idequeue s.handler queued fin a (s.pc a) →
      Caller t.idelock t.idequeue t.handler queued' fin a (s.pc a))
    (hhandler : t.handler.holds ↔ t.idelock = some .handler)
    (hstage : Stage m sectors t fin begun') : Inv m sectors t queued' begun' fin where
  panic := hpanic.trans h.panic
  queue := hqueue
  nodup := hnodup
  callers := by
    rw [hpc]
    exact (forall_update_iff s.pc (Caller _ _ _ _ _)).2
      ⟨hself, fun a ha => hothers a ha (h.callers a)⟩
  handler_holds := hhandler
  bufs := by
    rw [hbuf, hchanging]
    exact h.bufs
  stage := hstage

theorem Inv.goto (hqueued : c.queued = (s.pc r).queued)
    (hdone : c.done → r ∈ fin ∧ s.handler.changing ≠ some r)
    (hasleep : c = .asleep → r ∈ s.idequeue) (hstart : c ≠ .start)
    (hfrom : s.pc r = .start → s.idequeue ≠ [r]) {lock : Option (Holder ρ)}
    (hholds : c.holds ↔ lock = some (.caller r))
    (hothers : ∀ a, a ≠ r → (s.idelock = some (.caller a) ↔ lock = some (.caller a)))
    (hhandler : s.handler.holds ↔ lock = some .handler) :
    Inv m sectors { s.goto r c with idelock := lock } queued begun fin :=
  h.callerTo rfl rfl rfl rfl h.queue h.nodup
    ⟨hqueued ▸ (h.callers r).queued, hholds, hdone, fun e => .inl (hasleep e)⟩
    (fun a ha hc => { hc with holds := hc.holds.trans (hothers a ha) }) hhandler
    (h.stage.goto hstart hfrom lock)

theorem Inv.only_caller (hr : (s.pc r).holds) :
    s.handler.holds = false ∧ ∀ a, (s.pc a).holds → a = r := by
  have hlock := (h.callers r).holds.1 hr
  constructor
  · by_contra hh
    have hhandler := h.handler_holds.1 (by simpa using hh)
    rw [hlock] at hhandler
    cases hhandler
  · intro a ha
    have hlock' := (h.callers a).holds.1 ha
    rw [hlock] at hlock'
    cases hlock'
    rfl

theorem Inv.only_handler (hh : s.handler.holds) (a : ρ) : (s.pc a).holds = false := by
  by_contra ha
  exact absurd hh (by simp [(h.only_caller (by simpa using ha : (s.pc a).holds = true)).1])

theorem Inv.acquire (hfree : s.idelock = none)
    (hqueued : c.queued = (s.pc r).queued) (hc : c.holds) (hdone : c.done = false)
    (hstart : c ≠ .start) :
    Inv m sectors { s.goto r c with idelock := some (.caller r) } queued begun fin := by
  have hhandler := h.handler_holds
  have hr := (h.callers r).holds
  rw [hfree] at hhandler hr
  refine h.goto hqueued (by simp [hdone]) ?_ hstart ?_ (by simp [hc])
    (fun a ha => by simp [hfree, ha.symm]) (hhandler.trans (by simp))
  · rintro rfl
    cases hc
  · intro hpc
    rw [hpc] at hr
    cases hr.1 rfl

theorem Inv.release (hr : (s.pc r).holds)
    (hqueued : c.queued = (s.pc r).queued) (hc : c.holds = false)
    (hdone : c.done → r ∈ fin ∧ s.handler.changing ≠ some r)
    (hasleep : c = .asleep → r ∈ s.idequeue) (hpc : s.pc r ≠ .start) :
    Inv m sectors { s.goto r c with idelock := none } queued begun fin := by
  have hlock := (h.callers r).holds.1 hr
  refine h.goto hqueued hdone hasleep ?_ (fun he => absurd he hpc) (by simp [hc])
    (fun a ha => by simp [hlock, ha.symm]) (by simp [(h.only_caller hr).1])
  rintro rfl
  cases hc

theorem Inv.move (hqueued : c.queued = (s.pc r).queued) (hholds : c.holds = (s.pc r).holds)
    (hdone : c.done → r ∈ fin ∧ s.handler.changing ≠ some r)
    (hasleep : c = .asleep → r ∈ s.idequeue) (hstart : c ≠ .start)
    (hfrom : s.pc r = .start → s.idequeue ≠ [r]) : Inv m sectors (s.goto r c) queued begun fin :=
  h.goto hqueued hdone hasleep hstart hfrom (hholds ▸ (h.callers r).holds) (fun _ _ => Iff.rfl)
    h.handler_holds

theorem Inv.notMem_of_queue (hr : r ∈ s.idequeue) : r ∉ fin := by
  intro hfin
  have hnodup := h.nodup
  rw [h.queue] at hnodup
  exact (List.nodup_append.mp hnodup).2.2 r hfin r hr rfl

/-- A request that is not finished is as its caller made it. -/
theorem Inv.buf_of_queue (hr : r ∈ s.idequeue)
    (hchanging : s.handler.changing ≠ some r) : s.buf r = m.buf r := by
  rw [h.bufs r hchanging, Memide.after_buf_of_notMem (h.notMem_of_queue hr)]

/-- The test of the loop tells the caller whether its request is done. -/
theorem Inv.test (hready : ∀ r, (m.buf r).Ready) (hpc : s.pc r = .test) :
    if (s.buf r).upToDate then r ∈ fin ∧ s.handler.changing ≠ some r else r ∈ s.idequeue := by
  have hhandler := (h.only_caller (by rw [hpc]; rfl : (s.pc r).holds = true)).1
  have hchanging : s.handler.changing ≠ some r := by
    rw [changing_of_not_holds hhandler]
    simp
  have hmem : r ∈ fin ∨ r ∈ s.idequeue := by
    have := (h.callers r).queued.mpr (by rw [hpc]; rfl)
    rwa [h.queue, List.mem_append] at this
  split
  · rename_i hup
    refine ⟨hmem.resolve_right fun hr => ?_, hchanging⟩
    rw [h.buf_of_queue hr hchanging, (hready r).stale] at hup
    cases hup
  · rename_i hup
    refine hmem.resolve_left fun hr => hup ?_
    rw [h.bufs r hchanging]
    exact Memide.after_upToDate hr

theorem Inv.append (hpc : s.pc r = .append) :
    Inv m sectors { s.goto r .start with idequeue := s.idequeue ++ [r] } (queued ++ [r]) begun
      fin := by
  have hr := h.callers r
  rw [hpc] at hr
  have honly := (h.only_caller (by rw [hpc]; rfl : (s.pc r).holds = true)).2
  have hnew : r ∉ queued := fun hmem => Bool.false_ne_true (hr.queued.1 hmem)
  refine h.callerTo rfl rfl rfl rfl (by rw [h.queue, List.append_assoc]) ?_
    ⟨by simp [Pc.queued], hr.holds, by simp [Pc.done], by simp⟩ (fun a ha hc => ?_)
    h.handler_holds ?_
  · exact List.nodup_append.2 ⟨h.nodup, by simp, fun a ha b hb e =>
      hnew (List.mem_singleton.1 hb ▸ e ▸ ha)⟩
  · exact ⟨by simpa [ha] using hc.queued, hc.holds, hc.done,
      fun e => (hc.asleep e).imp_left (List.mem_append_left _)⟩
  · -- the new request is the head only if the queue was empty, and then the disk is idle
    have hother : ∀ b q, s.idequeue = b :: q → b ≠ r := by
      intro b q hq hb
      refine hnew ?_
      rw [h.queue, hq, hb]
      simp
    cases h.stage with
    | idle hcmd hirq hdisk hhandler =>
      refine .idle hcmd hirq hdisk ?_
      show Resting m { s.goto r .start with idequeue := s.idequeue ++ [r] } _ s.handler
      revert hhandler
      cases s.handler with
      | idle | release =>
        intro hqueue
        refine .inr ⟨r, ?_, update_self ..⟩
        obtain hnil | ⟨b, hb, hstart⟩ := hqueue
        · rw [hnil]; rfl
        · exact absurd (honly b (by rw [hstart]; rfl)) (hother b [] hb)
      | _ => exact id
    | busy b q hqueue hstart hcmd hirq hresting hdisk =>
      refine .busy b (q ++ [r]) (by rw [hqueue]; rfl) ?_ hcmd hirq hresting hdisk
      simpa [State.goto, hother b q hqueue] using hstart
    | raised b q hqueue hstart hcmd hirq hport hdisk =>
      refine .raised b (q ++ [r]) (by rw [hqueue]; rfl) ?_ hcmd hirq hport hdisk
      simpa [State.goto, hother b q hqueue] using hstart

theorem Inv.begin (hready : ∀ r, (m.buf r).Ready)
    (hpc : s.pc r = .start) (hhead : s.idequeue.head? = some r) :
    ∃ t, idestart (s.goto r .test) r = some (t, [.started r]) ∧
      Inv m sectors t queued (begun ++ [r]) fin := by
  have hr := h.callers r
  rw [hpc] at hr
  have hhandler := (h.only_caller (by rw [hpc]; rfl : (s.pc r).holds = true)).1
  obtain ⟨q, hqueue⟩ := List.head?_eq_some_iff.1 hhead
  have hbuf : s.buf r = m.buf r := by
    refine h.buf_of_queue (by rw [hqueue]; simp) ?_
    rw [changing_of_not_holds hhandler]
    simp
  have hblock : ¬ (s.buf r).blockno ≥ FSSIZE := by
    rw [hbuf]
    exact Nat.not_le.2 (hready r).blockno
  cases h.stage with
  | idle hcmd hirq hdisk hrest =>
    have hresting : s.handler.resting = true := by
      revert hhandler hrest
      cases s.handler <;> simp [Handler.holds, Handler.resting, Resting]
    refine ⟨_, by simp [idestart, State.goto, hblock, hcmd]; rfl, ?_⟩
    exact h.callerTo rfl rfl rfl rfl h.queue h.nodup
      ⟨hr.queued, hr.holds, by simp [Pc.done], by simp⟩ (fun _ _ => id)
      h.handler_holds (.busy r q hqueue (by simp) (by simp [hbuf]) hirq hresting hdisk)
  | busy b q' hq hstart _ _ _ _ | raised b q' hq hstart _ _ _ _ =>
    rw [hqueue] at hq
    cases hq
    exact absurd hpc hstart

/-! ### The steps of the disk and of the handler -/

theorem Inv.finish (hready : ∀ r, (m.buf r).Ready) {d : Disk D} (hd : s.disk.finish = some d) :
    Inv m sectors { s with disk := d } queued begun fin := by
  refine { h with stage := ?_ }
  cases h.stage with
  | busy b q hqueue hpc hcmd hirq hresting hdisk =>
    have hnot : b ∉ fin := h.notMem_of_queue (by rw [hqueue]; simp)
    have hbuf : (m.after fin).buf b = m.buf b := Memide.after_buf_of_notMem hnot
    have hsector : (m.buf b).blockno * (BSIZE / 512) % 2 ^ 28 = (m.buf b).blockno := by
      have := (hready b).blockno
      simp only [FSSIZE, BSIZE] at this ⊢
      omega
    have hdrive : (m.buf b).dev % 2 = 1 := by rw [(hready b).dev]
    have hafter : (m.after (fin ++ [b])).memdisk =
        Memide.written (m.buf b) (m.after fin).memdisk := by
      rw [Memide.after_concat, Memide.State.sync, hbuf]
    rw [Disk.finish, hcmd, command, hsector, hdrive] at hd
    cases hdirty : (m.buf b).dirty with
    | true =>
      rw [hdirty] at hd
      cases hd
      refine .raised b q hqueue hpc rfl (.inl ⟨rfl, hresting⟩) (by simp [hdirty]) ?_
      simp [hafter, Memide.written, hdirty, hdisk]
    | false =>
      rw [hdirty] at hd
      cases hd
      refine .raised b q hqueue hpc rfl (.inl ⟨rfl, hresting⟩) (fun _ => ?_) ?_
      · simp [hdisk]
      · simpa [hafter, Memide.written, hdirty] using hdisk
  | idle hcmd _ _ _ | raised _ _ _ _ hcmd _ _ _ => simp [Disk.finish, hcmd] at hd

/-- The handler goes to a place that is at work on the same request; `lock` is `idelock` and `d` the
disk after the step. -/
theorem Inv.handlerTo {x : Handler ρ}
    (hchanging : x.changing = s.handler.changing) (htaken : x.taken = s.handler.taken)
    {lock : Option (Holder ρ)} (hholds : ∀ a, (s.pc a).holds ↔ lock = some (.caller a))
    (hlock : x.holds ↔ lock = some .handler) {d : Disk D} {begun' : List ρ}
    (hstage : Stage m sectors { s with idelock := lock, handler := x, disk := d } fin begun') :
    Inv m sectors { s with idelock := lock, handler := x, disk := d } queued begun' fin :=
  { h with
    callers := fun a => ⟨(h.callers a).queued, hholds a, hchanging ▸ (h.callers a).done,
      htaken ▸ (h.callers a).asleep⟩
    handler_holds := hlock
    bufs := hchanging ▸ h.bufs
    stage := hstage }

theorem Inv.interrupt (hidle : s.handler = .idle) (hirq : s.disk.irq = true) :
    Inv m sectors { s with disk := { s.disk with irq := false }, handler := .acquire } queued
      begun fin := by
  have hfree := h.handler_holds
  rw [hidle] at hfree
  refine h.handlerTo (x := .acquire) (by rw [hidle]; rfl) (by rw [hidle]; rfl)
    (fun a => (h.callers a).holds) hfree ?_
  cases h.stage with
  | raised b q hqueue hpc hcmd _ hport hdisk =>
    exact .raised b q hqueue hpc hcmd (.inr ⟨rfl, .inl rfl⟩) hport hdisk
  | idle _ hirq' _ _ | busy _ _ _ _ _ hirq' _ _ => simp [hirq] at hirq'

theorem Inv.handlerAcquire (hh : s.handler = .acquire) (hfree : s.idelock = none) :
    Inv m sectors { s with idelock := some .handler, handler := .take } queued begun fin := by
  obtain ⟨b, q, rfl, hqueue, hpc, hcmd, hirq, hport, hdisk⟩ := h.stage.at hh
  refine h.handlerTo (by rw [hh]; rfl) (by rw [hh]; rfl)
    (fun a => (h.callers a).holds.trans (by simp [hfree])) (by simp [Handler.holds]) ?_
  exact .raised b q hqueue hpc hcmd (.inr ⟨hirq, .inr rfl⟩) hport hdisk

theorem Inv.take (hh : s.handler = .take) : ∃ b q, s.idequeue = b :: q ∧
      Inv m sectors { s with idequeue := q, handler := .insl b } queued begun (fin ++ [b]) := by
  have hlock := h.handler_holds
  rw [hh] at hlock
  have hnone : ∀ a, s.handler.changing ≠ some a := by simp [hh, Handler.changing]
  obtain ⟨b, q, rfl, hqueue, -, hcmd, hirq, hport, hdisk⟩ := h.stage.at hh
  have hmem : b ∈ s.idequeue := by rw [hqueue]; simp
  refine ⟨b, q, hqueue, ?_⟩
  exact
    { h with
      queue := by rw [h.queue, hqueue, List.append_assoc]; rfl
      callers := by
        intro a
        have hc := h.callers a
        refine ⟨hc.queued, hc.holds, fun ha => ?_, fun ha => ?_⟩
        · have hfin := (hc.done ha).1
          refine ⟨List.mem_append_left _ hfin, fun he => ?_⟩
          cases he
          exact h.notMem_of_queue hmem hfin
        · have hq := (hc.asleep ha).resolve_right (by simp [hh, Handler.taken])
          rw [hqueue, List.mem_cons] at hq
          exact hq.symm.imp id fun he => by rw [he]; rfl
      handler_holds := hlock
      bufs := by
        intro a ha
        have hne : a ≠ b := fun he => ha (by rw [he]; rfl)
        rw [Memide.after_concat, Memide.sync_buf_of_ne hne]
        exact h.bufs a (hnone a)
      stage := .idle hcmd hirq hdisk ⟨fin, rfl, h.buf_of_queue hmem (hnone b), hport⟩ }

/-- The data of a read reach the buffer; `x` is the buffer after the step. -/
theorem Inv.insl {b : ρ} (hh : s.handler = .insl b)
    {x : Buf D} (hx : x = if (s.buf b).dirty then s.buf b
      else { s.buf b with data := s.disk.port }) :
    Inv m sectors { s.setBuf b x with handler := .flags b } queued begun fin := by
  have hchanging : s.handler.changing = some b := by rw [hh]; rfl
  have hlock := h.handler_holds
  have hcallers := h.callers
  rw [hh] at hlock hcallers
  obtain ⟨⟨hbegun, hcmd, hirq, hdisk⟩, f, hfin, hb, hport⟩ := h.stage.at hh
  have hx' : x = { m.buf b with data := (Memide.synced (m.buf b) (m.after f).memdisk).data } := by
    rw [hx, hb]
    cases hdirty : (m.buf b).dirty with
    | true =>
      simp only [Memide.synced, hdirty, if_true]
      rw [← hdirty]
    | false => simp [Memide.synced, hdirty, hport hdirty]
  subst hbegun
  exact
    { h with
      callers := fun a => { hcallers a with }
      handler_holds := hlock
      bufs := by
        intro a ha
        have hne : a ≠ b := fun he => ha (by rw [he]; rfl)
        rw [← h.bufs a (hchanging ▸ ha)]
        exact update_of_ne hne ..
      stage := .idle hcmd hirq hdisk ⟨f, hfin, by rw [← hx']; exact update_self ..⟩ }

theorem Inv.flags {b : ρ} (hh : s.handler = .flags b) :
    Inv m sectors { s.setBuf b { s.buf b with valid := true, dirty := false } with
      handler := .wakeup b } queued begun fin := by
  have hchanging : s.handler.changing = some b := by rw [hh]; rfl
  have hlock := h.handler_holds
  have hcallers := h.callers
  rw [hh] at hlock hcallers
  obtain ⟨⟨rfl, hcmd, hirq, hdisk⟩, f, hfin, hb⟩ := h.stage.at hh
  have hnot : b ∉ f := by
    intro hb
    have hnodup := h.nodup
    rw [h.queue, hfin] at hnodup
    have := (List.nodup_append.mp (List.nodup_append.mp hnodup).1).2.2
    exact this b hb b (by simp) rfl
  have hafter : (m.after begun).buf b = Memide.synced (m.buf b) (m.after f).memdisk := by
    rw [hfin, Memide.after_concat, Memide.sync_buf_self, Memide.after_buf_of_notMem hnot]
  have hsynced : { s.buf b with valid := true, dirty := false } = (m.after begun).buf b := by
    rw [hb, hafter]
    rfl
  exact
    { h with
      callers := fun a => { hcallers a with
        done := fun ha => ⟨((hcallers a).done ha).1, by simp [Handler.changing]⟩ }
      handler_holds := hlock
      bufs := by
        intro a _
        by_cases ha : a = b
        · rw [ha, ← hsynced]
          exact update_self ..
        · rw [← h.bufs a (by simpa [hchanging] using Ne.symm ha)]
          exact update_of_ne ha ..
      stage := .idle hcmd hirq hdisk (show b ∈ begun by rw [hfin]; simp) }

/-- `wakeup(b)`; the caller may be awake already. -/
theorem Inv.wakeup {b : ρ} (hh : s.handler = .wakeup b)
    (hc : s.pc b = .asleep ∧ c = .woken ∨ s.pc b ≠ .asleep ∧ c = s.pc b) :
    Inv m sectors { s.goto b c with handler := .next } queued begun fin := by
  have hlock := h.handler_holds
  have hcallers := h.callers
  rw [hh] at hlock hcallers
  obtain ⟨⟨rfl, hcmd, hirq, hdisk⟩, -⟩ := h.stage.at hh
  have hmoved : c.queued = (s.pc b).queued ∧ c.holds = (s.pc b).holds ∧
      c.done = (s.pc b).done ∧ c ≠ .asleep := by
    obtain ⟨hb, rfl⟩ | ⟨hb, rfl⟩ := hc
    · rw [hb]
      decide
    · exact ⟨rfl, rfl, rfl, hb⟩
  have hb := hcallers b
  refine h.callerTo rfl rfl rfl (by rw [hh]; rfl) h.queue h.nodup
    ⟨hmoved.1 ▸ hb.queued, hmoved.2.1 ▸ hb.holds, hmoved.2.2.1 ▸ hb.done,
      fun e => absurd e hmoved.2.2.2⟩ (fun a ha _ => ?_) hlock (.idle hcmd hirq hdisk trivial)
  have ha' := hcallers a
  refine { ha' with asleep := fun e => .inl ((ha'.asleep e).resolve_right ?_) }
  simpa [Handler.taken] using Ne.symm ha

theorem Inv.next (hready : ∀ r, (m.buf r).Ready) (hh : s.handler = .next) :
    (s.idequeue = [] ∧ Inv m sectors { s with handler := .release } queued begun fin) ∨
    ∃ b q t, s.idequeue = b :: q ∧
      idestart { s with handler := .release } b = some (t, [.started b]) ∧
      Inv m sectors t queued (begun ++ [b]) fin := by
  have hlock := h.handler_holds
  rw [hh] at hlock
  have hto : ∀ d begun', Stage m sectors { s with handler := .release, disk := d } fin begun' →
      Inv m sectors { s with handler := .release, disk := d } queued begun' fin := fun _ _ =>
    h.handlerTo (x := .release) (by rw [hh]; rfl) (by rw [hh]; rfl) (fun a => (h.callers a).holds)
      hlock
  obtain ⟨⟨rfl, hcmd, hirq, hdisk⟩, -⟩ := h.stage.at hh
  obtain hqueue | ⟨b, q, hqueue⟩ : s.idequeue = [] ∨ ∃ b q, s.idequeue = b :: q := by
    cases s.idequeue <;> simp
  · exact .inl ⟨hqueue, hto _ _ (.idle hcmd hirq hdisk (.inl hqueue))⟩
  · have hb : s.buf b = m.buf b :=
      h.buf_of_queue (by rw [hqueue]; simp) (by simp [hh, Handler.changing])
    have hblock : ¬ (s.buf b).blockno ≥ FSSIZE := by
      rw [hb]
      exact Nat.not_le.mpr (hready b).blockno
    have hpc : s.pc b ≠ .start := by
      intro hpc
      have := h.only_handler (by rw [hh]; rfl) b
      rw [hpc] at this
      cases this
    refine .inr ⟨b, q, _, hqueue, by simp [idestart, hblock, hcmd]; rfl, ?_⟩
    exact hto _ _ (.busy b q hqueue hpc (by simp [hb]) hirq rfl hdisk)

theorem Inv.handlerRelease (hh : s.handler = .release) :
    Inv m sectors { s with idelock := none, handler := .idle } queued begun fin := by
  have hfree := h.only_handler (by rw [hh]; rfl)
  refine h.handlerTo (by rw [hh]; rfl) (by rw [hh]; rfl) (fun a => by simp [hfree a])
    (by simp [Handler.holds]) ?_
  cases h.stage with
  | idle hcmd hirq hdisk hqueue =>
    rw [hh] at hqueue
    exact .idle hcmd hirq hdisk hqueue
  | busy b q hqueue hpc hcmd hirq _ hdisk => exact .busy b q hqueue hpc hcmd hirq rfl hdisk
  | raised b q hqueue hpc hcmd hirq hport hdisk =>
    obtain ⟨hirq, -⟩ | ⟨-, hx | hx⟩ := hirq
    · exact .raised b q hqueue hpc hcmd (.inl ⟨hirq, rfl⟩) hport hdisk
    · simp [hh] at hx
    · simp [hh] at hx

end

/-! ### One step and whole runs -/

variable {log e : List (Event ρ)} {l : Label ρ}

theorem Inv.call (h : Inv m sectors s queued begun fin) (hready : ∀ r, (m.buf r).Ready)
    (hs : call true s r = some t) : Inv m sectors t queued begun fin := by
  rw [Ide.call] at hs
  split at hs
  · cases hs
  rename_i hidle
  have hidle : s.pc r = .idle := by simpa using hidle
  have hnot : r ∉ fin := by
    intro hr
    have := (h.callers r).queued.mp (by rw [h.queue]; exact List.mem_append_left _ hr)
    rw [hidle] at this
    cases this
  have hbuf : s.buf r = m.buf r := by
    rw [h.bufs r ?_, Memide.after_buf_of_notMem hnot]
    exact fun hr => hnot (h.stage.changing_mem hr)
  rw [hbuf, if_neg (by simp [(hready r).locked]), if_neg (by simp [(hready r).stale]),
    if_neg (by simp)] at hs
  cases hs
  exact h.move (by rw [hidle]; rfl) (by rw [hidle]; rfl) (by simp [Pc.done]) (by simp) (by simp)
    (by simp [hidle])

section

variable (h : Inv m sectors s (appended log) (started log) fin)

include h

theorem Inv.caller (hready : ∀ r, (m.buf r).Ready) (hs : iderw s r = some (t, e)) :
    Inv m sectors t (appended (e ++ log)) (started (e ++ log)) fin := by
  cases hpc : s.pc r with
  | idle | asleep | returned => simp [iderw, hpc] at hs
  | append =>
    rw [iderw, hpc] at hs
    cases hs
    simpa using h.append hpc
  | start =>
    rw [iderw, hpc] at hs
    by_cases hhead : s.idequeue.head? = some r
    · obtain ⟨t', ht, hinv⟩ := h.begin hready hpc hhead
      simp only [if_pos hhead, ht] at hs
      cases hs
      simpa using hinv
    · simp only [if_neg hhead] at hs
      cases hs
      refine h.move (by rw [hpc]; rfl) (by rw [hpc]; rfl) (by simp [Pc.done]) (by simp) (by simp) ?_
      intro _ hq
      exact hhead (by rw [hq]; rfl)
  | test =>
    have htest := h.test hready hpc
    rw [iderw, hpc] at hs
    by_cases hup : (s.buf r).upToDate = true
    · simp only [if_pos hup] at hs htest
      cases hs
      exact h.move (by rw [hpc]; rfl) (by rw [hpc]; rfl) (fun _ => htest) (by simp) (by simp)
        (by simp [hpc])
    · simp only [if_neg hup] at hs htest
      cases hs
      exact h.release (by rw [hpc]; rfl) (by rw [hpc]; rfl) rfl (by simp [Pc.done])
        (fun _ => htest) (by simp [hpc])
  | release =>
    rw [iderw, hpc] at hs
    cases hs
    exact h.release (by rw [hpc]; rfl) (by rw [hpc]; rfl) rfl
      (fun _ => (h.callers r).done (by rw [hpc]; rfl)) (by simp) (by simp [hpc])
  | _ =>
    obtain ⟨hfree, hs⟩ := Option.ite_none_right_eq_some.mp (by rwa [iderw, hpc] at hs)
    cases hs
    exact h.acquire (by simpa using hfree) (by rw [hpc]; rfl) rfl rfl (by simp)

theorem Inv.ideintr (hready : ∀ r, (m.buf r).Ready) (hs : ideintr s = some (t, e)) :
    ∃ fin', Inv m sectors t (appended (e ++ log)) (started (e ++ log)) fin' := by
  cases hh : s.handler with
  | idle => simp [Ide.ideintr, hh] at hs
  | acquire =>
    obtain ⟨hfree, hs⟩ := Option.ite_none_right_eq_some.mp (by rwa [Ide.ideintr, hh] at hs)
    cases hs
    exact ⟨fin, h.handlerAcquire hh (by simpa using hfree)⟩
  | take =>
    obtain ⟨b, q, hqueue, hinv⟩ := h.take hh
    simp only [Ide.ideintr, hh, hqueue] at hs
    cases hs
    exact ⟨fin ++ [b], hinv⟩
  | insl b =>
    refine ⟨fin, ?_⟩
    by_cases hdirty : (s.buf b).dirty = true
    · simp only [Ide.ideintr, hh, if_pos hdirty] at hs
      cases hs
      have hinv := h.insl hh (x := s.buf b) (by simp [hdirty])
      rwa [State.setBuf, update_eq_self] at hinv
    · simp only [Ide.ideintr, hh, if_neg hdirty] at hs
      cases hs
      exact h.insl hh (by simp [hdirty])
  | flags b =>
    rw [Ide.ideintr, hh] at hs
    cases hs
    exact ⟨fin, h.flags hh⟩
  | wakeup b =>
    refine ⟨fin, ?_⟩
    by_cases hasleep : s.pc b = .asleep
    · simp only [Ide.ideintr, hh, if_pos hasleep] at hs
      cases hs
      exact h.wakeup hh (.inl ⟨hasleep, rfl⟩)
    · simp only [Ide.ideintr, hh, if_neg hasleep] at hs
      cases hs
      have hinv := h.wakeup hh (.inr ⟨hasleep, rfl⟩)
      rwa [State.goto, update_eq_self] at hinv
  | next =>
    refine ⟨fin, ?_⟩
    rw [Ide.ideintr, hh] at hs
    dsimp only at hs
    obtain ⟨hqueue, hinv⟩ | ⟨b, q, t', hqueue, ht, hinv⟩ := h.next hready hh
    · split at hs
      · cases hs
        exact hinv
      · rename_i hcons
        rw [hqueue] at hcons
        cases hcons
    · split at hs
      · rename_i hnil
        rw [hqueue] at hnil
        cases hnil
      · rename_i hcons
        rw [hqueue] at hcons
        cases hcons
        rw [ht] at hs
        cases hs
        simpa using hinv
  | release =>
    rw [Ide.ideintr, hh] at hs
    cases hs
    exact ⟨fin, h.handlerRelease hh⟩

theorem Inv.step (hready : ∀ r, (m.buf r).Ready) (hs : step true s l = some (t, e)) :
    ∃ fin', Inv m sectors t (appended (e ++ log)) (started (e ++ log)) fin' := by
  rw [Ide.step.eq_def, if_neg (by simp [h.panic])] at hs
  cases l with
  | call r =>
    obtain ⟨t', ht, he⟩ := Option.map_eq_some_iff.mp hs
    cases he
    exact ⟨fin, h.call hready ht⟩
  | caller r => exact ⟨fin, h.caller hready hs⟩
  | interrupt =>
    cases hh : s.handler with
    | idle =>
      dsimp only at hs
      rw [hh] at hs
      obtain ⟨hirq, hs⟩ := Option.ite_none_right_eq_some.mp hs
      cases hs
      exact ⟨fin, h.interrupt hh hirq⟩
    | _ => simp [hh] at hs
  | ideintr => exact h.ideintr hready hs
  | disk =>
    obtain ⟨d, hd, he⟩ := Option.map_eq_some_iff.mp hs
    cases he
    exact ⟨fin, h.finish hready hd⟩
  | wake r =>
    obtain ⟨hpc, hs⟩ := Option.ite_none_right_eq_some.mp hs
    cases hs
    exact ⟨fin, h.move (by rw [hpc]; rfl) (by rw [hpc]; rfl) (by simp [Pc.done]) (by simp)
      (by simp) (by simp [hpc])⟩

end

end Invariant

end Xv6.Ide
