import Xv6.Sleep.Model

/-! No wakeup is lost. Between the test of its condition and its sleep a thread holds
either the lock of the condition, under which alone the condition is made true, or
`ptable.lock`, under which alone `wakeup1` runs. So a call of `wakeup` that comes for a
condition made true in between is still to be made when the thread is asleep. -/

namespace Xv6.Sleep
namespace State

open Runs Function

variable {D W H L T C : Type*} {E : Waits D W H L} {s s' : State D W H L T C} {c d : C} {t u : T}
  {w : W} {a : H} {l : Spinlock L}

/-- Some code has still to call `wakeup(a)`. -/
def Owed (s : State D W H L T C) (a : H) : Prop := ∃ u, a ∈ (s.thread u).owes

/-- If the condition of `w` holds then a `wakeup` for it is to come. -/
def Settled (E : Waits D W H L) (s : State D W H L T C) (w : W) : Prop :=
  E.cond w s.data = true → s.Owed (E.chan w)

def SleepsOn (s : State D W H L T C) (t : T) (a : H) : Prop :=
  (s.thread t).state = .TSLEEPING ∧ (s.thread t).chan = some a

/-- What holds when the thread that CPU `c` runs is at a point of the code. -/
def Fits (E : Waits D W H L) (s : State D W H L T C) (c : C) : Pc W H T → Prop
  | .sleepEnter w => E.lk w ≠ .ptable ∧ s.lock (E.lk w) = .locked c ∧ E.cond w s.data = false
  | .sleepBoth w => E.lk w ≠ .ptable ∧ s.lock (E.lk w) = .locked c ∧ E.cond w s.data = false ∧
      s.lock .ptable = .locked c
  | .sleepBody w => s.lock .ptable = .locked c ∧ Settled E s w
  | .wakeScan a ts _ => s.lock .ptable = .locked c ∧ ∀ t, s.SleepsOn t a → t ∈ ts
  | _ => True

structure Inv (E : Waits D W H L) (s : State D W H L T C) : Prop where
  running : ∀ c t, s.run c = some t → (s.thread t).state = .TRUNNING
  single : ∀ c d t, s.run c = some t → s.run d = some t → c = d
  runnable : ∀ t, (s.thread t).state = .TRUNNABLE →
    (s.thread t).pc = .leave ∨ ∃ w, (s.thread t).pc = .asleep w
  asleep : ∀ t, (s.thread t).state = .TSLEEPING →
    ∃ w, (s.thread t).pc = .asleep w ∧ (s.thread t).chan = some (E.chan w) ∧ Settled E s w
  fits : ∀ c t, s.run c = some t → Fits E s c (s.thread t).pc

theorem Booted.inv (h : Booted s) : Inv E s where
  running := fun c t hc => by rw [h.run c] at hc; cases hc
  single := fun c d t hc => by rw [h.run c] at hc; cases hc
  runnable := fun t _ => .inl (h.thread t).2.1
  asleep := fun t ht => by rw [(h.thread t).1] at ht; cases ht
  fits := fun c t hc => by rw [h.run c] at hc; cases hc

theorem Owed.mono (h : s.Owed a) (howes : ∀ u, (s.thread u).owes ⊆ (s'.thread u).owes) :
    s'.Owed a := by
  obtain ⟨u, hu⟩ := h
  exact ⟨u, howes u hu⟩

theorem Settled.mono (h : Settled E s w) (hdata : s'.data = s.data)
    (howes : ∀ u, (s.thread u).owes ⊆ (s'.thread u).owes) : Settled E s' w := by
  intro hw
  rw [hdata] at hw
  exact (h hw).mono howes

/-- Only the record of `t` is written, and its calls of `wakeup` are still to be made. -/
theorem Settled.of_others (h : Settled E s w) (hdata : s'.data = s.data)
    (ht : (s.thread t).owes ⊆ (s'.thread t).owes)
    (hothers : ∀ u, u ≠ t → s'.thread u = s.thread u) : Settled E s' w := by
  refine h.mono hdata fun u => ?_
  by_cases e : u = t
  · subst e
    exact ht
  · rw [hothers u e]
    exact List.Subset.refl _

/-! ## What a step of one CPU leaves to the others -/

theorem Fits.keep {p : Pc W H T} (h : Fits E s d p)
    (hlock : ∀ l, s.lock l = .locked d → s'.lock l = .locked d)
    (hcond : ∀ w, s.lock (E.lk w) = .locked d → E.cond w s.data = false → E.cond w s'.data = false)
    (hsettled : ∀ w, s.lock .ptable = .locked d → Settled E s w → Settled E s' w)
    (hsleeps : ∀ t a, s.lock .ptable = .locked d → s'.SleepsOn t a → s.SleepsOn t a) :
    Fits E s' d p := by
  cases p with
  | sleepEnter w =>
    obtain ⟨hne, hlk, hw⟩ := h
    exact ⟨hne, hlock _ hlk, hcond w hlk hw⟩
  | sleepBoth w =>
    obtain ⟨hne, hlk, hw, hpt⟩ := h
    exact ⟨hne, hlock _ hlk, hcond w hlk hw, hlock _ hpt⟩
  | sleepBody w => exact ⟨hlock _ h.1, hsettled w h.1 h.2⟩
  | wakeScan a ts b => exact ⟨hlock _ h.1, fun t ht => h.2 t (hsleeps t a h.1 ht)⟩
  | _ => trivial

section

variable (h : Inv E s) (hlock : ∀ d l, d ≠ c → s.lock l = .locked d → s'.lock l = .locked d)
  (hothers : ∀ u, u ≠ t → s'.thread u = s.thread u)
  (hcond : ∀ d w, d ≠ c → s.lock (E.lk w) = .locked d → E.cond w s.data = false →
    E.cond w s'.data = false)
  (hsettled : ∀ w, (∃ u, s.SleepsOn u (E.chan w)) ∨ (∃ d, d ≠ c ∧ s.lock .ptable = .locked d) →
    Settled E s w → Settled E s' w)

include h hlock hothers hcond hsettled

/-- A step of CPU `c` that writes the record of `t`, which no other CPU runs. Who holds a lock
keeps it and what the lock protects. -/
theorem Inv.writes (hrun : ∀ d, d ≠ c → s'.run d = s.run d) (hfree : ∀ d, d ≠ c → s.run d ≠ some t)
    (hc : ∀ u, s'.run c = some u →
      u = t ∧ (s'.thread t).state = .TRUNNING ∧ Fits E s' c (s'.thread t).pc)
    (hrunnable : (s'.thread t).state = .TRUNNABLE →
      (s'.thread t).pc = .leave ∨ ∃ w, (s'.thread t).pc = .asleep w)
    (hasleep : (s'.thread t).state = .TSLEEPING → s.lock .ptable = .locked c ∧
      ∃ w, (s'.thread t).pc = .asleep w ∧ (s'.thread t).chan = some (E.chan w) ∧
        Settled E s' w) : Inv E s' := by
  have hother : ∀ d u, d ≠ c → s.run d = some u → s'.thread u = s.thread u :=
    fun d u hd hu => hothers u (by rintro rfl; exact hfree d hd hu)
  constructor
  · intro d u hd
    by_cases e : d = c
    · obtain ⟨rfl, hst, -⟩ := hc u (e ▸ hd)
      exact hst
    · rw [hrun d e] at hd
      rw [hother d u e hd]
      exact h.running d u hd
  · intro d e u hd he
    by_cases hdc : d = c
    · subst hdc
      by_contra hne
      rw [hrun e (Ne.symm hne), (hc u hd).1] at he
      exact hfree e (Ne.symm hne) he
    · rw [hrun d hdc] at hd
      by_cases hec : e = c
      · subst hec
        rw [(hc u he).1] at hd
        exact absurd hd (hfree d hdc)
      · rw [hrun e hec] at he
        exact h.single d e u hd he
  · intro u hu
    by_cases e : u = t
    · subst e
      exact hrunnable hu
    · rw [hothers u e] at hu ⊢
      exact h.runnable u hu
  · intro u hu
    by_cases e : u = t
    · subst e
      exact (hasleep hu).2
    · rw [hothers u e] at hu ⊢
      obtain ⟨w, hpc, hchan, hw⟩ := h.asleep u hu
      exact ⟨w, hpc, hchan, hsettled w (.inl ⟨u, hu, hchan⟩) hw⟩
  · intro d u hd
    by_cases e : d = c
    · subst e
      obtain ⟨rfl, -, hfits⟩ := hc u hd
      exact hfits
    · rw [hrun d e] at hd
      rw [hother d u e hd]
      refine (h.fits d u hd).keep (hlock d · e) (hcond d · e)
        (fun w hl => hsettled w (.inr ⟨d, e, hl⟩)) fun v a hl hv => ?_
      by_cases hvt : v = t
      · -- `t` goes to sleep under `ptable.lock`
        subst hvt
        rw [(hasleep hv.1).1] at hl
        exact absurd (Locks.Cell.locked.inj hl).symm e
      · rwa [SleepsOn, hothers v hvt] at hv

/-- CPU `c` goes on with the thread `t` that it runs. -/
theorem Inv.turn (hc : s.run c = some t) (hrun : s'.run = s.run)
    (hstate : (s'.thread t).state = .TRUNNING) (hfits : Fits E s' c (s'.thread t).pc) :
    Inv E s' := by
  refine h.writes hlock hothers hcond hsettled (fun d _ => by rw [hrun])
    (fun d hd hdt => hd (h.single d c t hdt hc)) (fun u hu => ?_) (fun hst => ?_) fun hst => ?_
  · rw [hrun, hc] at hu
    exact ⟨(Option.some.inj hu).symm, hstate, hfits⟩
  · rw [hstate] at hst
    cases hst
  · rw [hstate] at hst
    cases hst

end

/-- A thread is as before, or has been woken up. -/
structure Eased (x y : Thread W H T) : Prop where
  pc : y.pc = x.pc
  chan : y.chan = x.chan
  owes : y.owes = x.owes
  state : y.state = x.state ∨ x.state = .TSLEEPING ∧ y.state = .TRUNNABLE

theorem Eased.refl (x : Thread W H T) : Eased x x := ⟨rfl, rfl, rfl, .inl rfl⟩

theorem Eased.wake [DecidableEq H] (x : Thread W H T) (a : H) : Eased x (x.wake a) := by
  unfold Thread.wake
  split
  · rename_i hx
    exact ⟨rfl, rfl, rfl, .inr ⟨hx.1, rfl⟩⟩
  · exact .refl x

theorem Eased.rouse (x : Thread W H T) : Eased x x.rouse := by
  unfold Thread.rouse
  split
  · rename_i hx
    exact ⟨rfl, rfl, rfl, .inr ⟨hx.1, rfl⟩⟩
  · exact .refl x

variable {x y : Thread W H T}

theorem Eased.asleep (h : Eased x y) (hy : y.state = .TSLEEPING) : x.state = .TSLEEPING := by
  rcases h.state with e | ⟨hx, -⟩
  · rw [← e, hy]
  · exact hx

theorem Eased.running (h : Eased x y) (hx : x.state = .TRUNNING) : y.state = .TRUNNING := by
  rcases h.state with e | ⟨hx', -⟩
  · rw [e, hx]
  · rw [hx] at hx'
    cases hx'

theorem Eased.sleepsOn (h : Eased x y)
    (hy : y.state = .TSLEEPING ∧ y.chan = some a) : x.state = .TSLEEPING ∧ x.chan = some a :=
  ⟨h.asleep hy.1, h.chan ▸ hy.2⟩

/-! ## The steps -/

/-- Two states differ in the locks at most, and there only in what CPU `c` holds. -/
structure Locked (c : C) (s s' : State D W H L T C) : Prop where
  run : s'.run = s.run
  thread : s'.thread = s.thread
  data : s'.data = s.data
  lock : ∀ d l, d ≠ c → s.lock l = .locked d → s'.lock l = .locked d

theorem Locked.refl (c : C) (s : State D W H L T C) : Locked c s s :=
  ⟨rfl, rfl, rfl, fun _ _ _ => id⟩

/-- CPU `c` takes or leaves a lock, and nothing else. -/
theorem Inv.locked (h : Inv E s) (hl : Locked c s s')
    (hfits : ∀ t, s.run c = some t → Fits E s' c (s.thread t).pc) : Inv E s' := by
  have hkeep : ∀ w, Settled E s w → Settled E s' w := fun w hw =>
    hw.mono hl.data fun u => by rw [hl.thread]; exact List.Subset.refl _
  refine ⟨?_, ?_, ?_, fun u hu => ?_, fun d u hu => ?_⟩
  · rw [hl.run, hl.thread]
    exact h.running
  · rw [hl.run]
    exact h.single
  · rw [hl.thread]
    exact h.runnable
  · rw [hl.thread] at hu ⊢
    obtain ⟨w, hpc, hchan, hw⟩ := h.asleep u hu
    exact ⟨w, hpc, hchan, hkeep w hw⟩
  · rw [hl.run] at hu
    rw [hl.thread]
    by_cases e : d = c
    · subst e
      exact hfits u hu
    · refine (h.fits d u hu).keep (hl.lock d · e) (fun w _ hw => ?_) (fun w _ => hkeep w)
        fun v a _ hv => ?_
      · rw [hl.data, hw]
      · rwa [SleepsOn, hl.thread] at hv

theorem sched_some [DecidableEq C] (h : s.sched c = some s') :
    s.lock .ptable = .locked c ∧ s'.run = update s.run c none ∧ s'.lock = s.lock ∧
      s'.data = s.data ∧ s'.thread = s.thread := by
  unfold sched at h
  split at h <;> cases h
  rename_i hpt
  exact ⟨hpt.1, rfl, rfl, rfl, rfl⟩

section

variable [DecidableEq L] [DecidableEq C]

theorem acquire_some (h : s.acquire c l = some s') :
    Locked c s s' ∧ s'.lock = update s.lock l (.locked c) := by
  unfold acquire at h
  split at h <;> cases h
  rename_i lock hl
  have e := (Locks.lock_zero hl).2
  exact ⟨⟨rfl, rfl, rfl, fun d n hd hn => (Locks.lock_others hl hd).2 hn⟩, e⟩

theorem release_some (h : s.release c l = some s') :
    Locked c s s' ∧ s'.lock = update s.lock l .unlocked := by
  unfold release at h
  split at h <;> cases h
  rename_i lock hl
  refine ⟨⟨rfl, rfl, rfl, fun d n hd hn => ?_⟩, Locks.unlock_zero hl⟩
  have hkept : (Locks.unlock s.lock c l).2 n = .locked d := (Locks.unlock_others hd).2 hn
  rwa [hl] at hkept

end

variable [DecidableEq T]

theorem set_self (s : State D W H L T C) (t : T) (f : Thread W H T → Thread W H T) :
    (s.set t f).thread t = f (s.thread t) := update_self _ _ _

theorem set_of_ne (s : State D W H L T C) (f : Thread W H T → Thread W H T) (h : u ≠ t) :
    (s.set t f).thread u = s.thread u := update_of_ne h _ _

variable {f : Thread W H T → Thread W H T}

theorem Inv.eases (h : Inv E s) (ht : Eased (s.thread t) (f (s.thread t))) : Inv E (s.set t f) := by
  have heased : ∀ u, Eased (s.thread u) ((s.set t f).thread u) := by
    intro u
    by_cases e : u = t
    · subst e
      rw [set_self]
      exact ht
    · rw [set_of_ne _ _ e]
      exact .refl _
  have hkeep : ∀ w, Settled E s w → Settled E (s.set t f) w := fun w hw =>
    hw.mono rfl fun u => by rw [(heased u).owes]; exact List.Subset.refl _
  refine ⟨?_, h.single, ?_, ?_, ?_⟩
  · exact fun c u hu => (heased u).running (h.running c u hu)
  · intro u hu
    rw [(heased u).pc]
    rcases (heased u).state with e | ⟨hx, -⟩
    · exact h.runnable u (e ▸ hu)
    · obtain ⟨w, hw, -⟩ := h.asleep u hx
      exact .inr ⟨w, hw⟩
  · intro u hu
    obtain ⟨w, hpc, hchan, hw⟩ := h.asleep u ((heased u).asleep hu)
    exact ⟨w, (heased u).pc ▸ hpc, (heased u).chan ▸ hchan, hkeep w hw⟩
  · intro c u hu
    rw [(heased u).pc]
    exact (h.fits c u hu).keep (fun _ => id) (fun _ _ => id) (fun w _ => hkeep w)
      (fun v a _ => (heased v).sleepsOn)

variable {s1 : State D W H L T C}

section

variable (h : Inv E s) (hc : s.run c = some t)

include h hc

/-- A step of the thread in its own code, in `sleep` or in `wakeup`, that writes its own
record only. -/
theorem Inv.moves (hl : Locked c s s1) (hst : (f (s.thread t)).state = (s.thread t).state)
    (howes : (s.thread t).owes ⊆ (f (s.thread t)).owes)
    (hfits : Fits E (s1.set t f) c (f (s.thread t)).pc) : Inv E (s1.set t f) := by
  have hself : (s1.set t f).thread t = f (s.thread t) := by rw [set_self, hl.thread]
  have hother : ∀ u, u ≠ t → (s1.set t f).thread u = s.thread u := by
    intro u hu
    rw [set_of_ne _ _ hu, hl.thread]
  refine h.turn hl.lock hother (fun d w _ _ hw => ?_) (fun w _ hw => ?_) hc hl.run ?_ ?_
  · rw [← hw]
    exact congrArg _ hl.data
  · exact hw.of_others hl.data (by rw [hself]; exact howes) hother
  · rw [hself, hst, h.running c t hc]
  · rw [hself]
    exact hfits

theorem Inv.goto {p : Pc W H T}
    (hl : Locked c s s1) (hfits : Fits E (s1.goto t p) c p) : Inv E (s1.goto t p) :=
  h.moves hc hl rfl (List.Subset.refl _) hfits

/-- The thread calls `sched`, under `ptable.lock`. -/
theorem Inv.leaves [DecidableEq C] (hs : (s.set t f).sched c = some s')
    (howes : (f (s.thread t)).owes = (s.thread t).owes)
    (ht : (f (s.thread t)).state = .TRUNNABLE ∧ (f (s.thread t)).pc = .leave ∨
      (f (s.thread t)).state = .TSLEEPING ∧ ∃ w, (f (s.thread t)).pc = .asleep w ∧
        (f (s.thread t)).chan = some (E.chan w) ∧ Settled E s w) : Inv E s' := by
  obtain ⟨hpt, hrun, hlock, hdata, hthread⟩ := sched_some hs
  have hself : s'.thread t = f (s.thread t) := by rw [hthread, set_self]
  have hothers : ∀ u, u ≠ t → s'.thread u = s.thread u := by
    intro u hu
    rw [hthread, set_of_ne _ _ hu]
  rw [← hself] at howes ht
  replace hpt : s.lock .ptable = .locked c := hpt
  replace hlock : s'.lock = s.lock := hlock
  replace hdata : s'.data = s.data := hdata
  replace hrun : s'.run = update s.run c none := hrun
  have hkeep : ∀ w, Settled E s w → Settled E s' w := fun w hw =>
    hw.of_others hdata (by rw [howes]; exact List.Subset.refl _) hothers
  refine h.writes (fun d l _ hl => by rw [hlock, hl]) hothers (fun d w _ _ hw => by rw [hdata, hw])
    (fun w _ => hkeep w) (fun d hd => by rw [hrun, update_of_ne hd])
    (fun d hd hdt => hd (h.single d c t hdt hc)) (fun u hu => ?_) (fun hu => ?_) fun hu => ?_
  · rw [hrun, update_self] at hu
    cases hu
  · rcases ht with ⟨-, hpc⟩ | ⟨hst, -⟩
    · exact .inl hpc
    · rw [hst] at hu
      cases hu
  · rcases ht with ⟨hst, -⟩ | ⟨-, w, hpc, hchan, hw⟩
    · rw [hst] at hu
      cases hu
    · exact ⟨hpt, w, hpc, hchan, hkeep w hw⟩

theorem Inv.write {f : D → D} {as : List H} (hpc : (s.thread t).pc = .body)
    (hdisc : ∀ w, E.cond w s.data = false → E.cond w (f s.data) = true →
      s.lock (E.lk w) = .locked c ∧ E.chan w ∈ (s.thread t).owes ++ as) :
    Inv E (s.write t f as) := by
  have hself : (s.write t f as).thread t = { s.thread t with owes := (s.thread t).owes ++ as } :=
    update_self _ _ _
  have hother : ∀ u, u ≠ t → (s.write t f as).thread u = s.thread u :=
    fun u hu => update_of_ne hu _ _
  refine h.turn (fun _ _ _ => id) hother ?_ ?_ hc rfl ?_ ?_
  · -- another CPU that holds the lock of `w` is not disturbed
    intro d w hd hl hw
    by_contra hne
    have hmine := (hdisc w hw (Bool.eq_true_of_not_eq_false hne)).1
    rw [hl] at hmine
    exact hd (Locks.Cell.locked.inj hmine)
  · intro w _ hw hcond
    cases hold : E.cond w s.data with
    | false =>
      refine ⟨t, ?_⟩
      rw [hself]
      exact (hdisc w hold hcond).2
    | true =>
      obtain ⟨u, hu⟩ := hw hold
      refine ⟨u, ?_⟩
      by_cases e : u = t
      · subst e
        rw [hself]
        exact List.mem_append_left _ hu
      · rw [hother u e]
        exact hu
  · rw [hself]
    exact h.running c t hc
  · rw [hself]
    dsimp only
    rw [hpc]
    trivial

end

/-- The scheduler of CPU `c` switches to `t`. -/
theorem Inv.dispatch [DecidableEq C] (h : Inv E s) (ht : (s.thread t).state = .TRUNNABLE) :
    Inv E (s.dispatch c t) := by
  have hself : (s.dispatch c t).thread t = { s.thread t with state := .TRUNNING } :=
    update_self _ _ _
  have hother : ∀ u, u ≠ t → (s.dispatch c t).thread u = s.thread u :=
    fun u hu => update_of_ne hu _ _
  have hidle : ∀ d, s.run d ≠ some t := by
    intro d hd
    rw [h.running d t hd] at ht
    cases ht
  refine h.writes (c := c) (fun _ _ _ => id) hother (fun _ _ _ _ => id) (fun w _ hw => ?_)
    (fun d hd => update_of_ne hd _ _) (fun d _ => hidle d) (fun u hu => ?_) (fun hst => ?_)
    fun hst => ?_
  · exact hw.of_others rfl (by rw [hself]; exact List.Subset.refl _) hother
  · have hrun : (s.dispatch c t).run c = some t := update_self _ _ _
    rw [hrun] at hu
    rw [hself]
    refine ⟨(Option.some.inj hu).symm, rfl, ?_⟩
    -- a runnable thread is in `sched`
    rcases h.runnable t ht with hpc | ⟨w, hpc⟩ <;> simp only [hpc, Fits]
  · rw [hself] at hst
    cases hst
  · rw [hself] at hst
    cases hst

theorem Inv.visit [DecidableEq C] (h : Inv E s) : Inv E (s.visit c t) := by
  have h' : Inv E (s.set t Thread.rouse) := h.eases (.rouse _)
  unfold State.visit
  dsimp only
  split
  · rename_i ht
    exact h'.dispatch ht
  · exact h'

variable [DecidableEq H]

/-- `wakeup1` comes to the record of `r`. -/
theorem Inv.wakes {r : T} {ts : List T} {b : Bool} (h : Inv E s) (hc : s.run c = some t)
    (hpc : (s.thread t).pc = .wakeScan a (r :: ts) b) :
    Inv E ((s.set r (·.wake a)).goto t (.wakeScan a ts b)) := by
  have hfits := h.fits c t hc
  rw [hpc] at hfits
  obtain ⟨hpt, hscan⟩ := hfits
  have h' : Inv E (s.set r (·.wake a)) := h.eases (.wake _ a)
  refine h'.goto hc (.refl c _) ⟨hpt, fun u hu => ?_⟩
  have hu' : (s.set r (·.wake a)).SleepsOn u a := by
    by_cases e : u = t
    · subst e
      rw [SleepsOn, State.goto, set_self] at hu
      exact hu
    · rw [SleepsOn, State.goto, set_of_ne _ _ e] at hu
      exact hu
  by_cases e : u = r
  · -- the record just visited does not sleep on `a` any more
    subst e
    rw [SleepsOn, set_self] at hu'
    have hold := (Eased.wake (s.thread u) a).sleepsOn hu'
    rw [Thread.wake, if_pos hold] at hu'
    cases hu'.1
  · rw [SleepsOn, set_of_ne _ _ e] at hu'
    exact (List.mem_cons.1 (hscan u hu')).resolve_left e

/-- `wakeup1` has been through the table: nobody sleeps on `a`. -/
theorem Inv.woken {b : Bool} (h : Inv E s) (hc : s.run c = some t)
    (hpc : (s.thread t).pc = .wakeScan a [] b) : Inv E (s.set t fun x =>
      { x with owes := x.owes.erase a, pc := if b then .wakeLeave else .body }) := by
  have hfits := h.fits c t hc
  rw [hpc] at hfits
  obtain ⟨hpt, hscan⟩ := hfits
  refine h.turn (fun _ _ _ => id) (fun u => set_of_ne _ _) (fun _ _ _ _ => id) ?_ hc rfl ?_ ?_
  · intro w hw hset hcond
    have hne : E.chan w ≠ a := by
      rintro rfl
      rcases hw with ⟨u, hu⟩ | ⟨d, hd, hl⟩
      · exact absurd (hscan u hu) List.not_mem_nil
      · rw [hpt] at hl
        exact hd (Locks.Cell.locked.inj hl).symm
    obtain ⟨u, hu⟩ := hset hcond
    refine ⟨u, ?_⟩
    by_cases e : u = t
    · subst e
      rw [set_self]
      exact (List.mem_erase_of_ne hne).2 hu
    · rw [set_of_ne _ _ e]
      exact hu
  · rw [set_self]
    exact h.running c t hc
  · rw [set_self]
    dsimp only
    split <;> trivial

variable [DecidableEq L] [DecidableEq C] {table : List T}

theorem Inv.go (h : Inv E s) (htable : ∀ t, t ∈ table) (hc : s.run c = some t)
    (hs : s.go E table c t = some s') : Inv E s' := by
  have hfits := h.fits c t hc
  unfold State.go at hs
  split at hs
  · cases hs
  · rename_i w hpc
    obtain ⟨s1, hs1, rfl⟩ := Option.map_eq_some_iff.1 hs
    obtain ⟨hl, hlock⟩ := acquire_some hs1
    rw [hpc] at hfits
    obtain ⟨hne, hlk, hcond⟩ := hfits
    refine h.goto hc hl ⟨hne, ?_, ?_, ?_⟩
    · rw [State.goto, State.set, hlock, update_of_ne hne, hlk]
    · rw [← hcond]
      exact congrArg _ hl.data
    · rw [State.goto, State.set, hlock, update_self]
  · rename_i w hpc
    obtain ⟨s1, hs1, rfl⟩ := Option.map_eq_some_iff.1 hs
    obtain ⟨hl, hlock⟩ := release_some hs1
    rw [hpc] at hfits
    obtain ⟨hne, -, hcond, hpt⟩ := hfits
    refine h.goto hc hl ⟨?_, fun hw => ?_⟩
    · rw [State.goto, State.set, hlock, update_of_ne hne.symm, hpt]
    · have hdata : (s1.goto t (.sleepBody w)).data = s.data := hl.data
      rw [hdata, hcond] at hw
      cases hw
  · rename_i w hpc
    rw [hpc] at hfits
    exact h.leaves hc hs rfl (.inr ⟨rfl, w, rfl, rfl, hfits.2⟩)
  · rename_i w hpc
    cases hs
    refine h.moves hc (.refl c s) rfl (List.Subset.refl _) ?_
    dsimp only
    split <;> trivial
  · obtain ⟨s1, hs1, rfl⟩ := Option.map_eq_some_iff.1 hs
    exact h.goto hc (release_some hs1).1 trivial
  · obtain ⟨s1, hs1, rfl⟩ := Option.map_eq_some_iff.1 hs
    exact h.goto hc (acquire_some hs1).1 trivial
  · obtain ⟨s1, hs1, rfl⟩ := Option.map_eq_some_iff.1 hs
    obtain ⟨hl, hlock⟩ := acquire_some hs1
    refine h.goto hc hl ⟨?_, fun u _ => htable u⟩
    rw [State.goto, State.set, hlock, update_self]
  · rename_i a r ts b hpc
    cases hs
    exact h.wakes hc hpc
  · rename_i a b hpc
    cases hs
    exact h.woken hc hpc
  · obtain ⟨s1, hs1, rfl⟩ := Option.map_eq_some_iff.1 hs
    exact h.goto hc (release_some hs1).1 trivial
  · obtain ⟨s1, hs1, rfl⟩ := Option.map_eq_some_iff.1 hs
    exact h.goto hc (acquire_some hs1).1 trivial
  · exact h.leaves hc hs rfl (.inl ⟨rfl, rfl⟩)
  · obtain ⟨s1, hs1, rfl⟩ := Option.map_eq_some_iff.1 hs
    exact h.goto hc (release_some hs1).1 trivial

omit [DecidableEq H] in
theorem Inv.act {x : Act D W H L T} (h : Inv E s) (htable : ∀ t, t ∈ table)
    (hc : s.run c = some t) (hpc : (s.thread t).pc = .body)
    (hg : Disciplined E s (c, x) s') (hs : s.act E table c t x = some s') : Inv E s' := by
  have hbody : ∀ s1 : State D W H L T C, ∀ u, s.run c = some u → Fits E s1 c (s.thread u).pc := by
    intro s1 u hu
    rw [hc] at hu
    cases hu
    rw [hpc]
    trivial
  cases x with
  | go | visit r => cases hs
  | acquire l => exact h.locked (acquire_some hs).1 (hbody s')
  | release l => exact h.locked (release_some hs).1 (hbody s')
  | update f as =>
    cases hs
    exact h.write hc hpc fun w => hg t w hc
  | test w =>
    simp only [State.act] at hs
    split at hs <;> cases hs
    · exact h
    · rename_i hcond
      have hfalse := Bool.eq_false_of_not_eq_true hcond
      refine h.goto hc (.refl c s) ?_
      split
      · rename_i hpt
        refine ⟨hpt ▸ hg, fun hw => ?_⟩
        exact absurd hw hcond
      · rename_i hpt
        exact ⟨hpt, hg, hfalse⟩
  | wakeup1 a =>
    cases hs
    exact h.goto hc (.refl c s) ⟨hg, fun u _ => htable u⟩
  | kill r =>
    cases hs
    exact h.eases ⟨rfl, rfl, rfl, .inl rfl⟩
  | _ =>
    cases hs
    exact h.goto hc (.refl c s) trivial

theorem Inv.step {x : C × Act D W H L T} (h : Inv E s) (htable : ∀ t, t ∈ table)
    (hs : s.step E table x = some s') (hg : Disciplined E s x s') : Inv E s' := by
  obtain ⟨c, x⟩ := x
  simp only [State.step] at hs
  split at hs
  · rename_i hc
    -- the scheduler
    have hnone : ∀ s1 : State D W H L T C, ∀ t, s.run c = some t → Fits E s1 c (s.thread t).pc := by
      intro s1 t ht
      rw [hc] at ht
      cases ht
    cases x with
    | go =>
      simp only [State.schedule] at hs
      split at hs
      · exact h.locked (release_some hs).1 (hnone s')
      · exact h.locked (acquire_some hs).1 (hnone s')
    | visit t =>
      simp only [State.schedule] at hs
      split at hs <;> cases hs
      exact h.visit
    | _ => cases hs
  · rename_i t hc
    split at hs
    · rename_i hpc
      exact h.act htable hc hpc hg hs
    · exact h.go htable hc hs
    · cases hs

/-- **No lost wakeup.** For any number of threads and CPUs that follow the discipline, in
every state that can be reached: a thread that is `TSLEEPING` sleeps on the channel of
what it waits for, and if the condition it waits for is true then some code has still to
call `wakeup` on that channel. -/
theorem sleep_wakeup {s0 : State D W H L T C} (htable : ∀ t, t ∈ table) (h0 : Booted s0)
    (hr : Run (State.step E table) (Disciplined E) s0 s) (ht : (s.thread t).state = .TSLEEPING) :
    ∃ w, (s.thread t).pc = .asleep w ∧ (s.thread t).chan = some (E.chan w) ∧
      (E.cond w s.data = true → ∃ u, E.chan w ∈ (s.thread u).owes) := by
  have h : Inv E s := hr.invariant h0.inv fun _ _ _ h hs hg => h.step htable hs hg
  exact h.asleep t ht

/-- The queue of `sleep1.p`: a consumer waits for `value > 0`. -/
def queue : Waits Nat Unit Unit Unit where
  cond := fun _ value => 0 < value
  chan := fun _ => ()
  lk := fun _ => .lk ()

/-- Two threads and two CPUs, before the first switch. -/
def queueStart : State Nat Unit Unit Unit (Fin 2) (Fin 2) where
  data := 0
  lock := fun _ => .unlocked
  ncli := fun _ => 0
  run := fun _ => none
  thread := fun _ => ⟨.TRUNNABLE, none, false, .leave, []⟩

def orderly (s : State Nat Unit Unit Unit (Fin 2) (Fin 2)) :
    Fin 2 × Act Nat Unit Unit Unit (Fin 2) → Bool
  | (c, .test _) => s.lock (.lk ()) = .locked c
  | (c, .update _ as) => s.lock (.lk ()) = .locked c ∧ () ∈ as
  | (c, .wakeup1 _) => s.lock .ptable = .locked c
  | _ => true

theorem disciplined_of_orderly {s s' : State Nat Unit Unit Unit (Fin 2) (Fin 2)}
    {x : Fin 2 × Act Nat Unit Unit Unit (Fin 2)} (h : orderly s x) : Disciplined queue s x s' := by
  obtain ⟨c, x⟩ := x
  cases x with
  | test w | wakeup1 a =>
    have h := of_decide_eq_true h
    exact h
  | update f as =>
    have h := of_decide_eq_true h
    exact fun t w _ _ _ => ⟨h.1, List.mem_append_right _ h.2⟩
  | _ => trivial

/-- Thread 0 finds the queue empty and sleeps; thread 1 fills it, releases the lock, and
is about to call `wakeup`. -/
def lateWakeup : List (Fin 2 × Act Nat Unit Unit Unit (Fin 2)) :=
  [(0, .go), (0, .visit 0), (0, .go), (0, .acquire (.lk ())), (0, .test ()), (0, .go), (0, .go),
    (0, .go), (0, .go), (1, .go), (1, .visit 1), (1, .go), (1, .acquire (.lk ())),
    (1, .update (· + 1) [()]), (1, .release (.lk ()))]

def late : State Nat Unit Unit Unit (Fin 2) (Fin 2) :=
  final (State.step queue [0, 1]) queueStart lateWakeup

theorem sleep_wakeup_late : (late.thread 0).state = .TSLEEPING ∧ 0 < late.data ∧
    ∃ u, () ∈ (late.thread u).owes := by
  have hrun : Run (State.step queue [0, 1]) (Disciplined queue) queueStart late :=
    run_final disciplined_of_orderly
  have hsleep : (late.thread 0).state = .TSLEEPING := by decide +kernel
  have hcond : 0 < late.data := by decide +kernel
  have hboot : Booted queueStart :=
    ⟨fun _ => rfl, fun _ => rfl, fun _ => rfl, fun _ => ⟨rfl, rfl, rfl⟩⟩
  obtain ⟨w, -, -, hw⟩ := sleep_wakeup (by decide) hboot hrun hsleep
  exact ⟨hsleep, hcond, hw (decide_eq_true hcond)⟩

end State
end Xv6.Sleep
