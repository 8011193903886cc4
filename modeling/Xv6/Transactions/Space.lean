import Xv6.Transactions.Invariant

/-! The space of the log. `begin_op` reserves `MAXOPBLOCKS` blocks for each operation, out
of `LOGSIZE`; the log area that `mkfs` makes has `LOGSIZE` blocks with the header. -/

namespace Xv6.Transactions

open Runs Totals

variable {τ : Type*} {s s' : State τ} {t : τ} {a : Act} {w : Bool} {e : List (Event τ)} {m : Nat}
  {c : Int} {first size : Nat}

theorem Turn.layout {log log' : Log} {x x' : Thread} (h : Turn t a log x log' x' w e) :
    log'.size = log.size ∧ log'.start = log.start := by
  cases h <;> exact ⟨rfl, rfl⟩

section

variable [DecidableEq τ] {G : Guard (State τ) (τ × Act)}

/-- A place that no turn leads to, where `J` holds, is never reached. -/
theorem never_at {p : Pc} {J : State τ → Prop} (hr : Run State.step G (start τ first size) s)
    (hJ : ∀ b, Run State.step G (start τ first size) b → J b) (hout : p ≠ .out)
    (hbegin : p ≠ .beginOp)
    (hturn : ∀ s, J s → ∀ t a log' x' w e, Turn t a s.log (s.thread t) log' x' w e → x'.pc ≠ p)
    (t : τ) : (s.thread t).pc ≠ p := by
  suffices hall : ∀ t, (s.thread t).pc ≠ p from hall t
  refine hr.invariant_with (I := fun s => ∀ t, (s.thread t).pc ≠ p) hJ (fun _ => hout.symm) ?_
  rintro a ⟨t, l⟩ b hj h hs - u hu
  obtain ⟨w, e, hsteps⟩ := exists_steps hs
  by_cases e : u = t
  · subst e
    exact hturn a hj u _ _ _ _ _ hsteps.turn hu
  · rw [hsteps.others u e] at hu
    exact h u (Thread.pc_of_seen hu hbegin)

/-- The size and the place of the log do not change. -/
theorem layout_of_run (hr : Run State.step G (start τ first size) s) :
    s.log.size = size ∧ s.log.start = first := by
  refine hr.invariant (I := fun s => s.log.size = size ∧ s.log.start = first) ⟨rfl, rfl⟩ ?_
  rintro a ⟨t, l⟩ b h hs -
  obtain ⟨w, hw⟩ := steps_of_step hs
  obtain ⟨hsize, hstart⟩ := hw.turn.layout
  exact ⟨hsize.trans h.1, hstart.trans h.2⟩

end

/-- No operation logs more than `m` distinct blocks. -/
def AtMost (m : Nat) : Guard (State τ) (τ × Act) := fun s l _ =>
  ∀ b, l.2 = .logWrite b → ((s.thread l.1).logged.insert b).length ≤ m

/-- What is reserved for a thread that may log `m` distinct blocks: those it has not yet
logged. -/
def Thread.reserve (m : Nat) (x : Thread) : Int := if x.pc.inside then m - x.logged.length else 0

theorem Thread.reserve_inside {x : Thread} (h : x.pc.inside) : x.reserve m = m - x.logged.length :=
  if_pos h

theorem Thread.reserve_outside {x : Thread} (h : x.pc.inside = false) : x.reserve m = 0 :=
  if_neg (by rw [h]; decide)

theorem Thread.reserve_wake (m : Nat) (x : Thread) : x.wake.reserve m = x.reserve m := by
  rcases x.wake_cases with ⟨h, -⟩ | ⟨h, hw⟩
  · rw [h]
  · rw [hw, reserve, reserve, goto, h]
    rfl

theorem Thread.reserve_le (m : Nat) (x : Thread) : x.reserve m ≤ m * x.weight := by
  unfold reserve weight
  split <;> simp

/-- The distinct blocks of a thread, with the one it is about to log. -/
def Thread.Small (m : Nat) (x : Thread) : Prop :=
  x.logged.length ≤ m ∧ ∀ b, x.pc = .logWrite b → (x.logged.insert b).length ≤ m

theorem Thread.Small.nonneg {x : Thread} (h : x.Small m) : 0 ≤ x.reserve m := by
  have hle := h.1
  unfold Thread.reserve
  split <;> omega

theorem Thread.Small.wake {x : Thread} (h : x.Small m) : x.wake.Small m := by
  rcases x.wake_cases with ⟨hw, -⟩ | ⟨-, hw⟩
  · rwa [hw]
  · rw [hw]
    exact ⟨h.1, fun b hb => by cases hb⟩

/-- Every block that an operation has logged is in the log, and the blocks of the log
together with those that may still come are at most `c`. -/
structure Reserved [Fintype τ] (m : Nat) (c : Int) (s : State τ) : Prop where
  inv : Inv s
  logged : ∀ t, (s.thread t).pc.inside → (s.thread t).logged ⊆ s.log.lh
  small : ∀ t, (s.thread t).Small m
  room : (s.log.lh.length : Int) + total (Thread.reserve m) s.thread ≤ c

/-- What `begin_op` lets in fits into `c` blocks. -/
def Admits (m : Nat) (c : Int) : Prop :=
  ∀ n k : Int, 0 ≤ k → n + (k + 1) * MAXOPBLOCKS ≤ LOGSIZE → (k = 0 → n = 0) →
    n + m * k + m ≤ c

section

variable [Fintype τ]

section

variable (h : Reserved m c s)

include h

theorem Reserved.nonneg : 0 ≤ total (Thread.reserve m) s.thread :=
  total_nonneg fun t => (h.small t).nonneg

theorem Reserved.length_le : (s.log.lh.length : Int) ≤ c := by
  have hroom := h.room
  have hnonneg := h.nonneg
  omega

/-- A block that is not in the log has been reserved. -/
theorem Reserved.room_for {b : Nat} (hpc : (s.thread t).pc = .logWrite b)
    (hb : b ∉ s.log.lh) : (s.log.lh.length : Int) + 1 ≤ c := by
  have hin : (s.thread t).pc.inside := by rw [hpc]; rfl
  have hnew : b ∉ (s.thread t).logged := fun hm => hb (h.logged t hin hm)
  have hsmall := (h.small t).2 b hpc
  rw [List.length_insert_of_not_mem hnew] at hsmall
  have hpart : (s.thread t).reserve m ≤ total (Thread.reserve m) s.thread :=
    le_total (fun u => (h.small u).nonneg) t
  rw [Thread.reserve, if_pos hin] at hpart
  have hroom := h.room
  omega

theorem Reserved.step_logged (hs : Steps s s' t a w e) (u : τ)
    (hu : (s'.thread u).pc.inside) : (s'.thread u).logged ⊆ s'.log.lh := by
  obtain ⟨hturn, hothers⟩ := hs
  by_cases e : u = t
  · subst e
    have hold := h.logged u
    generalize s'.log = log', s'.thread u = x' at hturn hu
    cases hturn with
    | tooBig hpc | outside hpc | tested b _ hpc | overruns b hpc => exact hold (by rw [hpc]; rfl)
    | admitted => exact List.nil_subset _
    | absorbed b hpc hb =>
      have hsub := hold (by rw [hpc]; rfl)
      intro b' hb'
      rcases List.mem_insert_iff.1 hb' with rfl | hb'
      · exact hb
      · exact hsub hb'
    | appended b hpc hb hlt =>
      have hsub := hold (by rw [hpc]; rfl)
      intro b' hb'
      rcases List.mem_insert_iff.1 hb' with rfl | hb'
      · exact List.mem_append_right _ List.mem_cons_self
      · exact List.mem_append_left _ (hsub hb')
    | works p hcom hne hp =>
      have hnot : p.inside = false := Pc.not_inside hp
      rw [Thread.goto, hnot] at hu
      cases hu
    | _ => cases hu
  · rw [hothers u e] at hu ⊢
    have hin : (s.thread u).pc.inside ∧ ((s.thread u).seen w).logged = (s.thread u).logged := by
      cases w with
      | false => exact ⟨hu, rfl⟩
      | true =>
        rcases (s.thread u).wake_cases with ⟨hw, -⟩ | ⟨-, hw⟩
        · rw [Thread.seen, if_pos rfl, hw] at hu
          exact ⟨hu, congrArg Thread.logged hw⟩
        · rw [Thread.seen, if_pos rfl, hw] at hu
          cases hu
    rw [hin.2]
    rcases hturn.lh_subset with hpc | hsub
    · -- the log is cleared during a commit only
      exact (h.inv.not_both hin.1 (u := t) (by rw [hpc]; rfl)).elim
    · exact List.Subset.trans (h.logged u hin.1) hsub

theorem Reserved.step_small (hs : Steps s s' t a w e) (hg : AtMost m s (t, a) s') (u : τ) :
    (s'.thread u).Small m := by
  obtain ⟨hturn, hothers⟩ := hs
  by_cases e : u = t
  · subst e
    have hold := h.small u
    generalize s'.log = log', s'.thread u = x' at hturn
    cases hturn with
    | tested b ha hpc hbig =>
      refine ⟨hold.1, fun b' hb' => ?_⟩
      cases hb'
      exact hg b ha
    | admitted => exact ⟨Nat.zero_le m, fun b hb => by cases hb⟩
    | absorbed b hpc hb | appended b hpc hb hlt => exact ⟨hold.2 b hpc, fun b hb => by cases hb⟩
    | works p hcom hne hp =>
      refine ⟨hold.1, ?_⟩
      rintro b rfl
      cases hp
    | _ => exact ⟨hold.1, fun b hb => by cases hb⟩
  · rw [hothers u e]
    cases w with
    | false => exact h.small u
    | true => exact (h.small u).wake

/-- The space for an operation that is let in. -/
theorem Reserved.room_to_admit (ha : Admits m c)
    (hcom : s.log.committing = false) (hfull : ¬Full s.log) :
    (s.log.lh.length : Int) + total (Thread.reserve m) s.thread + m ≤ c := by
  have hle : total (Thread.reserve m) s.thread ≤ m * s.log.outstanding := by
    rw [h.inv.count, ← total_mul]
    exact total_mono fun u => (s.thread u).reserve_le m
  have hempty : s.log.outstanding = 0 → (s.log.lh.length : Int) = 0 := by
    intro hzero
    rw [h.inv.cleared hcom hzero]
    rfl
  have hfit := ha s.log.lh.length s.log.outstanding h.inv.nonneg (Int.not_lt.1 hfull) hempty
  omega

theorem Reserved.step_room [DecidableEq τ] (ha : Admits m c) (hs : Steps s s' t a w e) :
    (s'.log.lh.length : Int) + total (Thread.reserve m) s'.thread ≤ c := by
  have hroom := h.room
  have hself := (h.small t).nonneg
  have htotal := hs.total (Thread.reserve_wake m)
  have hadmit := h.room_to_admit ha
  have hlogged := h.logged t
  obtain ⟨hturn, -⟩ := hs
  generalize total (Thread.reserve m) s'.thread = r' at htotal ⊢
  generalize s'.log = log', s'.thread t = x' at hturn htotal ⊢
  cases hturn with
  | calls hpc | roused hpc | sleeps hpc | tooBig hpc | outside hpc | tested b _ hpc | overruns b hpc
  | writesHead hpc =>
    have hsame : ∀ p : Pc, p.inside = (s.thread t).pc.inside →
        ((s.thread t).goto p).reserve m = (s.thread t).reserve m := by
      intro p hp
      rw [Thread.reserve, Thread.reserve, Thread.goto, hp]
    rw [hsame _ (by rw [hpc]; rfl)] at htotal
    omega
  | works p hcom hne hp =>
    rw [Thread.reserve_outside (Pc.not_inside hcom), Thread.reserve_outside (Pc.not_inside hp)]
      at htotal
    omega
  | admitted hpc hcom hfull =>
    have hfit := hadmit hcom hfull
    rw [Thread.reserve_outside (by rw [hpc]; rfl), Thread.reserve_inside rfl, List.length_nil]
      at htotal
    dsimp only
    omega
  | absorbed b hpc hb =>
    have hlen : (s.thread t).logged.length ≤ ((s.thread t).logged.insert b).length :=
      List.length_le_length_insert
    rw [Thread.reserve_inside (by rw [hpc]; rfl), Thread.reserve_inside rfl] at htotal
    dsimp only at htotal
    omega
  | appended b hpc hb hlt =>
    have hin : (s.thread t).pc.inside := by rw [hpc]; rfl
    have hnew : b ∉ (s.thread t).logged := fun hm => hb (hlogged hin hm)
    rw [Thread.reserve_inside hin, Thread.reserve_inside rfl, List.length_insert_of_not_mem hnew]
      at htotal
    rw [List.length_append, List.length_singleton]
    omega
  | endPanics hpc | endsLast hpc | ends hpc | done hpc =>
    rw [Thread.reserve_outside (x := (s.thread t).goto _) rfl] at htotal
    dsimp only
    omega
  | clears hpc =>
    rw [Thread.reserve_outside (x := (s.thread t).goto _) rfl] at htotal
    rw [List.length_nil]
    omega

theorem Reserved.step [DecidableEq τ] (ha : Admits m c)
    (hs : s.step (t, a) = some s') (hg : AtMost m s (t, a) s') : Reserved m c s' := by
  obtain ⟨w, hw⟩ := steps_of_step hs
  exact ⟨h.inv.step hw, h.step_logged hw, h.step_small hw hg, h.step_room ha hw⟩

end

theorem start_reserved (first size : Nat) (hc : 0 ≤ c) : Reserved m c (start τ first size) where
  inv := start_inv first size
  logged := fun _ h => by cases h
  small := fun _ => ⟨Nat.zero_le m, fun _ h => by cases h⟩
  room := by
    have hzero : total (Thread.reserve m) (start τ first size).thread = 0 :=
      total_eq_zero fun _ => rfl
    rw [hzero]
    exact hc

theorem reserved_of_run [DecidableEq τ] (ha : Admits m c) (hc : 0 ≤ c)
    (hr : Run State.step (AtMost m) (start τ first size) s) : Reserved m c s := by
  refine hr.invariant (start_reserved first size hc) ?_
  rintro a ⟨t, l⟩ b h hs hg
  exact h.step ha hs hg

theorem admits_all : Admits MAXOPBLOCKS LOGSIZE := by
  intro n k _ hfull _
  simp only [MAXOPBLOCKS, LOGSIZE] at *
  omega

/-- With operations of at most `MAXOPBLOCKS` blocks `log.lh.block` is not overrun. -/
theorem no_overrun [DecidableEq τ]
    (hr : Run State.step (AtMost MAXOPBLOCKS) (start τ first size) s) (t : τ) :
    s.log.lh.length ≤ LOGSIZE ∧ (s.thread t).pc ≠ .overrun := by
  have hres : ∀ b, Run State.step (AtMost MAXOPBLOCKS) (start τ first size) b →
      Reserved MAXOPBLOCKS LOGSIZE b := fun b hb => reserved_of_run admits_all (by decide) hb
  refine ⟨Int.ofNat_le.1 (hres s hr).length_le, never_at hr hres (by decide) (by decide) ?_ t⟩
  intro s hres t a log' x' w e hturn hx
  cases hturn with
  | overruns b hpc hb hlen =>
    have hfit := hres.room_for hpc hb
    omega
  | works p hcom hne hp =>
    cases hx
    cases hp
  | _ => cases hx

/-- One block less for each operation: two operations or more leave room, and a single one
has the log for itself. -/
theorem admits_less : Admits (MAXOPBLOCKS - 1) (LOGSIZE - 2) := by
  intro n k hk hfull hzero
  simp only [MAXOPBLOCKS, LOGSIZE] at *
  omega

/-- **Log space.** On a file system made by `mkfs`, where every operation logs at most
`MAXOPBLOCKS - 1` distinct blocks, the panic "too big a transaction" is not reached. -/
theorem log_space_reserved [DecidableEq τ] {first : Nat}
    (hr : Run State.step (AtMost (MAXOPBLOCKS - 1)) (start τ first LOGSIZE) s) (t : τ) :
    (s.thread t).pc ≠ .panic .tooBig := by
  have hJ : ∀ b, Run State.step (AtMost (MAXOPBLOCKS - 1)) (start τ first LOGSIZE) b →
      Reserved (MAXOPBLOCKS - 1) (LOGSIZE - 2) b ∧ b.log.size = LOGSIZE :=
    fun b hb => ⟨reserved_of_run admits_less (by decide) hb, (layout_of_run hb).1⟩
  refine never_at hr hJ (by decide) (by decide) ?_ t
  rintro s ⟨hres, hsize⟩ t a log' x' w e hturn hx
  cases hturn with
  | tooBig hpc hbig =>
    have hlen := hres.length_le
    simp only [TooBig, hsize, MAXOPBLOCKS, LOGSIZE] at hlen hbig
    omega
  | works p hcom hne hp =>
    cases hx
    cases hp
  | _ => cases hx

end

/-- The test of `AtMost`, on one step. -/
def atMost (m : Nat) (s : State τ) (l : τ × Act) : Bool :=
  match l.2 with
  | .logWrite b => ((s.thread l.1).logged.insert b).length ≤ m
  | _ => true

theorem atMost_of_test {l : τ × Act} (h : atMost m s l) : AtMost m s l s' := by
  intro b hb
  rw [atMost, hb] at h
  exact of_decide_eq_true h

/-- Thread `t` logs the blocks `bs`. -/
def logs (t : τ) (bs : List Nat) : List (τ × Act) :=
  bs.flatMap fun b => [(t, .logWrite b), (t, .go)]

def begins (t : τ) : List (τ × Act) := [(t, .beginOp), (t, .go)]

/-- The state after steps of three threads. -/
abbrev three (ls : List (Fin 3 × Act)) : State (Fin 3) :=
  final State.step (start (Fin 3) 2 LOGSIZE) ls

/-- Three operations of nine blocks at the same time. -/
def nineEach : List (Fin 3 × Act) :=
  begins 0 ++ begins 1 ++ begins 2 ++ logs 0 (List.range' 100 9) ++ logs 1 (List.range' 200 9) ++
    logs 2 (List.range' 300 9)

theorem log_space_reserved_nine : (three nineEach).log.lh.length = 27 ∧
    ((three nineEach).thread 2).pc ≠ .panic .tooBig := by
  have hrun : Run State.step (AtMost (MAXOPBLOCKS - 1)) (start (Fin 3) 2 LOGSIZE)
      (three nineEach) := run_final atMost_of_test
  exact ⟨by decide +kernel, log_space_reserved hrun 2⟩

/-- Three operations of ten blocks, up to the test for the last block. -/
def tenEach : List (Fin 3 × Act) :=
  begins 0 ++ begins 1 ++ begins 2 ++ logs 0 (List.range' 100 10) ++ logs 1 (List.range' 200 10) ++
    logs 2 (List.range' 300 9) ++ [(2, .logWrite 309)]

theorem no_overrun_tenEach : (three tenEach).log.lh.length ≤ LOGSIZE :=
  (no_overrun (run_final atMost_of_test) 0).1

/-- Three operations of `MAXOPBLOCKS` blocks are let in, and the last `log_write` panics. -/
theorem log_space_exhausted :
    ∃ s : State (Fin 3), Run State.step (AtMost MAXOPBLOCKS) (start (Fin 3) 2 LOGSIZE) s ∧
      (s.thread 2).pc = .panic .tooBig := by
  refine ⟨three tenEach, ?_, by decide +kernel⟩
  exact run_final atMost_of_test

/-! ## The blocks that `write_log` writes -/

/-- The thread is between the test of `log_write` and its section. -/
def Thread.pending (x : Thread) : Int :=
  match x.pc with
  | .logWrite _ => 1
  | _ => 0

/-- A `log_write` passes its test only where there is room beside the blocks of those that
have passed it and are still to be recorded. -/
def Timely [Fintype τ] : Guard (State τ) (τ × Act) := fun s l _ =>
  ∀ b, l.2 = .logWrite b → ¬TooBig s.log →
    (s.log.lh.length : Int) + total Thread.pending s.thread < s.log.size - 1

theorem Thread.pending_wake (x : Thread) : x.wake.pending = x.pending := by
  rcases x.wake_cases with ⟨h, -⟩ | ⟨h, hw⟩
  · rw [h]
  · rw [hw, pending, pending, goto, h]

theorem Thread.pending_nonneg (x : Thread) : 0 ≤ x.pending := by
  unfold pending
  split <;> decide

theorem Thread.pending_of_ne {x : Thread} (h : ∀ b, x.pc ≠ .logWrite b) : x.pending = 0 := by
  unfold pending
  split
  · rename_i b hb
    exact absurd hb (h b)
  · rfl

theorem Thread.pending_of_eq {x : Thread} {b : Nat} (h : x.pc = .logWrite b) : x.pending = 1 := by
  rw [pending, h]

section

variable [Fintype τ]

/-- The blocks of the log are distinct and fit into the log area. -/
structure Fits (s : State τ) : Prop where
  nodup : s.log.lh.Nodup
  room : (s.log.lh.length : Int) + total Thread.pending s.thread ≤ s.log.size - 1

theorem Fits.length_lt (h : Fits s) : (s.log.lh.length : Int) < s.log.size := by
  have hroom := h.room
  have hnonneg : 0 ≤ total Thread.pending s.thread :=
    total_nonneg fun t => (s.thread t).pending_nonneg
  omega

theorem Fits.step [DecidableEq τ] (h : Fits s) (hs : s.step (t, a) = some s')
    (hg : Timely s (t, a) s') : Fits s' := by
  obtain ⟨w, e, hsteps⟩ := exists_steps hs
  have htotal := hsteps.total Thread.pending_wake
  have hroom := h.room
  have hnodup := h.nodup
  have hnonneg := (s.thread t).pending_nonneg
  obtain ⟨hturn, -⟩ := hsteps
  suffices hboth : s'.log.lh.Nodup ∧
      (s'.log.lh.length : Int) + total Thread.pending s'.thread ≤ s'.log.size - 1 from
    ⟨hboth.1, hboth.2⟩
  generalize total Thread.pending s'.thread = r' at htotal ⊢
  generalize s'.log = log', s'.thread t = x' at hturn htotal ⊢
  cases hturn with
  | tested b ha hpc hbig =>
    have hgap := hg b ha hbig
    rw [Thread.pending_of_ne (by simp [hpc]), Thread.pending_of_eq (b := b) rfl] at htotal
    exact ⟨hnodup, by omega⟩
  | appended b hpc hb hlt =>
    rw [Thread.pending_of_eq hpc, Thread.pending_of_ne (by simp)] at htotal
    refine ⟨List.nodup_append_comm.1 (List.nodup_cons.2 ⟨hb, hnodup⟩), ?_⟩
    rw [List.length_append, List.length_singleton]
    dsimp only
    omega
  | clears hpc =>
    rw [Thread.pending_of_ne (x := (s.thread t).goto _) (by simp [Thread.goto])] at htotal
    refine ⟨List.nodup_nil, ?_⟩
    rw [List.length_nil]
    dsimp only
    omega
  | works p hcom hne hp =>
    rw [Thread.pending_of_ne (x := (s.thread t).goto p) (by rintro b rfl; cases hp)] at htotal
    exact ⟨hnodup, by omega⟩
  | absorbed b hpc hb =>
    rw [Thread.pending_of_ne (x := ⟨.inOp, _⟩) (by simp)] at htotal
    exact ⟨hnodup, by omega⟩
  | admitted hpc =>
    rw [Thread.pending_of_ne (x := ⟨.inOp, _⟩) (by simp)] at htotal
    exact ⟨hnodup, by dsimp only; omega⟩
  | endPanics | endsLast | ends | done =>
    rw [Thread.pending_of_ne (x := (s.thread t).goto _) (by simp [Thread.goto])] at htotal
    exact ⟨hnodup, by dsimp only; omega⟩
  | _ =>
    rw [Thread.pending_of_ne (x := (s.thread t).goto _) (by simp [Thread.goto])] at htotal
    exact ⟨hnodup, by omega⟩

/-- **Log area.** Where no `log_write` passes its test on room that others have taken: the
log has at most `log.size - 1` blocks, all distinct, and `write_log` writes no block
outside the log area. -/
theorem log_area [DecidableEq τ] {first size : Nat} (hsize : 0 < size)
    (hr : Run State.step Timely (start τ first size) s) :
    s.log.lh.length ≤ size - 1 ∧ s.log.lh.Nodup ∧
    ∀ t tail, (s.thread t).pc = .writeLog tail → tail < s.log.lh.length →
      first ≤ logBlock s.log tail ∧ logBlock s.log tail < first + size := by
  obtain ⟨hlsize, hlstart⟩ := layout_of_run hr
  have hfits : Fits s := by
    refine hr.invariant ⟨List.nodup_nil, ?_⟩ ?_
    · have hzero : total Thread.pending (start τ first size).thread = 0 :=
        total_eq_zero fun _ => rfl
      rw [hzero]
      simp only [start, List.length_nil]
      omega
    · rintro a ⟨t, l⟩ b h hs hg
      exact h.step hs hg
  have hlt := hfits.length_lt
  rw [hlsize] at hlt
  refine ⟨by omega, hfits.nodup, fun t tail _ htail => ?_⟩
  rw [logBlock, hlstart]
  omega

end

/-- The test of `Timely`, on one step. -/
def timely [Fintype τ] (s : State τ) (l : τ × Act) : Bool :=
  match l.2 with
  | .logWrite _ => (s.log.lh.length : Int) + total Thread.pending s.thread < s.log.size - 1
  | _ => true

theorem timely_of_test [Fintype τ] {l : τ × Act} (h : timely s l) : Timely s l s' := by
  intro b hb _
  rw [timely, hb] at h
  exact of_decide_eq_true h

/-- Two operations whose `log_write`s overlap, up to the second block that is written to
the log. -/
def overlapping : List (Fin 2 × Act) :=
  begins 0 ++ begins 1 ++ [(0, .logWrite 100), (1, .logWrite 200), (1, .go), (0, .go), (1, .endOp),
    (0, .endOp), (0, .go), (0, .go)]

/-- The state after `overlapping`. -/
def overlappingEnd : State (Fin 2) := final State.step (start (Fin 2) 2 LOGSIZE) overlapping

theorem log_area_overlapping :
    overlappingEnd.log.lh = [200, 100] ∧ logBlock overlappingEnd.log 1 < 2 + LOGSIZE := by
  have hrun : Run State.step Timely (start (Fin 2) 2 LOGSIZE) overlappingEnd :=
    run_final timely_of_test
  have harea := (log_area (by decide) hrun).2.2 0 1 (by decide +kernel) (by decide +kernel)
  exact ⟨by decide +kernel, harea.2⟩

/-- Three operations of ten blocks. The last two blocks are tested for when 28 are in the
log, then recorded. -/
def overfull : List (Fin 3 × Act) :=
  begins 0 ++ begins 1 ++ begins 2 ++ logs 0 (List.range' 100 10) ++ logs 1 (List.range' 200 9) ++
    logs 2 (List.range' 300 9) ++
    [(1, .logWrite 209), (2, .logWrite 309), (1, .go), (2, .go)]

/-- `log.lh.n` exceeds `log.size - 1`: the block of the log for the last number would be the
one behind the log area, the first block of inodes. -/
theorem log_area_overfull :
    ∃ s : State (Fin 3), Run State.step (AtMost MAXOPBLOCKS) (start (Fin 3) 2 LOGSIZE) s ∧
      (s.log.size : Int) - 1 < s.log.lh.length ∧
      logBlock s.log (s.log.lh.length - 1) = s.log.start + LOGSIZE := by
  refine ⟨three overfull, ?_, by decide +kernel⟩
  exact run_final atMost_of_test

end Xv6.Transactions
