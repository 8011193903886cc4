import Xv6.Lib.Totals
import Xv6.Transactions.Model

/-! Operations and commits. The operations that `begin_op` has let in are counted in
`log.outstanding`; the last one to end commits, and until it is done no other is let in.
So nothing is logged during a commit, and what one operation logs goes into one commit. -/

namespace Xv6.Transactions

open Runs Totals Function

variable {τ : Type*}

/-- The thread is counted in `log.outstanding`. -/
def Pc.inside : Pc → Bool
  | .inOp | .logWrite _ | .panic .tooBig | .panic .outsideOfTrans | .overrun => true
  | _ => false

/-- The thread is in `commit` or about to finish it. -/
def Pc.commits : Pc → Bool
  | .commit | .writeLog _ | .installTrans _ | .writeHead | .clearHead | .eraseHead
  | .commitDone | .panic .noBuffers => true
  | _ => false

variable {p : Pc}

theorem Pc.not_inside (h : p.commits) : p.inside = false := by
  cases p with
  | panic q => cases q <;> first | rfl | cases h
  | _ => first | rfl | cases h

/-- The header is written, and not yet erased. -/
def Pc.installs : Pc → Bool
  | .installTrans _ | .clearHead => true
  | _ => false

theorem Pc.commits_of_installs (h : p.installs) : p.commits := by
  cases p <;> first | rfl | cases h

def Thread.weight (x : Thread) : Int := if x.pc.inside then 1 else 0

theorem Thread.weight_nonneg (x : Thread) : 0 ≤ x.weight := by
  unfold weight
  split <;> decide

variable {x : Thread}

theorem Thread.weight_of_inside (h : x.pc.inside) : x.weight = 1 := if_pos h

theorem Thread.wake_cases (x : Thread) :
    x.wake = x ∧ x.pc ≠ .asleep ∨ x.pc = .asleep ∧ x.wake = x.goto .beginOp := by
  unfold wake
  split
  · rename_i h
    exact .inr ⟨h, rfl⟩
  · rename_i h
    exact .inl ⟨rfl, h⟩

theorem Thread.weight_wake (x : Thread) : x.wake.weight = x.weight := by
  rcases x.wake_cases with ⟨h, -⟩ | ⟨h, hw⟩
  · rw [h]
  · rw [hw, weight, weight, goto, h]
    rfl

/-! ## What a step does -/

/-- What thread `t` can do in step `a`: the log and its record before and after, whether it calls
`wakeup(&log)`, and what is written down of it. -/
inductive Turn (t : τ) (a : Act) (log : Log) (x : Thread) :
    Log → Thread → Bool → List (Event τ) → Prop
  | calls : x.pc = .out → Turn t a log x log (x.goto .beginOp) false []
  | roused : x.pc = .asleep → Turn t a log x log (x.goto .beginOp) false []
  | sleeps : x.pc = .beginOp → log.committing = true ∨ Full log →
      Turn t a log x log (x.goto .asleep) false []
  | admitted : x.pc = .beginOp → log.committing = false → ¬Full log →
      Turn t a log x { log with outstanding := log.outstanding + 1 } ⟨.inOp, []⟩ false []
  | tooBig : x.pc = .inOp → TooBig log → Turn t a log x log (x.goto (.panic .tooBig)) false []
  | outside : x.pc = .inOp → log.outstanding < 1 →
      Turn t a log x log (x.goto (.panic .outsideOfTrans)) false []
  | tested (b : Nat) : a = .logWrite b → x.pc = .inOp → ¬TooBig log →
      Turn t a log x log (x.goto (.logWrite b)) false []
  | absorbed (b : Nat) : x.pc = .logWrite b → b ∈ log.lh →
      Turn t a log x log ⟨.inOp, x.logged.insert b⟩ false [.logged t b]
  | appended (b : Nat) : x.pc = .logWrite b → b ∉ log.lh → log.lh.length < LOGSIZE →
      Turn t a log x { log with lh := log.lh ++ [b] } ⟨.inOp, x.logged.insert b⟩ false [.logged t b]
  | overruns (b : Nat) : x.pc = .logWrite b → b ∉ log.lh → LOGSIZE ≤ log.lh.length →
      Turn t a log x log (x.goto .overrun) false []
  | endPanics : x.pc = .inOp → log.committing = true →
      Turn t a log x { log with outstanding := log.outstanding - 1 }
        (x.goto (.panic .logCommitting)) false [.ended t]
  | endsLast : x.pc = .inOp → log.committing = false → log.outstanding - 1 = 0 →
      Turn t a log x { log with outstanding := log.outstanding - 1, committing := true }
        (x.goto .commit) false [.ended t]
  | ends : x.pc = .inOp → log.committing = false → log.outstanding - 1 ≠ 0 →
      Turn t a log x { log with outstanding := log.outstanding - 1 } (x.goto .out) true [.ended t]
  | writesHead : x.pc = .writeHead →
      Turn t a log x log (x.goto (.installTrans 0)) false [.committed log.lh]
  /-- The other steps of `commit`. -/
  | works (p : Pc) : x.pc.commits → x.pc ≠ .commitDone → p.commits →
      (p = .eraseHead ∨ p = .commitDone → x.pc = .eraseHead ∨ log.lh = []) →
      (p.installs → x.pc.installs) →
      Turn t a log x log (x.goto p) false []
  | clears : x.pc = .clearHead →
      Turn t a log x { log with lh := [] } (x.goto .eraseHead) false []
  | done : x.pc = .commitDone →
      Turn t a log x { log with committing := false } (x.goto .out) true []

/-- What a step of another thread does to a record. -/
def Thread.seen (woken : Bool) (x : Thread) : Thread := if woken then x.wake else x

theorem Thread.seen_pc (w : Bool) (x : Thread) :
    (x.seen w).pc = x.pc ∨ x.pc = .asleep ∧ (x.seen w).pc = .beginOp := by
  cases w with
  | false => exact .inl rfl
  | true =>
    rcases x.wake_cases with ⟨h, -⟩ | ⟨h, hw⟩
    · exact .inl (congrArg Thread.pc h)
    · exact .inr ⟨h, congrArg Thread.pc hw⟩

/-- Only sleeping threads are seen to move. -/
theorem Thread.pc_of_seen {w : Bool} (h : (x.seen w).pc = p) (hp : p ≠ .beginOp) : x.pc = p := by
  rcases x.seen_pc w with e | ⟨-, e⟩
  · rw [← e, h]
  · exact absurd (h.symm.trans e) hp

theorem Thread.commits_of_seen {w : Bool} (h : (x.seen w).pc.commits) : x.pc.commits := by
  rcases x.seen_pc w with e | ⟨-, e⟩
  · rwa [e] at h
  · rw [e] at h
    cases h

variable {t : τ} {a : Act} {log log' : Log} {x' : Thread} {w : Bool} {e e' : List (Event τ)}

theorem Turn.lh_subset (h : Turn t a log x log' x' w e) : x.pc = .clearHead ∨ log.lh ⊆ log'.lh := by
  cases h with
  | clears hpc => exact .inl hpc
  | appended b hpc hb hlt => exact .inr (List.subset_append_left _ _)
  | _ => exact .inr (List.Subset.refl _)

/-- A thread leaves its operation by `end_op` only. -/
theorem Turn.inside
    (h : Turn t a log x log' x' w e) (hx : x.pc.inside) : x'.pc.inside ∨ e = [.ended t] := by
  cases h with
  | endPanics | endsLast | ends => exact .inr rfl
  | tooBig | outside | tested | absorbed | appended | overruns | admitted => exact .inl rfl
  | calls hpc | roused hpc | sleeps hpc | writesHead hpc | clears hpc | done hpc =>
    rw [hpc] at hx
    cases hx
  | works p hcom hne hp herase hinst =>
    rw [Pc.not_inside hcom] at hx
    cases hx

variable {s s' : State τ}

/-- A step, as its thread and as the others see it. -/
structure Steps (s s' : State τ) (t : τ) (a : Act) (w : Bool) (e : List (Event τ)) : Prop where
  turn : Turn t a s.log (s.thread t) s'.log (s'.thread t) w e
  others : ∀ u, u ≠ t → s'.thread u = (s.thread u).seen w

theorem Steps.inside (h : Steps s s' t a w e) {u : τ}
    (hu : (s.thread u).pc.inside) : (s'.thread u).pc.inside ∨ e = [.ended u] := by
  by_cases e : u = t
  · subst e
    exact h.turn.inside hu
  · left
    rw [h.others u e]
    rcases (s.thread u).seen_pc w with hp | ⟨hp, -⟩
    · rw [hp]
      exact hu
    · rw [hp] at hu
      cases hu

theorem Steps.installs (h : Steps s s' t a w e) {u : τ} (hu : (s'.thread u).pc.installs) :
    (s.thread u).pc.installs ∨ u = t ∧ e = [.committed s.log.lh] := by
  by_cases e : u = t
  · subst e
    obtain ⟨hturn, -⟩ := h
    generalize s'.log = log', s'.thread u = x' at hturn hu
    cases hturn with
    | writesHead => exact .inr ⟨rfl, rfl⟩
    | works p hcom hne hp herase hinst => exact .inl (hinst hu)
    | _ => cases hu
  · left
    rw [h.others u e] at hu
    rcases (s.thread u).seen_pc w with hp | ⟨-, hp⟩
    · rwa [hp] at hu
    · rw [hp] at hu
      cases hu

/-- What is written down of a step. -/
theorem Steps.events (h : Steps s s' t a w e) :
    e = [] ∨ e = [.ended t] ∨ e = [.committed s.log.lh] ∧ (s.thread t).pc = .writeHead ∨
      ∃ b, e = [.logged t b] ∧ (s.thread t).pc = .logWrite b ∧ b ∈ s'.log.lh ∧
        (s'.thread t).pc = .inOp := by
  obtain ⟨hturn, -⟩ := h
  generalize s'.log = log', s'.thread t = x' at hturn
  cases hturn with
  | endPanics | endsLast | ends => exact .inr (.inl rfl)
  | writesHead hpc => exact .inr (.inr (.inl ⟨rfl, hpc⟩))
  | absorbed b hpc hb => exact .inr (.inr (.inr ⟨b, rfl, hpc, hb, rfl⟩))
  | appended b hpc hb hlt =>
    exact .inr (.inr (.inr ⟨b, rfl, hpc, List.mem_append_right _ List.mem_cons_self, rfl⟩))
  | _ => exact .inl rfl

theorem Steps.logged {u : τ} {b : Nat} (h : Steps s s' t a w e) (hb : .logged u b ∈ e) :
    u = t ∧ b ∈ s'.log.lh ∧ (s'.thread t).pc.inside := by
  rcases h.events with rfl | rfl | ⟨rfl, -⟩ | ⟨b0, rfl, -, hb0, hpc⟩
  · cases hb
  · cases List.mem_singleton.1 hb
  · cases List.mem_singleton.1 hb
  · cases List.mem_singleton.1 hb
    exact ⟨rfl, hb0, by rw [hpc]; rfl⟩

theorem State.copies_cases (s : State τ) {tail dirty : Nat} {p q : Pc} :
    s.copies tail dirty p q = p ∨ s.copies tail dirty p q = .panic .noBuffers ∨
      s.copies tail dirty p q = q := by
  unfold State.copies
  split
  · split
    · exact .inl rfl
    · exact .inr (.inl rfl)
  · exact .inr (.inr rfl)

section

variable [DecidableEq τ]

theorem Steps.of_set (h : Turn t a s.log (s.thread t) log x false e) (he : e' = e) :
    Steps s { s.set t x with log := log } t a false e' := by
  subst he
  constructor
  · have hself : ({ s.set t x with log := log } : State τ).thread t = x := update_self _ _ _
    rw [hself]
    exact h
  · exact fun u hu => update_of_ne hu _ _

theorem Steps.of_wakeup (hx : x.pc ≠ .asleep)
    (h : Turn t a s.log (s.thread t) log x true e) (he : e' = e) :
    Steps s (State.wakeup { s.set t x with log := log }) t a true e' := by
  subst he
  have hself : update s.thread t x t = x := update_self _ _ _
  constructor
  · have hwake : (State.wakeup { s.set t x with log := log }).thread t = x := by
      simp only [State.wakeup, State.set, hself]
      exact if_neg hx
    rw [hwake]
    exact h
  · intro u hu
    simp only [State.wakeup, State.set, update_of_ne hu]
    rfl

/-- A step of `commit` that changes nothing but the place. -/
theorem Steps.of_works (hcom : (s.thread t).pc.commits)
    (hne : (s.thread t).pc ≠ .commitDone) (hp : p.commits)
    (herase : p = .eraseHead ∨ p = .commitDone → (s.thread t).pc = .eraseHead ∨ s.log.lh = [])
    (hinst : p.installs → (s.thread t).pc.installs) (he : e = []) :
    Steps s (s.goto t p) t a false e :=
  .of_set (.works p hcom hne hp herase hinst) he

theorem steps_of_go (hs : s.go t = some s') : ∃ w, Steps s s' t .go w (events s (t, .go) s') := by
  unfold State.go at hs
  split at hs
  · rename_i hpc
    cases hs
    have he : events s (t, .go) (s.beginOp t) = [] := by simp only [events, hpc]
    rw [he]
    unfold State.beginOp
    split
    · rename_i hw
      exact ⟨_, .of_set (.sleeps hpc hw) rfl⟩
    · rename_i hw
      rw [not_or, Bool.not_eq_true] at hw
      exact ⟨_, .of_set (.admitted hpc hw.1 hw.2) rfl⟩
  · rename_i b hpc
    cases hs
    unfold State.logWrite
    split
    · rename_i hb
      exact ⟨_, .of_set (.absorbed b hpc hb) (by simp [events, hpc, State.set])⟩
    · rename_i hb
      split
      · rename_i hlt
        exact ⟨_, .of_set (.appended b hpc hb hlt) (by simp [events, hpc, State.set])⟩
      · rename_i hlt
        exact ⟨_, .of_set (.overruns b hpc hb (Nat.le_of_not_lt hlt))
          (by simp [events, hpc, State.goto, State.set, Thread.goto])⟩
  · rename_i hpc
    cases hs
    refine ⟨_, .of_works (by rw [hpc]; rfl) (by simp [hpc]) ?_ ?_ ?_ (by simp only [events, hpc])⟩
    · split <;> rfl
    · split
      · rintro (h | h) <;> cases h
      · rename_i hn
        exact fun _ => .inr (List.eq_nil_of_length_eq_zero (Nat.eq_zero_of_not_pos hn))
    · split <;> intro h <;> cases h
  · rename_i tail hpc
    cases hs
    refine ⟨_, .of_works (by rw [hpc]; rfl) (by simp [hpc]) ?_ ?_ ?_ (by simp only [events, hpc])⟩
    · rcases s.copies_cases with e | e | e <;> rw [e] <;> rfl
    · rcases s.copies_cases with e | e | e <;> rw [e] <;> rintro (h | h) <;> cases h
    · rcases s.copies_cases with e | e | e <;> rw [e] <;> intro h <;> cases h
  · rename_i hpc
    cases hs
    exact ⟨_, .of_set (.writesHead hpc) (by simp only [events, hpc])⟩
  · rename_i tail hpc
    cases hs
    refine ⟨_, .of_works (by rw [hpc]; rfl) (by simp [hpc]) ?_ ?_ ?_ (by simp only [events, hpc])⟩
    · rcases s.copies_cases with e | e | e <;> rw [e] <;> rfl
    · rcases s.copies_cases with e | e | e <;> rw [e] <;> rintro (h | h) <;> cases h
    · exact fun _ => by rw [hpc]; rfl
  · rename_i hpc
    cases hs
    exact ⟨_, .of_set (.clears hpc) (by simp only [events, hpc])⟩
  · rename_i hpc
    cases hs
    refine ⟨_, .of_works (by rw [hpc]; rfl) (by simp [hpc]) rfl ?_ ?_ (by simp only [events, hpc])⟩
    · exact fun _ => .inl hpc
    · intro h
      cases h
  · rename_i hpc
    cases hs
    exact ⟨_, .of_wakeup (by simp [Thread.goto]) (.done hpc) (by simp only [events, hpc])⟩
  · cases hs

theorem steps_of_step (hs : s.step (t, a) = some s') :
    ∃ w, Steps s s' t a w (events s (t, a) s') := by
  cases a with
  | go => exact steps_of_go hs
  | beginOp =>
    simp only [State.step] at hs
    split at hs <;> cases hs
    rename_i hpc
    exact ⟨_, .of_set (.calls hpc) (by simp only [events, hpc])⟩
  | rouse =>
    simp only [State.step] at hs
    split at hs <;> cases hs
    rename_i hpc
    exact ⟨_, .of_set (.roused hpc) (by simp only [events, hpc])⟩
  | logWrite b =>
    simp only [State.step] at hs
    split at hs <;> cases hs
    rename_i hpc
    have he : events s (t, .logWrite b) (s.testLogWrite t b) = [] := by simp only [events, hpc]
    rw [he]
    unfold State.testLogWrite
    split
    · rename_i hbig
      exact ⟨_, .of_set (.tooBig hpc hbig) rfl⟩
    · rename_i hbig
      split
      · rename_i hout
        exact ⟨_, .of_set (.outside hpc hout) rfl⟩
      · exact ⟨_, .of_set (.tested b rfl hpc hbig) rfl⟩
  | endOp =>
    simp only [State.step] at hs
    split at hs <;> cases hs
    rename_i hpc
    have he : events s (t, .endOp) (s.endOp t) = [.ended t] := by simp only [events, hpc]
    rw [he]
    unfold State.endOp
    dsimp only
    split
    · rename_i hcom
      exact ⟨_, .of_set (.endPanics hpc hcom) rfl⟩
    · rename_i hcom
      rw [Bool.not_eq_true] at hcom
      split
      · rename_i hzero
        exact ⟨_, .of_set (.endsLast hpc hcom hzero) rfl⟩
      · rename_i hzero
        exact ⟨_, .of_wakeup (by simp [Thread.goto]) (.ends hpc hcom hzero) rfl⟩

theorem exists_steps (hs : s.step (t, a) = some s') : ∃ w e, Steps s s' t a w e := by
  obtain ⟨w, hw⟩ := steps_of_step hs
  exact ⟨w, _, hw⟩

end

section

/-! ## The invariant -/

variable [Fintype τ]

structure Inv (s : State τ) : Prop where
  count : s.log.outstanding = Totals.total Thread.weight s.thread
  committer : ∀ t, (s.thread t).pc.commits → s.log.committing = true
  single : ∀ t u, (s.thread t).pc.commits → (s.thread u).pc.commits → t = u
  quiet : s.log.committing = true → s.log.outstanding = 0
  cleared : s.log.committing = false → s.log.outstanding = 0 → s.log.lh = []
  erased : ∀ t, (s.thread t).pc = .eraseHead ∨ (s.thread t).pc = .commitDone → s.log.lh = []
  waits : ∀ t, (s.thread t).pc = .asleep → s.log.committing = true ∨ 0 < s.log.outstanding
  safe : ∀ t, (s.thread t).pc ≠ .panic .logCommitting ∧ (s.thread t).pc ≠ .panic .outsideOfTrans

theorem start_inv (first size : Nat) : Inv (start τ first size) where
  count := (total_eq_zero fun _ => rfl).symm
  committer := fun _ h => by cases h
  single := fun _ _ h => by cases h
  quiet := fun h => by cases h
  cleared := fun _ _ => rfl
  erased := fun _ _ => rfl
  waits := fun _ h => by cases h
  safe := fun _ => ⟨by simp [start], by simp [start]⟩

theorem Inv.nonneg (h : Inv s) : 0 ≤ s.log.outstanding := by
  rw [h.count]
  exact total_nonneg fun t => (s.thread t).weight_nonneg

/-- A thread inside an operation is counted. -/
theorem Inv.counted (h : Inv s) (ht : (s.thread t).pc.inside) : 1 ≤ s.log.outstanding := by
  rw [h.count, ← Thread.weight_of_inside ht]
  exact le_total (fun u => (s.thread u).weight_nonneg) t

theorem Inv.not_committing (h : Inv s) (ht : (s.thread t).pc.inside) :
    s.log.committing = false := by
  have hcount := h.counted ht
  rcases Bool.eq_false_or_eq_true s.log.committing with hc | hc
  · have hzero := h.quiet hc
    omega
  · exact hc

/-- No operation is under way while a thread commits. -/
theorem Inv.not_both {u : τ} (h : Inv s) (ht : (s.thread t).pc.inside)
    (hu : (s.thread u).pc.commits) : False := by
  have hnot := h.not_committing ht
  rw [h.committer u hu] at hnot
  cases hnot

/-- What a turn does to the log, as far as the invariant goes. -/
structure Kept (log : Log) (x : Thread) (log' : Log) (x' : Thread) (w : Bool) : Prop where
  count : log'.outstanding = log.outstanding - x.weight + x'.weight
  committer : x'.pc.commits → log'.committing = true
  first : x'.pc.commits → x.pc.commits ∨ log.committing = false
  last : log.committing = true → log'.committing = true ∨ x.pc.commits
  quiet : log'.committing = true → log'.outstanding = 0
  cleared : log'.committing = false → log'.outstanding = 0 → log'.lh = []
  erased : x'.pc = .eraseHead ∨ x'.pc = .commitDone → log'.lh = []
  stays : log.committing = true → log.lh = [] → log'.lh = []
  asleep : x'.pc = .asleep → log'.committing = true ∨ 0 < log'.outstanding
  waits : w = false → log.committing = true ∨ 0 < log.outstanding →
    log'.committing = true ∨ 0 < log'.outstanding
  safe : x'.pc ≠ .panic .logCommitting ∧ x'.pc ≠ .panic .outsideOfTrans

theorem Inv.kept_same (h : Inv s) (hw : x'.pc.inside = (s.thread t).pc.inside)
    (hc : x'.pc.commits → (s.thread t).pc.commits)
    (he : x'.pc = .eraseHead ∨ x'.pc = .commitDone → s.log.lh = [])
    (ha : x'.pc = .asleep → s.log.committing = true ∨ 0 < s.log.outstanding)
    (hsafe : x'.pc ≠ .panic .logCommitting ∧ x'.pc ≠ .panic .outsideOfTrans) :
    Kept s.log (s.thread t) s.log x' false where
  count := by
    have hweight : x'.weight = (s.thread t).weight := by rw [Thread.weight, Thread.weight, hw]
    omega
  committer := fun hx => h.committer t (hc hx)
  first := fun hx => .inl (hc hx)
  last := fun hx => .inl hx
  quiet := h.quiet
  cleared := h.cleared
  erased := he
  stays := fun _ hx => hx
  asleep := ha
  waits := fun _ hx => hx
  safe := hsafe

/-- Where the log is nearly full there is an operation to be waited for. -/
theorem Inv.pos_of_full (h : Inv s) (hc : s.log.committing = false) (hf : Full s.log) :
    0 < s.log.outstanding := by
  have hnonneg := h.nonneg
  by_contra hpos
  have hzero : s.log.outstanding = 0 := by omega
  have hlh := h.cleared hc hzero
  rw [Full, hlh, hzero] at hf
  exact absurd hf (by decide)

theorem Inv.kept (h : Inv s)
    (ht : Turn t a s.log (s.thread t) log' x' w e) : Kept s.log (s.thread t) log' x' w := by
  have hnonneg := h.nonneg
  -- a thread inside an operation: it is counted, and no commit is under way
  have hinside : (s.thread t).pc.inside → 1 ≤ s.log.outstanding ∧ s.log.committing = false :=
    fun hin => ⟨h.counted hin, h.not_committing hin⟩
  cases ht with
  | calls hpc | roused hpc | tooBig hpc _ | tested b _ hpc _ | absorbed b hpc _ | overruns b hpc _ _
  | writesHead hpc =>
    apply h.kept_same <;> simp [Thread.goto, hpc, Pc.inside, Pc.commits]
  | sleeps hpc hw =>
    apply h.kept_same <;> simp only [Thread.goto, hpc, Pc.inside, Pc.commits]
    · simp
    · simp
    · intro _
      rcases Bool.eq_false_or_eq_true s.log.committing with hc | hc
      · exact .inl hc
      · exact .inr (h.pos_of_full hc (hw.resolve_left (by simp [hc])))
    · simp
  | works p hcom hne hp herase hinst =>
    apply h.kept_same
    · exact (Pc.not_inside hp).trans (Pc.not_inside hcom).symm
    · exact fun _ => hcom
    · intro he
      rcases herase he with e | e
      · exact h.erased t (.inl e)
      · exact e
    · rintro rfl
      cases hp
    · constructor <;> rintro rfl <;> cases hp
  | outside hpc hout =>
    have hcount := (hinside (by rw [hpc]; rfl)).1
    omega
  | endPanics hpc hcom =>
    have hnot := (hinside (by rw [hpc]; rfl)).2
    rw [hcom] at hnot
    cases hnot
  | admitted hpc hcom hfull =>
    constructor <;> simp [Thread.weight, hpc, Pc.inside, Pc.commits, hcom] <;> omega
  | appended b hpc hb hlt =>
    obtain ⟨hcount, hcom⟩ := hinside (by rw [hpc]; rfl)
    constructor <;> simp [Thread.weight, hpc, Pc.inside, Pc.commits, hcom]
    omega
  | endsLast hpc hcom hzero | ends hpc hcom hzero =>
    constructor <;> simp [Thread.goto, Thread.weight, hpc, Pc.inside, Pc.commits, hcom, hzero]
  | clears hpc =>
    have hcom := h.committer t (by rw [hpc]; rfl)
    have hzero := h.quiet hcom
    constructor <;> simp [Thread.goto, Thread.weight, hpc, Pc.inside, Pc.commits, hcom, hzero]
  | done hpc =>
    have hlh := h.erased t (.inr hpc)
    constructor <;> simp [Thread.goto, Thread.weight, hpc, Pc.inside, Pc.commits, hlh]

variable [DecidableEq τ]

/-- A weight that a wakeup does not change. -/
theorem Steps.total {v : Thread → Int} (h : Steps s s' t a w e)
    (hv : ∀ x : Thread, v x.wake = v x) :
    total v s'.thread = total v s.thread - v (s.thread t) + v (s'.thread t) := by
  have hsame : ∀ u, v (s'.thread u) = v (update s.thread t (s'.thread t) u) := by
    intro u
    by_cases e : u = t
    · subst e
      rw [update_self]
    · rw [update_of_ne e, h.others u e]
      cases w with
      | false => rfl
      | true => exact hv _
  rw [total_congr hsame, total_update]

theorem Inv.step (h : Inv s) (hs : Steps s s' t a w e) : Inv s' := by
  have hk := h.kept hs.turn
  -- a step of `t` while another thread commits
  have hother : ∀ u, u ≠ t → (s.thread u).pc.commits → s'.log.committing = true := by
    intro u hu hc
    rcases hk.last (h.committer u hc) with hl | hl
    · exact hl
    · exact absurd (h.single u t hc hl) hu
  have hnot : ∀ u, u ≠ t → (s'.thread u).pc.commits → ¬(s'.thread t).pc.commits := by
    intro u hu hc ht
    rw [hs.others u hu] at hc
    have hc' := Thread.commits_of_seen hc
    rcases hk.first ht with hf | hf
    · exact hu (h.single u t hc' hf)
    · rw [h.committer u hc'] at hf
      cases hf
  refine ⟨?_, ?_, ?_, hk.quiet, hk.cleared, ?_, ?_, ?_⟩
  · rw [hk.count, hs.total Thread.weight_wake, h.count]
  · intro u hc
    by_cases e : u = t
    · subst e
      exact hk.committer hc
    · rw [hs.others u e] at hc
      exact hother u e (Thread.commits_of_seen hc)
  · intro u v hu hv
    by_cases eu : u = t
    · subst eu
      by_contra hne
      exact hnot v (Ne.symm hne) hv hu
    · by_cases ev : v = t
      · subst ev
        exact absurd hv (hnot u eu hu)
      · rw [hs.others u eu] at hu
        rw [hs.others v ev] at hv
        exact h.single u v (Thread.commits_of_seen hu) (Thread.commits_of_seen hv)
  · intro u hu
    by_cases e : u = t
    · subst e
      exact hk.erased hu
    · rw [hs.others u e] at hu
      have hpc : (s.thread u).pc = .eraseHead ∨ (s.thread u).pc = .commitDone :=
        hu.imp (Thread.pc_of_seen · (by decide)) (Thread.pc_of_seen · (by decide))
      have hcom : (s.thread u).pc.commits := by
        rcases hpc with e | e <;> rw [e] <;> rfl
      exact hk.stays (h.committer u hcom) (h.erased u hpc)
  · intro u hu
    by_cases e : u = t
    · subst e
      exact hk.asleep hu
    · rw [hs.others u e] at hu
      cases w with
      | false => exact hk.waits rfl (h.waits u hu)
      | true =>
        rcases (s.thread u).wake_cases with ⟨hw, hne⟩ | ⟨-, hw⟩
        · exact absurd ((congrArg Thread.pc hw).symm.trans hu) hne
        · cases (congrArg Thread.pc hw).symm.trans hu
  · intro u
    by_cases e : u = t
    · subst e
      exact hk.safe
    · rw [hs.others u e]
      rcases (s.thread u).seen_pc w with hp | ⟨-, hp⟩
      · rw [hp]
        exact h.safe u
      · rw [hp]
        exact ⟨by decide, by decide⟩

end

/-! ## One operation, one commit -/

section

/-- Thread `t` has logged `b`; `h'` is what has happened since, and no commit. -/
def Since (h : List (Event τ)) (t : τ) (b : Nat) (h' : List (Event τ)) : Prop :=
  (∃ h1, h = h' ++ .logged t b :: h1) ∧ ∀ bs, .committed bs ∉ h'

variable {e : Event τ} {h h' : List (Event τ)}

theorem Since.append {b : Nat} {e : List (Event τ)} (hs : Since (e ++ h) t b h') :
    .logged t b ∈ e ∨ (∀ bs, .committed bs ∉ e) ∧ ∃ h'', h' = e ++ h'' ∧ Since h t b h'' := by
  obtain ⟨⟨h1, hh⟩, hc⟩ := hs
  rcases List.append_eq_append_iff.1 hh with ⟨h'', rfl, rfl⟩ | ⟨e', rfl, he⟩
  · exact .inr ⟨fun bs hm => hc bs (List.mem_append_left _ hm), h'', rfl, ⟨h1, rfl⟩,
      fun bs hm => hc bs (List.mem_append_right _ hm)⟩
  · cases e' with
    | nil => exact .inr ⟨by simpa using hc, [], by simp, ⟨h1, he.symm⟩, fun _ => List.not_mem_nil⟩
    | cons x e' =>
      obtain ⟨rfl, -⟩ := List.cons.inj he
      exact .inl (List.mem_append_right _ List.mem_cons_self)

/-- The first commit after a `log_write` writes the block, and comes after the `end_op` of
the thread. -/
def NextCommit (h : List (Event τ)) : Prop :=
  ∀ t b bs h' h3 h2, h = h3 ++ .committed bs :: h2 → Since h2 t b h' → .ended t ∈ h' ∧ b ∈ bs

theorem NextCommit.cons (hn : NextCommit h)
    (he : ∀ bs, e = .committed bs → ∀ t b h', Since h t b h' → .ended t ∈ h' ∧ b ∈ bs) :
    NextCommit (e :: h) := by
  intro t b bs h' h3 h2 hh hs
  cases h3 with
  | nil =>
    obtain ⟨rfl, rfl⟩ := List.cons.inj hh
    exact he bs rfl t b h' hs
  | cons e' h3 =>
    obtain ⟨-, rfl⟩ := List.cons.inj hh
    exact hn t b bs h' h3 h2 rfl hs

theorem NextCommit.tail (hn : NextCommit (e :: h)) : NextCommit h := by
  rintro u b bs h' h3 h2 rfl hs
  exact hn u b bs h' (e :: h3) h2 rfl hs

/-- There is no commit inside an operation. -/
theorem NextCommit.none_before_end {h1 : List (Event τ)} {b : Nat} :
    ∀ {h : List (Event τ)}, NextCommit (h ++ .logged t b :: h1) → .ended t ∉ h →
      ∀ bs, .committed bs ∉ h := by
  intro h
  induction h with
  | nil => exact fun _ _ _ => List.not_mem_nil
  | cons e h ih =>
    intro hn hend bs hm
    have hnone := ih hn.tail fun hm => hend (List.mem_cons_of_mem _ hm)
    rcases List.mem_cons.1 hm with rfl | hm
    · have hsince : Since (h ++ .logged t b :: h1) t b h := ⟨⟨h1, rfl⟩, hnone⟩
      exact hend (List.mem_cons_of_mem _ (hn t b bs h [] _ rfl hsince).1)
    · exact hnone bs hm

/-- Every block that a thread logs is written by the first commit after it, which is one
commit for all the blocks of one operation: it comes after the `end_op`. -/
def SameCommit (h : List (Event τ)) : Prop :=
  ∀ t b bs h1 h2 h3, h = h3 ++ .committed bs :: (h2 ++ .logged t b :: h1) →
    (∀ bs', .committed bs' ∉ h2) → .ended t ∈ h2 ∧ b ∈ bs ∧
      ∀ b' g1 g2, h1 = g2 ++ .logged t b' :: g1 → .ended t ∉ g2 → b' ∈ bs

theorem NextCommit.suffix : ∀ {h' : List (Event τ)}, NextCommit (h' ++ h) → NextCommit h := by
  intro h'
  induction h' with
  | nil => exact id
  | cons e h' ih => exact fun hn => ih hn.tail

theorem NextCommit.sameCommit (hn : NextCommit h) : SameCommit h := by
  rintro t b bs h1 h2 h3 rfl hnone
  obtain ⟨hend, hb⟩ := hn t b bs h2 h3 _ rfl ⟨⟨h1, rfl⟩, hnone⟩
  refine ⟨hend, hb, ?_⟩
  rintro b' g1 g2 rfl hopen
  -- no commit has come between the two blocks
  have hn' : NextCommit (g2 ++ .logged t b' :: g1) := by
    have hsplit : h3 ++ .committed bs :: (h2 ++ .logged t b :: (g2 ++ .logged t b' :: g1)) =
        (h3 ++ .committed bs :: (h2 ++ [.logged t b])) ++ (g2 ++ .logged t b' :: g1) := by simp
    rw [hsplit] at hn
    exact hn.suffix
  have hnone' := hn'.none_before_end hopen
  have hsince : Since (h2 ++ .logged t b :: (g2 ++ .logged t b' :: g1)) t b'
      (h2 ++ .logged t b :: g2) := by
    refine ⟨⟨g1, by simp⟩, fun bs' hm => ?_⟩
    rcases List.mem_append.1 hm with hm | hm
    · exact hnone bs' hm
    · rcases List.mem_cons.1 hm with he | hm
      · cases he
      · exact hnone' bs' hm
  exact (hn t b' bs _ h3 _ rfl hsince).2

end

section

variable [Fintype τ] {h h' : List (Event τ)}

/-- The state and what has happened. -/
structure HistInv (s : State τ) (h : List (Event τ)) : Prop where
  inv : Inv s
  kept : ∀ t b h', Since h t b h' → b ∈ s.log.lh ∧ (.ended t ∈ h' ∨ (s.thread t).pc.inside)
  written : ∀ t, (s.thread t).pc.installs → ∀ u b h', ¬Since h u b h'
  next : NextCommit h

theorem HistInv.no_clear {u : τ} {b : Nat} (hi : HistInv s h)
    (hs : Steps s s' t a w e) (hb : Since h u b h') : b ∈ s'.log.lh := by
  rcases hs.turn.lh_subset with hpc | hsub
  · exact absurd hb (hi.written t (by rw [hpc]; rfl) u b h')
  · exact hsub (hi.kept u b h' hb).1

variable [DecidableEq τ]

theorem HistInv.step (hi : HistInv s h) (hs : Steps s s' t a w e) : HistInv s' (e ++ h) := by
  have hinv := hi.inv.step hs
  refine ⟨hinv, fun u b h' hb => ?_, fun u hu v b h' hb => ?_, ?_⟩
  · obtain hlog | ⟨-, h'', rfl, hb'⟩ := hb.append
    · obtain ⟨rfl, hmem, hin⟩ := hs.logged hlog
      exact ⟨hmem, .inr hin⟩
    · refine ⟨hi.no_clear hs hb', ?_⟩
      rcases (hi.kept u b h'' hb').2 with hend | hin
      · exact .inl (List.mem_append_right _ hend)
      · refine (hs.inside hin).symm.imp_left ?_
        rintro rfl
        exact List.mem_cons_self
  · obtain hlog | ⟨hnone, h'', rfl, hb'⟩ := hb.append
    · exact hinv.not_both (hs.logged hlog).2.2 (Pc.commits_of_installs hu)
    · rcases hs.installs hu with hu' | ⟨-, rfl⟩
      · exact hi.written u hu' v b h'' hb'
      · exact hnone _ List.mem_cons_self
  · rcases hs.events with rfl | rfl | ⟨rfl, hpc⟩ | ⟨b0, rfl, -⟩
    · exact hi.next
    · exact hi.next.cons fun bs he => by cases he
    · -- the header holds what has been logged, and every operation has ended
      refine hi.next.cons ?_
      rintro bs he u b h' hb
      cases he
      obtain ⟨hmem, hend⟩ := hi.kept u b h' hb
      refine ⟨hend.resolve_right fun hin => ?_, hmem⟩
      exact hi.inv.not_both hin (by rw [hpc]; rfl)
    · exact hi.next.cons fun bs he => by cases he

/-- **Operations and commits.** In every state that threads calling `begin_op`,
`log_write` and `end_op` can reach: during a commit no operation is outstanding and no
`log_write` is under way; the panics of `end_op` and of `log_write` outside an operation
are not reached; with no operation outstanding and no commit the log is empty; a thread
that sleeps in `begin_op` has a commit or an operation to wait for; and all blocks that
one operation logs are written by one commit. -/
theorem log_operations {first size : Nat} {h : List (Event τ)}
    (hr : Run (logging State.step events) free (start τ first size, []) (s, h)) :
    (s.log.committing = true → s.log.outstanding = 0 ∧
      ∀ t, (s.thread t).pc ≠ .inOp ∧ ∀ b, (s.thread t).pc ≠ .logWrite b) ∧
    (∀ t, (s.thread t).pc ≠ .panic .logCommitting ∧ (s.thread t).pc ≠ .panic .outsideOfTrans) ∧
    (s.log.outstanding = 0 → s.log.committing = false → s.log.lh = []) ∧
    (∀ t, (s.thread t).pc = .asleep → s.log.committing = true ∨ 0 < s.log.outstanding) ∧
    SameCommit h := by
  have hi : HistInv s h := by
    refine hr.invariant (I := fun x => HistInv x.1 x.2) ?_ ?_
    · refine ⟨start_inv first size, ?_, fun _ ht => (by cases ht), ?_⟩
      · rintro t b h' ⟨⟨h1, hh⟩, -⟩
        simp at hh
      · intro t b bs h' h3 h2 hh
        simp at hh
    · rintro ⟨a, ha⟩ ⟨t, l⟩ ⟨a', ha'⟩ hi hs -
      obtain ⟨hstep, hlog⟩ := logging_some hs
      obtain ⟨w, hw⟩ := steps_of_step hstep
      have hi' := hi.step hw
      rwa [← hlog] at hi'
  have hin := hi.inv
  refine ⟨?_, hin.safe, fun hz hc => hin.cleared hc hz, hin.waits, hi.next.sameCommit⟩
  intro hc
  have hnone : ∀ t, ¬(s.thread t).pc.inside := by
    intro t ht
    rw [hin.not_committing ht] at hc
    cases hc
  refine ⟨hin.quiet hc, fun t => ⟨fun ht => hnone t ?_, fun b ht => hnone t ?_⟩⟩ <;> rw [ht] <;> rfl

end

/-- Two operations at the same time, and their commit up to the header. -/
def twoOperations : List (Fin 2 × Act) :=
  [(0, .beginOp), (0, .go), (1, .beginOp), (1, .go), (0, .logWrite 60), (1, .logWrite 61),
    (1, .go), (0, .go), (1, .endOp), (0, .logWrite 62), (0, .go), (0, .endOp), (0, .go), (0, .go),
    (0, .go), (0, .go), (0, .go), (0, .go)]

/-- The state and the history after `twoOperations`. -/
def twoOperationsEnd : State (Fin 2) × List (Event (Fin 2)) :=
  final (logging State.step events) (start (Fin 2) 2 LOGSIZE, []) twoOperations

theorem log_operations_two :
    twoOperationsEnd.1.log.committing = true ∧ twoOperationsEnd.1.log.outstanding = 0 ∧
      SameCommit twoOperationsEnd.2 := by
  have hrun : Run (logging State.step events) free (start (Fin 2) 2 LOGSIZE, [])
      twoOperationsEnd := run_free
  have hops := log_operations hrun
  have hcom : twoOperationsEnd.1.log.committing = true := by decide +kernel
  exact ⟨hcom, (hops.1 hcom).1, hops.2.2.2.2⟩

end Xv6.Transactions
