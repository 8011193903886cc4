import Xv6.Kernel.Lifetime

/-! Process ids, and the bounds that the counters set to every id that occurs
in the history: an id that has not been issued yet has no past. -/

namespace Xv6.Kernel

open Runs

variable {k k' : Kernel} {l : Label} {c : ThreadRef}

/-! ## Process ids -/

/-- Process ids are issued once; a process in use has one. -/
structure PidInv (k : Kernel) : Prop where
  nextpid_pos : 0 < k.nextpid
  nonneg : ∀ p, 0 ≤ (k.proc p).pid
  lt : ∀ p, (k.proc p).pid < k.nextpid
  inj : ∀ p q, (k.proc p).pid = (k.proc q).pid → (k.proc p).pid ≠ 0 → p = q
  pos : ∀ p, (k.proc p).state ≠ .PUNUSED → (k.proc p).pid ≠ 0

/-- What a step does to the process ids. -/
inductive PidStep (k k' : Kernel) : Prop
  | keep (pid : ∀ p, (k'.proc p).pid = (k.proc p).pid)
      (unused : ∀ p, (k'.proc p).state = .PUNUSED ↔ (k.proc p).state = .PUNUSED)
      (next : k'.nextpid = k.nextpid)
  | fork (p : ProcIx) (unused : (k.proc p).state = .PUNUSED) (pid : (k'.proc p).pid = k.nextpid)
      (other : ∀ q, q ≠ p → k'.proc q = k.proc q) (next : k'.nextpid = k.nextpid + 1)
  | reap (p : ProcIx) (zombie : (k.proc p).state = .PZOMBIE) (pid : (k'.proc p).pid = 0)
      (unused : (k'.proc p).state = .PUNUSED) (other : ∀ q, q ≠ p → k'.proc q = k.proc q)
      (next : k'.nextpid = k.nextpid)

theorem pidStep (h : Inv k) (he : Turn k l k') : PidStep k k' := by
  cases kin h he with
  | same state parent pid killed next => exact .keep pid (fun p => by rw [state]) next
  | failed state parent unused pid killed other next => exact .fork _ unused pid other next
  | born ha unused state parent other thread pid next => exact .fork _ unused pid other next
  | @exited c ha e =>
    subst e
    obtain ⟨_, _, hn, _, _, hst, hpid⟩ := safeExit_same k c
    refine .keep (fun p => (hpid p).1) ?_ hn
    intro p
    rw [hst]
    split
    · rename_i e
      subst e
      rw [h.used c (by simp [ha.2.1])]
      simp
    · rfl
  | reaped ha hx zombie state parent other ret pid killed gone next =>
    exact .reap _ (zombieChild_some zombie).2 pid state other next

theorem PidInv.step (h : PidInv k) (hs : PidStep k k') : PidInv k' := by
  have hids : Ids.Distinct (fun p => (k.proc p).pid) k.nextpid := ⟨h.nonneg, h.lt, h.inj⟩
  obtain ⟨t, hle, hid⟩ : ∃ t : Option ProcIx, k.nextpid ≤ k'.nextpid ∧
      ∀ p, ((k'.proc p).pid = (k.proc p).pid ∧
          ((k'.proc p).state ≠ .PUNUSED → (k.proc p).state ≠ .PUNUSED)) ∨
        ((k'.proc p).pid = 0 ∧ (k'.proc p).state = .PUNUSED) ∨
        t = some p ∧ (k'.proc p).pid = k.nextpid ∧ k.nextpid < k'.nextpid := by
    cases hs with
    | keep pid unused next =>
      exact ⟨none, next.ge, fun p => .inl ⟨pid p, (not_congr (unused p)).1⟩⟩
    | fork p unused pid other next =>
      refine ⟨some p, by omega, fun q => ?_⟩
      rcases eq_or_ne q p with rfl | e
      · exact .inr (.inr ⟨rfl, pid, by omega⟩)
      · rw [other q e]; exact .inl ⟨rfl, id⟩
    | reap p zombie pid unused other next =>
      refine ⟨none, next.ge, fun q => ?_⟩
      rcases eq_or_ne q p with rfl | e
      · exact .inr (.inl ⟨pid, unused⟩)
      · rw [other q e]; exact .inl ⟨rfl, id⟩
  obtain ⟨h1, h2, h3⟩ := hids.step t hle fun p => (hid p).imp And.left (.imp_left And.left)
  refine ⟨lt_of_lt_of_le h.nextpid_pos hle, h1, h2, h3, fun p hp => ?_⟩
  rcases hid p with ⟨e, hu⟩ | ⟨_, hu⟩ | ⟨_, e, _⟩
  · rw [e]
    exact h.pos p (hu hp)
  · exact absurd hu hp
  · rw [e]
    exact h.nextpid_pos.ne'

/-! ## The ids in the history -/

/-- Every id in the event is one that the counters have issued. -/
def Issued (k : Kernel) : Event → Prop
  | .alloc tid pid mid => 0 < tid ∧ tid < k.nexttid ∧ 0 < pid ∧ pid < k.nextpid ∧
      0 < mid ∧ mid < k.nextmid
  | .dealloc mid => mid < k.nextmid
  | .lock tid _ _ => tid < k.nexttid
  | .unlock tid _ => tid < k.nexttid
  | .reclaim _ _ mid => mid < k.nextmid
  | .reaped pid => 0 < pid ∧ pid < k.nextpid

theorem Issued.mono {e : Event} (h : Issued k e) (ht : k.nexttid ≤ k'.nexttid)
    (hp : k.nextpid ≤ k'.nextpid) (hm : k.nextmid ≤ k'.nextmid) : Issued k' e := by
  cases e <;> simp only [Issued] at h ⊢ <;> omega

/-- What a step adds to the history and to the counters. -/
structure HistStep (k k' : Kernel) : Prop where
  hist : ∃ es, k'.hist = es ++ k.hist ∧ ∀ e ∈ es, Issued k' e
  nexttid : k.nexttid ≤ k'.nexttid
  nextpid : k.nextpid ≤ k'.nextpid
  nextmid : k.nextmid ≤ k'.nextmid

theorem HistStep.silent (hh : k'.hist = k.hist) (ht : k.nexttid ≤ k'.nexttid)
    (hp : k.nextpid ≤ k'.nextpid) (hm : k.nextmid ≤ k'.nextmid) : HistStep k k' :=
  ⟨⟨[], hh, by simp⟩, ht, hp, hm⟩

theorem Swept.issued {vs : List ThreadRef} (h : Swept k k' c vs) :
    ∃ es, k'.hist = es ++ k.hist ∧ ∀ e ∈ es, Issued k' e := by
  obtain ⟨es, hes, he⟩ := h.hist
  refine ⟨es, hes, ?_⟩
  intro e hm
  obtain ⟨tid, pid, mid, rfl, hlt⟩ := he e hm
  exact show mid < k'.nextmid from h.nextmid ▸ hlt

theorem Inv.tid_pos (h : Inv k) (hc : (k.thread c).state = .TRUNNING) : 0 < (k.thread c).tid := by
  have h1 := h.tids.nonneg c
  have h2 := h.tids.pos c (by simp [hc])
  omega

theorem PidInv.pid_pos (h : PidInv k) {p : ProcIx} (hp : (k.proc p).state ≠ .PUNUSED) :
    0 < (k.proc p).pid := by
  have h1 := h.nonneg p
  have h2 := h.pos p hp
  omega

theorem HistStep.of_same (h : Same k k') : HistStep k k' :=
  .silent h.hist h.nexttid.ge h.nextpid.ge h.nextmid.ge

theorem histStep (h : Inv k) (hp : PidInv k) (he : Turn k l k') : HistStep k k' := by
  cases he with
  | calm hc => exact .of_same hc.spec.2.1
  | dies ha hx hq hd => exact .of_same hd.same
  | @alloc c m ha hm =>
    refine ⟨⟨[_], rfl, ?_⟩, le_refl _, le_refl _, ?_⟩
    · intro e he
      rw [List.mem_singleton.1 he]
      have hused := h.used c (by simp [ha.2.1])
      refine ⟨h.tid_pos ha.2.1, h.tids.lt c, hp.pid_pos (by rw [hused]; decide), hp.lt c.1,
        h.mutexes.nextmid_pos, ?_⟩
      show k.nextmid < k.nextmid + 1
      omega
    · show k.nextmid ≤ k.nextmid + 1
      omega
  | @dealloc c mid m ha hm hu =>
    refine ⟨⟨[_], rfl, ?_⟩, le_refl _, le_refl _, le_refl _⟩
    intro e he
    rw [List.mem_singleton.1 he]
    show mid < k.nextmid
    rw [← findMutex_some hm]
    exact h.mutexes.mid_lt m
  | @take c mid m x ha hx hq hu | @unlock c o mid m ha hm hl ho htid =>
    refine ⟨⟨[_], rfl, ?_⟩, le_refl _, le_refl _, le_refl _⟩
    intro e he
    rw [List.mem_singleton.1 he]
    exact h.tids.lt c
  | create | createFail =>
    exact .silent rfl (Int.le_add_one (le_refl _)) (le_refl _) (le_refl _)
  | fork | forkFail =>
    exact .silent rfl (Int.le_add_one (le_refl _)) (Int.le_add_one (le_refl _)) (le_refl _)
  | @join c t x ha hx hn hp ht hr =>
    have hct : c ≠ t := by rintro rfl; rw [ha.2.1] at ht; cases ht
    have hsw := Swept.removeThread t h.mutexes hct
    exact ⟨hsw.issued, by simp [sysret], by simp [sysret], by simp [sysret]⟩
  | @scan c a x ha hx hr =>
    have hsw := killScan_swept (c := c) h.mutexes
    obtain ⟨f, hf⟩ := killTurn_scan k c a
    rw [hf]
    exact ⟨hsw.issued, hsw.nexttid.ge, hsw.nextpid.ge, hsw.nextmid.ge⟩
  | @exited c ha =>
    obtain ⟨_, hh, hnp, hnt, hnm, _⟩ := safeExit_same k c
    exact .silent hh hnt.ge hnp.ge hnm.ge
  | @reap c p x ha hx hz hr =>
    have hsw := h.swept_reap ha.2.1 hz
    obtain ⟨es, hes, he⟩ := hsw.issued
    refine ⟨⟨.reaped (k.proc p).pid :: es, ?_, ?_⟩, hsw.nexttid.ge, hsw.nextpid.ge, hsw.nextmid.ge⟩
    · simp only [sysret, setThread_hist, reap, log_hist, setProc_hist, hes, List.cons_append]
    · intro e hm
      rcases List.mem_cons.1 hm with rfl | hm
      · have hz' : (k.proc p).state ≠ .PUNUSED := by rw [(zombieChild_some hz).2]; decide
        exact ⟨hp.pid_pos hz', hsw.nextpid.symm ▸ hp.lt p⟩
      · exact he e hm
  | _ => exact .silent rfl (le_refl _) (le_refl _) (le_refl _)

/-- The invariant with the ids in the history. -/
structure HistInv (k : Kernel) : Prop extends Inv k where
  pids : PidInv k
  issued : ∀ e ∈ k.hist, Issued k e

theorem boot_histInv : HistInv boot where
  toInv := boot_inv
  pids := by
    have hpid : ∀ p, (boot.proc p).pid = if p = initproc then 1 else 0 := by
      intro p; simp only [boot]; split <;> rfl
    refine ⟨by decide, ?_, ?_, ?_, ?_⟩
    · intro p; rw [hpid]; split <;> decide
    · intro p; rw [hpid]; split <;> decide
    · intro p q e h0
      rw [hpid] at e h0
      rw [hpid] at e
      split at h0
      · rename_i hp
        rw [if_pos hp] at e
        split at e
        · rename_i hq; rw [hp, hq]
        · cases e
      · exact absurd rfl h0
    · intro p hp
      rw [hpid]
      split
      · decide
      · rename_i h; exact absurd (by simp [boot, h, Proc.zero]) hp
  issued := by simp [boot]

theorem HistInv.turn (h : HistInv k) (he : Turn k l k') : HistInv k' where
  toInv := h.toInv.turn he
  pids := h.pids.step (pidStep h.toInv he)
  issued := by
    obtain ⟨⟨es, hes, hi⟩, ht, hp, hm⟩ := histStep h.toInv h.pids he
    intro e hmem
    rw [hes] at hmem
    rcases List.mem_append.1 hmem with hn | ho
    · exact hi e hn
    · exact (h.issued e ho).mono ht hp hm

theorem HistInv.step (h : HistInv k) (hs : k.step l = some k') : HistInv k' :=
  h.turn (turn_of_step hs)

theorem reachable_histInv {G : Guard Kernel Label} (hr : Run Kernel.step G boot k) : HistInv k :=
  hr.invariant boot_histInv fun _ _ _ h hs _ => h.step hs

end Xv6.Kernel
