import Xv6.Kernel.Lifetime

/-! The `killed` flags of processes. `kill` looks for a pid and not at the state of the entry,
and an entry that is free has a pid as well: 0, or the pid of a `fork` that failed. Nothing
clears the flag of a free entry, so the process that gets the entry next is born killed. -/

namespace Xv6.Kernel

open Runs

variable {k k' k'' : Kernel} {l : Label} {c r : ThreadRef} {p : ProcIx}

/-- No free entry comes to be marked as killed. -/
def KeepsFree (k k' : Kernel) : Prop :=
  ∀ p, (k'.proc p).state = .PUNUSED → (k'.proc p).killed = true →
    (k.proc p).state = .PUNUSED ∧ (k.proc p).killed = true

/-- `kill` is called with a pid that no free entry has. -/
def AimsAtLive : Guard Kernel Label := fun k l _ =>
  ∀ r page copied pid, l = .run r page copied → (k.thread r).context = .call (.kill pid) →
    ∀ p, (k.proc p).state = .PUNUSED → (k.proc p).pid ≠ pid

theorem keepsFree_of_step (hi : Inv k) (h : k.step l = some k') (hg : AimsAtLive k l k') :
    KeepsFree k k' := by
  intro p hp hk
  cases kin hi (turn_of_step h) with
  | same state parent pid killed next =>
    rw [state] at hp
    rcases killed p with e | hu | ⟨c, ⟨page, copied, rfl⟩, _, hctx⟩
    · exact ⟨hp, e ▸ hk⟩
    · exact absurd hp hu
    · exact absurd rfl (hg c page copied _ rfl hctx p hp)
  | @failed q state parent unused pid killed other next =>
    rcases eq_or_ne p q with rfl | e
    · exact ⟨unused, killed ▸ hk⟩
    · rw [other p e] at hp hk
      exact ⟨hp, hk⟩
  | @born c q ha unused state parent other thread pid next =>
    rcases eq_or_ne p q with rfl | e
    · rw [state] at hp; cases hp
    · rw [other p e] at hp hk
      exact ⟨hp, hk⟩
  | @exited c ha e =>
    subst e
    obtain ⟨_, _, _, _, _, hst, hpid⟩ := safeExit_same k c
    rw [hst] at hp
    rw [(hpid p).2] at hk
    split at hp
    · cases hp
    · exact ⟨hp, hk⟩
  | @reaped c q x ha hx zombie state parent other ret pid killed gone next =>
    rcases eq_or_ne p q with rfl | e
    · rw [killed] at hk; cases hk
    · rw [other p e] at hp hk
      exact ⟨hp, hk⟩

theorem free_not_killed (hr : Run Kernel.step AimsAtLive boot k)
    (hp : (k.proc p).state = .PUNUSED) : (k.proc p).killed = false := by
  have hclean : ∀ q, (k.proc q).state = .PUNUSED → (k.proc q).killed ≠ true := by
    refine hr.invariant_with (J := Inv)
      (I := fun k => ∀ q, (k.proc q).state = .PUNUSED → (k.proc q).killed ≠ true)
      (fun b hb => reachable_inv hb) ?_ ?_
    · intro q hq hk
      simp only [boot] at hq hk
      split at hk <;> cases hk
    · intro a l b ha hclean hs hg q hq hk
      obtain ⟨hq', hk'⟩ := keepsFree_of_step ha hs hg q hq hk
      exact hclean q hq' hk'
  exact Bool.eq_false_iff.2 (hclean p hp)

theorem step_call {page : Option Nat} {copied : Bool} {y : Call} {k1 : Kernel}
    (hx : (k.thread r).context = .call y) (hy : k.runCall r page copied y = some k1)
    (hs : k.step (.run r page copied) = some k') : k' = k1 := by
  simp only [step] at hs
  split at hs
  · rw [hx] at hs
    exact Option.some.inj (hs.symm.trans hy)
  · cases hs

theorem kill_state (pid : Int) (p : ProcIx) : ((k.kill c pid).proc p).state = (k.proc p).state := by
  unfold kill
  split
  · simp only [sysret, setThread_proc, setProc_proc]
    split <;> rfl
  · rfl

theorem fork_killed (page : Option Nat) (copied : Bool) (p : ProcIx) :
    ((k.fork c page copied).proc p).killed = (k.proc p).killed := by
  unfold fork
  split
  · split
    · simp only [takeProc, startThread, sysret, setThread_proc, setProc_proc]
      split <;> rfl
    · simp only [takeProc, spoilThread, sysret, setThread_proc, setProc_proc]
      split <;> rfl
  · rfl

/-- `kill` returns 0 when it finds the pid. -/
theorem kill_found {pid : Int} (hret : ((k.kill c pid).thread c).context = .ret 0) :
    ∃ p, (k.proc p).pid = pid := by
  unfold kill at hret
  split at hret
  · rename_i p hp
    have hpid := List.find?_some hp
    rw [decide_eq_true_eq] at hpid
    exact ⟨p, hpid⟩
  · simp [sysret] at hret

/-- **A kill hits a process in use.** When every `kill` is called with a pid that no free entry
has, `kill` returns 0 only for the pid of a process in use and marks no free entry, and every
process starts without the mark. -/
theorem kill_live (hr : Run Kernel.step AimsAtLive boot k) :
    (∀ r page copied pid k', (k.thread r).context = .call (.kill pid) →
      k.step (.run r page copied) = some k' → AimsAtLive k (.run r page copied) k' →
        ((k'.thread r).context = .ret 0 → ∃ p, (k.proc p).state ≠ .PUNUSED ∧ (k.proc p).pid = pid) ∧
        ∀ p, (k.proc p).state = .PUNUSED → (k'.proc p).killed = false) ∧
      ∀ r page copied k' p, (k.thread r).context = .call .fork →
        k.step (.run r page copied) = some k' → (k.proc p).state = .PUNUSED →
        (k'.proc p).state = .PUSED → (k'.proc p).killed = false := by
  constructor
  · intro r page copied pid k' hx hs hg
    have hk : k' = k.kill r pid := step_call hx rfl hs
    constructor
    · intro hret
      rw [hk] at hret
      obtain ⟨p, hp⟩ := kill_found hret
      exact ⟨p, fun hu => hg r page copied pid rfl hx p hu hp, hp⟩
    · intro p hp
      refine free_not_killed (.next hr hs hg) ?_
      rw [hk, kill_state, hp]
  · intro r page copied k' p hx hs hp _
    have hk : k' = k.fork r page copied := step_call hx rfl hs
    rw [hk, fork_killed]
    exact free_not_killed hr hp

/-- The pid given to `kill` is compared with those of the free entries. -/
def aimsAtLive (k : Kernel) : Label → Bool
  | .run r _ _ =>
    match (k.thread r).context with
    | .call (.kill pid) => (List.finRange NPROC).all fun p =>
        decide ((k.proc p).state = .PUNUSED → (k.proc p).pid ≠ pid)
    | _ => true
  | _ => true

theorem aimsAtLive_guard (hg : aimsAtLive k l) : AimsAtLive k l k' := by
  rintro r page copied pid rfl hx p hp
  simp only [aimsAtLive, hx, List.all_eq_true, decide_eq_true_eq] at hg
  exact hg p (List.mem_finRange p) hp

/-- Init forks process 2 and kills it. -/
def forkAndKill : List Label :=
  [.dispatch (0, 0)] ++ Label.calls (0, 0) .fork ++ Label.calls (0, 0) (.kill 2)

theorem kill_live_forked : ((after (forkAndKill.take 6)).thread (0, 0)).context = .ret 0 ∧
      (∃ p, ((after (forkAndKill.take 5)).proc p).state ≠ .PUNUSED ∧
        ((after (forkAndKill.take 5)).proc p).pid = 2) ∧
      ((after (forkAndKill.take 3)).proc 1).state = .PUSED ∧
      ((after (forkAndKill.take 3)).proc 1).killed = false := by
  have hforked : Run Kernel.step AimsAtLive boot (after (forkAndKill.take 2)) :=
    run_final aimsAtLive_guard
  have hkilled : Run Kernel.step AimsAtLive boot (after (forkAndKill.take 5)) :=
    run_final aimsAtLive_guard
  have hborn := (kill_live hforked).2 (0, 0) (some 0) true
    (after (forkAndKill.take 3)) 1 (by decide +kernel) rfl (by decide +kernel)
    (by decide +kernel)
  have hhit := ((kill_live hkilled).1 (0, 0) (some 0) true 2
    (after (forkAndKill.take 6)) (by decide +kernel) rfl
    (aimsAtLive_guard (by decide +kernel))).1 (by decide +kernel)
  exact ⟨by decide +kernel, hhit, by decide +kernel, hborn⟩

/-- Init calls `kill(0)` and then `fork`. -/
def killNobody : List Label :=
  [.dispatch (0, 0)] ++ Label.calls (0, 0) (.kill 0) ++ Label.calls (0, 0) .fork

/-- No process in use has the pid 0. `kill(0)` returns 0 and marks the free entry 1, and the
child that gets the entry is born killed. -/
theorem kill_marks_free_entry : Run Kernel.step free boot (after (killNobody.take 6)) ∧
      (∀ p, ((after (killNobody.take 2)).proc p).pid = 0 →
        ((after (killNobody.take 2)).proc p).state = .PUNUSED) ∧
      ((after (killNobody.take 3)).thread (0, 0)).context = .ret 0 ∧
      ((after (killNobody.take 3)).proc 1).state = .PUNUSED ∧
      ((after (killNobody.take 3)).proc 1).killed = true ∧
      ((after (killNobody.take 6)).proc 1).state = .PUSED ∧
      ((after (killNobody.take 6)).proc 1).killed = true :=
  ⟨run_free, by decide +kernel⟩

end Xv6.Kernel
