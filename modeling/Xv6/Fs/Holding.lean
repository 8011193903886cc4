import Xv6.Fs.Teardown
import Xv6.Mutex.Reclaim

/-! What `holdingsleep` answers. A sleeplock records the process id of its holder, which all the
threads of the process share. -/

namespace Xv6.Sys

open Runs Function

variable {s s' : Sys} {r : ThreadRef} {l : SleepLock}

/-- A sleeplock records the id of its holder's process. -/
def Signed (s : Sys) : Prop :=
  ∀ r, ∀ l ∈ (s.fs r).held, (s.sleeplock l).pid = (s.kernel.proc r.1).pid

theorem Passive.proc {k k' : Kernel} (h : Passive k k') : k'.proc = k.proc := by
  rcases h with rfl | ⟨r, a, hs⟩ | ⟨a, hs⟩
  · rfl
  · simp only [Kernel.step] at hs
    split at hs
    · cases hs; rfl
    · cases hs
  · cases hs; rfl

theorem FsInv.holder_alive (h : FsInv s) (hl : l ∈ (s.fs r).held) : (s.kernel.thread r).Alive := by
  apply h.alive r
  intro htodo
  rw [(h.done htodo).1] at hl
  cases hl

theorem Signed.keep (h : Signed s) (hheld : ∀ t, (s'.fs t).held = (s.fs t).held)
    (hlock : s'.sleeplock = s.sleeplock) (hproc : s'.kernel.proc = s.kernel.proc) : Signed s' := by
  intro t l hl
  rw [hheld] at hl
  rw [hlock, hproc]
  exact h t l hl

theorem Signed.runOp {op : FsOp} {rest : List FsOp} (h : Signed s) (hf' : FsInv s')
    (hs : s.runOp r op rest = some s') : Signed s' := by
  obtain ⟨hpassive, heff⟩ := opEffect hs
  have hproc := hpassive.proc
  have hheld {f : FsThread} (hfs : s'.fs = update s.fs r f)
      (hsame : f.held = (s.fs r).held) (t : ThreadRef) : (s'.fs t).held = (s.fs t).held := by
    rw [hfs]
    rcases eq_or_ne t r with rfl | e
    · rw [update_self, hsame]
    · rw [update_of_ne e]
  cases heff with
  | quiet _ _ fs lock _ | opened _ fs lock _ | closed _ _ fs _ lock _ =>
    exact h.keep (hheld fs rfl) lock hproc
  | acquired l _ hl fs lock _ =>
    intro t l' hl'
    rw [hproc, lock]
    rcases eq_or_ne l' l with rfl | hne
    · -- the new holder is the only one
      have ht : t = r := hf'.locks.unique l' t r hl' (by simp [fs])
      rw [update_self, ht]
    · rw [update_of_ne hne]
      apply h t l'
      rw [fs] at hl'
      rcases eq_or_ne t r with rfl | e
      · simpa [hne] using hl'
      · simpa [e] using hl'
  | released l _ fs lock _ =>
    intro t l' hl'
    have hne : l' ≠ l := by
      rintro rfl
      have hfree := (hf'.locks.locked l').2 ⟨t, hl'⟩
      simp [lock] at hfree
    rw [hproc, lock, update_of_ne hne]
    apply h t l'
    rw [fs] at hl'
    rcases eq_or_ne t r with rfl | e
    · rw [update_self] at hl'
      exact List.mem_of_mem_erase hl'
    · simpa [e] using hl'

/-- A thread that holds a lock keeps its process, and the process keeps its id. -/
theorem Signed.kernelStep {kl : Label} {k' : Kernel} (h : Signed s) (hf : FsInv s)
    (hi : Kernel.HistInv s.kernel) (hk : s.kernel.step kl = some k') : Signed (s.settle k') := by
  intro t l hl
  simp only [settle] at hl ⊢
  split at hl
  · cases hl
  · rename_i hused
    have hp := Kernel.pidStep hi.toInv (Kernel.turn_of_step hk)
    have hseat : Kernel.Seated s.kernel t := .inl (hf.holder_alive hl).1
    rw [hseat.pid (.inl hused) hi.toInv (hi.step hk).toInv hp]
    exact h t l hl

theorem Signed.step {sl : SysLabel} (h : Signed s) (hf : FsInv s) (hf' : FsInv s')
    (hi : Kernel.HistInv s.kernel) (hs : s.step sl = some s') : Signed s' := by
  cases sl with
  | kernel kl =>
    simp only [Sys.step] at hs
    split at hs
    · obtain ⟨k, hk, rfl⟩ := Option.map_eq_some_iff.1 hs
      exact h.kernelStep hf hi hk
    · cases hs
  | start t c =>
    simp only [Sys.step] at hs
    split at hs
    · cases hs
      refine h.keep (fun u => ?_) rfl rfl
      rcases eq_or_ne u t with rfl | e
      · simp [goOn, setFs]
      · simp [goOn, setFs, e]
    · cases hs
  | op t =>
    simp only [Sys.step] at hs
    split at hs
    · split at hs
      · exact h.runOp hf' hs
      · cases hs
    · cases hs
  | ideintr =>
    simp only [Sys.step] at hs
    split at hs
    · cases hs
      exact h
    · cases hs; exact h
  | recycle b =>
    simp only [Sys.step] at hs
    split at hs
    · cases hs; exact h
    · cases hs

theorem signed_of_run {start size : Nat} (hr : Run Sys.step Spared (boot start size) s) :
    Signed s := by
  have hboth : FsInv s ∧ Signed s := by
    apply hr.invariant_with (I := fun s => FsInv s ∧ Signed s)
      (fun _ hb => Kernel.reachable_histInv (kernel_run hb))
    · exact ⟨boot_fsInv _ _, fun t l hl => by simp [boot, FsThread.idle] at hl⟩
    · rintro a sl b hi ⟨hf, h⟩ hs hg
      have hf' := hf.step hi.toInv hs hg
      exact ⟨hf', h.step hf hf' hi hs⟩
  exact hboth.2

/-- **Sleeplocks exclude, and `holdingsleep` answers for the process**: a lock has at most one
holder, and a running thread is told that it holds a lock exactly when a thread of its process
does. Where no other thread of the process holds the lock, the answer is about the caller. -/
theorem sleeplock_holding {start size : Nat} (hr : Run Sys.step Spared (boot start size) s)
    (l : SleepLock) : (∀ r r', l ∈ (s.fs r).held → l ∈ (s.fs r').held → r = r') ∧
    ∀ r, (s.kernel.thread r).state = .TRUNNING →
      (s.holdingsleep r l ↔ ∃ r', r'.1 = r.1 ∧ l ∈ (s.fs r').held) ∧
      ((∀ r', r'.1 = r.1 → l ∈ (s.fs r').held → r' = r) →
        (s.holdingsleep r l ↔ l ∈ (s.fs r).held)) := by
  have hf := fsInv_of_run hr
  have hsign := signed_of_run hr
  have hi := Kernel.reachable_histInv (kernel_run hr)
  refine ⟨hf.locks.unique l, fun r hrun => ?_⟩
  have hproc : s.holdingsleep r l ↔ ∃ r', r'.1 = r.1 ∧ l ∈ (s.fs r').held := by
    simp only [holdingsleep, Bool.and_eq_true, beq_iff_eq]
    constructor
    · rintro ⟨hlocked, hpid⟩
      obtain ⟨t, ht⟩ := (hf.locks.locked l).1 hlocked
      rw [hsign t l ht] at hpid
      have hused : Kernel.Seated s.kernel t := .inl (hf.holder_alive ht).1
      exact ⟨t, hi.pids.inj t.1 r.1 hpid (hi.pids.pos t.1 (hused.in_use hi.toInv)), ht⟩
    · rintro ⟨t, hp, ht⟩
      exact ⟨(hf.locks.locked l).2 ⟨t, ht⟩, by rw [hsign t l ht, hp]⟩
  refine ⟨hproc, fun hown => hproc.trans ⟨?_, fun h => ⟨r, rfl, h⟩⟩⟩
  rintro ⟨t, hp, ht⟩
  rw [hown t hp ht] at ht
  exact ht

theorem sleeplock_holding_written : (written.kernel.thread (1, 0)).state = .TRUNNING ∧
    (written.holdingsleep (1, 0) (.buf 9) ↔ ∃ r', r'.1 = 1 ∧ .buf 9 ∈ (written.fs r').held) := by
  have hrun : (written.kernel.thread (1, 0)).state = .TRUNNING := by decide +kernel
  exact ⟨hrun, ((sleeplock_holding written_run (.buf 9)).2 (1, 0) hrun).1⟩

/-- While one thread of process 2 writes a buffer, `holdingsleep` tells the other thread of the
process that the buffer is its own. -/
theorem holdingsleep_sibling : Run Sys.step Spared (boot 2 30) written ∧
    written.holdingsleep (1, 0) (.buf 9) = true ∧ .buf 9 ∈ (written.fs (1, 1)).held ∧
    .buf 9 ∉ (written.fs (1, 0)).held :=
  ⟨written_run, by decide +kernel⟩

end Xv6.Sys
