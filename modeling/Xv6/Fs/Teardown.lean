import Mathlib.Data.Fintype.Prod
import Mathlib.Data.Finset.Card
import Xv6.Fs.Model
import Xv6.Kernel.Lifetime

/-! Sleeplocks and transactions of threads that are torn down. What a thread has
taken it will give back, by the operations ahead of it (`FsInv.balanced`); so the
locks of the system have owners and `log.outstanding` counts threads for as long
as no thread is removed in the middle of its operations. -/

namespace Xv6

open Runs Function

/-! ## Balance -/

namespace FsOp

theorem trackAll_append (ops ops' : List FsOp) (h : List SleepLock × Bool) :
    trackAll (ops ++ ops') h = (trackAll ops h).bind (trackAll ops') := by
  induction ops generalizing h with
  | nil => rfl
  | cons op ops ih =>
    simp only [List.cons_append, trackAll]
    cases op.track h with
    | none => rfl
    | some h' => exact ih h'

theorem trackAll_cons {op : FsOp} {ops : List FsOp} {h e : List SleepLock × Bool} :
    trackAll (op :: ops) h = some e ↔ ∃ h', op.track h = some h' ∧ trackAll ops h' = some e := by
  simp only [trackAll, Option.bind_eq_some_iff]

end FsOp

/-- The loops of `commit` give back every buffer they take. -/
theorem Sys.trackAll_expand (log : Log) (op : FsOp) (h : List SleepLock × Bool) :
    FsOp.trackAll (Sys.expand log op) h = some h := by
  cases op with
  | commit =>
    simp only [Sys.expand]
    split <;> simp [FsOp.trackAll, FsOp.track, FsOp.writeHead, FsOp.bread, FsOp.brelse]
  | writeLog tail =>
    simp only [Sys.expand]
    split
    · simp [FsOp.trackAll, FsOp.track, FsOp.bread, FsOp.brelse]
    · rfl
  | installTrans tail =>
    simp only [Sys.expand]
    split
    · -- here the buffers are not released in the order of a stack
      rename_i b _
      rcases eq_or_ne b (log.start + tail + 1) with e | e
      · simp [FsOp.trackAll, FsOp.track, FsOp.bread, FsOp.brelse, e]
      · simp [FsOp.trackAll, FsOp.track, FsOp.bread, FsOp.brelse, e]
    · rfl
  | _ => rfl

/-! ## Owners of sleeplocks -/

/-- Every locked sleeplock is held by one thread, once. -/
structure HeldBy (lock : SleepLock → Sleeplock) (held : ThreadRef → List SleepLock) : Prop where
  locked : ∀ l, (lock l).locked ↔ ∃ r, l ∈ held r
  unique : ∀ l r r', l ∈ held r → l ∈ held r' → r = r'
  nodup : ∀ r, (held r).Nodup

namespace HeldBy

variable {lock : SleepLock → Sleeplock} {held : ThreadRef → List SleepLock} {r : ThreadRef}
  {l : SleepLock} {x : Sleeplock}

theorem acquire (h : HeldBy lock held) (hl : (lock l).locked = false) (hx : x.locked) :
    HeldBy (update lock l x) (update held r (l :: held r)) := by
  have hfree : ∀ r, l ∉ held r := fun r hr => by
    rw [(h.locked l).2 ⟨r, hr⟩] at hl
    cases hl
  have hmem : ∀ l' r', l' ∈ update held r (l :: held r) r' ↔
      (l' = l ∧ r' = r) ∨ l' ∈ held r' := by
    intro l' r'
    rcases eq_or_ne r' r with rfl | hr
    · simp
    · simp [hr]
  constructor
  · intro l'
    simp only [hmem]
    rcases eq_or_ne l' l with rfl | hne
    · simp [hx]
    · simp [hne, h.locked]
  · intro l' r1 r2 h₁ h2
    rw [hmem] at h₁ h2
    rcases h₁ with ⟨rfl, rfl⟩ | h₁ <;> rcases h2 with ⟨e, rfl⟩ | h2
    · rfl
    · exact absurd h2 (hfree _)
    · exact absurd (e ▸ h₁) (hfree _)
    · exact h.unique l' r1 r2 h₁ h2
  · intro r'
    rcases eq_or_ne r' r with rfl | hr
    · simpa using ⟨hfree r', h.nodup r'⟩
    · simpa [hr] using h.nodup r'

theorem release (h : HeldBy lock held) (hl : l ∈ held r) (hx : x.locked = false) :
    HeldBy (update lock l x) (update held r ((held r).erase l)) := by
  have hmem : ∀ l' r', l' ∈ update held r ((held r).erase l) r' ↔
      l' ≠ l ∧ l' ∈ held r' := by
    intro l' r'
    rcases eq_or_ne r' r with rfl | hr
    · simpa using (h.nodup r').mem_erase_iff
    · rw [update_of_ne hr]
      constructor
      · intro hm
        refine ⟨?_, hm⟩
        rintro rfl
        exact hr (h.unique l' r' r hm hl)
      · exact And.right
  constructor
  · intro l'
    simp only [hmem]
    rcases eq_or_ne l' l with rfl | hne
    · simp [hx]
    · simp [hne, h.locked]
  · intro l' r1 r2 h₁ h2
    rw [hmem] at h₁ h2
    exact h.unique l' r1 r2 h₁.2 h2.2
  · intro r'
    rcases eq_or_ne r' r with rfl | hr
    · simpa using (h.nodup r').erase l
    · simpa [hr] using h.nodup r'

end HeldBy

/-- The number of threads between `begin_op` and `end_op`. -/
def openOps (inOp : ThreadRef → Bool) : Nat := (Finset.univ.filter fun r => inOp r).card

theorem openOps_begin {inOp : ThreadRef → Bool} {r : ThreadRef} (h : inOp r = false) :
    openOps (update inOp r true) = openOps inOp + 1 := by
  have heq : (Finset.univ.filter fun t => update inOp r true t) =
      insert r (Finset.univ.filter fun t => inOp t) := by
    ext t
    rcases eq_or_ne t r with rfl | ht
    · simp
    · simp [ht]
  rw [openOps, heq, Finset.card_insert_of_notMem (by simp [h]), openOps]

theorem openOps_end {f : ThreadRef → Bool} {r : ThreadRef} (h : f r = true) :
    openOps (update f r false) + 1 = openOps f := by
  have heq : f = update (update f r false) r true := by
    rw [update_idem, ← h, update_eq_self]
  conv_rhs => rw [heq]
  rw [openOps_begin (by simp)]

namespace Sys

variable {s s' : Sys} {r t : ThreadRef} {op : FsOp} {rest : List FsOp} {a : Nat}

/-! ## What an operation does -/

/-- The kernel during an operation: nothing, a `sleep` or a `wakeup`. -/
def Passive (k k' : Kernel) : Prop :=
  k' = k ∨ (∃ r a, k.step (.block r a) = some k') ∨ ∃ a, k.step (.notify a) = some k'

theorem Passive.step {k k' : Kernel} (h : Passive k k') : k' = k ∨ ∃ l, k.step l = some k' := by
  rcases h with e | ⟨r, a, hs⟩ | ⟨a, hs⟩
  · exact .inl e
  · exact .inr ⟨_, hs⟩
  · exact .inr ⟨_, hs⟩

theorem Passive.alive {k k' : Kernel} (h : Passive k k') (t : ThreadRef) :
    (k'.thread t).Alive ↔ (k.thread t).Alive := by
  rcases h with rfl | ⟨r, a, hs⟩ | ⟨a, hs⟩
  · rfl
  · simp only [Kernel.step] at hs
    split at hs
    · rename_i hrun
      cases hs
      rcases eq_or_ne t r with rfl | e
      · simp [Kernel.sleep, Thread.Alive, hrun.1]
      · simp [Kernel.sleep, e]
    · cases hs
  · cases hs
    exact (Thread.Calm.wake _ _).alive

inductive OpEffect (s : Sys) (r : ThreadRef) (op : FsOp) (rest : List FsOp) (s' : Sys) : Prop
  | quiet (rest' : List FsOp)
      (track : ∀ h, FsOp.trackAll rest' h = FsOp.trackAll (op :: rest) h := by exact fun _ => rfl)
      (fs : s'.fs = update s.fs r { s.fs r with todo := rest' } := by rfl)
      (lock : s'.sleeplock = s.sleeplock := by rfl)
      (out : s'.log.outstanding = s.log.outstanding := by rfl)
  | acquired (l : SleepLock) (hop : op = .acquiresleep l) (hl : (s.sleeplock l).locked = false)
      (fs : s'.fs = update s.fs r ⟨rest, l :: (s.fs r).held, (s.fs r).inOp⟩)
      (lock : s'.sleeplock = update s.sleeplock l ⟨true, (s.kernel.proc r.1).pid⟩)
      (out : s'.log.outstanding = s.log.outstanding)
  | released (l : SleepLock) (hop : op = .releasesleep l)
      (fs : s'.fs = update s.fs r ⟨rest, (s.fs r).held.erase l, (s.fs r).inOp⟩)
      (lock : s'.sleeplock = update s.sleeplock l ⟨false, 0⟩)
      (out : s'.log.outstanding = s.log.outstanding)
  | opened (hop : op = .beginOp)
      (fs : s'.fs = update s.fs r ⟨rest, (s.fs r).held, true⟩)
      (lock : s'.sleeplock = s.sleeplock) (out : s'.log.outstanding = s.log.outstanding + 1)
  | closed (rest' : List FsOp) (hop : op = .endOp)
      (fs : s'.fs = update s.fs r ⟨rest', (s.fs r).held, false⟩)
      (track : ∀ h, FsOp.trackAll rest' h = FsOp.trackAll rest h)
      (lock : s'.sleeplock = s.sleeplock) (out : s'.log.outstanding = s.log.outstanding - 1)

theorem block_effect {u : Sys} {rest' : List FsOp} (hs : u.block r a rest' = some s')
    (track : ∀ h, FsOp.trackAll rest' h = FsOp.trackAll (op :: rest) h := by exact fun _ => rfl)
    (hfs : u.fs = s.fs := by rfl) (hlock : u.sleeplock = s.sleeplock := by rfl)
    (hout : u.log.outstanding = s.log.outstanding := by rfl)
    (hk : u.kernel = s.kernel := by rfl) :
    Passive s.kernel s'.kernel ∧ OpEffect s r op rest s' := by
  simp only [block, Option.map_eq_some_iff] at hs
  obtain ⟨k, hstep, rfl⟩ := hs
  rw [hk] at hstep
  refine ⟨.inr (.inl ⟨r, a, hstep⟩), .quiet rest' track ?_ hlock hout⟩
  simp only [goOn, setFs, hfs]

theorem iderw_effect {u : Sys} {b : Nat} (hs : u.iderw r b rest = some s')
    (track : ∀ h, FsOp.trackAll rest h = FsOp.trackAll (op :: rest) h := by exact fun _ => rfl)
    (hfs : u.fs = s.fs := by rfl) (hlock : u.sleeplock = s.sleeplock := by rfl)
    (hout : u.log.outstanding = s.log.outstanding := by rfl)
    (hk : u.kernel = s.kernel := by rfl) :
    Passive s.kernel s'.kernel ∧ OpEffect s r op rest s' := by
  unfold iderw at hs
  split at hs
  · cases hs
  · split at hs
    · cases hs
    · exact block_effect hs track hfs hlock hout hk

/-- Everything an operation can do to sleeplocks, transactions and the kernel. -/
theorem opEffect (hs : s.runOp r op rest = some s') :
    Passive s.kernel s'.kernel ∧ OpEffect s r op rest s' := by
  cases op with
  | acquiresleep l =>
    simp only [runOp, acquiresleep] at hs
    split at hs
    · exact block_effect hs
    · rename_i hl
      cases hs
      exact ⟨.inl rfl, .acquired l rfl (by simpa using hl) rfl rfl rfl⟩
  | releasesleep l =>
    cases hs
    exact ⟨.inr (.inr ⟨l.addr, rfl⟩), .released l rfl rfl rfl rfl⟩
  | beginOp =>
    simp only [runOp, beginOp] at hs
    split at hs
    · exact block_effect hs
    · cases hs
      exact ⟨.inl rfl, .opened rfl rfl rfl rfl⟩
  | endOp =>
    simp only [runOp, endOp] at hs
    split at hs
    · cases hs
    · split at hs
      · cases hs
        exact ⟨.inl rfl, .closed (.commit :: .commitDone :: rest) rfl rfl (fun _ => rfl) rfl rfl⟩
      · cases hs
        exact ⟨.inr (.inr ⟨logAddr, rfl⟩), .closed rest rfl rfl (fun _ => rfl) rfl rfl⟩
  | logWrite b =>
    simp only [runOp, logWrite] at hs
    split at hs
    · cases hs
    · split at hs
      · cases hs
      · cases hs
        exact ⟨.inl rfl, .quiet rest⟩
  | fill b =>
    simp only [runOp] at hs
    split at hs
    · cases hs
      exact ⟨.inl rfl, .quiet rest⟩
    · exact iderw_effect hs
  | bwrite b =>
    simp only [runOp] at hs
    split at hs
    · cases hs
    · exact iderw_effect hs
  | ideWait b =>
    simp only [runOp] at hs
    split at hs
    · cases hs
      exact ⟨.inl rfl, .quiet rest⟩
    · exact block_effect hs
  | sleep a => exact block_effect hs
  | commit | writeLog | installTrans =>
    cases hs
    refine ⟨.inl rfl, .quiet (expand s.log _ ++ rest) fun h => ?_⟩
    rw [FsOp.trackAll_append, trackAll_expand]
    rfl
  | clearHead =>
    cases hs
    exact ⟨.inl rfl, .quiet rest⟩
  | commitDone =>
    cases hs
    exact ⟨.inr (.inr ⟨logAddr, rfl⟩), .quiet rest⟩

/-- **The system refines the kernel**: each of its steps is a step of the kernel
or leaves the kernel alone. -/
theorem step_kernel {l : SysLabel} (hs : s.step l = some s') :
    s'.kernel = s.kernel ∨ ∃ kl, s.kernel.step kl = some s'.kernel := by
  cases l with
  | kernel kl =>
    simp only [step, Option.ite_none_right_eq_some, Option.map_eq_some_iff] at hs
    obtain ⟨_, k, hk, rfl⟩ := hs
    exact .inr ⟨kl, hk⟩
  | op r =>
    simp only [step, Option.ite_none_right_eq_some] at hs
    obtain ⟨_, hs⟩ := hs
    split at hs
    · exact (opEffect hs).1.step
    · cases hs
  | ideintr =>
    simp only [step] at hs
    split at hs
    · rename_i b bs _
      cases hs
      exact .inr ⟨.notify (bufAddr b), rfl⟩
    · cases hs; exact .inl rfl
  | _ =>
    simp only [step, Option.ite_none_right_eq_some, Option.some.injEq] at hs
    obtain ⟨_, rfl⟩ := hs
    exact .inl rfl

theorem kernel_run {G : Guard Sys SysLabel} {start size : Nat}
    (hr : Run Sys.step G (boot start size) s) : Run Kernel.step free Xv6.boot s.kernel := by
  apply hr.invariant (I := fun s => Run Kernel.step free Xv6.boot s.kernel) .refl
  intro a l b ha hs _
  rcases step_kernel hs with e | ⟨kl, hk⟩
  · rw [e]; exact ha
  · exact .next ha hk trivial

/-! ## The invariant -/

structure FsInv (s : Sys) : Prop where
  locks : HeldBy s.sleeplock fun r => (s.fs r).held
  outstanding : s.log.outstanding = openOps fun r => (s.fs r).inOp
  balanced : ∀ r, FsOp.trackAll (s.fs r).todo ((s.fs r).held, (s.fs r).inOp) = some ([], false)
  alive : ∀ r, (s.fs r).todo ≠ [] → (s.kernel.thread r).Alive

/-- The steps that remove no sleeping thread that holds a sleeplock or has begun
a transaction. -/
def Spared : Guard Sys SysLabel := fun s l _ =>
  ∀ kl, l = .kernel kl → ∀ t ∈ s.kernel.removals kl, (s.kernel.thread t).state = .TSLEEPING →
    (s.fs t).held = [] ∧ (s.fs t).inOp = false

theorem FsInv.done (h : FsInv s) (hr : (s.fs r).todo = []) :
    (s.fs r).held = [] ∧ (s.fs r).inOp = false := by
  have hb := h.balanced r
  rw [hr] at hb
  simpa [FsOp.trackAll] using hb

/-- One thread moves on. -/
theorem FsInv.moved (h : FsInv s) {f : FsThread} (hfs : s'.fs = update s.fs r f)
    (hk : ∀ t, (s'.kernel.thread t).Alive ↔ (s.kernel.thread t).Alive)
    (hr : (s.kernel.thread r).Alive)
    (hlocks : HeldBy s'.sleeplock (update (fun t => (s.fs t).held) r f.held))
    (hout : s'.log.outstanding = openOps (update (fun t => (s.fs t).inOp) r f.inOp))
    (hbal : FsOp.trackAll f.todo (f.held, f.inOp) = some ([], false)) : FsInv s' := by
  have hproj : ∀ {β : Type} (g : FsThread → β),
      (fun t => g (s'.fs t)) = update (fun t => g (s.fs t)) r (g f) := by
    intro β g
    funext t
    rw [hfs]
    rcases eq_or_ne t r with rfl | e
    · simp
    · simp [e]
  constructor
  · rw [hproj FsThread.held]
    exact hlocks
  · rw [hout, hproj FsThread.inOp]
  · intro t
    rw [hfs]
    rcases eq_or_ne t r with rfl | e
    · simpa using hbal
    · simpa [e] using h.balanced t
  · intro t ht
    rw [hk]
    rcases eq_or_ne t r with rfl | e
    · exact hr
    · rw [hfs, update_of_ne e] at ht
      exact h.alive t ht

theorem FsInv.runOp (h : FsInv s) (htodo : (s.fs r).todo = op :: rest)
    (hs : s.runOp r op rest = some s') : FsInv s' := by
  have hr : (s.kernel.thread r).Alive := h.alive r (by simp [htodo])
  have hbal := h.balanced r
  rw [htodo] at hbal
  obtain ⟨hpassive, heff⟩ := opEffect hs
  have hself : ∀ {β : Type} (g : FsThread → β),
      update (fun t => g (s.fs t)) r (g (s.fs r)) = fun t => g (s.fs t) :=
    fun g => update_eq_self r _
  have hlocks : HeldBy s.sleeplock (update (fun t => (s.fs t).held) r (s.fs r).held) := by
    rw [hself FsThread.held]
    exact h.locks
  have hout : s.log.outstanding = openOps (update (fun t => (s.fs t).inOp) r (s.fs r).inOp) := by
    rw [hself FsThread.inOp]
    exact h.outstanding
  cases heff with
  | quiet rest' track fs lock out =>
    refine h.moved fs hpassive.alive hr ?_ (out.trans hout) ?_
    · rw [lock]
      exact hlocks
    · rw [track]
      exact hbal
  | acquired l hop hl fs lock out =>
    subst hop
    refine h.moved fs hpassive.alive hr ?_ (out.trans hout) ?_
    · rw [lock]
      exact h.locks.acquire hl rfl
    · simpa [FsOp.trackAll, FsOp.track] using hbal
  | released l hop fs lock out =>
    subst hop
    obtain ⟨h', htrack, hrest⟩ := FsOp.trackAll_cons.1 hbal
    simp only [FsOp.track, Option.ite_none_right_eq_some, Option.some.injEq] at htrack
    obtain ⟨hl, rfl⟩ := htrack
    refine h.moved fs hpassive.alive hr ?_ (out.trans hout) hrest
    rw [lock]
    exact h.locks.release hl rfl
  | opened hop fs lock out =>
    subst hop
    obtain ⟨h', htrack, hrest⟩ := FsOp.trackAll_cons.1 hbal
    simp only [FsOp.track, Option.ite_none_left_eq_some, Option.some.injEq] at htrack
    obtain ⟨hin, rfl⟩ := htrack
    refine h.moved fs hpassive.alive hr (lock ▸ hlocks) ?_ hrest
    rw [openOps_begin (by simpa using hin), out, h.outstanding]
    push_cast
    rfl
  | closed rest' hop fs track lock out =>
    subst hop
    obtain ⟨h', htrack, hrest⟩ := FsOp.trackAll_cons.1 hbal
    simp only [FsOp.track, Option.ite_none_right_eq_some, Option.some.injEq] at htrack
    obtain ⟨hin, rfl⟩ := htrack
    refine h.moved fs hpassive.alive hr (lock ▸ hlocks) ?_ (by rw [track]; exact hrest)
    have hcount := openOps_end (f := fun t => (s.fs t).inOp) hin
    rw [out, h.outstanding]
    dsimp only
    omega

theorem FsInv.kernelStep (h : FsInv s) (hi : Kernel.Inv s.kernel) {l : Label} {k' : Kernel}
    (hadm : s.admits l) (hs : s.kernel.step l = some k')
    (hg : Spared s (.kernel l) s') : FsInv (s.settle k') := by
  -- a thread inside the file system does not act in this step
  have hacts : ∀ r x, (s.fs r).todo ≠ [] → ¬ s.kernel.Acts l r x := by
    rintro r x hr ⟨⟨page, copied, rfl⟩, _⟩
    exact hr (by simpa [admits] using hadm)
  have hfate : ∀ r, (s.fs r).todo ≠ [] → (k'.thread r).Alive ∨
      ((k'.thread r).state = .TUNUSED ∧ (s.fs r).held = [] ∧ (s.fs r).inOp = false) := by
    intro r hr
    have ha := h.alive r hr
    cases Kernel.fate hi (Kernel.turn_of_step hs) r with
    | stays _ unused _ ends =>
      refine .inl ⟨(not_congr unused).2 ha.1, fun hz => ?_⟩
      obtain ⟨x, hx, _⟩ := (ends hz).resolve_left ha.2
      exact hacts r x hr hx
    | starts unused => exact absurd unused ha.1
    | removed mem _ unused =>
      exact .inr ⟨unused, hg l rfl r mem (hi.asleep_of_removed mem ha)⟩
    | exits acts => exact absurd acts (hacts r _ hr)
  -- so nobody loses a sleeplock or a transaction
  have hkeep : ∀ r, ((s.settle k').fs r).held = (s.fs r).held ∧
      ((s.settle k').fs r).inOp = (s.fs r).inOp := by
    intro r
    simp only [settle]
    split
    · rename_i hu
      have hnone : (s.fs r).held = [] ∧ (s.fs r).inOp = false := by
        by_cases hr : (s.fs r).todo = []
        · exact h.done hr
        · rcases hfate r hr with ha | ⟨_, hnone⟩
          · exact absurd hu ha.1
          · exact hnone
      rw [hnone.1, hnone.2]
      exact ⟨rfl, rfl⟩
    · exact ⟨rfl, rfl⟩
  constructor
  · simp only [hkeep]
    exact h.locks
  · simp only [hkeep]
    exact h.outstanding
  · intro r
    simp only [settle]
    split
    · rfl
    · exact h.balanced r
  · intro r hr
    simp only [settle] at hr
    split at hr
    · exact absurd rfl hr
    · rename_i hu
      exact (hfate r hr).resolve_right fun hn => hu hn.1

theorem FsInv.step (h : FsInv s) (hi : Kernel.Inv s.kernel) {l : SysLabel}
    (hs : s.step l = some s') (hg : Spared s l s') : FsInv s' := by
  cases l with
  | kernel kl =>
    simp only [Sys.step, Option.ite_none_right_eq_some, Option.map_eq_some_iff] at hs
    obtain ⟨hadm, k, hk, rfl⟩ := hs
    exact h.kernelStep hi hadm hk hg
  | start r c =>
    simp only [Sys.step, Option.ite_none_right_eq_some, Option.some.injEq] at hs
    obtain ⟨⟨hrun, _, htodo⟩, rfl⟩ := hs
    obtain ⟨hheld, hin⟩ := h.done htodo
    refine h.moved rfl (fun _ => Iff.rfl) (by simp [Thread.Alive, hrun]) ?_ ?_ ?_
    · rw [update_eq_self_iff.2 rfl]
      exact h.locks
    · rw [update_eq_self_iff.2 rfl]
      exact h.outstanding
    · simp only [hheld, hin]
      exact c.balanced
  | op r =>
    simp only [Sys.step, Option.ite_none_right_eq_some] at hs
    obtain ⟨_, hs⟩ := hs
    split at hs
    · rename_i htodo
      exact h.runOp htodo hs
    · cases hs
  | ideintr =>
    simp only [Sys.step] at hs
    split at hs
    · rename_i b bs _
      cases hs
      exact ⟨h.locks, h.outstanding, h.balanced,
        fun r hr => (Thread.Calm.wake _ _).alive.2 (h.alive r hr)⟩
    · cases hs; exact h
  | recycle b =>
    simp only [Sys.step, Option.ite_none_right_eq_some, Option.some.injEq] at hs
    obtain ⟨_, rfl⟩ := hs
    exact ⟨h.locks, h.outstanding, h.balanced, h.alive⟩

theorem boot_fsInv (start size : Nat) : FsInv (boot start size) where
  locks := ⟨fun l => by simp [boot, FsThread.idle],
    fun l r r' h => by simp [boot, FsThread.idle] at h,
    fun r => by simp [boot, FsThread.idle]⟩
  outstanding := by simp [boot, FsThread.idle, openOps]
  balanced _ := rfl
  alive r hr := absurd rfl hr

theorem fsInv_of_run {start size : Nat} (hr : Run Sys.step Spared (boot start size) s) :
    FsInv s := by
  apply hr.invariant_with (fun _ hb => Kernel.reachable_inv (kernel_run hb)) (boot_fsInv _ _)
  intro a l b hi h hs hg
  exact h.step hi hs hg

/-- **Sleeplocks have live owners and transactions are counted**, in every run in
which no thread is removed asleep with a sleeplock or an open transaction. -/
theorem sleeplocks_and_log_owned {start size : Nat} (hr : Run Sys.step Spared (boot start size) s) :
    (∀ l, (s.sleeplock l).locked → ∃ r, (s.kernel.thread r).state ≠ .TUNUSED ∧ l ∈ (s.fs r).held) ∧
    s.log.outstanding = (Finset.univ.filter fun r =>
      (s.kernel.thread r).state ≠ .TUNUSED ∧ (s.fs r).inOp = true).card := by
  have h := fsInv_of_run hr
  -- a thread that has something is not at the end of its operations
  have hlive : ∀ r, (s.fs r).held ≠ [] ∨ (s.fs r).inOp = true →
      (s.kernel.thread r).state ≠ .TUNUSED := by
    intro r hr
    refine (h.alive r fun htodo => ?_).1
    obtain ⟨hheld, hin⟩ := h.done htodo
    rcases hr with hr | hr
    · exact hr hheld
    · rw [hin] at hr; cases hr
  constructor
  · intro l hl
    obtain ⟨r, hm⟩ := (h.locks.locked l).1 hl
    exact ⟨r, hlive r (.inl (List.ne_nil_of_mem hm)), hm⟩
  · have hsame : (Finset.univ.filter fun r => (s.fs r).inOp = true) = Finset.univ.filter fun r =>
        (s.kernel.thread r).state ≠ .TUNUSED ∧ (s.fs r).inOp = true :=
      Finset.filter_congr fun r _ => (and_iff_right_of_imp fun hin => hlive r (.inr hin)).symm
    rw [h.outstanding, openOps, hsame]

/-- The second thread of process 2 writes to a file and sleeps in `iderw`: it has
begun a transaction and holds the locks of an inode and of a buffer. The first
thread of the process is about to run `exit`. -/
def writing : List SysLabel :=
  List.map .kernel ([.dispatch (0, 0)] ++ Label.calls (0, 0) .fork ++ [.dispatch (1, 0)] ++
    Label.calls (1, 0) .kthreadCreate ++ [.dispatch (1, 1), .syscall (1, 1) .other]) ++
    [.start (1, 1) (.filewrite 7 9), .op (1, 1), .op (1, 1), .op (1, 1), .op (1, 1),
      .kernel (.syscall (1, 0) .exit)]

def written : Sys := final Sys.step (boot 2 30) writing

/-- No thread is removed. -/
def removesNone (s : Sys) : SysLabel → Bool
  | .kernel l => (s.kernel.removals l).isEmpty
  | _ => true

theorem spared_of_none {l : SysLabel} (hg : removesNone s l) : Spared s l s' := by
  rintro kl rfl t ht
  simp only [removesNone, List.isEmpty_iff] at hg
  rw [hg] at ht
  cases ht

theorem written_run : Run Sys.step Spared (boot 2 30) written := run_final spared_of_none

theorem sleeplocks_and_log_owned_written : (written.sleeplock (.buf 9)).locked ∧
    ∃ r, (written.kernel.thread r).state ≠ .TUNUSED ∧ .buf 9 ∈ (written.fs r).held := by
  have hl : (written.sleeplock (.buf 9)).locked := by decide +kernel
  exact ⟨hl, (sleeplocks_and_log_owned written_run).1 _ hl⟩

/-- The first scan of `kill_other_threads` after that. -/
def torn : Sys := next Sys.step written (.kernel (.run (1, 0) none true))

theorem torn_step : written.step (.kernel (.run (1, 0) none true)) = some torn :=
  step_next _ _ _ (by decide +kernel)

theorem kernel_fs {l : Label} (hs : s.step (.kernel l) = some s') (r : ThreadRef) :
    s'.fs r = .idle ∨ s'.fs r = s.fs r := by
  simp only [step, Option.ite_none_right_eq_some, Option.map_eq_some_iff] at hs
  obtain ⟨_, k, _, rfl⟩ := hs
  simp only [settle]
  split
  · exact .inl rfl
  · exact .inr rfl

/-- What only the removed thread had, nobody has. -/
theorem torn_fs {P : FsThread → Prop} (h1 : ∀ r, P (written.fs r) → r = (1, 1))
    (hidle : ¬ P .idle) (r : ThreadRef) : ¬ P (torn.fs r) := by
  have hremoved : torn.fs (1, 1) = .idle := by decide +kernel
  intro hP
  rcases kernel_fs torn_step r with e | e
  · exact hidle (e ▸ hP)
  · rw [h1 r (e ▸ hP), hremoved] at hP
    exact hidle hP

/-- The transaction and the two locks are left behind, and no thread has them. -/
theorem kill_other_threads_leaves_locks : ∃ s, Run Sys.step free (boot 2 30) s ∧
    (∀ l ∈ [SleepLock.inode 7, .buf 9], (s.sleeplock l).locked ∧ ∀ r, l ∉ (s.fs r).held) ∧
    s.log.outstanding = 1 ∧ ∀ r, ¬ (s.fs r).inOp = true := by
  have h := fsInv_of_run written_run
  refine ⟨torn, .next (written_run.mono fun _ _ _ _ _ => trivial) torn_step trivial, ?_, ?_, ?_⟩
  · have hlocked : ∀ l ∈ [SleepLock.inode 7, .buf 9],
        (torn.sleeplock l).locked ∧ l ∈ (written.fs (1, 1)).held := by decide +kernel
    intro l hl
    obtain ⟨hlock, hheld⟩ := hlocked l hl
    exact ⟨hlock, torn_fs (P := fun f => l ∈ f.held) (fun r hr => h.locks.unique l r _ hr hheld)
      (by simp [FsThread.idle])⟩
  · decide +kernel
  · apply torn_fs (P := fun f => f.inOp = true) _ (by simp [FsThread.idle])
    have hcount : openOps (fun r => (written.fs r).inOp) ≤ 1 := by
      have hout : written.log.outstanding = 1 := by decide +kernel
      have := h.outstanding
      omega
    have hin : (written.fs (1, 1)).inOp = true := by decide +kernel
    intro r hr
    exact Finset.card_le_one.1 hcount r (by simpa using hr) (1, 1) (by simpa using hin)

end Sys
end Xv6
