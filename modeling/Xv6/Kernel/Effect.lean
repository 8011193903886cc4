import Xv6.Kernel.Turns

/-! What the steps of the kernel have in common. Most are calm: they move threads between live
states and plain contexts and touch nothing else. Those on the mutex table move the running
thread and wake others. -/

namespace Xv6

/-- A change of a thread record that is a matter of scheduling only. -/
structure Thread.Calm (t t' : Thread) : Prop where
  tid : t'.tid = t.tid
  killed : t'.killed = t.killed
  mutex : t'.mutex = t.mutex
  unused : t'.state = .TUNUSED ↔ t.state = .TUNUSED
  zombie : t'.state = .TZOMBIE ↔ t.state = .TZOMBIE
  context : t'.context = t.context ∨
    (t.state = .TRUNNING ∧ t'.context.plain ∧ (t.context.plain ∨ t.context = .execBody))
  asleep : t'.state = .TSLEEPING → (t.state = .TSLEEPING ∧ t'.chan = t.chan) ∨
    t'.context.plain ∨ t'.context.elsewhere

namespace Thread.Calm

theorem refl (t : Thread) : Calm t t :=
  ⟨rfl, rfl, rfl, Iff.rfl, Iff.rfl, .inl rfl, fun h => .inl ⟨h, rfl⟩⟩

theorem then_wake {t t' : Thread} (h : Calm t t') (c : Chan) : Calm t (t'.wake c) := by
  unfold Thread.wake
  split
  · rename_i hw
    obtain ⟨h1, h2, h3, h4, h5, h6, _⟩ := h
    refine ⟨h1, h2, h3, ?_, ?_, h6, by simp⟩
    · rw [← h4, hw.1]; simp
    · rw [← h5, hw.1]; simp
  · exact h

theorem wake (t : Thread) (c : Chan) : Calm t (t.wake c) := (refl t).then_wake c

theorem alive {t t' : Thread} (h : Calm t t') : t'.Alive ↔ t.Alive := by
  unfold Alive
  rw [ne_eq, h.unused, ne_eq, h.zombie]

end Thread.Calm

theorem Thread.Goes.calm {t t' : Thread} (h : t.Goes t') : t.Calm t' where
  tid := h.tid
  killed := h.killed
  mutex := h.mutex
  unused := by rcases h.state with e | e <;> simp [e, h.alive.1]
  zombie := by rcases h.state with e | e <;> simp [e, h.alive.2]
  context := h.context
  asleep hs := by rcases h.state with e | e <;> simp [e] at hs

namespace Kernel

/-- The rest of the state is as before; only `killed` flags of processes may differ. -/
structure Same (k k' : Kernel) : Prop where
  mutex : k'.mutex = k.mutex
  hist : k'.hist = k.hist
  nextpid : k'.nextpid = k.nextpid
  nexttid : k'.nexttid = k.nexttid
  nextmid : k'.nextmid = k.nextmid
  procState : ∀ p, (k'.proc p).state = (k.proc p).state
  pid : ∀ p, (k'.proc p).pid = (k.proc p).pid
  parent : ∀ p, (k'.proc p).parent = (k.proc p).parent

theorem Same.thread (k : Kernel) (f : ThreadRef → Thread) : Same k { k with thread := f } :=
  ⟨rfl, rfl, rfl, rfl, rfl, fun _ => rfl, fun _ => rfl, fun _ => rfl⟩

/-! ## Calm steps -/

variable {k k' : Kernel} {l : Label} {c : ThreadRef} {x : Context}

theorem calm_sleeps {t : Thread} {w : Chan} {y : Context} (hrun : t.state = .TRUNNING)
    (hy : (y = t.context ∧ y.elsewhere) ∨ (y.plain ∧ t.context.plain)) :
    t.Calm { t with chan := some w, state := .TSLEEPING, context := y } where
  tid := rfl
  killed := rfl
  mutex := rfl
  unused := by simp [hrun]
  zombie := by simp [hrun]
  context := hy.imp And.left fun h => ⟨hrun, h.1, .inl h.2⟩
  asleep _ := .inr (hy.symm.imp And.left And.right)

/-- **Calm steps.** -/
theorem Calmly.spec (h : Calmly k l k') :
    (∀ r, (k.thread r).Calm (k'.thread r)) ∧ Same k k' ∧ k.removals l = [] := by
  have hset {c : ThreadRef} {f : Thread → Thread} (hf : (k.thread c).Calm (f (k.thread c)))
      (r : ThreadRef) : (k.thread r).Calm ((k.setThread c f).thread r) := by
    by_cases e : r = c
    · subst e; simpa using hf
    · simpa [e] using Thread.Calm.refl _
  cases h with
  | goes hl hq hg => exact ⟨hset hg.calm, Same.thread k _, hq.1⟩
  | sleeps hl hq hrun hy why => exact ⟨hset (calm_sleeps hrun hy), Same.thread k _, hq.1⟩
  | notify hl => exact ⟨fun _ => Thread.Calm.wake _ _, Same.thread k _, by rw [hl]; rfl⟩
  | @marks c p y hl hq hrun hx hy why =>
    refine ⟨hset (f := fun t => { t with context := y }) (Thread.Goes.runs hrun (.inl hx) hy).calm,
      ⟨rfl, rfl, rfl, rfl, rfl, ?_, ?_, ?_⟩, hq.1⟩
    all_goals
      intro q
      simp only [setThread_proc, setProc_proc]
      split <;> rfl

/-- The record of a thread other than the one that takes the step: as it was, or woken. -/
inductive Woken (t : Thread) : Thread → Prop
  | same : Woken t t
  | wake {t' : Thread} (w : Chan) (h : Woken t t') : Woken t (t'.wake w)

theorem Woken.of_eq {t t' : Thread} (h : t' = t) : Woken t t' := h ▸ .same

theorem Woken.calm {t t' : Thread} (h : Woken t t') : t.Calm t' := by
  induction h with
  | same => exact .refl t
  | wake w _ ih => exact ih.then_wake w

/-- A thread dies, and others are woken. -/
theorem Dies.woken {t r : ThreadRef} (hd : Dies k l t k') (hne : r ≠ t) :
    Woken (k.thread r) (k'.thread r) := by
  rcases hd.other hne with ⟨e, _⟩ | e <;> rw [e]
  · exact .same
  · exact .wake _ .same

theorem Dies.calm {t r : ThreadRef} (hd : Dies k l t k') (hne : r ≠ t) :
    (k.thread r).Calm (k'.thread r) := (hd.woken hne).calm

theorem Dies.same {t : ThreadRef} (hd : Dies k l t k') : Same k k' := by
  cases hd <;> exact Same.thread k _

theorem Enters.teardown {a : Caller} (h : Enters k c a x) :
    x = .killLoop a ∨ (x.plain ∧ (k.thread c).killed = false) := by
  cases h with
  | loop => exact .inl rfl
  | exec hk => exact .inr ⟨rfl, hk⟩
  | exit hk hinit hx => exact .inr ⟨by rcases hx with rfl | rfl <;> rfl, hk⟩

theorem wake_of_running {x : Thread} (h : x.state = .TRUNNING) (w : Chan) : x.wake w = x := by
  simp [Thread.wake, h]

/-! ## The running thread alone -/

/-- The steps on the mutex table move the running thread `c` and no other, but for wake-ups. -/
structure Moves (k k' : Kernel) (c : ThreadRef) : Prop where
  running : (k.thread c).state = .TRUNNING
  tid : (k'.thread c).tid = (k.thread c).tid
  killed : (k'.thread c).killed = (k.thread c).killed
  alive : (k'.thread c).Alive
  context : (k'.thread c).context.plain ∨ (∃ m mid, (k'.thread c).context = .lockLoop m mid) ∨
    ∃ m, (k'.thread c).context = .unlockWake m
  other : ∀ s, s ≠ c → Woken (k.thread s) (k'.thread s)
  proc : k'.proc = k.proc
  nexttid : k'.nexttid = k.nexttid

section Moves

variable {m : MutexIx} {mid : Int} (hrun : (k.thread c).state = .TRUNNING)

include hrun

theorem moves_alloc : Moves k (k.allocEntry c m) c where
  running := hrun
  tid := by simp [allocEntry, sysret]
  killed := by simp [allocEntry, sysret]
  alive := by simp [allocEntry, sysret, hrun, Thread.Alive]
  context := .inl (by simp [allocEntry, sysret, Context.plain])
  other s hs := .of_eq (by simp [allocEntry, sysret, hs])
  proc := rfl
  nexttid := rfl

theorem moves_dealloc (e : Event) : Moves k (((k.freeEntry c m).log e).sysret c 0) c where
  running := hrun
  tid := by simp [freeEntry, sysret]
  killed := by simp [freeEntry, sysret]
  alive := by simp [freeEntry, sysret, hrun, Thread.Alive]
  context := .inl (by simp [freeEntry, sysret, Context.plain])
  other s hs := .of_eq (by simp [freeEntry, sysret, hs])
  proc := rfl
  nexttid := rfl

theorem moves_take : Moves k (k.takeEntry c m mid) c where
  running := hrun
  tid := by simp [takeEntry, sysret]
  killed := by simp [takeEntry, sysret]
  alive := by simp [takeEntry, sysret, hrun, Thread.Alive]
  context := .inl (by simp [takeEntry, sysret, Context.plain])
  other s hs := .of_eq (by simp [takeEntry, sysret, hs])
  proc := rfl
  nexttid := rfl

theorem moves_lockSleep : Moves k (k.sleep c (.mutex m) (.lockLoop m mid)) c where
  running := hrun
  tid := by simp [Kernel.sleep]
  killed := by simp [Kernel.sleep]
  alive := by simp [Kernel.sleep, Thread.Alive]
  context := .inr (.inl ⟨m, mid, by simp [Kernel.sleep]⟩)
  other s hs := .of_eq (by simp [Kernel.sleep, hs])
  proc := rfl
  nexttid := rfl

theorem moves_unlock : Moves k (k.clearEntry c m mid) c where
  running := hrun
  tid := by simp [clearEntry]
  killed := by simp [clearEntry]
  alive := by simp [clearEntry, hrun, Thread.Alive]
  context := .inr (.inr ⟨m, by simp [clearEntry]⟩)
  other s hs := .of_eq (by simp [clearEntry, hs])
  proc := rfl
  nexttid := rfl

theorem moves_wake {w : Chan} : Moves k ((k.wakeup1 w).sysret c 0) c where
  running := hrun
  tid := by simp [sysret, wake_of_running hrun]
  killed := by simp [sysret, wake_of_running hrun]
  alive := by simp [sysret, wake_of_running hrun, hrun, Thread.Alive]
  context := .inl (by simp [sysret, Context.plain])
  other s hs := by simpa [sysret, hs] using .wake w .same
  proc := rfl
  nexttid := rfl

end Moves

end Kernel
end Xv6
