import Xv6.Cpu.Invariant

/-! Kernel stacks and free pages. A page is the kernel stack of at most one record, or on
the free list, or in use elsewhere. -/

namespace Xv6

open Runs

variable {k k' : Kernel} {l : Label} {spare pages : List Nat}

/-- Every record in use has a kernel stack, and no page is in two places. -/
structure StackInv (k : Kernel) (spare pages : List Nat) : Prop where
  used : ∀ t, (k.thread t).state ≠ .TUNUSED → ∃ a, (k.thread t).kstack = some a
  inj : ∀ s t a, (k.thread s).kstack = some a → (k.thread t).kstack = some a → s = t
  fresh : ∀ t a, (k.thread t).kstack = some a → a ∉ spare ++ pages
  nodup : (spare ++ pages).Nodup

namespace StackInv

/-- The stacks stay, and the other pages move between the two lists. -/
theorem keep {spare' pages' : List Nat} (h : StackInv k spare pages)
    (hst : ∀ t, (k'.thread t).kstack = (k.thread t).kstack)
    (hu : ∀ t, (k'.thread t).state ≠ .TUNUSED → (k.thread t).state ≠ .TUNUSED)
    (hperm : (spare' ++ pages').Perm (spare ++ pages)) : StackInv k' spare' pages' where
  used t ht := by
    rw [hst]
    exact h.used t (hu t ht)
  inj s t a hs ht := by
    rw [hst] at hs ht
    exact h.inj s t a hs ht
  fresh t a ht := by
    rw [hst] at ht
    rw [hperm.mem_iff]
    exact h.fresh t a ht
  nodup := hperm.nodup_iff.2 h.nodup

theorem mem_freed {a : Nat} (ha : a ∈ k.freed l) :
    ∃ t ∈ k.removals l, (k.thread t).kstack = some a :=
  List.mem_filterMap.1 ha

theorem removals_nodup (k : Kernel) (l : Label) : (k.removals l).Nodup := by
  have hvictims : ∀ c, (k.victims c).Nodup := fun c => (Kernel.slots_nodup c.1).filter _
  unfold Kernel.removals
  repeat' split
  all_goals first
    | exact List.nodup_nil
    | exact hvictims _
    | exact List.nodup_singleton _
    | exact Kernel.slots_nodup _

/-- The pages of the removed threads are put on the free list. -/
theorem frees (h : StackInv k spare pages)
    (hold : ∀ t, t ∉ k.removals l → ((k'.thread t).kstack = (k.thread t).kstack ∧
      ((k'.thread t).state ≠ .TUNUSED → (k.thread t).state ≠ .TUNUSED)) ∨
      ((k'.thread t).kstack = none ∧ (k'.thread t).state = .TUNUSED))
    (hgone : ∀ t ∈ k.removals l, (k'.thread t).kstack = none ∧ (k'.thread t).state = .TUNUSED) :
    StackInv k' ((k.freed l).reverse ++ spare) pages := by
  -- a stack after the step is one from before, of a thread that is not removed
  have hback : ∀ t a, (k'.thread t).kstack = some a →
      (k.thread t).kstack = some a ∧ t ∉ k.removals l := by
    intro t a ht
    have hmem : t ∉ k.removals l := by
      intro hmem
      rw [(hgone t hmem).1] at ht
      cases ht
    rcases hold t hmem with ⟨e, _⟩ | ⟨e, _⟩
    · exact ⟨e ▸ ht, hmem⟩
    · rw [e] at ht
      cases ht
  refine ⟨?_, ?_, ?_, ?_⟩
  · intro t ht
    have hmem : t ∉ k.removals l := fun hmem => ht (hgone t hmem).2
    rcases hold t hmem with ⟨e, hu⟩ | ⟨_, hu⟩
    · rw [e]
      exact h.used t (hu ht)
    · exact absurd hu ht
  · exact fun s t a hs ht => h.inj s t a (hback s a hs).1 (hback t a ht).1
  · intro t a ht
    obtain ⟨ht', hmem⟩ := hback t a ht
    rw [List.append_assoc, List.mem_append, List.mem_reverse]
    rintro (hf | hf)
    · obtain ⟨s, hs, hsa⟩ := mem_freed hf
      rw [h.inj t s a ht' hsa] at hmem
      exact hmem hs
    · exact h.fresh t a ht' hf
  · rw [List.append_assoc, List.nodup_append]
    refine ⟨?_, h.nodup, ?_⟩
    · rw [List.nodup_reverse]
      refine (removals_nodup k l).filterMap ?_
      exact fun s t a hs ht => h.inj s t a hs ht
    · intro a ha b hb e
      obtain ⟨t, _, ht⟩ := mem_freed (List.mem_reverse.1 ha)
      exact h.fresh t a ht (e ▸ hb)

/-- A new thread takes the first free page. -/
theorem start {a : Nat} {t : ThreadRef} (h : StackInv k (a :: spare) pages)
    (ht : (k'.thread t).kstack = some a)
    (hold : ∀ s, s ≠ t → (k'.thread s).kstack = (k.thread s).kstack ∧
      ((k'.thread s).state ≠ .TUNUSED → (k.thread s).state ≠ .TUNUSED)) :
    StackInv k' spare pages := by
  have hfresh : ∀ s, (k.thread s).kstack ≠ some a :=
    fun s hs => h.fresh s a hs (List.mem_cons_self ..)
  have hnodup := List.nodup_cons.1 h.nodup
  refine ⟨?_, ?_, ?_, hnodup.2⟩
  · intro s hs
    by_cases e : s = t
    · exact ⟨a, e ▸ ht⟩
    · rw [(hold s e).1]
      exact h.used s ((hold s e).2 hs)
  · intro s r b hs hr
    by_cases e : s = t <;> by_cases e' : r = t
    · rw [e, e']
    · rw [e, ht] at hs
      rw [(hold r e').1, ← hs] at hr
      exact absurd hr (hfresh r)
    · rw [e', ht] at hr
      rw [(hold s e).1, ← hr] at hs
      exact absurd hs (hfresh s)
    · rw [(hold s e).1] at hs
      rw [(hold r e').1] at hr
      exact h.inj s r b hs hr
  · intro s b hs
    by_cases e : s = t
    · rw [e, ht] at hs
      cases hs
      exact hnodup.1
    · rw [(hold s e).1] at hs
      exact fun hb => h.fresh s b hs (List.mem_cons_of_mem _ hb)

/-- The free list after a step that calls `kalloc` at its head. -/
theorem touch (h : StackInv k spare pages) (hs : Kernel.Touch k l k')
    (hl : ∀ c page copied, l = .run c page copied → page = spare.head?) :
    StackInv k' ((k.freed l).reverse ++ if k.allocates l then spare.tail else spare) pages := by
  cases hs with
  | moves hr hp self other =>
    rw [hp]
    refine h.frees ?_ (by rw [hr]; nofun)
    intro t _
    left
    by_cases e : l.thread = some t
    · exact ⟨(self t e).1, fun _ => (self t e).2⟩
    · exact ⟨(other t e).kstack, (not_congr (other t e).calm.unused).1⟩
  | @starts c t a copied hlab hr hp hrun unused ht stack self other =>
    have hfreed : k.freed l = [] := by rw [Kernel.freed, hr]; rfl
    have hhead := hl c (some a) copied hlab
    obtain ⟨rest, rfl⟩ : ∃ rest, spare = a :: rest := by
      cases spare with
      | nil => cases hhead
      | cons b rest => exact ⟨rest, by rw [Option.some.inj hhead]⟩
    rw [hfreed, hp]
    refine h.start stack ?_
    intro s hst
    by_cases e : s = c
    · subst e
      exact ⟨self, fun _ => by rw [hrun]; decide⟩
    · rw [other s hst e]
      exact ⟨rfl, id⟩
  | @spoils c t page copied hlab hr hp hrun unused ht stack self other =>
    have hspare : (if k.allocates l then spare.tail else spare) = spare := by
      rcases hp with hp | hp
      · rw [hp]
        rfl
      · have hhead := hl c page copied hlab
        rw [hp] at hhead
        cases spare with
        | nil => split <;> rfl
        | cons b rest => cases hhead
    rw [hspare]
    refine h.frees ?_ (by rw [hr]; nofun)
    intro s _
    by_cases e : s = t
    · exact .inr (e ▸ ⟨stack, ht⟩)
    · left
      by_cases e' : s = c
      · subst e'
        exact ⟨self, fun _ => by rw [hrun]; decide⟩
      · rw [other s e e']
        exact ⟨rfl, id⟩
  | @removes c page copied hlab hp hrun hc idle self gone other =>
    rw [hp]
    refine h.frees ?_ gone
    intro s hs
    left
    by_cases e : s = c
    · subst e
      exact ⟨self, fun _ => by rw [hrun]; decide⟩
    · rw [(other s hs e).1, (other s hs e).2]
      exact ⟨rfl, id⟩

/-- The wake-up that `scheduler` does for a killed sleeper moves no stack. -/
theorem roused (h : StackInv k spare pages) (t : ThreadRef) :
    StackInv (k.roused t) spare pages := by
  have hst : ∀ s, ((k.roused t).thread s).kstack = (k.thread s).kstack ∧
      (((k.roused t).thread s).state ≠ .TUNUSED → (k.thread s).state ≠ .TUNUSED) := by
    intro s
    by_cases e : s = t
    · subst e
      unfold Kernel.roused
      split
      · rename_i hsleep
        simp [hsleep.1]
      · exact ⟨rfl, id⟩
    · rw [Kernel.roused_of_ne k e]
      exact ⟨rfl, id⟩
  exact h.keep (fun s => (hst s).1) (fun s => (hst s).2) (List.Perm.refl _)

theorem dispatched {t : ThreadRef} (h : StackInv k spare pages)
    (ht : ((k.roused t).thread t).state = .TRUNNABLE) : StackInv (k.dispatched t) spare pages := by
  refine (h.roused t).keep ?_ ?_ (List.Perm.refl _) <;> intro s <;> by_cases e : s = t
  · subst e
    simp [Kernel.dispatched]
  · rw [Kernel.dispatched_of_ne k e, Kernel.roused_of_ne k e]
  · subst e
    exact fun _ => by rw [ht]; decide
  · rw [Kernel.dispatched_of_ne k e, Kernel.roused_of_ne k e]
    exact id

end StackInv

namespace Machine

variable {C : Type*} {m m' : Machine C} {c : C}

/-- The tables are those of a run of `Kernel`, every CPU is where it should be, and every
page is in one place. -/
structure Sane (m : Machine C) : Prop where
  reach : Run Kernel.step free boot m.kernel
  cpus : CpuInv m
  kstacks : StackInv m.kernel m.freelist m.pages

theorem Booted.sane (h : Booted m) : Sane m := by
  have hst : ∀ t, (boot.thread t).kstack = if t = (initproc, 0) then some 0 else none := by
    intro t
    simp only [boot]
    split <;> rfl
  refine ⟨h.kernel ▸ .refl, ⟨?_, ?_, ?_⟩, ⟨?_, ?_, ?_, h.pages⟩⟩
  · intro c
    simp [h.cpu c, Fits, h.lock]
  · intro t ht
    rw [h.kernel] at ht
    simp only [boot] at ht
    split at ht <;> cases ht
  · intro c d t hc
    rw [h.cpu c] at hc
    cases hc
  · intro t ht
    rw [h.kernel] at ht ⊢
    rw [hst]
    split
    · exact ⟨0, rfl⟩
    · rename_i e
      exact absurd (by simp [boot, e, Thread.zero]) ht
  · intro s t a hs ht
    rw [h.kernel, hst] at hs ht
    split at hs
    · rename_i e
      split at ht
      · rename_i e'
        rw [e, e']
      · cases ht
    · cases hs
  · intro t a ht
    rw [h.kernel, hst] at ht
    split at ht
    · cases ht
      exact h.stack 0 rfl
    · cases ht

theorem Sane.inv (h : Sane m) : Kernel.Inv m.kernel := Kernel.reachable_inv h.reach

variable [DecidableEq C]

theorem Sane.visit (h : Sane m) {t : ThreadRef} (ht : (m.kernel.proc t.1).state = .PUSED) :
    Run Kernel.step free m.kernel (m.visit c t).kernel ∧
      StackInv (m.visit c t).kernel (m.visit c t).freelist (m.visit c t).pages := by
  unfold Machine.visit
  split
  · rename_i hrun
    exact ⟨Kernel.dispatched_run ht hrun, h.kstacks.dispatched hrun⟩
  · exact ⟨Kernel.roused_run ht, h.kstacks.roused t⟩

theorem Sane.schedule (h : Sane m) (hs : m.schedule c = some m') :
    Run Kernel.step free m.kernel m'.kernel ∧ StackInv m'.kernel m'.freelist m'.pages := by
  unfold Machine.schedule at hs
  split at hs
  · split at hs
    · split at hs <;> cases hs <;> exact ⟨.refl, h.kstacks⟩
    · cases hs
      exact ⟨.refl, h.kstacks⟩
  · rename_i p i hx
    split at hs <;> cases hs
    · exact h.visit ((h.cpus.fits c).threads hx).2.2.2
    · exact ⟨.refl, h.kstacks⟩
  · split at hs <;> cases hs <;> exact ⟨.refl, h.kstacks⟩
  · cases hs
  · cases hs

theorem Sane.act {a : Act} (h : Sane m) (hs : m.act c a = some m') :
    Run Kernel.step free m.kernel m'.kernel ∧ StackInv m'.kernel m'.freelist m'.pages := by
  unfold Machine.act at hs
  split at hs
  · split at hs
    · obtain ⟨l, hl, hs⟩ := Option.bind_eq_some_iff.1 hs
      obtain ⟨k, hk, rfl⟩ := Option.map_eq_some_iff.1 hs
      refine ⟨.next .refl hk trivial, ?_⟩
      refine h.kstacks.touch (Kernel.touch_of_step h.inv hk) ?_
      rintro d page copied rfl
      cases a <;> cases hl
      rfl
    · cases hs
  · cases hs

theorem Sane.wakeup {a : Nat} (h : Sane m) (hs : m.wakeup c a = some m') :
    Run Kernel.step free m.kernel m'.kernel ∧ StackInv m'.kernel m'.freelist m'.pages := by
  rw [wakeup_some hs]
  refine ⟨Run.next (l := .notify a) .refl rfl trivial, ?_⟩
  refine h.kstacks.keep (fun t => ?_) (fun t => ?_) (List.Perm.refl _)
  · exact (Kernel.Woken.wake _ .same).kstack
  · exact (not_congr (Kernel.Woken.wake _ .same).calm.unused).1

theorem Sane.step {l : C × Act} (h : Sane m) (hs : m.step l = some m') : Sane m' := by
  obtain ⟨c, a⟩ := l
  have hact : m.act c a = some m' → Sane m' := by
    intro hs
    obtain ⟨hrun, hst⟩ := h.act hs
    exact ⟨h.reach.trans hrun, h.cpus.act h.inv hs, hst⟩
  cases a with
  | acquire =>
    have hcpus := h.cpus.acquire hs
    simp only [Machine.step, Machine.acquire] at hs
    split at hs
    · split at hs <;> cases hs
      · exact ⟨h.reach, hcpus, h.kstacks⟩
      · exact ⟨h.reach, hcpus, h.kstacks⟩
    · cases hs
  | release =>
    have hcpus := h.cpus.release hs
    simp only [Machine.step, Machine.release] at hs
    split at hs
    · split at hs <;> cases hs
      exact ⟨h.reach, hcpus, h.kstacks⟩
    · cases hs
  | schedule =>
    obtain ⟨hrun, hst⟩ := h.schedule hs
    exact ⟨h.reach.trans hrun, h.cpus.schedule hs, hst⟩
  | wakeup b =>
    obtain ⟨hrun, hst⟩ := h.wakeup hs
    exact ⟨h.reach.trans hrun, h.cpus.wakeup hs, hst⟩
  | kalloc =>
    simp only [Machine.step, Machine.kalloc] at hs
    split at hs <;> cases hs
    rename_i b rest hfree
    refine ⟨h.reach, ⟨h.cpus.fits, h.cpus.running, h.cpus.single⟩, ?_⟩
    refine h.kstacks.keep (fun _ => rfl) (fun _ => id) ?_
    rw [hfree]
    exact List.perm_middle
  | kfree b =>
    simp only [Machine.step, Machine.kfree] at hs
    split at hs <;> cases hs
    rename_i hb
    refine ⟨h.reach, ⟨h.cpus.fits, h.cpus.running, h.cpus.single⟩, ?_⟩
    refine h.kstacks.keep (fun _ => rfl) (fun _ => id) ?_
    refine List.perm_middle.symm.trans ?_
    exact (List.perm_cons_erase hb).symm.append_left _
  | run copied | yield | timer | fault | syscall y | block b => exact hact hs

/-- **Threads, CPUs, ids and kernel stacks.** In every state in which `ptable.lock` is free,
for any number of CPUs: a thread is `TRUNNING` if and only if it is the `c->thread` of a CPU,
of one only, and it belongs to `c->proc`; pids of processes in use and tids of threads in use
are distinct; every thread in use has a kernel stack, no page is the stack of two records,
and no stack is on the free list. -/
theorem scheduler_cpus {m0 : Machine C} (h0 : Booted m0) (hr : Run step free m0 m)
    (hlock : m.lock = none) :
    (∀ t, (m.kernel.thread t).state = .TRUNNING ↔ ∃! c, (m.cpu c).thread = some t) ∧
    (∀ c d t, (m.cpu c).thread = some t → (m.cpu d).thread = some t → c = d) ∧
    (∀ c t, (m.cpu c).thread = some t → (m.cpu c).proc = some t.1) ∧
    (∀ p q, (m.kernel.proc p).state ≠ .PUNUSED → (m.kernel.proc q).state ≠ .PUNUSED →
      (m.kernel.proc p).pid = (m.kernel.proc q).pid → p = q) ∧
    (∀ s t, (m.kernel.thread s).state ≠ .TUNUSED → (m.kernel.thread t).state ≠ .TUNUSED →
      (m.kernel.thread s).tid = (m.kernel.thread t).tid → s = t) ∧
    (∀ t, (m.kernel.thread t).state ≠ .TUNUSED → ∃ a, (m.kernel.thread t).kstack = some a) ∧
    (∀ s t a, (m.kernel.thread s).kstack = some a → (m.kernel.thread t).kstack = some a → s = t) ∧
    ∀ t a, (m.kernel.thread t).kstack = some a → a ∉ m.freelist := by
  have h : Sane m := hr.invariant h0.sane fun _ _ _ h hs _ => h.step hs
  have hist := Kernel.reachable_histInv h.reach
  have hplace : ∀ c t, (m.cpu c).thread = some t → (m.cpu c).place = .switched t := by
    intro c t hc
    rcases (h.cpus.fits c).place hc with hp | ⟨_, hheld⟩
    · exact hp
    · rw [hlock] at hheld
      cases hheld
  have hone : ∀ c d t, (m.cpu c).thread = some t → (m.cpu d).thread = some t → c = d :=
    fun c d t hc hd => h.cpus.single c d t (hplace c t hc) (hplace d t hd)
  refine ⟨?_, hone, ?_, ?_, ?_, h.kstacks.used, h.kstacks.inj, ?_⟩
  · intro t
    constructor
    · intro ht
      obtain ⟨c, hc⟩ := h.cpus.running t ht
      have hthread := ((h.cpus.fits c).switched hc).2.1
      exact ⟨c, hthread, fun d hd => hone d c t hd hthread⟩
    · rintro ⟨c, hc, _⟩
      exact ((h.cpus.fits c).switched (hplace c t hc)).2.2
  · exact fun c t hc => ((h.cpus.fits c).switched (hplace c t hc)).1
  · exact fun p q hp _ e => hist.pids.inj p q e (hist.pids.pos p hp)
  · exact fun s t hs _ e => hist.tids.inj s t e (hist.tids.pos s hs)
  · exact fun t a ht hm => h.kstacks.fresh t a ht (List.mem_append_left _ hm)

/-- Two CPUs at boot. -/
def twoCpus : Machine (Fin 2) where
  kernel := boot
  cpu := fun _ => ⟨none, none, .idle⟩
  lock := none
  freelist := [1, 2, 3]
  pages := [4]

theorem twoCpus_booted : Booted twoCpus where
  kernel := rfl
  cpu := fun _ => rfl
  lock := rfl
  pages := by decide
  stack := by
    intro a ha
    have e : 0 = a := Option.some.inj ha
    subst e
    decide

/-- Init forks on CPU 0, and the scheduler of CPU 1 goes through the table to the child. -/
def forkOnTwo : List (Fin 2 × Act) :=
  [(0, .acquire), (0, .schedule), (0, .schedule), (0, .release), (0, .syscall .fork),
    (0, .acquire), (0, .run true), (0, .release), (1, .acquire)] ++
  List.replicate 20 (1, .schedule) ++ [(1, .release)]

def forkedOnTwo : Machine (Fin 2) := final step twoCpus forkOnTwo

theorem scheduler_cpus_forkOnTwo : (forkedOnTwo.cpu 1).thread = some (1, 0) ∧
    (forkedOnTwo.kernel.thread (1, 0)).state = .TRUNNING ∧
    (forkedOnTwo.kernel.thread (1, 0)).kstack = some 1 ∧
    1 ∉ forkedOnTwo.freelist := by
  have hrun : Run step free twoCpus forkedOnTwo := run_free
  have hlock : forkedOnTwo.lock = none := by decide +kernel
  have hcpu : (forkedOnTwo.cpu 1).thread = some (1, 0) := by decide +kernel
  have hstack : (forkedOnTwo.kernel.thread (1, 0)).kstack = some 1 := by decide +kernel
  obtain ⟨hiff, hone, -, -, -, -, -, hfree⟩ := scheduler_cpus twoCpus_booted hrun hlock
  refine ⟨hcpu, (hiff (1, 0)).2 ⟨1, hcpu, fun d hd => hone d 1 _ hd hcpu⟩, hstack, ?_⟩
  exact hfree (1, 0) 1 hstack

end Machine
end Xv6
