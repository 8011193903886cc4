import Mathlib.Data.Fintype.Prod
import Xv6.Descriptors.Model
import Xv6.Lib.Totals

/-! Reference counts and descriptor tables agree, as long as the threads of a process do not
get in each other's way. A reference of a file is owned by an entry of a descriptor table or
by a call in progress; `sys_dup` makes an entry before it has a reference for it, which is why
the owned entries are counted and not the entries. -/

namespace Xv6.Descriptors

open Runs Totals Function

variable {P T : Type}

/-! ## Calls that exclude each other -/

/-- The calls, by what they do to the table: `open` and `dup` fill an entry, `pipe` fills and
perhaps empties one, `close` empties one, `read` and `write` look at one, `fork` at all. -/
inductive Kind
  | fill
  | pipe
  | close
  | use
  | fork
  deriving DecidableEq, Repr

/-- Two calls that may not overlap in one process: both change the table, or one of them may
empty an entry. -/
def Kind.conflicts : Kind → Kind → Bool
  | .use, .use | .use, .fork | .fork, .use | .fork, .fork => false
  | .fill, .use | .use, .fill | .fill, .fork | .fork, .fill => false
  | _, _ => true

def Caller.kind : Caller → Kind
  | .open | .dup _ => .fill
  | .pipe0 _ | .pipe1 _ _ => .pipe

/-- The call that a thread is in, as far as it still concerns the table. -/
def Pc.kind : Pc P → Option Kind
  | .out | .fileclose _ => none
  | .argfd .dup _ | .openAlloc | .dupRef .. | .ret _ => some .fill
  | .argfd .close _ | .clear .. => some .close
  | .argfd .use _ | .inUse .. => some .use
  | .pipeAlloc0 | .pipeAlloc1 _ | .pipeKalloc .. | .pipeUndo .. => some .pipe
  | .fdTest k _ _ | .fdStore k _ _ => some k.kind
  | .forkEnter _ | .forkTest .. | .forkRead .. | .forkDup .. | .forkStore .. => some .fork

def Label.kind : Label P T → Option (T × Kind)
  | .open t | .lookup t .dup _ => some (t, .fill)
  | .pipe t => some (t, .pipe)
  | .lookup t .close _ => some (t, .close)
  | .lookup t .use _ => some (t, .use)
  | .fork t _ => some (t, .fork)
  | .run _ _ => none

/-- A call begins only while no thread of the process is in a conflicting one. -/
def Exclusive (proc : T → P) :
    Guard (State P T × List (Event P)) (Label P T) := fun s l _ =>
  ∀ t k, l.kind = some (t, k) → ∀ u k', u ≠ t → proc u = proc t →
    (s.1.thread u).kind = some k' → k.conflicts k' = false

theorem Kind.conflicts_comm (k k' : Kind) : k.conflicts k' = k'.conflicts k := by
  cases k <;> cases k' <;> rfl

/-- A call that goes on from `pc` to `pc'` gets into no more conflicts. -/
def Eases (pc pc' : Pc P) : Prop :=
  ∀ k', pc'.kind = some k' → ∃ k, pc.kind = some k ∧
    ∀ x, k.conflicts x = false → k'.conflicts x = false

variable {pc : Pc P}

theorem Eases.of_eq {pc' : Pc P} (h : pc'.kind = pc.kind) : Eases pc pc' :=
  fun k' hk => ⟨k', h ▸ hk, fun _ hx => hx⟩

theorem Eases.of_none {pc' : Pc P} (h : pc'.kind = none) : Eases pc pc' := by
  intro k' hk
  rw [h] at hk
  cases hk

/-! ## Descriptors in the history -/

section

variable [DecidableEq P]

/-- The descriptor was returned, and not closed since. -/
def openSince : List (Event P) → P → Fd → Bool
  | [], _, _ => false
  | .got q e :: l, p, fd => (q = p ∧ e = fd) || openSince l p fd
  | .closed q e :: l, p, fd => if q = p ∧ e = fd then false else openSince l p fd

/-- A descriptor is returned only when it is not open. -/
def Alternates : List (Event P) → Prop
  | [] => True
  | .got p fd :: l => openSince l p fd = false ∧ Alternates l
  | .closed _ _ :: l => Alternates l

variable {l l' : List (Event P)}

theorem closed_mem_of_openSince {p : P} {fd : Fd}
    (h : openSince (l ++ .got p fd :: l') p fd = false) : .closed p fd ∈ l := by
  induction l with
  | nil => simp [openSince] at h
  | cons e l ih =>
    cases e with
    | got q e =>
      rw [List.cons_append, openSince, Bool.or_eq_false_iff] at h
      exact List.mem_cons_of_mem _ (ih h.2)
    | closed q e =>
      by_cases hq : q = p ∧ e = fd
      · rw [hq.1, hq.2]
        exact List.mem_cons_self
      · rw [List.cons_append, openSince, if_neg hq] at h
        exact List.mem_cons_of_mem _ (ih h)

theorem Alternates.of_append (h : Alternates (l ++ l')) : Alternates l' := by
  induction l with
  | nil => exact h
  | cons e l ih =>
    cases e with
    | got q e => exact ih h.2
    | closed q e => exact ih h

theorem Alternates.closed_between {p : P} {fd : Fd} {l1 l2 l3 : List (Event P)}
    (h : Alternates (l1 ++ .got p fd :: (l2 ++ .got p fd :: l3))) : .closed p fd ∈ l2 :=
  closed_mem_of_openSince h.of_append.1

theorem openSince_closed_ne {p q : P} {fd e : Fd} (h : ¬ (q = p ∧ e = fd)) :
    openSince (.closed q e :: l) p fd = openSince l p fd := if_neg h

end

/-! ## References -/

/-- The references that the caller of `fdalloc(f)` holds. -/
def Caller.files (f : FileIx) : Caller → List FileIx
  | .open | .pipe1 _ _ => [f]
  | .dup _ => []
  | .pipe0 wf => [f, wf]

/-- The references that a call holds. -/
def Pc.files : Pc P → List FileIx
  | .pipeAlloc1 rf => [rf]
  | .pipeKalloc rf wf => [rf, wf]
  | .fdTest k f _ | .fdStore k f _ => k.files f
  | .pipeUndo _ wf _ => [wf]
  | .fileclose fs => fs
  | .forkStore _ _ f => [f]
  | _ => []

def held (f : FileIx) (pc : Pc P) : Int := tally f pc.files

/-- The child that a `fork` in progress fills. -/
def Pc.child : Pc P → Option P
  | .forkTest q _ | .forkRead q _ | .forkDup q _ _ | .forkStore q _ _ => some q
  | _ => none

/-! ## The invariant -/

section

variable [DecidableEq P] {used used' : P → Bool} {ofile ofile' : P × Fd → Option FileIx}
  {log log' : List (Event P)} {p : P} {pc : Pc P}

def Caller.Fits (ofile : P × Fd → Option FileIx) (log : List (Event P)) (p : P) (f : FileIx) :
    Caller → Prop
  | .open | .pipe0 _ => True
  | .dup fd => ofile (p, fd) = some f
  | .pipe1 rf fd0 => ofile (p, fd0) = some rf ∧ openSince log p fd0 = false

/-- What a thread of process `p` knows of the tables. -/
def Fits (used : P → Bool) (ofile : P × Fd → Option FileIx) (log : List (Event P)) (p : P) :
    Pc P → Prop
  | .fdTest k f _ => k.Fits ofile log p f
  | .fdStore k f fd => ofile (p, fd) = none ∧ k.Fits ofile log p f
  | .dupRef f fd fd' => ofile (p, fd) = some f ∧ ofile (p, fd') = some f ∧ fd ≠ fd' ∧
      openSince log p fd' = false
  | .pipeUndo rf _ fd0 => ofile (p, fd0) = some rf ∧ openSince log p fd0 = false
  | .ret fds => fds.Nodup ∧ ∀ fd ∈ fds, ofile (p, fd) ≠ none ∧ openSince log p fd = false
  | .clear fd f | .inUse fd f => ofile (p, fd) = some f
  | .forkTest q i => used q = false ∧ ∀ j : Fd, i ≤ j.val → ofile (q, j) = none
  | .forkRead q i | .forkDup q i _ | .forkStore q i _ =>
    used q = false ∧ ∀ j : Fd, i.val ≤ j.val → ofile (q, j) = none
  | _ => True

/-- Nothing changes in the table of the thread, and in that of a child that it fills. -/
theorem Fits.frame (h : Fits used ofile log p pc) (hp : ∀ fd, ofile' (p, fd) = ofile (p, fd))
    (hlog : ∀ fd, openSince log' p fd = openSince log p fd)
    (hq : ∀ q, pc.child = some q → used' q = used q ∧ ∀ fd, ofile' (q, fd) = ofile (q, fd)) :
    Fits used' ofile' log' p pc := by
  cases pc with
  | fdTest k f fd | fdStore k f fd =>
    cases k <;> simp only [Fits, Caller.Fits, hp, hlog] at h ⊢ <;> exact h
  | dupRef f fd fd' | pipeUndo rf wf fd0 | ret fds =>
    simp only [Fits, hp, hlog] at h ⊢
    exact h
  | clear fd f | inUse fd f =>
    simp only [Fits, hp] at h ⊢
    exact h
  | forkTest q i | forkRead q i | forkDup q i f | forkStore q i f =>
    obtain ⟨hu, ho⟩ := hq q rfl
    simp only [Fits, hu, ho] at h ⊢
    exact h
  | _ => trivial

/-- A call that is beside one that fills an entry knows nothing of empty entries and of the
history. -/
theorem Fits.filled (h : Fits used ofile log p pc)
    (hk : ∀ k, pc.kind = some k → Kind.fill.conflicts k = false)
    (hp : ∀ fd f, ofile (p, fd) = some f → ofile' (p, fd) = some f)
    (hq : ∀ q, pc.child = some q → used' q = used q ∧ ∀ fd, ofile' (q, fd) = ofile (q, fd)) :
    Fits used' ofile' log' p pc := by
  cases pc with
  | fdTest k f fd | fdStore k f fd => cases k <;> exact absurd (hk _ rfl).symm Bool.false_ne_true
  | dupRef f fd fd' | pipeUndo rf wf fd0 | ret fds | clear fd f =>
    exact absurd (hk _ rfl).symm Bool.false_ne_true
  | inUse fd f => exact hp fd f h
  | forkTest q i | forkRead q i | forkDup q i f | forkStore q i f =>
    obtain ⟨hu, ho⟩ := hq q rfl
    simp only [Fits, hu, ho] at h ⊢
    exact h
  | _ => trivial

theorem fits_of_kind_none (h : pc.kind = none) : Fits used ofile log p pc := by
  cases pc <;> trivial

end

theorem Fits.child_unused [DecidableEq P] {used : P → Bool} {ofile : P × Fd → Option FileIx}
    {log : List (Event P)} {p q : P} (h : Fits used ofile log p pc)
    (hq : pc.child = some q) : used q = false := by
  cases pc <;> first | cases hq; exact h.1 | cases hq

def Pc.busy : Pc P → Bool
  | .out => false
  | _ => true

/-- The entry for which `sys_dup` has no reference yet. -/
def Pc.masks : Pc P → Option Fd
  | .dupRef _ _ fd' => some fd'
  | _ => none

/-- Who may be where. -/
structure CallsInv (proc : T → P) (s : State P T) : Prop where
  live : ∀ t, (s.thread t).busy = true → s.used (proc t) = true
  lock : ∀ t, (s.thread t).child ≠ none → s.ptable = some t
  apart : ∀ t u k k', u ≠ t → proc u = proc t → (s.thread t).kind = some k →
    (s.thread u).kind = some k' → k.conflicts k' = false

/-- `own` are the entries that have a reference: all but those that `sys_dup` has just made. -/
structure Owned (proc : T → P) (own ofile : P × Fd → Option FileIx) (thread : T → Pc P) :
    Prop where
  agree : ∀ x, own x = ofile x ∨
    own x = none ∧ ∃ t, proc t = x.1 ∧ (thread t).masks = some x.2
  masked : ∀ t fd, (thread t).masks = some fd → own (proc t, fd) = none

structure Inv [DecidableEq P] [Fintype P] [Fintype T] (proc : T → P)
    (own : P × Fd → Option FileIx) (s : State P T) (log : List (Event P)) : Prop where
  calls : CallsInv proc s
  unused : ∀ q fd, s.used q = false → s.ofile (q, fd) ≠ none → ∃ t, (s.thread t).child = some q
  fits : ∀ t, Fits s.used s.ofile log (proc t) (s.thread t)
  owned : Owned proc own s.ofile s.thread
  count : ∀ f, s.ref f = total (one f) own + total (held f) s.thread
  opened : ∀ p fd, openSince log p fd = true → s.ofile (p, fd) ≠ none
  alternates : Alternates log

variable {proc : T → P} {own own' ofile : P × Fd → Option FileIx} {s s' : State P T}
  {log : List (Event P)} {t u : T} {pc : Pc P} {f : FileIx} {fd : Fd} {x : P × Fd}

theorem Pc.busy_of_kind {k : Kind} (h : pc.kind = some k) : pc.busy = true := by
  cases pc <;> first | rfl | cases h

theorem Pc.masks_some (h : pc.masks = some fd) : ∃ f src, pc = .dupRef f src fd := by
  cases pc with
  | dupRef f src fd' =>
    cases h
    exact ⟨f, src, rfl⟩
  | _ => cases h

theorem Pc.kind_of_masks (h : pc.masks = some fd) : pc.kind = some .fill := by
  cases pc <;> first | rfl | cases h

theorem Owned.empty (h : Owned proc own ofile s.thread) (hx : ofile x = none) : own x = none := by
  rcases h.agree x with hx' | hx'
  · rw [hx', hx]
  · exact hx'.1

/-- Only one `fork` at a time is past `acquire`. -/
theorem CallsInv.child_none (hc : CallsInv proc s) (ht : (s.thread t).child ≠ none) (hu : u ≠ t) :
    (s.thread u).child = none := by
  by_contra h
  exact hu (Option.some.inj ((hc.lock u h).symm.trans (hc.lock t ht)))

theorem CallsInv.excl (hc : CallsInv proc s) (he : Eases (s.thread t) pc) (k : Kind)
    (hk : pc.kind = some k) (u : T) (k' : Kind) (hu : u ≠ t) (hp : proc u = proc t)
    (hk' : (s.thread u).kind = some k') : k.conflicts k' = false := by
  obtain ⟨k0, hk0, hle⟩ := he k hk
  exact hle k' (hc.apart t u k0 k' hu hp hk0 hk')

section

variable [DecidableEq T] {thread : T → Pc P}

theorem forall_update {F : T → Pc P → Prop} (ht : F t pc)
    (h : ∀ u, u ≠ t → F u (thread u)) (u : T) : F u (update thread t pc u) :=
  (forall_update_iff thread F).2 ⟨ht, h⟩ u

/-- Thread `t` goes on to `pc`, beside no call that conflicts with it. -/
theorem CallsInv.moved (hc : CallsInv proc s) (hthread : s'.thread = update s.thread t pc)
    (hused : ∀ p, s.used p = true → s'.used p = true)
    (hlive : pc.busy = true → s.used (proc t) = true)
    (hexcl : ∀ k, pc.kind = some k → ∀ u k', u ≠ t → proc u = proc t →
      (s.thread u).kind = some k' → k.conflicts k' = false)
    (hlock : pc.child ≠ none → s'.ptable = some t)
    (hothers : ∀ u, u ≠ t → (s.thread u).child ≠ none → s'.ptable = some u) :
    CallsInv proc s' where
  live := by
    rw [hthread]
    exact forall_update (F := fun u pc => pc.busy = true → s'.used (proc u) = true)
      (fun h => hused _ (hlive h)) fun u _ h => hused _ (hc.live u h)
  lock := by
    rw [hthread]
    exact forall_update (F := fun u pc => pc.child ≠ none → s'.ptable = some u) hlock hothers
  apart := by
    intro u v k k' hne hp
    rw [hthread]
    by_cases hu : u = t
    · subst hu
      rw [update_self, update_of_ne hne]
      exact fun hk => hexcl k hk v k' hne hp
    · rw [update_of_ne hu]
      by_cases hv : v = t
      · subst hv
        rw [update_self, Kind.conflicts_comm]
        exact fun hk hk' => hexcl k' hk' u k hu hp.symm hk
      · rw [update_of_ne hv]
        exact hc.apart u v k k' hne hp

/-- `fork` stays where it is in the child, or nobody is in `fork`. -/
theorem CallsInv.keep (hc : CallsInv proc s)
    (hthread : s'.thread = update s.thread t pc) (hused : s'.used = s.used)
    (hptable : s'.ptable = s.ptable) (hbusy : (s.thread t).busy = true)
    (he : Eases (s.thread t) pc) (hchild : pc.child = (s.thread t).child) : CallsInv proc s' := by
  refine hc.moved hthread (fun p h => hused ▸ h) (fun _ => hc.live t hbusy) (hc.excl he) ?_
    fun u _ h => hptable ▸ hc.lock u h
  rw [hptable, hchild]
  exact hc.lock t

theorem unused_update (h : ∀ q fd, s.used q = false → s.ofile (q, fd) ≠ none →
      ∃ t, (s.thread t).child = some q) (hthread : s'.thread = update s.thread t pc)
    (hsub : ∀ q fd, s'.used q = false → s'.ofile (q, fd) ≠ none →
      pc.child = some q ∨ s.used q = false ∧ s.ofile (q, fd) ≠ none)
    (hchild : ∀ q, s'.used q = false → (s.thread t).child = some q → pc.child = some q) :
    ∀ q fd, s'.used q = false → s'.ofile (q, fd) ≠ none → ∃ t, (s'.thread t).child = some q := by
  intro q fd hq ho
  rw [hthread]
  rcases hsub q fd hq ho with h' | ⟨hq', ho'⟩
  · refine ⟨t, ?_⟩
    rw [update_self]
    exact h'
  · obtain ⟨u, hu⟩ := h q fd hq' ho'
    refine ⟨u, ?_⟩
    by_cases e : u = t
    · subst e
      rw [update_self]
      exact hchild q hq hu
    · rw [update_of_ne e]
      exact hu

theorem Owned.keep (h : Owned proc own ofile thread)
    (hpc : pc.masks = (thread t).masks) : Owned proc own ofile (update thread t pc) where
  agree := by
    intro x
    rcases h.agree x with h | ⟨hn, u, hp, hu⟩
    · exact .inl h
    · refine .inr ⟨hn, u, hp, ?_⟩
      by_cases e : u = t
      · subst e
        rw [update_self, hpc]
        exact hu
      · rw [update_of_ne e]
        exact hu
  masked := forall_update (F := fun u pc => ∀ fd, pc.masks = some fd → own (proc u, fd) = none)
    (by rw [hpc]; exact h.masked t) fun u _ => h.masked u

variable [DecidableEq P]

/-- The entry `x` changes with its reference. -/
theorem Owned.set {o : Option FileIx} (h : Owned proc own ofile thread)
    (hnew : pc.masks = none) (hold : ∀ fd, (thread t).masks = some fd → (proc t, fd) = x)
    (hothers : ∀ u, u ≠ t → ∀ fd, (thread u).masks = some fd → (proc u, fd) ≠ x) :
    Owned proc (update own x o) (update ofile x o)
      (update thread t pc) where
  agree := by
    intro y
    by_cases e : y = x
    · rw [e, update_self, update_self]
      exact .inl rfl
    · rw [update_of_ne e, update_of_ne e]
      rcases h.agree y with h | ⟨hn, u, hp, hu⟩
      · exact .inl h
      · refine .inr ⟨hn, u, hp, ?_⟩
        rw [update_of_ne]
        · exact hu
        · rintro rfl
          exact e ((Prod.ext hp.symm rfl : y = (proc u, y.2)).trans (hold y.2 hu))
  masked := by
    refine forall_update (F := fun u pc => ∀ fd, pc.masks = some fd →
      update own x o (proc u, fd) = none) (fun fd hfd => ?_) fun u hu fd hfd => ?_
    · rw [hnew] at hfd
      cases hfd
    · rw [update_of_ne (hothers u hu fd hfd)]
      exact h.masked u fd hfd

/-- `sys_dup` makes an entry. -/
theorem Owned.mask (h : Owned proc own ofile s.thread) (hx : ofile (proc t, fd) = none)
    (hold : (s.thread t).masks = none) (hnew : pc.masks = some fd) :
    Owned proc own (update ofile (proc t, fd) (some f))
      (update s.thread t pc) where
  agree := by
    intro y
    by_cases e : y = (proc t, fd)
    · rw [e]
      refine .inr ⟨h.empty hx, t, rfl, ?_⟩
      rw [update_self]
      exact hnew
    · rw [update_of_ne e]
      rcases h.agree y with h | ⟨hn, u, hp, hu⟩
      · exact .inl h
      · refine .inr ⟨hn, u, hp, ?_⟩
        rw [update_of_ne]
        · exact hu
        · rintro rfl
          rw [hold] at hu
          cases hu
  masked := by
    refine forall_update (F := fun u pc => ∀ fd, pc.masks = some fd → own (proc u, fd) = none)
      (fun e he => ?_) fun u _ => h.masked u
    rw [hnew] at he
    cases he
    exact h.empty hx

end

variable [DecidableEq P] [Fintype P] [Fintype T]

theorem Inv.fits_at (hi : Inv proc own s log) (hpc : s.thread t = pc) :
    Fits s.used s.ofile log (proc t) pc := hpc ▸ hi.fits t

theorem Inv.child_ne (hi : Inv proc own s log) {q : P} (ht : (s.thread t).busy = true)
    (hq : (s.thread u).child = some q) : q ≠ proc t := by
  rintro rfl
  have hu := (hi.fits u).child_unused hq
  rw [hi.calls.live t ht] at hu
  cases hu

variable [DecidableEq T]

/-- The call goes on with the references that it has. -/
theorem Inv.count_keep (hi : Inv proc own s log) (h : pc.files = (s.thread t).files) (g : FileIx) :
    s.ref g = total (one g) own + total (held g) (update s.thread t pc) := by
  have hg := hi.count g
  have hheld : held g pc = held g (s.thread t) := by rw [held, h, held]
  rw [total_update]
  omega

/-- The tables stay as they are; the references of the call change with those of the file. -/
theorem Inv.goto (hi : Inv proc own s log) (hthread : s'.thread = update s.thread t pc)
    (hofile : s'.ofile = s.ofile) (hused : s'.used = s.used) (hptable : s'.ptable = s.ptable)
    (hbusy : (s.thread t).busy = true) (heases : Eases (s.thread t) pc)
    (hchild : pc.child = (s.thread t).child) (hmasks : pc.masks = (s.thread t).masks)
    (hfits : Fits s.used s.ofile log (proc t) pc)
    (hcount : ∀ f, s'.ref f - s.ref f = held f pc - held f (s.thread t)) :
    Inv proc own s' log where
  calls := hi.calls.keep hthread hused hptable hbusy heases hchild
  unused := by
    refine unused_update hi.unused hthread (fun q fd hq ho => ?_) fun q _ hq => hchild ▸ hq
    rw [hused] at hq
    rw [hofile] at ho
    exact .inr ⟨hq, ho⟩
  fits := by
    rw [hused, hofile, hthread]
    exact forall_update (F := fun u => Fits s.used s.ofile log (proc u)) hfits fun u _ => hi.fits u
  owned := by
    rw [hofile, hthread]
    exact hi.owned.keep hmasks
  count := by
    intro f
    have hf := hi.count f
    have hd := hcount f
    rw [hthread, total_update]
    omega
  opened := by
    rw [hofile]
    exact hi.opened
  alternates := hi.alternates

/-- The empty entry `x` is filled with `f` by `fdalloc` or `fork`, and owned as `own'` says. -/
theorem Inv.fill (hi : Inv proc own s log) (hthread : s'.thread = update s.thread t pc)
    (hofile : s'.ofile = update s.ofile x (some f)) (hused : s'.used = s.used)
    (hptable : s'.ptable = s.ptable) (hbusy : (s.thread t).busy = true)
    (heases : Eases (s.thread t) pc) (hchild : pc.child = (s.thread t).child)
    (hx : s.used x.1 = true ∨ pc.child = some x.1)
    (hfits : Fits s.used s'.ofile log (proc t) pc)
    (hothers : ∀ u, u ≠ t → Fits s.used s'.ofile log (proc u) (s.thread u))
    (howned : Owned proc own' s'.ofile s'.thread)
    (hcount : ∀ g, s'.ref g = total (one g) own' + total (held g) s'.thread) :
    Inv proc own' s' log where
  calls := hi.calls.keep hthread hused hptable hbusy heases hchild
  unused := by
    refine unused_update hi.unused hthread (fun q e hq ho => ?_) fun q _ hq => hchild ▸ hq
    rw [hused] at hq
    rw [hofile] at ho
    by_cases h : (q, e) = x
    · have hpc := hx.resolve_left fun hx => by
        rw [← h, hq] at hx
        cases hx
      rw [← h] at hpc
      exact .inl hpc
    · rw [update_of_ne h] at ho
      exact .inr ⟨hq, ho⟩
  fits := by
    rw [hused, hthread]
    exact forall_update (F := fun u => Fits s.used s'.ofile log (proc u)) hfits hothers
  owned := howned
  count := hcount
  opened := by
    intro p e h
    rw [hofile]
    by_cases hx : (p, e) = x
    · rw [hx, update_self]
      exact Option.some_ne_none f
    · rw [update_of_ne hx]
      exact hi.opened p e h
  alternates := hi.alternates

end Xv6.Descriptors
