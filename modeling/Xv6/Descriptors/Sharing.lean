import Xv6.Descriptors.Tables

/-! Descriptors and reference counts under every step, and what two threads of one process do
to each other when nothing keeps them apart. -/

namespace Xv6.Descriptors

open Runs Totals Function

variable {P T : Type} {proc : T → P} {own own' ofile : P × Fd → Option FileIx} {s s' : State P T}
  {log : List (Event P)} {t u : T} {pc : Pc P} {f : FileIx} {fd : Fd} {x : P × Fd}

theorem Caller.conflicts_fill {k : Caller} {k' : Kind} (h : k.kind.conflicts k' = false) :
    Kind.fill.conflicts k' = false := by
  cases k <;> cases k' <;> first | rfl | exact h

variable {k : Kind}

/-- No other thread of the process is in `dup` beside a call that conflicts with it. -/
theorem CallsInv.masks_ne (hc : CallsInv proc s) (hk : (s.thread t).kind = some k)
    (hconf : k.conflicts .fill = true) (hu : u ≠ t) {e : Fd} (he : (s.thread u).masks = some e) :
    (proc u, e) ≠ (proc t, fd) := by
  intro h
  have := hc.apart t u k .fill hu (congrArg Prod.fst h) hk (Pc.kind_of_masks he)
  rw [hconf] at this
  cases this

/-- The entry takes over the reference, except from `sys_dup`, which has none to give. -/
theorem held_found (k : Caller) (g : FileIx) (hk : ∀ src, k ≠ .dup src) :
    held g (State.fdFound f fd k : Pc P) + one g (some f) = held g (.fdStore k f fd : Pc P) := by
  cases k with
  | dup src => exact absurd rfl (hk src)
  | «open» | pipe0 wf | pipe1 rf fd0 => rfl

theorem eases_found (k : Caller) : Eases (.fdStore k f fd : Pc P) (State.fdFound f fd k) := by
  cases k with
  | «open» | dup src | pipe0 wf => exact .of_eq rfl
  | pipe1 rf fd0 =>
    intro k' hk'
    cases hk'
    exact ⟨.pipe, rfl, fun x hx => by cases x <;> cases hx⟩

theorem ref_addRef (f g : FileIx) (d : Int) : (s.addRef f d).ref g = s.ref g + d * one g (some f) :=
  update_add_apply s.ref f g d

variable {pc0 : Pc P}

/-- `filealloc` and `filedup` give the call a reference. -/
theorem held_cons (h : pc.files = f :: pc0.files) (g : FileIx) :
    held g pc = held g pc0 + 1 * one g (some f) := by
  rw [held, h, held]
  show tally g pc0.files + one g (some f) = _
  omega

theorem eases_full (k : Caller) (n : Nat) : Eases (.fdTest k f n : Pc P) (State.fdFull f k) := by
  cases k with
  | «open» | dup src | pipe0 wf => exact .of_none rfl
  | pipe1 rf fd0 => exact .of_eq rfl

/-- The number of entries that point to `f`. -/
def slots [Fintype P] (s : State P T) (f : FileIx) : Nat :=
  (Finset.univ.filter fun x => s.ofile x = some f).card

theorem total_one [Fintype P] (s : State P T) (f : FileIx) : total (one f) s.ofile = slots s f := by
  unfold total one slots
  rw [Finset.sum_boole]

theorem total_held [Fintype T] (h : ∀ t, s.thread t = .out) (f : FileIx) :
    total (held f) s.thread = 0 := by
  refine total_eq_zero fun t => ?_
  rw [h t]
  rfl

variable [DecidableEq P] {q : P}

variable {fds : List Fd}

theorem openSince_gots {p : P} {e : Fd} : openSince (fds.map (.got p) ++ log) q e = true ↔
      (q = p ∧ e ∈ fds) ∨ openSince log q e = true := by
  induction fds with
  | nil => simp
  | cons c fds ih =>
    simp only [List.map_cons, List.cons_append, openSince, Bool.or_eq_true, decide_eq_true_eq, ih,
      List.mem_cons]
    constructor
    · rintro (⟨rfl, rfl⟩ | ⟨rfl, h⟩ | h)
      · exact .inl ⟨rfl, .inl rfl⟩
      · exact .inl ⟨rfl, .inr h⟩
      · exact .inr h
    · rintro (⟨rfl, rfl | h⟩ | h)
      · exact .inl ⟨rfl, rfl⟩
      · exact .inr (.inl ⟨rfl, h⟩)
      · exact .inr (.inr h)

theorem Alternates.gots {p : P} (h : Alternates log) (hnd : fds.Nodup)
    (hfds : ∀ fd ∈ fds, openSince log p fd = false) : Alternates (fds.map (.got p) ++ log) := by
  induction fds with
  | nil => exact h
  | cons c fds ih =>
    obtain ⟨hc, hnd⟩ := List.nodup_cons.1 hnd
    refine ⟨?_, ih hnd fun fd hfd => hfds fd (List.mem_cons_of_mem _ hfd)⟩
    refine Bool.eq_false_iff.2 fun hm => ?_
    rcases openSince_gots.1 hm with ⟨-, hm⟩ | hm
    · exact hc hm
    · rw [hfds c List.mem_cons_self] at hm
      cases hm

theorem fits_found {used : P → Bool} {p : P} {k : Caller} (hnone : ofile (p, fd) = none)
    (hopen : openSince log p fd = false) (hk : k.Fits ofile log p f) :
    Fits used (update ofile (p, fd) (some f)) log p (State.fdFound f fd k) := by
  have hself : update ofile (p, fd) (some f) (p, fd) = some f := update_self ..
  have hne : ∀ e g, ofile (p, e) = some g →
      e ≠ fd ∧ update ofile (p, fd) (some f) (p, e) = some g := by
    intro e g he
    have : e ≠ fd := by
      rintro rfl
      rw [hnone] at he
      cases he
    refine ⟨this, ?_⟩
    rw [update_of_ne fun h => this (congrArg Prod.snd h)]
    exact he
  cases k with
  | «open» =>
    refine ⟨List.nodup_singleton _, fun e he => ?_⟩
    rw [List.mem_singleton.1 he, hself]
    exact ⟨Option.some_ne_none f, hopen⟩
  | dup src =>
    obtain ⟨h1, h2⟩ := hne src f hk
    exact ⟨h2, hself, h1, hopen⟩
  | pipe0 wf => exact ⟨hself, hopen⟩
  | pipe1 rf fd0 =>
    obtain ⟨h1, h2⟩ := hne fd0 rf hk.1
    refine ⟨List.nodup_cons.2 ⟨fun h => h1 (List.mem_singleton.1 h), List.nodup_singleton _⟩,
      fun e he => ?_⟩
    rcases List.mem_cons.1 he with rfl | he
    · rw [h2]
      exact ⟨Option.some_ne_none rf, hk.2⟩
    · rw [List.mem_singleton.1 he, hself]
      exact ⟨Option.some_ne_none f, hopen⟩

variable [Fintype P] [Fintype T]

theorem State.Idle.inv (h : s.Idle) (href : ∀ f, s.ref f = slots s f) : Inv proc s.ofile s [] where
  calls := by
    refine ⟨fun t ht => ?_, fun t ht => ?_, fun t u k k' _ _ hk => ?_⟩
    · rw [h.thread t] at ht
      cases ht
    · rw [h.thread t] at ht
      exact absurd rfl ht
    · rw [h.thread t] at hk
      cases hk
  unused := fun q fd hq ho => absurd (h.unused q fd hq) ho
  fits := by
    intro t
    rw [h.thread t]
    trivial
  owned := by
    refine ⟨fun x => .inl rfl, fun t fd ht => ?_⟩
    rw [h.thread t] at ht
    cases ht
  count := by
    intro f
    rw [total_one, total_held h.thread, href]
    omega
  opened := fun p fd h => absurd h Bool.false_ne_true
  alternates := trivial

theorem Inv.ref_pos (hi : Inv proc own s log) (hx : s.ofile (proc t, fd) = some f) :
    0 < s.ref f := by
  -- an entry that has a reference: this one, or the one that `dup` copies
  obtain ⟨y, hy⟩ : ∃ y, own y = some f := by
    rcases hi.owned.agree (proc t, fd) with h | ⟨-, u, hp, hu⟩
    · exact ⟨_, h.trans hx⟩
    · obtain ⟨g, src, hpu⟩ := Pc.masks_some hu
      obtain ⟨hsrc, hfd, hne, -⟩ := hi.fits_at hpu
      have hp : proc u = proc t := hp
      rw [hp] at hsrc hfd
      have hg : g = f := Option.some.inj (hfd.symm.trans hx)
      rcases hi.owned.agree (proc t, src) with h | ⟨-, v, hpv, hv⟩
      · exact ⟨_, h.trans (hg ▸ hsrc)⟩
      · -- two threads in `dup`
        have hvu : v ≠ u := by
          rintro rfl
          rw [hu] at hv
          exact hne (Option.some.inj hv).symm
        have := hi.calls.apart u v .fill .fill hvu (hpv.trans hp.symm) (Pc.kind_of_masks hu)
          (Pc.kind_of_masks hv)
        cases this
  have hone : (1 : Int) ≤ total (one f) own := by
    have hle := le_total (w := one f) (f := own) (fun x => one_nonneg f _) y
    rw [hy, one, if_pos rfl] at hle
    exact hle
  have hheld : 0 ≤ total (held f) s.thread := by
    exact total_nonneg fun u => tally_nonneg f _
  have hcount := hi.count f
  omega

/-! ## Stores into the table -/

/-- The other threads, when `fdalloc` fills an entry of the process of `t`. -/
theorem Inv.fits_filled (hi : Inv proc own s log) {k : Caller}
    (hk : (s.thread t).kind = some k.kind) (hnone : s.ofile (proc t, fd) = none) (hu : u ≠ t) :
    Fits s.used (update s.ofile (proc t, fd) (some f)) log (proc u) (s.thread u) := by
  have hq : ∀ q, (s.thread u).child = some q → s.used q = s.used q ∧
      ∀ e, update s.ofile (proc t, fd) (some f) (q, e) = s.ofile (q, e) := by
    refine fun q hq => ⟨rfl, fun e => update_of_ne ?_ _ _⟩
    exact fun h => hi.child_ne (Pc.busy_of_kind hk) hq (congrArg Prod.fst h)
  by_cases hp : proc u = proc t
  · refine (hi.fits u).filled (fun k' hk' => ?_) (fun e g he => ?_) hq
    · exact Caller.conflicts_fill (hi.calls.apart t u _ k' hu hp hk hk')
    · rw [update_of_ne]
      · exact he
      · intro h
        rw [h, hnone] at he
        cases he
  · refine (hi.fits u).frame (fun e => update_of_ne ?_ _ _) (fun _ => rfl) hq
    exact fun h => hp (congrArg Prod.fst h)

variable [DecidableEq T]

theorem Inv.fdStore (hi : Inv proc own s log) {k : Caller} (hpc : s.thread t = .fdStore k f fd) :
    ∃ own', Inv proc own' ((s.store (proc t) fd (some f)).goto t (State.fdFound f fd k)) log := by
  have hkind : (s.thread t).kind = some k.kind := by rw [hpc]; rfl
  have hbusy : (s.thread t).busy = true := by rw [hpc]; rfl
  have hmasks : (s.thread t).masks = none := by rw [hpc]; rfl
  obtain ⟨hnone, hk⟩ := hi.fits_at hpc
  have hopen : openSince log (proc t) fd = false := by
    rw [Bool.eq_false_iff]
    exact fun h => hi.opened _ _ h hnone
  have hchild : (State.fdFound f fd k : Pc P).child = (s.thread t).child := by
    rw [hpc]
    cases k <;> rfl
  have heases : Eases (s.thread t) (State.fdFound f fd k) := by
    rw [hpc]
    exact eases_found k
  by_cases hdup : ∃ src, k = .dup src
  · -- the entry is there, its reference comes later
    obtain ⟨src, rfl⟩ := hdup
    refine ⟨own, hi.fill rfl rfl rfl rfl hbusy heases hchild (.inl (hi.calls.live t hbusy))
      (fits_found hnone hopen hk) (fun u hu => hi.fits_filled hkind hnone hu)
      (hi.owned.mask hnone hmasks rfl) (hi.count_keep (by rw [hpc]; rfl))⟩
  · have hne : ∀ src, k ≠ .dup src := fun src h => hdup ⟨src, h⟩
    refine ⟨update own (proc t, fd) (some f), hi.fill rfl rfl rfl rfl hbusy heases hchild
      (.inl (hi.calls.live t hbusy)) (fits_found hnone hopen hk)
      (fun u hu => hi.fits_filled hkind hnone hu) ?_ fun g => ?_⟩
    · refine hi.owned.set ?_ (fun e he => ?_) fun u hu e he => ?_
      · cases k with
        | dup src => exact absurd rfl (hne src)
        | _ => rfl
      · rw [hmasks] at he
        cases he
      · refine hi.calls.masks_ne hkind ?_ hu he
        cases k <;> rfl
    · have hg := hi.count g
      have hheld : held g (State.fdFound f fd k : Pc P) + one g (some f) =
          held g (.fdStore k f fd : Pc P) := held_found k g hne
      show s.ref g = total (one g) (update own (proc t, fd) (some f)) +
        total (held g) (update s.thread t (State.fdFound f fd k))
      rw [total_update, total_update, hi.owned.empty hnone, hpc]
      have hzero : one g none = 0 := rfl
      omega

theorem Inv.forkStore (hi : Inv proc own s log) (hpc : s.thread t = .forkStore q fd f) :
    Inv proc (update own (q, fd) (some f))
      ((s.store q fd (some f)).goto t (.forkTest q (fd + 1))) log := by
  have hbusy : (s.thread t).busy = true := by rw [hpc]; rfl
  have hchild : (s.thread t).child = some q := by rw [hpc]; rfl
  obtain ⟨hused, hnone⟩ := hi.fits_at hpc
  have hq : ∀ u, (s.thread u).busy = true → proc u ≠ q := by
    rintro u hu rfl
    rw [hi.calls.live u hu] at hused
    cases hused
  refine hi.fill rfl rfl rfl rfl hbusy (.of_eq (by rw [hpc]; rfl)) hchild.symm (.inr rfl) ?_
    (fun u hu => ?_) ?_ fun g => ?_
  · refine ⟨hused, fun j hj => ?_⟩
    show update s.ofile (q, fd) (some f) (q, j) = none
    rw [update_of_ne]
    · exact hnone j (by omega)
    · rintro h
      cases h
      omega
  · by_cases hb : (s.thread u).busy = true
    · refine (hi.fits u).frame (fun e => ?_) (fun _ => rfl) fun q' hq' => ?_
      · exact update_of_ne (fun h => hq u hb (congrArg Prod.fst h)) _ _
      · rw [hi.calls.child_none (by rw [hchild]; exact Option.some_ne_none q) hu] at hq'
        cases hq'
    · cases hpu : s.thread u with
      | out => trivial
      | _ =>
        rw [hpu] at hb
        exact absurd rfl hb
  · refine hi.owned.set rfl (fun e he => ?_) fun u hu e he => ?_
    · rw [hpc] at he
      cases he
    · exact fun h => hq u (Pc.busy_of_kind (Pc.kind_of_masks he)) (congrArg Prod.fst h)
  · have hg := hi.count g
    show s.ref g = total (one g) (update own (q, fd) (some f)) +
      total (held g) (update s.thread t (.forkTest q (fd + 1)))
    rw [total_update, total_update, hi.owned.empty (hnone fd (Nat.le_refl _)), hpc]
    have hzero : one g none = 0 := rfl
    have hheld : held g (.forkStore q fd f : Pc P) = 0 + one g (some f) := rfl
    have hheld' : held g (.forkTest q (fd + 1) : Pc P) = 0 := rfl
    omega

/-- The entry of `fd` is emptied, by `close` or a `pipe` that fails; the call now holds the
reference. -/
theorem Inv.clear (hi : Inv proc own s log) (hpc0 : s.thread t = pc0)
    {log' : List (Event P)} (hk : pc0.kind = some k) (hall : ∀ k', k.conflicts k' = true)
    (hchild : pc0.child = none) (hmasks : pc0.masks = none) (hpc : pc.kind = none)
    (hheld : ∀ g, held g pc = held g pc0 + one g (some f)) (hsome : s.ofile (proc t, fd) = some f)
    (hlog : ∀ p e, (p, e) ≠ (proc t, fd) → openSince log' p e = openSince log p e)
    (hfd : openSince log' (proc t) fd = false) (halt : Alternates log') :
    Inv proc (update own (proc t, fd) none) ((s.store (proc t) fd none).goto t pc) log' := by
  subst hpc0
  have hbusy := Pc.busy_of_kind hk
  have hnew : pc.child = none := by cases pc <;> first | rfl | cases hpc
  have hnomask : pc.masks = none := by cases pc <;> first | rfl | cases hpc
  -- no other thread of the process is in a call that concerns the table
  have hquiet : ∀ u, u ≠ t → proc u = proc t → (s.thread u).kind = none := by
    intro u hu hp
    cases hku : (s.thread u).kind with
    | none => rfl
    | some k' =>
      have := hi.calls.apart t u k k' hu hp hk hku
      rw [hall k'] at this
      cases this
  have hown : own (proc t, fd) = some f := by
    rcases hi.owned.agree (proc t, fd) with h | ⟨-, u, hp, hu⟩
    · rw [h, hsome]
    · have hut : u ≠ t := by
        rintro rfl
        rw [hmasks] at hu
        cases hu
      have := hquiet u hut hp
      rw [Pc.kind_of_masks hu] at this
      cases this
  refine ⟨hi.calls.keep rfl rfl rfl hbusy (.of_none hpc) (hnew.trans hchild.symm), ?_, ?_, ?_, ?_,
    ?_, halt⟩
  · refine unused_update hi.unused rfl (fun q e hq ho => .inr ⟨hq, fun h => ho ?_⟩) fun q _ hq => ?_
    · show update s.ofile (proc t, fd) none (q, e) = none
      by_cases hx : (q, e) = (proc t, fd)
      · rw [hx, update_self]
      · rw [update_of_ne hx]
        exact h
    · rw [hchild] at hq
      cases hq
  · refine forall_update (F := fun u => Fits s.used _ log' (proc u)) (fits_of_kind_none hpc)
      fun u hu => ?_
    by_cases hp : proc u = proc t
    · exact fits_of_kind_none (hquiet u hu hp)
    · refine (hi.fits u).frame (fun e => ?_) (fun e => ?_) fun q hq => ⟨rfl, fun e => ?_⟩
      · exact update_of_ne (fun h => hp (congrArg Prod.fst h)) _ _
      · exact hlog _ _ fun h => hp (congrArg Prod.fst h)
      · exact update_of_ne (fun h => hi.child_ne hbusy hq (congrArg Prod.fst h)) _ _
  · refine hi.owned.set hnomask (fun e he => ?_) fun u hu e he => ?_
    · rw [hmasks] at he
      cases he
    · exact hi.calls.masks_ne hk (hall _) hu he
  · intro g
    have hg := hi.count g
    have hh := hheld g
    show s.ref g = total (one g) (update own (proc t, fd) none) +
      total (held g) (update s.thread t pc)
    rw [total_update, total_update, hown]
    have hzero : one g none = 0 := rfl
    omega
  · intro p e h
    show update s.ofile (proc t, fd) none (p, e) ≠ none
    by_cases hx : (p, e) = (proc t, fd)
    · cases hx
      rw [hfd] at h
      cases h
    · rw [update_of_ne hx]
      rw [hlog p e hx] at h
      exact hi.opened p e h

/-! ## Returns -/

section

variable (hi : Inv proc own s log)

include hi

theorem Inv.ret (hpc : s.thread t = .ret fds) :
    Inv proc own (s.goto t .out) (fds.map (.got (proc t)) ++ log) := by
  have hbusy : (s.thread t).busy = true := by rw [hpc]; rfl
  obtain ⟨hnd, hfds⟩ := hi.fits_at hpc
  have hgone : Inv proc own (s.goto t .out) log := by
    refine hi.goto rfl rfl rfl rfl hbusy (.of_none rfl) (by rw [hpc]; rfl) (by rw [hpc]; rfl)
      trivial fun f => ?_
    rw [hpc, show (s.goto t .out).ref f = s.ref f from rfl]
    show s.ref f - s.ref f = 0 - 0
    omega
  refine ⟨hgone.calls, hgone.unused, ?_, hgone.owned, hgone.count, ?_, ?_⟩
  · refine forall_update (F := fun u => Fits s.used s.ofile _ (proc u)) trivial fun u hu => ?_
    by_cases hp : proc u = proc t
    · refine (hi.fits u).filled (fun k' hk' => ?_) (fun _ _ h => h) fun _ _ => ⟨rfl, fun _ => rfl⟩
      exact hi.calls.apart t u .fill k' hu hp (by rw [hpc]; rfl) hk'
    · refine (hi.fits u).frame (fun _ => rfl) (fun e => ?_) fun _ _ => ⟨rfl, fun _ => rfl⟩
      rw [Bool.eq_iff_iff, openSince_gots]
      exact ⟨fun h => h.resolve_left fun h => hp h.1, .inr⟩
  · intro p e h
    rcases openSince_gots.1 h with ⟨rfl, hm⟩ | h
    · exact (hfds e hm).1
    · exact hi.opened p e h
  · exact hi.alternates.gots hnd fun fd hfd => (hfds fd hfd).2

/-- `filedup` in `sys_dup`: the new entry gets its reference. -/
theorem Inv.dupRef {fd' : Fd} (hpc : s.thread t = .dupRef f fd fd') :
    Inv proc (update own (proc t, fd') (some f)) ((s.addRef f 1).goto t (.ret [fd'])) log := by
  have hbusy : (s.thread t).busy = true := by rw [hpc]; rfl
  have hkind : (s.thread t).kind = some .fill := by rw [hpc]; rfl
  obtain ⟨-, hsome, -, hopen⟩ := hi.fits_at hpc
  have hmask := hi.owned.masked t fd' (by rw [hpc]; rfl)
  have hset : update s.ofile (proc t, fd') (some f) = s.ofile := by
    rw [← hsome, update_eq_self]
  refine ⟨hi.calls.keep rfl rfl rfl hbusy (.of_eq hkind.symm) (by rw [hpc]; rfl), ?_, ?_, ?_, ?_,
    hi.opened, hi.alternates⟩
  · refine unused_update hi.unused rfl (fun q e hq ho => .inr ⟨hq, ho⟩) fun q _ hq => ?_
    rw [hpc] at hq
    cases hq
  · refine forall_update (F := fun u => Fits s.used s.ofile log (proc u)) ?_ fun u _ => hi.fits u
    refine ⟨List.nodup_singleton _, fun e he => ?_⟩
    rw [List.mem_singleton.1 he, hsome]
    exact ⟨Option.some_ne_none f, hopen⟩
  · have howned : Owned proc (update own (proc t, fd') (some f))
        (update s.ofile (proc t, fd') (some f))
        (update s.thread t (.ret [fd'])) := by
      refine hi.owned.set rfl (fun e he => ?_) fun u hu e he => ?_
      · rw [hpc] at he
        cases he
        rfl
      · exact hi.calls.masks_ne hkind rfl hu he
    rw [hset] at howned
    exact howned
  · intro g
    have hg := hi.count g
    show (s.addRef f 1).ref g = total (one g) _ + total (held g) (update s.thread t (.ret [fd']))
    rw [ref_addRef, total_update, total_update, hmask, hpc]
    have hzero : one g none = 0 := rfl
    have hheld : held g (.dupRef f fd fd' : Pc P) = held g (.ret [fd'] : Pc P) := rfl
    omega

/-! ## `fork` -/

/-- `fork` has taken `ptable.lock` and found a free entry. -/
theorem Inv.forkEnter (hpc : s.thread t = .forkEnter q)
    (hfree : s.ptable = none) (hq : s.used q = false) :
    Inv proc own { s.goto t (.forkTest q 0) with ptable := some t } log := by
  have hbusy : (s.thread t).busy = true := by rw [hpc]; rfl
  have hnone : ∀ u, (s.thread u).child = none := by
    intro u
    by_contra hc
    have := hi.calls.lock u hc
    rw [hfree] at this
    cases this
  have hempty : ∀ fd, s.ofile (q, fd) = none := by
    intro fd
    by_contra hc
    obtain ⟨u, hu⟩ := hi.unused q fd hq hc
    rw [hnone u] at hu
    cases hu
  refine ⟨hi.calls.moved rfl (fun _ h => h) (fun _ => hi.calls.live t hbusy)
    (hi.calls.excl (.of_eq (by rw [hpc]; rfl))) (fun _ => rfl) fun u _ h => absurd (hnone u) h, ?_,
    ?_, ?_, ?_, hi.opened, hi.alternates⟩
  · refine unused_update hi.unused rfl (fun q e hq ho => .inr ⟨hq, ho⟩) fun q' _ hq' => ?_
    rw [hnone t] at hq'
    cases hq'
  · exact forall_update (F := fun u => Fits s.used s.ofile log (proc u))
      ⟨hq, fun j _ => hempty j⟩ fun u _ => hi.fits u
  · exact hi.owned.keep (by rw [hpc]; rfl)
  · exact hi.count_keep (by rw [hpc]; rfl)

/-- The child is complete, and `fork` releases `ptable.lock`. -/
theorem Inv.forkLeave {i : Nat} (hpc : s.thread t = .forkTest q i) :
    Inv proc own { s.goto t .out with used := update s.used q true, ptable := none } log := by
  have hchild : (s.thread t).child = some q := by rw [hpc]; rfl
  have hnone : ∀ u, u ≠ t → (s.thread u).child = none :=
    fun u hu => hi.calls.child_none (by rw [hchild]; exact Option.some_ne_none q) hu
  have hused : ∀ p, update s.used q true p = false → p ≠ q ∧ s.used p = false := by
    intro p hp
    have hne : p ≠ q := by
      rintro rfl
      rw [update_self] at hp
      cases hp
    rw [update_of_ne hne] at hp
    exact ⟨hne, hp⟩
  refine ⟨hi.calls.moved rfl (fun p hp => ?_) (fun h => absurd h Bool.false_ne_true)
    (hi.calls.excl (.of_none rfl)) (fun h => absurd rfl h) fun u hu h => absurd (hnone u hu) h, ?_,
    ?_, ?_, ?_, hi.opened, hi.alternates⟩
  · refine Bool.of_not_eq_false fun h => ?_
    rw [(hused p h).2] at hp
    cases hp
  · refine unused_update hi.unused rfl (fun q' e hq' ho => .inr ⟨(hused q' hq').2, ho⟩)
      fun q' hq' h => ?_
    rw [hchild] at h
    exact absurd (Option.some.inj h).symm (hused q' hq').1
  · refine forall_update (F := fun u => Fits (update s.used q true) s.ofile log (proc u))
      trivial fun u hu => ?_
    refine (hi.fits u).frame (fun _ => rfl) (fun _ => rfl) fun q' hq' => ?_
    rw [hnone u hu] at hq'
    cases hq'
  · exact hi.owned.keep (by rw [hpc]; rfl)
  · exact hi.count_keep (by rw [hpc]; rfl)

/-! ## All steps -/

theorem Inv.move (hpc : s.thread t = pc0) (hfits : Fits s.used s.ofile log (proc t) pc)
    (heases : Eases pc0 pc := by exact .of_eq rfl) (hfiles : pc.files = pc0.files := by rfl)
    (hchild : pc.child = pc0.child := by rfl) (hmasks : pc.masks = pc0.masks := by rfl)
    (hbusy : pc0.busy = true := by rfl) : Inv proc own (s.goto t pc) log := by
  subst hpc
  refine hi.goto rfl rfl rfl rfl hbusy heases hchild hmasks hfits fun f => ?_
  rw [held, held, hfiles]
  show s.ref f - s.ref f = _
  omega

/-- A step in which the call gets `d` references to `f`. -/
theorem Inv.move_ref {d : Int} (hpc : s.thread t = pc0)
    (hheld : ∀ g, held g pc = held g pc0 + d * one g (some f))
    (hfits : Fits s.used s.ofile log (proc t) pc) (heases : Eases pc0 pc := by exact .of_eq rfl)
    (hchild : pc.child = pc0.child := by rfl) (hmasks : pc.masks = pc0.masks := by rfl)
    (hbusy : pc0.busy = true := by rfl) : Inv proc own ((s.addRef f d).goto t pc) log := by
  subst hpc
  refine hi.goto rfl rfl rfl rfl hbusy heases hchild hmasks hfits fun g => ?_
  rw [hheld g, show ((s.addRef f d).goto t pc).ref g = (s.addRef f d).ref g from rfl, ref_addRef]
  omega

end

variable {e : List (Event P)}

theorem Inv.run {ok : Bool} (hi : Inv proc own s log)
    (h : s.run (proc t) t ok = some (s', e)) : ∃ own', Inv proc own' s' (e ++ log) := by
  have hfits := hi.fits t
  unfold State.run at h
  split at h
  case h_1 => cases h
  case h_2 op fd hpc =>
    split at h
    case h_1 =>
      cases h
      exact ⟨own, hi.move hpc trivial (.of_none rfl)⟩
    case h_2 f hf | h_3 f hf | h_4 f hf =>
      cases h
      exact ⟨own, hi.move hpc hf⟩
  case h_3 hpc | h_4 hpc =>
    split at h
    · cases h
      exact ⟨own, hi.move_ref hpc (held_cons rfl) trivial⟩
    · cases h
      exact ⟨own, hi.move hpc trivial (.of_none rfl)⟩
  case h_5 rf hpc =>
    split at h
    · rename_i wf _
      cases h
      refine ⟨own, hi.move_ref hpc (fun g => ?_) trivial⟩
      show 0 + one g (some wf) + one g (some rf) = 0 + one g (some rf) + 1 * one g (some wf)
      omega
    · cases h
      exact ⟨own, hi.move hpc trivial (.of_none rfl)⟩
  case h_6 rf wf hpc =>
    cases h
    cases ok with
    | true => exact ⟨own, hi.move hpc trivial⟩
    | false => exact ⟨own, hi.move hpc trivial (.of_none rfl)⟩
  case h_7 k f n hpc =>
    rw [hpc] at hfits
    split at h
    · split at h
      · rename_i hnone
        cases h
        exact ⟨own, hi.move hpc ⟨hnone, hfits⟩⟩
      · cases h
        exact ⟨own, hi.move hpc hfits⟩
    · cases h
      refine ⟨own, hi.move hpc ?_ (eases_full k n) ?_ ?_ ?_⟩
      · cases k with
        | pipe1 rf fd0 => exact hfits
        | _ => trivial
      · cases k <;> rfl
      · cases k <;> rfl
      · cases k <;> rfl
  case h_8 k f fd hpc =>
    cases h
    exact hi.fdStore hpc
  case h_9 f fd fd' hpc =>
    split at h
    · cases h
    · cases h
      exact ⟨_, hi.dupRef hpc⟩
  case h_10 rf wf fd0 hpc =>
    rw [hpc] at hfits
    cases h
    exact ⟨_, hi.clear hpc (k := .pipe) rfl (fun k' => by cases k' <;> rfl) rfl rfl rfl
      (fun _ => rfl) hfits.1 (fun _ _ _ => rfl) hfits.2 hi.alternates⟩
  case h_11 fds hpc =>
    cases h
    exact ⟨own, hi.ret hpc⟩
  case h_12 fd f hpc =>
    rw [hpc] at hfits
    cases h
    refine ⟨_, hi.clear hpc (k := .close) rfl (fun k' => by cases k' <;> rfl) rfl rfl rfl
      (fun _ => rfl) hfits (fun p e hne => ?_) (if_pos ⟨rfl, rfl⟩) hi.alternates⟩
    exact openSince_closed_ne fun h => hne (Prod.ext h.1.symm h.2.symm)
  case h_13 hpc | h_15 fd f hpc =>
    cases h
    exact ⟨own, hi.move hpc trivial (.of_none rfl)⟩
  case h_14 f fs hpc =>
    split at h
    · cases h
    · cases h
      refine ⟨own, hi.move_ref hpc (fun g => ?_) trivial (.of_none rfl)⟩
      show tally g fs = tally g fs + one g (some f) + -1 * one g (some f)
      omega
  case h_16 q hpc =>
    split at h
    · rename_i hq
      cases h
      exact ⟨own, hi.forkEnter hpc hq.1 hq.2⟩
    · cases h
  case h_17 q i hpc =>
    rw [hpc] at hfits
    split at h
    · split at h
      · cases h
        exact ⟨own, hi.move hpc ⟨hfits.1, fun j hj => hfits.2 j (by omega)⟩⟩
      · cases h
        exact ⟨own, hi.move hpc hfits⟩
    · cases h
      exact ⟨own, hi.forkLeave hpc⟩
  case h_18 q i hpc =>
    rw [hpc] at hfits
    obtain ⟨f, hf, he⟩ := Option.map_eq_some_iff.1 h
    cases he
    exact ⟨own, hi.move hpc hfits⟩
  case h_19 q i f hpc =>
    rw [hpc] at hfits
    split at h
    · cases h
    · cases h
      exact ⟨own, hi.move_ref hpc (held_cons rfl) hfits⟩
  case h_20 q i f hpc =>
    cases h
    exact ⟨_, hi.forkStore hpc⟩

theorem Inv.enter (hi : Inv proc own s log) (h : s.enter (proc t) t pc = some (s', e))
    (hexcl : ∀ u k', u ≠ t → proc u = proc t → (s.thread u).kind = some k' →
      k.conflicts k' = false) (hfits : Fits s.used s.ofile log (proc t) pc)
    (hpc : pc.kind = some k := by rfl) (hchild : pc.child = none := by rfl)
    (hmasks : pc.masks = none := by rfl) (hfiles : pc.files = [] := by rfl) :
    Inv proc own s' (e ++ log) := by
  obtain ⟨⟨hout, hused⟩, he⟩ := Option.ite_none_right_eq_some.1 h
  cases he
  refine ⟨hi.calls.moved rfl (fun _ h => h) (fun _ => hused) (fun k1 hk1 => ?_)
    (fun h => absurd hchild h) fun u _ => hi.calls.lock u, ?_, ?_, ?_, ?_, hi.opened,
    hi.alternates⟩
  · cases hpc.symm.trans hk1
    exact hexcl
  · refine unused_update hi.unused rfl (fun q fd hq ho => .inr ⟨hq, ho⟩) fun q _ hq => ?_
    rw [hout] at hq
    cases hq
  · exact forall_update (F := fun u => Fits s.used s.ofile log (proc u)) hfits fun u _ => hi.fits u
  · exact hi.owned.keep (by rw [hout, hmasks]; rfl)
  · exact hi.count_keep (by rw [hout, hfiles]; rfl)

theorem Inv.step {l : Label P T} (hi : Inv proc own s log)
    (hexcl : ∀ t k, l.kind = some (t, k) → ∀ u k', u ≠ t → proc u = proc t →
      (s.thread u).kind = some k' → k.conflicts k' = false)
    (h : s.step proc l = some (s', e)) : ∃ own', Inv proc own' s' (e ++ log) := by
  cases l with
  | «open» t => exact ⟨own, hi.enter h (hexcl t .fill rfl) trivial⟩
  | pipe t => exact ⟨own, hi.enter h (hexcl t .pipe rfl) trivial⟩
  | lookup t op fd =>
    simp only [State.step] at h
    split at h
    · cases op with
      | dup => exact ⟨own, hi.enter h (hexcl t .fill rfl) trivial⟩
      | close => exact ⟨own, hi.enter h (hexcl t .close rfl) trivial⟩
      | use => exact ⟨own, hi.enter h (hexcl t .use rfl) trivial⟩
    · cases h
  | fork t q => exact ⟨own, hi.enter h (hexcl t .fork rfl) trivial⟩
  | run t ok => exact hi.run h

/-- **Descriptor tables.** When a call begins in a process only while no conflicting call is
under way there (guard `Exclusive`): in every state in which no call is in progress each file's
`ref` is the number of entries that point to it, between two returns of a descriptor in one
process it is closed, and a file that is being read or written has a reference. -/
theorem descriptor_tables (proc : T → P) (s0 : State P T) (h0 : s0.Idle)
    (href : ∀ f, s0.ref f = slots s0 f) (s : State P T) (log : List (Event P))
    (hr : Run (recording (State.step proc)) (Exclusive proc) (s0, []) (s, log)) :
    ((∀ t, s.thread t = .out) → ∀ f, s.ref f = slots s f) ∧
      (∀ l1 l2 l3 p fd, log = l1 ++ .got p fd :: (l2 ++ .got p fd :: l3) → .closed p fd ∈ l2) ∧
      ∀ t fd f, s.thread t = .inUse fd f → 0 < s.ref f := by
  obtain ⟨own, hi⟩ : ∃ own, Inv proc own s log := by
    refine hr.invariant (I := fun x => ∃ own, Inv proc own x.1 x.2) ⟨_, h0.inv href⟩ ?_
    rintro ⟨a, la⟩ l ⟨b, lb⟩ ⟨own, hi⟩ hs hg
    obtain ⟨e, he, hb⟩ := recording_some hs
    obtain ⟨own', hi'⟩ := hi.step hg he
    have hb : lb = e ++ la := hb
    rw [hb]
    exact ⟨own', hi'⟩
  refine ⟨fun hout f => ?_, fun l1 l2 l3 p fd hlog => ?_, fun t fd f ht => ?_⟩
  · have hown : own = s.ofile := by
      funext x
      rcases hi.owned.agree x with h | ⟨-, t, -, ht⟩
      · exact h
      · rw [hout t] at ht
        cases ht
    have hf := hi.count f
    rw [hown, total_one, total_held hout] at hf
    omega
  · have halt := hi.alternates
    rw [hlog] at halt
    exact halt.closed_between
  · exact hi.ref_pos (hi.fits_at ht)

/-- The threads are those of one process, with an empty table. -/
def oneProcess : State (Fin 1) (Fin 2) where
  ofile := fun _ => none
  ref := fun _ => 0
  used := fun _ => true
  ptable := none
  thread := fun _ => .out

/-- The state and the history after the steps `ls` of that process. -/
abbrev ran (ls : List (Label (Fin 1) (Fin 2))) : State (Fin 1) (Fin 2) × List (Event (Fin 1)) :=
  final (recording (State.step fun _ => 0)) (oneProcess, []) ls

theorem oneProcess_idle : oneProcess.Idle := ⟨rfl, fun _ => rfl, fun _ _ _ => rfl⟩

theorem oneProcess_ref (f : FileIx) : oneProcess.ref f = slots oneProcess f := by
  simp [oneProcess, slots]

/-- Thread 0 opens a file; thread 1 reads it while thread 0 calls `dup`. -/
def readBesideDup : List (Label (Fin 1) (Fin 2)) :=
  [.open 0] ++ List.replicate 4 (.run 0 true) ++ [.lookup 1 .use 0, .run 1 true] ++
    [.lookup 0 .dup 0] ++ List.replicate 6 (.run 0 true) ++ [.run 1 true]

def isExclusive (s : State (Fin 1) (Fin 2) × List (Event (Fin 1))) (l : Label (Fin 1) (Fin 2)) :
    Bool :=
  match l.kind with
  | some (t, k) => (List.finRange 2).all fun u =>
      u = t ∨ ((s.1.thread u).kind.all fun k' => k.conflicts k' = false)
  | none => true

theorem isExclusive_guard {s s' : State (Fin 1) (Fin 2) × List (Event (Fin 1))}
    {l : Label (Fin 1) (Fin 2)} (h : isExclusive s l) : Exclusive (fun _ => 0) s l s' := by
  intro t k hl u k' hu _ hk'
  simp only [isExclusive, hl, List.all_eq_true, decide_eq_true_eq] at h
  have := (h u (List.mem_finRange u)).resolve_left hu
  rw [hk'] at this
  simpa using this

theorem descriptor_tables_readBesideDup :
    (ran readBesideDup).2 = [.got 0 1, .got 0 0] ∧ (ran readBesideDup).1.ref 0 = 2 ∧
      slots (ran readBesideDup).1 0 = 2 ∧ 0 < (ran (readBesideDup.take 13)).1.ref 0 := by
  have hquiet := (descriptor_tables (fun _ => 0) oneProcess oneProcess_idle oneProcess_ref
    (ran readBesideDup).1 (ran readBesideDup).2
    (show Run _ _ _ (ran readBesideDup) from run_final isExclusive_guard)).1 (by decide +kernel) 0
  have href : (ran readBesideDup).1.ref 0 = 2 := by decide +kernel
  refine ⟨by decide +kernel, href, ?_, ?_⟩
  · rw [href] at hquiet
    exact_mod_cast hquiet.symm
  · exact (descriptor_tables (fun _ => 0) oneProcess oneProcess_idle oneProcess_ref
      (ran (readBesideDup.take 13)).1 (ran (readBesideDup.take 13)).2
      (show Run _ _ _ (ran (readBesideDup.take 13)) from run_final isExclusive_guard)).2.2
      1 0 0 (by decide +kernel)

/-- Both threads call `open`, and both find entry 0 free. -/
def openTwice : List (Label (Fin 1) (Fin 2)) :=
  [.open 0, .open 1, .run 0 true, .run 1 true, .run 0 true, .run 1 true, .run 0 true,
    .run 1 true, .run 0 true, .run 1 true]

/-- Thread 0 opens a file and reads it, and thread 1 closes it. -/
def closeBesideRead : List (Label (Fin 1) (Fin 2)) :=
  [.open 0] ++ List.replicate 4 (.run 0 true) ++ [.lookup 0 .use 0, .run 0 true] ++
    [.lookup 1 .close 0, .run 1 true, .run 1 true, .run 1 true]

/-- Two calls return descriptor 0, the reference of one file is lost; and a file is closed that
is being read. -/
theorem descriptor_tables_shared :
    Run (recording (State.step fun _ => 0)) free (oneProcess, []) (ran openTwice) ∧
      (∀ t, (ran openTwice).1.thread t = .out) ∧ (ran openTwice).2 = [.got 0 0, .got 0 0] ∧
      (ran openTwice).1.ref 0 = 1 ∧ (∀ x, (ran openTwice).1.ofile x ≠ some 0) ∧
      Run (recording (State.step fun _ => 0)) free (oneProcess, []) (ran closeBesideRead) ∧
      (ran closeBesideRead).1.thread 0 = .inUse 0 0 ∧ (ran closeBesideRead).1.ref 0 = 0 :=
  ⟨run_free, by decide +kernel, by decide +kernel, by decide +kernel,
    by decide +kernel, run_free, by decide +kernel⟩

end Xv6.Descriptors
