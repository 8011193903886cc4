import Xv6.Cwd.Model
import Xv6.Lib.Totals

/-! Reference counts of the inode cache in the presence of `chdir`. A reference is owned by the
`cwd` of a process, by an open file or by a call in progress. `sys_chdir` drops the reference of
`cwd` before it stores the new one, so that `cwd` owns nothing in between; two threads of a
process that are both there drop it twice. -/

namespace Xv6.Cwd

open Runs Totals Function

variable {I P T : Type}

/-- The references that follow-up work of an `iput` holds. -/
def Next.refs : Next → List Entry
  | .ret => []
  | .loop _ _ ip | .store ip => [ip]

/-- The references that an `iput(ip)` holds: `sys_chdir` calls it for the one of `cwd`. -/
def Next.iputRefs (ip : Entry) : Next → List Entry
  | .store new => [new]
  | k => ip :: k.refs

/-- The references that a call holds. -/
def Pc.refs : Pc P → List Entry
  | .loop _ _ ip | .look _ _ ip | .got _ ip | .isDir ip | .oldCwd ip | .store ip
  | .forkStore _ ip => [ip]
  | .found _ _ ip next => [ip, next]
  | .iput ip k | .iputHeld ip k | .iputDrop ip k => k.iputRefs ip
  | _ => []

def held (e : Entry) (pc : Pc P) : Int := tally e pc.refs

/-- `sys_chdir` replaces `cwd` once this is done. -/
def Next.replaces : Next → Bool
  | .store _ => true
  | _ => false

/-- Between the read of `curproc->cwd` for `iput` and the store of the new directory. -/
def Pc.replaces : Pc P → Bool
  | .store _ => true
  | .iput _ k | .iputHeld _ k | .iputDrop _ k => k.replaces
  | _ => false

/-- The reference of `cwd` is dropped and the new directory not stored. -/
def Pc.between : Pc P → Bool
  | .store _ => true
  | _ => false

def Pc.busy : Pc P → Bool
  | .out => false
  | _ => true

/-- The child that a `fork` past `acquire` makes. -/
def Pc.child : Pc P → Option P
  | .forkRead q | .forkDup q _ | .forkStore q _ => some q
  | _ => none

/-- No thread reads `cwd` in order to drop it while another one of the process is replacing
it. -/
def Apart (proc : T → P) : Guard (State I P T) (Label I P T) := fun s l _ =>
  ∀ t ok i ip, l = .run t ok i → s.thread t = .oldCwd ip →
    ∀ u, proc u = proc t → (s.thread u).replaces = false

/-! ## The invariant -/

/-- `sys_chdir` calls `iput(ip)` for the reference of `cwd`. -/
def Next.Fits (own : P → Option Entry) (p : P) (ip : Entry) : Next → Prop
  | .store _ => own p = some ip
  | _ => True

/-- What a thread of process `p` knows: `own` are the references of the current directories. -/
def Fits (used : P → Bool) (own : P → Option Entry) (p : P) : Pc P → Prop
  | .iput ip k | .iputHeld ip k | .iputDrop ip k => k.Fits own p ip
  | .store _ => own p = none
  | .forkRead q | .forkDup q _ | .forkStore q _ => used q = false
  | _ => True

structure Inv [Fintype P] [Fintype T] (proc : T → P) (own : P → Option Entry) (s : State I P T) :
    Prop where
  live : ∀ t, (s.thread t).busy = true → s.used (proc t) = true
  lock : ∀ t, (s.thread t).child ≠ none → s.ptable = some t
  apart : ∀ t u, (s.thread t).replaces = true → (s.thread u).replaces = true → proc u = proc t →
    u = t
  unused : ∀ p, s.used p = false → s.cwd p = none
  fits : ∀ t, Fits s.used own (proc t) (s.thread t)
  agree : ∀ p, own p = s.cwd p ∨ ∃ t, proc t = p ∧ (s.thread t).between = true
  count : ∀ e, s.ref e = total (one e) own + s.files e + total (held e) s.thread

/-- `t` goes on from here to `pc` in the same call and outside the replacement of `cwd`. -/
structure Pc.Stays (pc0 pc : Pc P) : Prop where
  replaces : pc.replaces = pc0.replaces := by rfl
  between : pc0.between = false := by rfl
  child : pc.child = pc0.child := by rfl

variable {proc : T → P} {own own' : P → Option Entry} {s s' : State I P T} {t u : T}
  {pc pc0 : Pc P} {p : P} {e : Entry}

theorem Pc.replaces_of_between (h : pc.between = true) : pc.replaces = true := by
  cases pc <;> first | rfl | cases h

theorem Pc.busy_of_replaces (h : pc.replaces = true) : pc.busy = true := by
  cases pc <;> first | rfl | cases h

theorem Fits.child_unused {used : P → Bool} {q : P} (h : Fits used own p pc)
    (hq : pc.child = some q) : used q = false := by
  cases pc <;> first | cases hq; exact h | cases hq

/-- A thread that is not replacing `cwd` knows nothing of its reference. -/
theorem Fits.frame {used used' : P → Bool} (h : Fits used own p pc)
    (hown : pc.replaces = true → own' p = own p)
    (hused : ∀ q, pc.child = some q → used' q = used q) : Fits used' own' p pc := by
  cases pc with
  | store ip => exact (hown rfl).trans h
  | iput ip k | iputHeld ip k | iputDrop ip k =>
    cases k <;> first | trivial | exact (hown rfl).trans h
  | forkRead q | forkDup q e | forkStore q e => exact (hused q rfl).trans h
  | _ => trivial

theorem iget_eq [DecidableEq I] {i : I} {x : State I P T × Entry} (h : s.iget i = some x) :
    ∃ inum, x.1 = { s.addRef x.2 1 with inum := inum } := by
  unfold State.iget at h
  split at h
  · cases h
    exact ⟨s.inum, rfl⟩
  · split at h
    · next e he =>
      cases h
      have h0 : s.ref e = 0 := by simpa using List.find?_some he
      refine ⟨update s.inum e i, ?_⟩
      simp [State.addRef, h0]
    · cases h

section

variable [DecidableEq T]

theorem ilock_eq (h : s.ilock t e pc = some s') : s' = (s.setLock e (some t)).goto t pc := by
  unfold State.ilock at h
  split at h
  · cases h
  · split at h
    · cases h
      rfl
    · cases h

theorem iunlock_eq (h : s.iunlock t e pc = some s') : s' = (s.setLock e none).goto t pc := by
  unfold State.iunlock at h
  split at h
  · cases h
  · cases h
    rfl

end

/-- A file is opened on `ip`. -/
theorem files_update_add (files : Entry → Nat) (ip e : Entry) :
    ((update files ip (files ip + 1) e : Nat) : Int) = files e + one e (some ip) := by
  by_cases h : e = ip
  · subst h
    simp [one]
  · simp [one, h, Ne.symm h]

/-- The last descriptor of a file on `ip` is closed. -/
theorem files_update_sub {files : Entry → Nat} {ip : Entry} (hpos : 0 < files ip) (e : Entry) :
    ((update files ip (files ip - 1) e : Nat) : Int) = files e - one e (some ip) := by
  by_cases h : e = ip
  · subst h
    simp only [update_self, one, if_true]
    omega
  · simp [one, h, Ne.symm h]

/-- The number of processes whose current directory is `e`. -/
def dirs [Fintype P] (s : State I P T) (e : Entry) : Nat :=
  (Finset.univ.filter fun p => s.cwd p = some e).card

theorem total_cwd [Fintype P] (s : State I P T) (e : Entry) : total (one e) s.cwd = dirs s e := by
  unfold total one dirs
  rw [Finset.sum_boole]

theorem total_held [Fintype T] (h : ∀ t, s.thread t = .out) (e : Entry) :
    total (held e) s.thread = 0 := by
  refine total_eq_zero fun t => ?_
  rw [h t]
  rfl

section

variable [Fintype P] [Fintype T]

/-- No call is in progress, and free entries of `ptable` have no directory. -/
structure State.Idle (s : State I P T) : Prop where
  thread : ∀ t, s.thread t = .out
  unused : ∀ p, s.used p = false → s.cwd p = none

theorem State.Idle.inv (h : s.Idle) (href : ∀ e, s.ref e = dirs s e + s.files e) :
    Inv proc s.cwd s where
  live := by
    intro t ht
    rw [h.thread t] at ht
    cases ht
  lock := by
    intro t ht
    rw [h.thread t] at ht
    exact absurd rfl ht
  apart := by
    intro t u ht
    rw [h.thread t] at ht
    cases ht
  unused := h.unused
  fits := by
    intro t
    rw [h.thread t]
    trivial
  agree := fun p => .inl rfl
  count := by
    intro e
    rw [total_cwd, total_held h.thread, href]
    omega

section

variable (hi : Inv proc own s)

include hi

theorem Inv.child_none (ht : (s.thread t).child ≠ none) (hu : u ≠ t) :
    (s.thread u).child = none := by
  by_contra h
  exact hu (Option.some.inj ((hi.lock u h).symm.trans (hi.lock t ht)))

/-- Outside a replacement of `cwd` its reference is owned. -/
theorem Inv.own_eq (h : ∀ u, proc u = p → (s.thread u).replaces = false) : own p = s.cwd p := by
  rcases hi.agree p with h' | ⟨u, hp, hu⟩
  · exact h'
  · have := Pc.replaces_of_between hu
    rw [h u hp] at this
    cases this

theorem Inv.unused_replaces (hq : s.used p = false) (hu : proc u = p) :
    (s.thread u).replaces = false := by
  by_contra h
  have := hi.live u (Pc.busy_of_replaces (Bool.not_eq_false _ ▸ h))
  rw [hu, hq] at this
  cases this

/-- While one thread replaces `cwd` no other thread of the process does. -/
theorem Inv.others (ht : (s.thread t).replaces = true) (hu : u ≠ t)
    (hp : proc u = proc t) : (s.thread u).replaces = false := by
  by_contra h
  exact hu (hi.apart t u ht (by simpa using h) hp)

/-- A reference that is accounted for, seen from a thread that stays where it is. -/
theorem Inv.agree_ne (ht : (s.thread t).between = false) (p : P) :
    own p = s.cwd p ∨ ∃ u, u ≠ t ∧ proc u = p ∧ (s.thread u).between = true := by
  refine (hi.agree p).imp_right ?_
  rintro ⟨u, hp, hu⟩
  refine ⟨u, ?_, hp, hu⟩
  rintro rfl
  rw [ht] at hu
  cases hu

/-- A thread that is not replacing the `cwd` of `p`, when its reference changes. -/
theorem Inv.fits_update [DecidableEq P] {used' : P → Bool} {o : Option Entry}
    (hu : proc u = p → (s.thread u).replaces = false)
    (hused : ∀ q, (s.thread u).child = some q → used' q = s.used q) :
    Fits used' (update own p o) (proc u) (s.thread u) := by
  refine (hi.fits u).frame (fun hr => update_of_ne (fun hp => ?_) _ _) hused
  rw [hu hp] at hr
  cases hr

end

variable [DecidableEq T]

/-- `t` goes on to `pc`. What has to be said of the other threads is what they know. -/
theorem Inv.move (hi : Inv proc own s) (hthread : s'.thread = update s.thread t pc)
    (hlive : s.used (proc t) = true) (hused : ∀ p, s.used p = true → s'.used p = true)
    (hlock : pc.child ≠ none → s'.ptable = some t)
    (hlocks : ∀ u, u ≠ t → (s.thread u).child ≠ none → s'.ptable = some u)
    (hreplaces : pc.replaces = true → ∀ u, u ≠ t → proc u = proc t →
      (s.thread u).replaces = false)
    (hunused : ∀ p, s'.used p = false → s'.cwd p = none)
    (hfits : Fits s'.used own' (proc t) pc)
    (hothers : ∀ u, u ≠ t → Fits s'.used own' (proc u) (s.thread u))
    (hagree : ∀ p, own' p = s'.cwd p ∨ proc t = p ∧ pc.between = true ∨
      ∃ u, u ≠ t ∧ proc u = p ∧ (s.thread u).between = true)
    (hcount : ∀ e, s'.ref e + held e (s.thread t) + s.files e + total (one e) own =
      s.ref e + held e pc + s'.files e + total (one e) own') :
    Inv proc own' s' where
  live := by
    rw [hthread]
    exact (forall_update_iff s.thread fun u pc => pc.busy = true → _).2
      ⟨fun _ => hused _ hlive, fun u _ h => hused _ (hi.live u h)⟩
  lock := by
    rw [hthread]
    exact (forall_update_iff s.thread fun u pc => pc.child ≠ none → _).2 ⟨hlock, hlocks⟩
  apart := by
    rw [hthread]
    intro u v hu hv hp
    by_contra hne
    by_cases hut : u = t
    · subst hut
      rw [update_self] at hu
      rw [update_of_ne hne, hreplaces hu v hne hp] at hv
      cases hv
    · rw [update_of_ne hut] at hu
      by_cases hvt : v = t
      · subst hvt
        rw [update_self] at hv
        rw [hreplaces hv u hut hp.symm] at hu
        cases hu
      · rw [update_of_ne hvt] at hv
        exact hne (hi.apart u v hu hv hp)
  unused := hunused
  fits := by
    rw [hthread]
    exact (forall_update_iff s.thread fun u => Fits s'.used own' (proc u)).2 ⟨hfits, hothers⟩
  agree := by
    intro p
    rw [hthread]
    rcases hagree p with h | ⟨hp, h⟩ | ⟨u, hu, hp, h⟩
    · exact .inl h
    · refine .inr ⟨t, hp, ?_⟩
      rw [update_self]
      exact h
    · refine .inr ⟨u, hp, ?_⟩
      rw [update_of_ne hu]
      exact h
  count := by
    intro e
    have he := hi.count e
    have hd := hcount e
    rw [hthread, total_update]
    omega

/-- `t` goes on without a change to `cwd` and to the processes; the references of the call change
with the count. -/
theorem Inv.goto (hi : Inv proc own s) (ht : s.thread t = pc0) (hstays : pc0.Stays pc)
    (hlive : s.used (proc t) = true) (hthread : s'.thread = update s.thread t pc)
    (hfits : Fits s.used own (proc t) pc)
    (hcount : ∀ e, s'.ref e + held e pc0 + s.files e = s.ref e + held e pc + s'.files e)
    (hcwd : s'.cwd = s.cwd := by rfl) (hused : s'.used = s.used := by rfl)
    (hptable : s'.ptable = s.ptable := by rfl) : Inv proc own s' := by
  subst ht
  refine hi.move hthread hlive (fun p h => hused ▸ h) ?_ ?_ ?_ ?_ (hused ▸ hfits) ?_ ?_ ?_
  · rw [hstays.child, hptable]
    exact hi.lock t
  · rw [hptable]
    exact fun u _ => hi.lock u
  · rw [hstays.replaces]
    exact fun h u => hi.others h
  · rw [hused, hcwd]
    exact hi.unused
  · rw [hused]
    exact fun u _ => hi.fits u
  · rw [hcwd]
    exact fun p => (hi.agree_ne hstays.between p).imp_right .inr
  · intro e
    have := hcount e
    omega

section

variable {lock : Entry → Option T} {inum : Entry → I} {x : Entry}
  (hi : Inv proc own s) (ht : s.thread t = pc0) (hfits : Fits s.used own (proc t) pc)

include hi ht hfits

theorem Inv.keep (hrefs : pc.refs = pc0.refs := by rfl) (hbusy : pc0.busy = true := by rfl)
    (hstays : pc0.Stays pc := by exact {}) : Inv proc own ({ s with lock := lock }.goto t pc) := by
  refine hi.goto ht hstays (hi.live t (by rw [ht]; exact hbusy)) rfl hfits fun e => ?_
  unfold held
  rw [hrefs]
  rfl

/-- `idup`, or the end of an `iget`. -/
theorem Inv.gain (hheld : ∀ e, held e pc = held e pc0 + one e (some x))
    (hbusy : pc0.busy = true := by rfl) (hstays : pc0.Stays pc := by exact {}) :
    Inv proc own ({ s.addRef x 1 with inum := inum }.goto t pc) := by
  refine hi.goto ht hstays (hi.live t (by rw [ht]; exact hbusy)) rfl hfits fun e => ?_
  show update s.ref x (s.ref x + 1) e + _ + s.files e = s.ref e + _ + s.files e
  rw [update_add_apply, hheld]
  omega

/-- `ip->ref--` for a reference of the call. -/
theorem Inv.drop (hheld : ∀ e, held e pc0 = held e pc + one e (some x))
    (hbusy : pc0.busy = true := by rfl) (hstays : pc0.Stays pc := by exact {}) :
    Inv proc own ((s.addRef x (-1)).goto t pc) := by
  refine hi.goto ht hstays (hi.live t (by rw [ht]; exact hbusy)) rfl hfits fun e => ?_
  show update s.ref x (s.ref x + -1) e + _ + s.files e = s.ref e + _ + s.files e
  rw [update_add_apply, hheld]
  omega

end

variable {ip : Entry}

theorem Inv.oldCwd (hi : Inv proc own s) (ht : s.thread t = .oldCwd ip)
    (he : s.cwd (proc t) = some e) (hapart : ∀ u, proc u = proc t → (s.thread u).replaces = false) :
    Inv proc own (s.goto t (.iput e (.store ip))) := by
  refine hi.move rfl (hi.live t (by rw [ht]; rfl)) (fun _ h => h) (fun h => absurd rfl h)
    (fun u _ => hi.lock u) (fun _ u _ => hapart u) hi.unused ((hi.own_eq hapart).trans he)
    (fun u _ => hi.fits u) (fun p => (hi.agree_ne (by rw [ht]; rfl) p).imp_right .inr) fun x => ?_
  rw [ht]
  rfl

theorem Inv.forkEnter {q : P} (hi : Inv proc own s) (ht : s.thread t = .forkEnter q)
    (hfree : s.ptable = none) (hq : s.used q = false) :
    Inv proc own ({ s with ptable := some t }.goto t (.forkRead q)) := by
  refine hi.move rfl (hi.live t (by rw [ht]; rfl)) (fun _ h => h) (fun _ => rfl)
    (fun u _ h => ?_) (fun h => absurd h Bool.false_ne_true) hi.unused hq
    (fun u _ => hi.fits u) (fun p => (hi.agree_ne (by rw [ht]; rfl) p).imp_right .inr) fun x => ?_
  · have := hi.lock u h
    rw [hfree] at this
    cases this
  · rw [ht]
    rfl

/-! ## Every step -/

theorem Inv.look [DecidableEq I] {u : Use} {n : Nat} {ok : Bool} {i : Option I}
    (hi : Inv proc own s) (ht : s.thread t = .look u n ip)
    (h : (if ok = false then s.iunlock t ip (.iput ip .ret)
      else if u.nameiparent ∧ n = 0 then s.iunlock t ip (.got u ip)
      else
        match i with
        | none => s.iunlock t ip (.iput ip .ret)
        | some i => (s.iget i).map fun x => x.1.goto t (.found u n ip x.2)) = some s') :
    Inv proc own s' := by
  split at h
  · rw [iunlock_eq h]
    exact hi.keep ht trivial
  · split at h
    · rw [iunlock_eq h]
      exact hi.keep ht trivial
    · cases i with
      | none =>
        rw [iunlock_eq h]
        exact hi.keep ht trivial
      | some i =>
        obtain ⟨x, hx, rfl⟩ := Option.map_eq_some_iff.1 h
        obtain ⟨inum, hx⟩ := iget_eq hx
        rw [hx]
        refine hi.gain ht trivial fun e => ?_
        exact Int.add_right_comm 0 (one e (some x.2)) (one e (some ip))

variable [DecidableEq P]

theorem Inv.dropCwd (hi : Inv proc own s) (ht : s.thread t = .iputDrop e (.store ip)) :
    Inv proc (update own (proc t) none) ((s.addRef e (-1)).goto t (.store ip)) := by
  have hown : own (proc t) = some e := by
    have := hi.fits t
    rw [ht] at this
    exact this
  have hothers : ∀ u, u ≠ t → proc u = proc t → (s.thread u).replaces = false := fun u =>
    hi.others (by rw [ht]; rfl)
  refine hi.move rfl (hi.live t (by rw [ht]; rfl)) (fun _ h => h) (fun h => absurd rfl h)
    (fun u _ => hi.lock u) (fun _ => hothers) hi.unused (update_self _ _ _)
    (fun u hu => hi.fits_update (hothers u hu) fun _ _ => rfl) (fun p => ?_) fun x => ?_
  · by_cases hp : proc t = p
    · exact .inr (.inl ⟨hp, rfl⟩)
    · rw [update_of_ne (Ne.symm hp)]
      exact (hi.agree_ne (by rw [ht]; rfl) p).imp_right .inr
  · show update s.ref e (s.ref e + -1) x + _ + _ + _ = s.ref x + _ + s.files x + _
    rw [update_add_apply, total_update, hown, ht]
    have hnone : one x none = 0 := rfl
    have hheld : held x (.iputDrop e (.store ip) : Pc P) = held x (.store ip : Pc P) := rfl
    omega

/-- Process `q` gets the directory that the call of `t` holds, and is a process then. -/
theorem Inv.giveCwd {q : P} {ptable : Option T} (hi : Inv proc own s) (ht : s.thread t = pc0)
    (hrefs : pc0.refs = [e]) (hlive : s.used (proc t) = true) (hown : own q = none)
    (hreplaces : ∀ u, u ≠ t → proc u = q → (s.thread u).replaces = false)
    (hbetween : pc0.between = true → proc t = q)
    (hchild : ∀ u, u ≠ t → (s.thread u).child ≠ none → ptable = some u ∧ s.used q = true) :
    Inv proc (update own q (some e))
      ({ s with
        cwd := update s.cwd q (some e)
        used := update s.used q true
        ptable }.goto t .out) := by
  refine hi.move rfl hlive (fun p hp => ?_) (fun h => absurd rfl h)
    (fun u hu h => (hchild u hu h).1) (fun h => absurd h Bool.false_ne_true) (fun p hp => ?_)
    trivial (fun u hu => hi.fits_update (hreplaces u hu) fun q' hq' => ?_) (fun p => ?_) fun x => ?_
  · show update s.used q true p = true
    by_cases hpq : p = q
    · rw [hpq, update_self]
    · rw [update_of_ne hpq]
      exact hp
  · have hp : update s.used q true p = false := hp
    show update s.cwd q (some e) p = none
    by_cases hpq : p = q
    · rw [hpq, update_self] at hp
      cases hp
    · rw [update_of_ne hpq] at hp ⊢
      exact hi.unused p hp
  · have hused := (hchild u hu (by rw [hq']; exact Option.some_ne_none q')).2
    exact congrFun (update_eq_self_iff.2 hused.symm) q'
  · show update own q (some e) p = update s.cwd q (some e) p ∨ _
    by_cases hp : p = q
    · rw [hp, update_self, update_self]
      exact .inl rfl
    · rw [update_of_ne hp, update_of_ne hp]
      refine (hi.agree p).imp_right ?_
      rintro ⟨u, rfl, hu⟩
      refine .inr ⟨u, ?_, rfl, hu⟩
      rintro rfl
      exact hp (hbetween (ht ▸ hu))
  · show s.ref x + _ + s.files x + _ = s.ref x + _ + s.files x + _
    rw [total_update, hown, ht]
    have hnone : one x none = 0 := rfl
    have hheld : held x pc0 = 0 + one x (some e) := congrArg (tally x) hrefs
    have hout : held x (.out : Pc P) = 0 := rfl
    omega

theorem Inv.storeCwd (hi : Inv proc own s) (ht : s.thread t = .store ip) :
    Inv proc (update own (proc t) (some ip))
      ({ s with cwd := update s.cwd (proc t) (some ip) }.goto t .out) := by
  have hlive := hi.live t (by rw [ht]; rfl)
  have hown : own (proc t) = none := by
    have := hi.fits t
    rw [ht] at this
    exact this
  have hgiven := hi.giveCwd (q := proc t) ht rfl hlive hown
    (fun u => hi.others (by rw [ht]; rfl)) (fun _ => rfl) fun u _ h => ⟨hi.lock u h, hlive⟩
  rw [(update_eq_self_iff (f := s.used)).2 hlive.symm] at hgiven
  exact hgiven

/-- `fork` stores the child's `cwd` and makes it a process. -/
theorem Inv.forkStore {q : P} (hi : Inv proc own s) (ht : s.thread t = .forkStore q e) :
    Inv proc (update own q (some e))
      ({ s with
        cwd := update s.cwd q (some e)
        used := update s.used q true
        ptable := none }.goto t .out) := by
  have hq : s.used q = false := (hi.fits t).child_unused (by rw [ht]; rfl)
  have hreplaces : ∀ u, proc u = q → (s.thread u).replaces = false := fun u =>
    hi.unused_replaces hq
  refine hi.giveCwd ht rfl (hi.live t (by rw [ht]; rfl))
    ((hi.own_eq hreplaces).trans (hi.unused q hq)) (fun u _ => hreplaces u)
    (fun h => absurd h Bool.false_ne_true) fun u hu h => absurd ?_ h
  exact hi.child_none (by rw [ht]; exact Option.some_ne_none q) hu

variable [DecidableEq I] {root : I}

theorem Inv.run {ok : Bool} {i : Option I} (hi : Inv proc own s)
    (hapart : ∀ ip, s.thread t = .oldCwd ip → ∀ u, proc u = proc t → (s.thread u).replaces = false)
    (h : s.run root (proc t) t ok i = some s') : ∃ own', Inv proc own' s' := by
  unfold State.run at h
  split at h
  · cases h
  · next u n ht =>
    obtain ⟨x, hx, rfl⟩ := Option.map_eq_some_iff.1 h
    obtain ⟨inum, hx⟩ := iget_eq hx
    rw [hx]
    exact ⟨own, hi.gain ht trivial fun e => rfl⟩
  · next u n ht =>
    obtain ⟨e, he, rfl⟩ := Option.map_eq_some_iff.1 h
    exact ⟨own, hi.keep ht trivial⟩
  · next u n e ht =>
    cases h
    exact ⟨own, hi.gain ht trivial fun x => rfl⟩
  · next u ip ht =>
    cases h
    split
    · exact ⟨own, hi.keep ht trivial⟩
    · exact ⟨own, hi.keep ht trivial⟩
  · next u n ip ht =>
    rw [ilock_eq h]
    exact ⟨own, hi.keep ht trivial⟩
  · next u n ip ht => exact ⟨own, hi.look ht h⟩
  · next u n ip x ht =>
    rw [iunlock_eq h]
    exact ⟨own, hi.keep ht trivial⟩
  · next ip ht =>
    rw [ilock_eq h]
    exact ⟨own, hi.keep ht trivial⟩
  · next ip ht =>
    split at h
    · cases h
      have hlive := hi.live t (by rw [ht]; rfl)
      refine ⟨own, hi.goto ht {} hlive rfl trivial fun e => ?_⟩
      show s.ref e + (0 + one e (some ip)) + s.files e =
        s.ref e + 0 + (update s.files ip (s.files ip + 1) e : Nat)
      rw [files_update_add]
      omega
    · cases h
      exact ⟨own, hi.keep ht trivial⟩
  · next parent ip ht =>
    cases h
    exact ⟨own, hi.keep ht trivial⟩
  · next ip ht =>
    rw [iunlock_eq h]
    split
    · exact ⟨own, hi.keep ht trivial⟩
    · exact ⟨own, hi.keep ht trivial⟩
  · next ip ht =>
    obtain ⟨e, he, rfl⟩ := Option.map_eq_some_iff.1 h
    exact ⟨own, hi.oldCwd ht he (hapart ip ht)⟩
  · next ip ht =>
    cases h
    exact ⟨_, hi.storeCwd ht⟩
  · next ip k ht =>
    split at h
    · cases h
      have hfits := hi.fits t
      rw [ht] at hfits
      exact ⟨own, hi.keep ht hfits⟩
    · cases h
  · next ip k ht =>
    cases h
    have hfits := hi.fits t
    rw [ht] at hfits
    exact ⟨own, hi.keep ht hfits⟩
  · next ip k ht =>
    cases h
    cases k with
    | ret => exact ⟨own, hi.drop ht trivial fun e => rfl⟩
    | loop u n next =>
      exact ⟨own, hi.drop ht trivial fun e => rfl⟩
    | store new => exact ⟨_, hi.dropCwd ht⟩
  · next q ht =>
    split at h
    · cases h
    · next hfree =>
      split at h
      · cases h
        exact ⟨own, hi.keep ht trivial⟩
      · split at h
        · cases h
        · next hq =>
          cases h
          exact ⟨own, hi.forkEnter ht (not_not.1 hfree) (by simpa using hq)⟩
  · next q ht =>
    obtain ⟨e, he, rfl⟩ := Option.map_eq_some_iff.1 h
    have hq := (hi.fits t).child_unused (q := q) (by rw [ht]; rfl)
    exact ⟨own, hi.keep ht hq⟩
  · next q e ht =>
    cases h
    have hq := (hi.fits t).child_unused (q := q) (by rw [ht]; rfl)
    exact ⟨own, hi.gain ht hq fun x => rfl⟩
  · next q e ht =>
    cases h
    exact ⟨_, hi.forkStore ht⟩

theorem Inv.step {l : Label I P T} (hi : Inv proc own s) (hg : Apart proc s l s')
    (h : s.step root proc l = some s') : ∃ own', Inv proc own' s' := by
  cases l with
  | close t ip =>
    obtain ⟨⟨ht, hlive, hpos⟩, hs⟩ := Option.ite_none_right_eq_some.1 h
    cases hs
    refine ⟨own, hi.goto ht {} hlive rfl trivial fun e => ?_⟩
    show s.ref e + 0 + s.files e =
      s.ref e + (0 + one e (some ip)) + (update s.files ip (s.files ip - 1) e : Nat)
    rw [files_update_sub hpos]
    omega
  | run t ok i => exact hi.run (fun ip ht => hg t ok i ip rfl ht) h
  | _ =>
    obtain ⟨⟨ht, hlive⟩, hs⟩ := Option.ite_none_right_eq_some.1 h
    cases hs
    exact ⟨own, hi.goto ht {} hlive rfl trivial fun e => rfl⟩

/-- **References of current directories.** When no thread replaces `cwd` while another one of its
process does (guard `Apart`), then in every state in which no call is in progress the `ref` of an
entry is the number of processes whose `cwd` it is and of open files on it. -/
theorem cwd_references (root : I) (proc : T → P) (s0 : State I P T) (h0 : s0.Idle)
    (href : ∀ e, s0.ref e = dirs s0 e + s0.files e) (s : State I P T)
    (hr : Run (State.step root proc) (Apart proc) s0 s) (hout : ∀ t, s.thread t = .out)
    (e : Entry) : s.ref e = dirs s e + s.files e := by
  obtain ⟨own, hi⟩ : ∃ own, Inv proc own s := by
    refine hr.invariant (I := fun s => ∃ own, Inv proc own s) ⟨_, h0.inv href⟩ ?_
    rintro a l b ⟨own, hi⟩ hs hg
    exact hi.step hg hs
  have hown : own = s.cwd := by
    funext p
    refine hi.own_eq fun t _ => ?_
    rw [hout t]
    rfl
  have he := hi.count e
  rw [hown, total_cwd, total_held hout] at he
  omega

end

/-- Two threads of one process in the root directory, which is entry 0. -/
def atRoot : State Nat (Fin 1) (Fin 2) where
  cwd := fun _ => some 0
  ref := update (fun _ => 0) 0 1
  inum := fun _ => 1
  lock := fun _ => none
  files := fun _ => 0
  used := fun _ => true
  ptable := none
  thread := fun _ => .out

/-- The state after the steps `ls` of that process. -/
abbrev ran (ls : List (Label Nat (Fin 1) (Fin 2))) : State Nat (Fin 1) (Fin 2) :=
  final (State.step 1 fun _ => 0) atRoot ls

theorem atRoot_idle : atRoot.Idle := ⟨fun _ => rfl, fun _ h => absurd h Bool.false_ne_true.symm⟩

theorem atRoot_ref : ∀ e, atRoot.ref e = dirs atRoot e + atRoot.files e := by decide +kernel

/-- `t` calls `chdir` for the directory `i` and comes to `iput` of the old one. -/
def chdirTo (t : Fin 2) (i : Nat) : List (Label Nat (Fin 1) (Fin 2)) :=
  .call t .chdir false 1 :: List.replicate 12 (.run t true (some i))

/-- Thread 0 changes the directory and, while it replaces it, thread 1 opens the old one. -/
def openBesideChdir : List (Label Nat (Fin 1) (Fin 2)) :=
  chdirTo 0 2 ++ [.call 1 .file false 0, .run 1 true none, .run 0 true none] ++
    List.replicate 3 (.run 1 true none) ++ List.replicate 3 (.run 0 true none)

def isApart (s : State Nat (Fin 1) (Fin 2)) : Label Nat (Fin 1) (Fin 2) → Bool
  | .run t _ _ =>
    match s.thread t with
    | .oldCwd _ => (List.finRange 2).all fun u => !(s.thread u).replaces
    | _ => true
  | _ => true

theorem isApart_guard {s s' : State Nat (Fin 1) (Fin 2)} {l : Label Nat (Fin 1) (Fin 2)}
    (h : isApart s l) : Apart (fun _ => 0) s l s' := by
  rintro t ok i ip rfl ht u -
  simp only [isApart, ht, List.all_eq_true, Bool.not_eq_true'] at h
  exact h u (List.mem_finRange u)

theorem cwd_references_openBesideChdir : (ran openBesideChdir).cwd 0 = some 1 ∧
      (ran openBesideChdir).ref 0 = dirs (ran openBesideChdir) 0 +
          (ran openBesideChdir).files 0 := by
  refine ⟨by decide +kernel, ?_⟩
  refine cwd_references 1 (fun _ => 0) atRoot atRoot_idle atRoot_ref _ ?_ (by decide +kernel) 0
  exact run_final isApart_guard

/-- Both threads change the directory, to 2 and to 3; both have read the old one when the first
of them drops it. -/
def chdirTwice : List (Label Nat (Fin 1) (Fin 2)) :=
  chdirTo 0 2 ++ chdirTo 1 3 ++ List.replicate 4 (.run 0 true none) ++
    List.replicate 4 (.run 1 true none)

/-- The old directory is dropped twice, and the reference of directory 2 is nobody's. -/
theorem cwd_references_twice : Run (State.step 1 fun _ => 0) free atRoot (ran chdirTwice) ∧
      (∀ t, (ran chdirTwice).thread t = .out) ∧
      (ran chdirTwice).ref 0 = -1 ∧
      dirs (ran chdirTwice) 0 = 0 ∧
      (ran chdirTwice).inum 1 = 2 ∧
      (ran chdirTwice).ref 1 = 1 ∧
      dirs (ran chdirTwice) 1 = 0 ∧
      (∀ e, (ran chdirTwice).files e = 0) :=
  ⟨run_free, by decide +kernel⟩

end Xv6.Cwd
