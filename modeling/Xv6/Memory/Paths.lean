import Xv6.Memory.Forking

/-! The strings that `argstr` accepts. A path is checked once, by `fetchstr`, and read many
times, by `skipelem`, `namex` and `exec`, with sleeps in between; other threads can store into
it and take its pages away. What protects the kernel is the terminating NUL alone: as long as
it and the pages up to it stay, all later reads stay within the string. -/

namespace Xv6.Memory

open Runs Pages Function

/-! ## Reads of a string -/

namespace At

variable {x : Str} {p p' : At} {a : Nat} {b : Byte}

/-- All pointers are within the string and its NUL. -/
def Within (x : Str) : At → Prop
  | first p | lead p | empty p | trail p | lookup p | last p | found p =>
    x.addr ≤ p ∧ p ≤ x.addr + x.len
  | slash s p | nul s p => x.addr ≤ s ∧ s ≤ p ∧ p ≤ x.addr + x.len
  | copy s p j => x.addr ≤ s ∧ s + j < p ∧ p ≤ x.addr + x.len
  | scan s l => x.addr ≤ l ∧ l ≤ s ∧ s ≤ x.addr + x.len
  | scanSlash s l => x.addr ≤ l ∧ l ≤ s ∧ s < x.addr + x.len
  | save l j => x.addr ≤ l ∧ l + j ≤ x.addr + x.len

theorem Within.reads (h : p.Within x) (hp : p.reads = some a) :
    x.addr ≤ a ∧ a ≤ x.addr + x.len := by
  cases p <;> simp only [At.reads, Option.some.injEq, reduceCtorEq] at hp <;>
    simp only [Within] at h <;> omega

theorem within_copyFrom {s q j : Nat} (hs : x.addr ≤ s) (hsq : s ≤ q) (hq : q ≤ x.addr + x.len) :
    (copyFrom s q j).Within x := by
  unfold copyFrom
  split
  · exact ⟨hs, by omega, hq⟩
  · exact ⟨by omega, hq⟩

/-- A pointer that moves on has read a byte other than NUL, so it was not at the end. -/
theorem Within.next {par : Bool} (h : p.Within x)
    (hb : ∀ a, p.reads = some a → a = x.addr + x.len → b = 0)
    (hp : p.next par b = some p') : p'.Within x := by
  have hslash : ∀ a, p.reads = some a → b = Memory.slash → a ≠ x.addr + x.len := by
    intro a ha hs hend
    rw [hb a ha hend] at hs
    exact absurd hs (by decide)
  have hnul : ∀ a, p.reads = some a → b ≠ 0 → a ≠ x.addr + x.len :=
    fun a ha hne hend => hne (hb a ha hend)
  cases p with
  | first p =>
    cases hp
    exact h
  | lead p | trail p =>
    cases hp
    split
    · have := hslash p rfl ‹_›
      exact ⟨by have := h.1; omega, by have := h.2; omega⟩
    · exact h
  | empty p =>
    obtain ⟨-, he⟩ := Option.ite_none_left_eq_some.1 hp
    cases he
    exact ⟨h.1, Nat.le_refl _, h.2⟩
  | slash s p =>
    cases hp
    split
    · exact within_copyFrom h.1 h.2.1 h.2.2
    · exact h
  | nul s p =>
    cases hp
    split
    · exact within_copyFrom h.1 h.2.1 h.2.2
    · have := hnul p rfl ‹_›
      obtain ⟨h1, h2, h3⟩ := h
      exact ⟨h1, by omega, by omega⟩
  | copy s p j =>
    cases hp
    obtain ⟨h1, h2, h3⟩ := h
    exact within_copyFrom h1 (by omega) h3
  | lookup p =>
    obtain ⟨-, he⟩ := Option.ite_none_left_eq_some.1 hp
    cases he
    split <;> exact h
  | last p | found p =>
    obtain ⟨-, he⟩ := Option.ite_none_left_eq_some.1 hp
    cases he
    exact h
  | scan s l =>
    cases hp
    obtain ⟨h1, h2, h3⟩ := h
    split
    · exact ⟨h1, by omega⟩
    · have := hnul s rfl ‹_›
      exact ⟨h1, h2, by omega⟩
  | scanSlash s l =>
    cases hp
    obtain ⟨h1, h2, h3⟩ := h
    split
    · exact ⟨by omega, Nat.le_refl _, by omega⟩
    · exact ⟨h1, by omega, by omega⟩
  | save l j =>
    obtain ⟨hne, he⟩ := Option.ite_none_left_eq_some.1 hp
    cases he
    have := hnul (l + j) rfl fun hb => hne (.inl hb)
    exact ⟨h.1, by have := h.2; omega⟩

end At

theorem Job.within_start (j : Job) : j.start.Within j.str := by
  cases j with
  | walk x par => exact ⟨Nat.le_refl _, Nat.le_add_right _ _⟩
  | name x => exact ⟨Nat.le_refl _, Nat.le_refl _, Nat.le_add_right _ _⟩

theorem Call.jobs_str {c : Call} {done : List Str} {j : Job} (h : j ∈ c.jobs done) :
    j.str ∈ done := by
  unfold jobs at h
  split at h <;> simp only [List.mem_cons, List.not_mem_nil, or_false] at h
  · rw [h]; exact List.mem_cons_self
  · rw [h]; exact List.mem_cons_self
  · rw [h]; exact List.mem_cons_self
  · rw [h]; exact List.mem_cons_self
  · rcases h with rfl | rfl <;> exact List.mem_cons_self
  · rcases h with rfl | rfl
    · exact List.mem_cons_self
    · exact List.mem_cons_of_mem _ List.mem_cons_self

/-! ## Memory that keeps the strings -/

variable {m m' : Mem} {x : Str}

/-- The string is there, with its NUL below the size. -/
structure Str.Good (x : Str) (m : Mem) : Prop where
  nul : m.byte (x.addr + x.len) = 0
  below : x.addr + x.len < m.sz.toNat
  mapped : ∀ a, x.addr ≤ a → a ≤ x.addr + x.len → m.dir.present a = true

/-- Below the old size nothing is lost. -/
structure Extends (m m' : Mem) : Prop where
  sz : m.sz.toNat ≤ m'.sz.toNat
  present : ∀ a, a < m.sz.toNat → m.dir.present a = true → m'.dir.present a = true
  byte : ∀ a, a < m.sz.toNat → m.dir.present a = true → m'.byte a = m.byte a

theorem Extends.refl (m : Mem) : Extends m m := ⟨Nat.le_refl _, fun _ _ h => h, fun _ _ _ => rfl⟩

theorem Str.Good.extends (h : x.Good m) (he : Extends m m') : x.Good m' where
  nul := by
    rw [he.byte _ h.below (h.mapped _ (Nat.le_add_right _ _) (Nat.le_refl _))]
    exact h.nul
  below := Nat.lt_of_lt_of_le h.below he.sz
  mapped := fun a h1 h2 => he.present a (Nat.lt_of_le_of_lt h2 h.below) (h.mapped a h1 h2)

/-- A fresh page comes where none was. -/
theorem extends_mappage {va : Nat} {data : Nat → Byte} (h : m.mappage va data = some m') :
    Extends m m' := by
  unfold Mem.mappage at h
  split at h
  · cases h
  · rename_i habsent
    cases h
    refine ⟨Nat.le_refl _, fun a _ ha => Dir.present_enter_true ha, fun a _ ha => if_neg ?_⟩
    intro hpage
    rw [Dir.present_congr hpage] at ha
    exact habsent ha

variable {a : Nat}

theorem extends_dealloc (ha : a < 2 ^ 32) (hle : PGROUNDUP m.sz.toNat ≤ a) :
    Extends m { m with dir := (m.dir.deallocTurn a).1 } := by
  refine ⟨Nat.le_refl _, fun b hb hp => ?_, fun _ _ _ => rfl⟩
  have hne : b / PGSIZE ≠ a / PGSIZE := by
    simp only [PGROUNDUP, PGSIZE] at *
    omega
  rw [Dir.present_dealloc ha (Nat.lt_trans hb m.sz.isLt) hne]
  exact hp

/-! ## The invariant -/

variable {T : Type} {s s' : State T} {t u : T} {l : Label T} {e : List (Event T)} {pc : Pc}

/-- In a call that takes a path. -/
def Pc.walking : Pc → Bool
  | .path _ => true
  | _ => false

/-- The strings that the call has accepted and may still read. -/
def Pc.strs : Pc → List Str
  | .path (.test _ done _ _) | .path (.bound _ done _ _) | .path (.fetch _ done _ _ _ _) => done
  | .path (.use j _ jobs) => j.str :: jobs.map Job.str
  | _ => []

/-- No thread stores over the NUL of a string that is in use, and no `growproc` takes pages
away during a call that takes a path. -/
structure Unchanged (s : State T) (l : Label T) (_ : State T) : Prop where
  store : ∀ t a b, l = .store t a b → b ≠ 0 →
    ∀ u, ∀ x ∈ (s.thread u).strs, a ≠ x.addr + x.len
  shrink : ∀ t ok addr n, l = .run t ok → s.thread t = .sbrk (.start addr n) → n.toInt < 0 →
    ∀ u, (s.thread u).walking = false
  call : ∀ t c addrs, l = .path t c addrs → ∀ u, (s.thread u).shrinks = false

/-- What is known of a thread in `growproc`. -/
def Rising (sz : BitVec 32) : Pc → Prop
  | .sbrk (.alloc _ n old new _) => 0 < n.toInt ∧ old = sz ∧ sz ≤ new
  | .sbrk (.undo _ _ old _ a) => old = sz ∧ PGROUNDUP old.toNat ≤ a
  | .sbrk (.dealloc _ n _ _ _) => n.toInt < 0
  | .sbrk (.set _ n new) => n.toInt < 0 ∨ sz ≤ new
  | _ => True

/-- What is known of a thread in a call that takes a path. -/
def Walking (m : Mem) : Pc → Prop
  | .path (.test _ done _ _) | .path (.bound _ done _ _) => ∀ x ∈ done, x.Good m
  | .path (.fetch _ done addr ep x _) => (∀ x ∈ done, x.Good m) ∧ ep ≤ m.sz.toNat ∧
      addr ≤ x ∧ x ≤ max addr ep ∧ ∀ a, addr ≤ a → a < x → m.dir.present a = true
  | .path (.use j p jobs) => j.str.Good m ∧ p.Within j.str ∧ ∀ j' ∈ jobs, j'.str.Good m
  | _ => True

theorem rising_outside {sz : BitVec 32} (h : pc.holds = false) : Rising sz pc := by
  cases pc with
  | sbrk g => cases g <;> trivial
  | out | fork f | path p => trivial

theorem walking_of_not (h : pc.walking = false) : Walking m pc := by
  cases pc with
  | path p => exact absurd h.symm Bool.false_ne_true
  | out | sbrk g | fork f => trivial

theorem Walking.extends (h : Walking m pc) (he : Extends m m') : Walking m' pc := by
  cases pc with
  | out | sbrk g | fork f => trivial
  | path p =>
    cases p with
    | test c done addr todo | bound c done addr todo => exact fun x hx => (h x hx).extends he
    | fetch c done addr ep x todo =>
      obtain ⟨h1, h2, h3, h4, h5⟩ := h
      refine ⟨fun x hx => (h1 x hx).extends he, Nat.le_trans h2 he.sz, h3, h4, fun a ha hax => ?_⟩
      exact he.present a (by omega) (h5 a ha hax)
    | use j p jobs =>
      exact ⟨h.1.extends he, h.2.1, fun j' hj => (h.2.2 j' hj).extends he⟩

structure PathInv (s : State T) : Prop where
  locked : Locked s
  rising : ∀ t, Rising s.mem.sz (s.thread t)
  walking : ∀ t, Walking s.mem (s.thread t)
  apart : ∀ t u, (s.thread t).shrinks = true → (s.thread u).walking = false

theorem pathInv_start (m : Mem) : PathInv (State.start m : State T) :=
  ⟨locked_start m, fun _ => trivial, fun _ => trivial, fun _ _ _ => rfl⟩

theorem walking_startJob {jobs : List Job} (h : ∀ j ∈ jobs, j.str.Good m) :
    Walking m (State.startJob jobs) := by
  cases jobs with
  | nil => trivial
  | cons j jobs =>
    exact ⟨h j List.mem_cons_self, j.within_start, fun j' hj => h j' (List.mem_cons_of_mem _ hj)⟩

/-- A store that keeps the NUL of every string in use. -/
theorem Walking.store {b : Byte} (h : Walking m pc)
    (hb : b ≠ 0 → ∀ x ∈ pc.strs, a ≠ x.addr + x.len) :
    Walking { m with byte := update m.byte a b } pc := by
  have hgood : ∀ x ∈ pc.strs, x.Good m → x.Good { m with byte := update m.byte a b } := by
    intro x hx hg
    refine ⟨?_, hg.below, hg.mapped⟩
    show update m.byte a b (x.addr + x.len) = 0
    by_cases e : x.addr + x.len = a
    · rw [e, update_self]
      by_contra hne
      exact hb hne x hx e.symm
    · rw [update_of_ne e]
      exact hg.nul
  cases pc with
  | out | sbrk g | fork f => trivial
  | path p =>
    cases p with
    | test c done addr todo | bound c done addr todo => exact fun x hx => hgood x hx (h x hx)
    | fetch c done addr ep x todo => exact ⟨fun x hx => hgood x hx (h.1 x hx), h.2⟩
    | use j p jobs =>
      refine ⟨hgood _ List.mem_cons_self h.1, h.2.1, fun j' hj => ?_⟩
      exact hgood _ (List.mem_cons_of_mem _ (List.mem_map_of_mem hj)) (h.2.2 j' hj)

variable [DecidableEq T]

section

variable (hi : PathInv s) (hlocked : Locked s') (hthread : s'.thread = update s.thread t pc)
  (hsz : s'.mem.sz = s.mem.sz ∨ (s.thread t).holds = true)
  (hmem : (∀ u, (s.thread u).walking = false) ∨ Extends s.mem s'.mem)
  (hrising : Rising s'.mem.sz pc)

include hi hlocked hthread hsz hmem hrising

/-- Thread `t` goes on. Where somebody is in a call that takes a path, nothing is lost. -/
theorem PathInv.next (hwalking : Walking s'.mem pc) (hshrinks : pc.shrinks = true →
      (s.thread t).shrinks = true ∨ ∀ u, (s.thread u).walking = false) (hwalks : pc.walking = true →
      (s.thread t).walking = true ∨ ∀ u, (s.thread u).shrinks = false) : PathInv s' where
  locked := hlocked
  rising := by
    refine forall_update (F := fun _ => Rising s'.mem.sz) hthread hrising fun u hu => ?_
    rcases hsz with hsz | hold
    · rw [hsz]
      exact hi.rising u
    · exact rising_outside (hi.locked.outside hold hu)
  walking := by
    refine forall_update (F := fun _ => Walking s'.mem) hthread hwalking fun u _ => ?_
    rcases hmem with hnone | hext
    · exact walking_of_not (hnone u)
    · exact (hi.walking u).extends hext
  apart := by
    refine apart_update hi.apart hthread (fun h => ?_) hshrinks hwalks
    cases pc with
    | path p => exact absurd h Bool.false_ne_true
    | out | sbrk g | fork f => rfl

theorem PathInv.other (hpc : pc.walking = false) (hshrinks : pc.shrinks = true →
      (s.thread t).shrinks = true ∨ ∀ u, (s.thread u).walking = false) : PathInv s' := by
  refine hi.next hlocked hthread hsz hmem hrising (walking_of_not hpc) hshrinks fun h => ?_
  rw [hpc] at h
  cases h

end

theorem rising_startGrow (sz addr n : BitVec 32) :
    Rising sz (.sbrk (State.startGrow sz addr n)) := by
  unfold State.startGrow
  split
  · rename_i hpos
    split
    · trivial
    · split
      · exact .inr (BitVec.le_refl _)
      · rename_i hlt
        exact ⟨hpos, rfl, BitVec.not_lt.1 hlt⟩
  · split
    · rename_i hneg
      split
      · split
        · trivial
        · exact .inl hneg
      · exact hneg
    · exact .inr (BitVec.le_refl _)

variable {ok : Bool}

theorem PathInv.runGrow {g : Grow} (hi : PathInv s) (hpc : s.thread t = .sbrk g)
    (hstart : ∀ addr n, g = .start addr n → n.toInt < 0 → ∀ u, (s.thread u).walking = false)
    (h : s.runGrow t ok g = some (s', e)) : PathInv s' := by
  have hlocked := hi.locked.runGrow hpc h
  have hrising := hi.rising t
  have hno : ∀ {b : Bool} {P : Prop}, b = false → b = true → P := by
    intro b P h h'
    rw [h] at h'
    cases h'
  cases g with
  | enter addr n =>
    obtain ⟨-, he⟩ := Option.ite_none_right_eq_some.1 h
    cases he
    exact hi.other hlocked rfl (.inl rfl) (.inr (.refl _)) trivial rfl (hno rfl)
  | start addr n =>
    cases h
    refine hi.other hlocked rfl (.inl rfl) (.inr (.refl _)) (rising_startGrow _ _ _) rfl
      fun hs => ?_
    exact .inr (hstart addr n rfl (shrinks_startGrow hs))
  | alloc addr n old new a =>
    simp only [hpc, Rising] at hrising
    simp only [State.runGrow] at h
    split at h
    · split at h
      · obtain ⟨m, hm, he⟩ := Option.map_eq_some_iff.1 h
        cases he
        have hsz : m.sz = s.mem.sz := (Mem.mappage_eq hm).1
        refine hi.other hlocked rfl (.inl hsz) (.inr (extends_mappage hm)) ?_ rfl (hno rfl)
        rw [hsz]
        exact hrising
      · cases h
        exact hi.other hlocked rfl (.inl rfl) (.inr (.refl _)) ⟨hrising.2.1, Nat.le_refl _⟩ rfl
          (hno rfl)
    · cases h
      refine hi.other hlocked rfl (.inl rfl) (.inr (.refl _)) ?_ rfl (hno ?_)
      · split
        · trivial
        · exact .inr hrising.2.2
      · split
        · rfl
        · simp only [Pc.shrinks, decide_eq_false_iff_not]
          omega
  | undo addr n old new a =>
    simp only [hpc, Rising] at hrising
    simp only [State.runGrow] at h
    split at h
    · rename_i hlt
      cases h
      have ha : a < 2 ^ 32 := Nat.lt_trans hlt new.isLt
      have hnext := Dir.lt_dealloc (d := s.mem.dir) ha
      obtain ⟨rfl, hle⟩ := hrising
      exact hi.other hlocked rfl (.inl rfl) (.inr (extends_dealloc ha hle)) ⟨rfl, by omega⟩ rfl
        (hno rfl)
    · cases h
      exact hi.other hlocked rfl (.inl rfl) (.inr (.refl _)) trivial rfl (hno rfl)
  | dealloc addr n old new a =>
    simp only [hpc, Rising] at hrising
    have hold : (s.thread t).shrinks = true := by rw [hpc]; rfl
    simp only [State.runGrow] at h
    split at h
    · cases h
      exact hi.other hlocked rfl (.inl rfl) (.inl fun u => hi.apart t u hold) hrising rfl
        fun _ => .inl hold
    · cases h
      refine hi.other hlocked rfl (.inl rfl) (.inr (.refl _)) ?_ rfl fun _ => .inl hold
      split
      · trivial
      · exact .inl hrising
  | set addr n sz =>
    simp only [hpc, Rising] at hrising
    cases h
    refine hi.other hlocked rfl (.inr (by rw [hpc]; rfl)) ?_ trivial rfl (hno rfl)
    rcases hrising with hn | hle
    · exact .inl fun u => hi.apart t u (by rw [hpc]; exact decide_eq_true hn)
    · exact .inr ⟨BitVec.le_def.1 hle, fun _ _ h => h, fun _ _ _ => rfl⟩
  | _ =>
    cases h
    exact hi.other hlocked rfl (.inl rfl) (.inr (.refl _)) trivial rfl (hno rfl)

theorem PathInv.runFork {f : Fork} (hi : PathInv s) (hpc : s.thread t = .fork f)
    (h : s.runFork t ok f = some (s', e)) : PathInv s' := by
  obtain ⟨pc, hf⟩ := forks_of_runFork h
  have hext : Extends s.mem s'.mem := by
    rw [hf.mem]
    exact .refl _
  refine hi.other (hi.locked.runFork hpc h) hf.thread (.inl (by rw [hf.mem])) (.inr hext)
    (rising_outside hf.holds) ?_ fun h => ?_
  · obtain rfl | ⟨f', rfl⟩ := hf.new <;> rfl
  · obtain rfl | ⟨f', rfl⟩ := hf.new <;> cases h

/-! ## Calls that take a path -/

theorem PathInv.goto {p : Path} (hi : PathInv s) (hpc : s.thread t = .path p)
    (hlocked : Locked (s.goto t pc)) (hwalks : pc.walks = true) (hwalking : Walking s.mem pc) :
    PathInv (s.goto t pc) := by
  refine hi.next hlocked rfl (.inl rfl) (.inr (.refl _)) ?_ hwalking (fun h => ?_)
    fun _ => .inl (by rw [hpc]; rfl)
  · exact rising_outside (Pc.aside_not_holds (Pc.aside_of_walks hwalks))
  · rw [Pc.shrinks_aside (Pc.aside_of_walks hwalks)] at h
    cases h

theorem walking_accept {c : Call} {done : List Str} {todo : List Nat}
    (h : ∀ x ∈ done, x.Good m) : Walking m (State.accept c done todo) := by
  cases todo with
  | nil => exact walking_startJob fun j hj => h j.str (Call.jobs_str hj)
  | cons addr todo => exact h

theorem walks_accept (c : Call) (done : List Str) (todo : List Nat) :
    (State.accept c done todo).walks = true := by
  cases todo with
  | nil => exact walks_startJob _
  | cons addr todo => rfl

/-- `fetchstr` has come to a NUL below the size. -/
theorem good_of_fetch {addr : Nat} (hle : addr ≤ a) (hsz : a < m.sz.toNat)
    (hbelow : ∀ b, addr ≤ b → b < a → m.dir.present b = true) (hpres : m.dir.present a = true)
    (hnul : m.byte a = 0) : Str.Good ⟨addr, a - addr⟩ m := by
  have hend : addr + (a - addr) = a := by omega
  refine ⟨?_, ?_, fun b hb hba => ?_⟩
  · rw [hend]
    exact hnul
  · rw [hend]
    exact hsz
  · simp only at hb hba
    rw [hend] at hba
    rcases Nat.lt_or_eq_of_le hba with h | h
    · exact hbelow b hb h
    · rw [h]
      exact hpres

theorem PathInv.runPath {p : Path} (hi : PathInv s) (hpc : s.thread t = .path p)
    (hlocked : Locked s') (h : s.runPath t ok p = some (s', e)) : PathInv s' := by
  have hw := hi.walking t
  rw [hpc] at hw
  cases p with
  | test c done addr todo =>
    cases h
    refine hi.goto hpc hlocked ?_ ?_
    · split <;> rfl
    · split
      · exact hw
      · trivial
  | bound c done addr todo =>
    cases h
    refine hi.goto hpc hlocked rfl ⟨hw, Nat.le_refl _, Nat.le_refl _, Nat.le_max_left _ _, ?_⟩
    exact fun a h1 h2 => absurd h1 (Nat.not_le_of_lt h2)
  | fetch c done addr ep x todo =>
    obtain ⟨hdone, hep, hle, hmax, hbelow⟩ := hw
    simp only [State.runPath] at h
    split at h
    · rename_i hlt
      split at h
      · rename_i hpres
        split at h
        · rename_i hnul
          cases h
          refine hi.goto hpc hlocked (walks_accept _ _ _) (walking_accept fun y hy => ?_)
          rcases List.mem_append.1 hy with hy | hy
          · exact hdone y hy
          · rw [List.mem_singleton.1 hy]
            exact good_of_fetch hle (by omega) hbelow hpres hnul
        · cases h
          refine hi.goto hpc hlocked rfl ⟨hdone, hep, by omega, by omega, fun a h1 h2 => ?_⟩
          rcases Nat.lt_or_eq_of_le (Nat.le_of_lt_succ h2) with h | h
          · exact hbelow a h1 h
          · rw [h]
            exact hpres
      · cases h
    · cases h
      exact hi.goto hpc hlocked rfl trivial
  | use j p jobs =>
    obtain ⟨hgood, hwithin, hjobs⟩ := hw
    simp only [State.runPath] at h
    split at h
    · rename_i a hreads
      split at h
      · split at h
        · rename_i p' hp'
          cases h
          refine hi.goto hpc hlocked rfl ⟨hgood, hwithin.next (fun b hb hend => ?_) hp', hjobs⟩
          rw [hreads] at hb
          cases hb
          rw [hend]
          exact hgood.nul
        · cases h
          refine hi.goto hpc hlocked ?_ ?_
          · split
            · exact walks_startJob _
            · rfl
          · split
            · exact walking_startJob hjobs
            · trivial
      · cases h
    · rename_i hreads
      split at h
      · rename_i p' hp'
        cases h
        refine hi.goto hpc hlocked rfl ⟨hgood, hwithin.next (fun b hb => ?_) hp', hjobs⟩
        rw [hreads] at hb
        cases hb
      · cases h
        exact hi.goto hpc hlocked rfl trivial

theorem PathInv.step (hi : PathInv s) (h : s.step l = some (s', e)) (hg : Unchanged s l s') :
    PathInv s' := by
  have hlocked := hi.locked.step h
  cases l with
  | sbrk t n | fork t =>
    simp only [State.step] at h
    split at h
    · cases h
      exact hi.other hlocked rfl (.inl rfl) (.inr (.refl _)) trivial rfl
        fun h => absurd h Bool.false_ne_true
    · cases h
  | path t c addrs =>
    simp only [State.step] at h
    split at h
    · cases h
      exact hi.next hlocked rfl (.inl rfl) (.inr (.refl _)) trivial
        (fun x hx => absurd hx List.not_mem_nil) (fun h => absurd h Bool.false_ne_true)
        fun _ => .inr (hg.call t c _ rfl)
    · cases h
  | store t a b =>
    simp only [State.step] at h
    split at h
    · split at h
      · cases h
        exact ⟨hlocked, hi.rising, fun u => (hi.walking u).store fun hb => hg.store t a b rfl hb u,
          hi.apart⟩
      · cases h
    · cases h
  | run t ok =>
    simp only [State.step] at h
    split at h
    · cases h
    · rename_i g hpc
      exact hi.runGrow hpc (fun addr n hg' => hg.shrink t ok addr n rfl (by rw [hpc, hg'])) h
    · rename_i f hpc
      exact hi.runFork hpc h
    · rename_i p hpc
      exact hi.runPath hpc hlocked h

/-- **Reads stay in the string.** When no store hits the NUL of a string in use and no
`growproc` takes pages away during a call that takes a path: whenever the kernel is about to
read a byte of a string that `argstr` has accepted, the byte is in a page that is present, and
from it on there is a NUL below the size. -/
theorem path_reads_mapped (m : Mem) (s : State T)
    (hr : Run State.next Unchanged (State.start m) s) (t : T) (j : Job) (p : At)
    (jobs : List Job) (hpc : s.thread t = .path (.use j p jobs)) (a : Nat) (ha : p.reads = some a) :
    s.mem.dir.present a = true ∧ ∃ k, a ≤ k ∧ k < s.mem.sz.toNat ∧ s.mem.byte k = 0 := by
  have hi : PathInv s := by
    refine hr.invariant (pathInv_start m) fun x l y hx hs hg => ?_
    obtain ⟨⟨s1, e⟩, he, rfl⟩ := Option.map_eq_some_iff.1 hs
    exact hx.step he hg
  have hw := hi.walking t
  rw [hpc] at hw
  obtain ⟨hgood, hwithin, -⟩ := hw
  obtain ⟨hge, hle⟩ := hwithin.reads ha
  exact ⟨hgood.mapped a hge hle, j.str.addr + j.str.len, hle, hgood.below, hgood.nul⟩

/-- The byte of an accepted string that the thread is about to read. -/
def Pc.reading : Pc → Option Nat
  | .path (.use _ p _) => p.reads
  | _ => none

omit [DecidableEq T] in
theorem Pc.reading_some (h : pc.reading = some a) :
    ∃ j p jobs, pc = .path (.use j p jobs) ∧ p.reads = some a := by
  unfold reading at h
  split at h
  · exact ⟨_, _, _, rfl, h⟩
  · cases h

/-- The last two bytes of the only page are `x` and NUL. -/
def pathAtEnd : Mem := .initcode fun a => if a = 4095 then 0 else 120

/-- Thread 0 calls `chdir("x")`, which accepts the string; thread 1 changes its first byte, and
thread 0 goes on to the NUL. -/
def chdirStore : List (Label (Fin 2)) :=
  [.path 0 .chdir [4094]] ++ List.replicate 4 (.run 0 true) ++ [.store 1 4094 121] ++
    List.replicate 5 (.run 0 true)

def isUnchanged (s : State (Fin 2)) : Label (Fin 2) → Bool
  | .store _ a b => b = 0 ∨ ((∀ x ∈ (s.thread 0).strs, a ≠ x.addr + x.len) ∧
      ∀ x ∈ (s.thread 1).strs, a ≠ x.addr + x.len)
  | .path .. => (s.thread 0).shrinks = false ∧ (s.thread 1).shrinks = false
  | .run t _ =>
    match s.thread t with
    | .sbrk (.start _ _) => (s.thread 0).walking = false ∧ (s.thread 1).walking = false
    | _ => true
  | _ => true

theorem isUnchanged_guard {s s' : State (Fin 2)} {l : Label (Fin 2)} (h : isUnchanged s l) :
    Unchanged s l s' where
  store := by
    rintro t a b rfl hb
    simp only [isUnchanged, decide_eq_true_eq] at h
    exact Fin.forall_fin_two.2 (h.resolve_left hb)
  shrink := by
    rintro t ok addr n rfl hpc -
    simp only [isUnchanged, hpc, decide_eq_true_eq] at h
    exact Fin.forall_fin_two.2 h
  call := by
    rintro t c addrs rfl
    simp only [isUnchanged, decide_eq_true_eq] at h
    exact Fin.forall_fin_two.2 h

theorem path_reads_mapped_chdir : ((ran pathAtEnd chdirStore).thread 0).reading = some 4095 ∧
      (ran pathAtEnd chdirStore).mem.dir.present 4095 = true ∧
      ∃ k, 4095 ≤ k ∧ k < (ran pathAtEnd chdirStore).mem.sz.toNat ∧
        (ran pathAtEnd chdirStore).mem.byte k = 0 := by
  have hrun : Run State.next Unchanged (.start pathAtEnd) (ran pathAtEnd chdirStore) :=
    run_final isUnchanged_guard
  have hreading : ((ran pathAtEnd chdirStore).thread 0).reading = some 4095 := by decide +kernel
  obtain ⟨j, p, jobs, hpc, hp⟩ := Pc.reading_some hreading
  exact ⟨hreading, path_reads_mapped pathAtEnd _ hrun 0 j p jobs hpc 4095 hp⟩

/-- Thread 1 stores over the NUL when `argstr` has accepted the string. -/
def chdirOverrun : List (Label (Fin 2)) :=
  [.path 0 .chdir [4094]] ++ List.replicate 4 (.run 0 true) ++ [.store 1 4095 120] ++
    List.replicate 7 (.run 0 true)

/-- `skipelem` runs out of the string and of the memory of the process. -/
theorem path_reads_overrun : Run State.next free (.start pathAtEnd) (ran pathAtEnd chdirOverrun) ∧
      ((ran pathAtEnd chdirOverrun).thread 0).reading = some 4096 ∧
      (ran pathAtEnd chdirOverrun).mem.dir.present 4096 = false ∧
      (ran pathAtEnd chdirOverrun).mem.sz = 4096 ∧
      (ran pathAtEnd chdirOverrun).mem.byte 4094 ≠ 0 ∧
      (ran pathAtEnd chdirOverrun).mem.byte 4095 ≠ 0 :=
  ⟨run_free, by decide +kernel⟩

end Xv6.Memory
