import Xv6.Memory.Cover
import Xv6.Memory.Steps

/-! `fork` beside `growproc`. `fork` reads the size of the process, copies the pages below it,
and reads the size again, all under `ptable.lock`; `growproc` takes pages away and then writes
the size under `p->lock`. -/

namespace Xv6.Memory

open Runs Pages Function

variable {T : Type} {s s' : State T} {t u : T} {l : Label T} {e : List (Event T)} {pc : Pc}

/-- In a `growproc` that takes pages away, until it has written the new size. -/
def Pc.shrinks : Pc → Bool
  | .sbrk (.dealloc ..) => true
  | .sbrk (.set _ n _) => n.toInt < 0
  | _ => false

/-- In `fork`, from one read of the size to the other. -/
def Pc.copies : Pc → Bool
  | .fork (.copy ..) | .fork (.size _) => true
  | _ => false

/-- `fork` does not copy while a `growproc` takes pages away or writes another size, and no
`growproc` takes the size to 0. -/
structure Undisturbed (s : State T) (l : Label T) (_ : State T) : Prop where
  read : ∀ t ok, l = .run t ok → s.thread t = .fork .read → ∀ u, (s.thread u).shrinks = false
  shrink : ∀ t ok addr n, l = .run t ok → s.thread t = .sbrk (.start addr n) → n.toInt < 0 →
    s.mem.sz + n ≠ 0 ∧ ∀ u, (s.thread u).copies = false
  set : ∀ t ok addr n sz, l = .run t ok → s.thread t = .sbrk (.set addr n sz) →
    sz = s.mem.sz ∨ ∀ u, (s.thread u).copies = false

/-- The states of a process, from `userinit` or the `fork` of its parent on, through calls
that meet the guard and `exec`, which replaces the memory of a process with no other call
under way. -/
inductive Life [DecidableEq T] (G : Guard (State T) (Label T)) : State T → Prop
  | userinit (image : Nat → Byte) : Life G (.start (.initcode image))
  | step {s s' : State T} {l : Label T} {e : List (Event T)} :
      Life G s → s.step l = some (s', e) → G s l s' → Life G s'
  | exec {s : State T} {phs : List Segment} {image : Nat → Byte} {m : Mem} :
      Life G s → (∀ t, s.thread t = .out) → Mem.exec phs image = some m →
      Life G { s with mem := m }
  | child {s s' : State T} {l : Label T} {e : List (Event T)} {m : Mem} :
      Life G s → s.step l = some (s', e) → G s l s' → .child m ∈ e → Life G (.start m)

/-- What is known of a thread in `growproc` of a process with the size `sz`. -/
def Growing (d : Dir) (sz : BitVec 32) : Pc → Prop
  | .sbrk (.alloc _ n old new a) => 0 < n.toInt ∧ old = sz ∧ new.toNat < KERNBASE ∧
      PGSIZE ∣ a ∧ PGROUNDUP old.toNat ≤ a ∧ d.Covers a
  | .sbrk (.undo _ _ old new a) => old = sz ∧ new.toNat < KERNBASE ∧ PGROUNDUP old.toNat ≤ a
  | .sbrk (.dealloc _ n old new a) => n.toInt < 0 ∧ old = sz ∧ new < old ∧ new ≠ 0 ∧
      PGROUNDUP new.toNat ≤ a ∧ d.Covers new.toNat
  | .sbrk (.set _ _ new) => new.toNat < KERNBASE ∧ d.Covers new.toNat
  | _ => True

/-- What is known of a thread in `fork`. -/
def Copying (sz : BitVec 32) : Pc → Prop
  | .fork (.copy sz' i child) => sz' = sz ∧ PGSIZE ∣ i ∧ child.dir.Covers i
  | .fork (.size child) => child.dir.Covers sz.toNat
  | .fork (.leave (some child)) => child.Loaded
  | _ => True

variable {sz : BitVec 32}

theorem growing_outside {d : Dir} (h : pc.holds = false) : Growing d sz pc := by
  cases pc with
  | sbrk g => cases g <;> trivial
  | out | fork f | path p => trivial

/-- Only a thread that copies depends on the size. -/
theorem Copying.congr {sz' : BitVec 32} (h : Copying sz pc) (hpc : pc.copies = false) :
    Copying sz' pc := by
  cases pc with
  | fork f =>
    cases f with
    | copy | size => exact absurd hpc.symm Bool.false_ne_true
    | leave child => cases child <;> exact h
    | enter | read => trivial
  | sbrk g | out | path p => trivial

theorem Pc.shrinks_aside (h : pc.aside = true) : pc.shrinks = false := by
  cases pc with
  | sbrk g => cases g <;> first | rfl | exact absurd h Bool.false_ne_true
  | out | fork f | path p => rfl

theorem Pc.copies_aside (h : pc.aside = true) : pc.copies = false := by
  cases pc with
  | fork f => cases f <;> first | rfl | exact absurd h Bool.false_ne_true
  | out | sbrk g | path p => rfl

theorem copying_aside (h : pc.aside = true) : Copying sz pc := by
  cases pc with
  | fork f => cases f <;> trivial
  | out | sbrk g | path p => trivial

theorem Pc.shrinks_holds (h : pc.shrinks = true) : pc.holds = true := by
  cases pc with
  | sbrk g => cases g <;> first | rfl | exact absurd h Bool.false_ne_true
  | fork f => exact absurd h Bool.false_ne_true
  | _ => exact h

structure ForkInv (s : State T) : Prop where
  locked : Locked s
  small : s.mem.sz.toNat < KERNBASE
  covers : (∀ t, (s.thread t).shrinks = false) → s.mem.dir.Covers s.mem.sz.toNat
  growing : ∀ t, Growing s.mem.dir s.mem.sz (s.thread t)
  copying : ∀ t, Copying s.mem.sz (s.thread t)
  apart : ∀ t u, (s.thread t).shrinks = true → (s.thread u).copies = false

theorem Mem.Loaded.forkInv {m : Mem} (hm : m.Loaded) : ForkInv (State.start m : State T) where
  locked := locked_start m
  small := hm.small
  covers := fun _ => hm.covers
  growing := fun _ => trivial
  copying := fun _ => trivial
  apart := fun _ _ _ => rfl

/-- While one thread copies, the pages below the size are present. -/
theorem ForkInv.covers_of_copies (hi : ForkInv s) (h : (s.thread t).copies = true) :
    s.mem.dir.Covers s.mem.sz.toNat := by
  refine hi.covers fun u => ?_
  rw [Bool.eq_false_iff]
  intro hu
  rw [hi.apart u t hu] at h
  cases h

/-- So they are while the holder of `p->lock` does not take any away. -/
theorem ForkInv.covers_of_holds (hi : ForkInv s) (h : (s.thread t).holds = true)
    (ht : (s.thread t).shrinks = false) : s.mem.dir.Covers s.mem.sz.toNat := by
  refine hi.covers fun u => ?_
  by_cases hu : u = t
  · subst hu
    exact ht
  · rw [Bool.eq_false_iff]
    intro hs
    have hout := hi.locked.outside h hu
    rw [Pc.shrinks_holds hs] at hout
    cases hout

theorem Pc.shrinks_not_copies (h : pc.shrinks = true) : pc.copies = false := by
  cases pc with
  | fork f => exact absurd h Bool.false_ne_true
  | _ => rfl

variable [DecidableEq T]

section

variable (hi : ForkInv s) (hlocked : Locked s') (hthread : s'.thread = update s.thread t pc)
  (hsz : s'.mem.sz = s.mem.sz)

include hi hlocked hthread hsz

theorem ForkInv.goto (hdir : s'.mem.dir = s.mem.dir) (hgrow : Growing s.mem.dir s.mem.sz pc)
    (hcopy : Copying s.mem.sz pc) (hkeep : pc.shrinks = true ∨ (s.thread t).shrinks = false)
    (hshrinks : pc.shrinks = true → (s.thread t).shrinks = true ∨ ∀ u, (s.thread u).copies = false)
    (hcopies : pc.copies = true →
      (s.thread t).copies = true ∨ ∀ u, (s.thread u).shrinks = false) : ForkInv s' where
  locked := hlocked
  small := by
    rw [hsz]
    exact hi.small
  covers := by
    intro hnone
    rw [hsz, hdir]
    refine hi.covers fun u => ?_
    have hu := hnone u
    have ht := hnone t
    rw [hthread] at hu ht
    rw [update_self] at ht
    by_cases e : u = t
    · subst e
      exact hkeep.resolve_left (by rw [ht]; exact Bool.false_ne_true)
    · rwa [update_of_ne e] at hu
  growing := by
    rw [hsz, hdir]
    exact forall_update (F := fun _ => Growing s.mem.dir s.mem.sz) hthread hgrow
      fun u _ => hi.growing u
  copying := by
    rw [hsz]
    exact forall_update (F := fun _ => Copying s.mem.sz) hthread hcopy fun u _ => hi.copying u
  apart := apart_update hi.apart hthread Pc.shrinks_not_copies hshrinks hcopies

theorem ForkInv.quiet (hdir : s'.mem.dir = s.mem.dir) (hgrow : Growing s.mem.dir s.mem.sz pc)
    (hcopy : Copying s.mem.sz pc) (hold : (s.thread t).shrinks = false)
    (hshrinks : pc.shrinks = false) (hcopies : pc.copies = false) : ForkInv s' := by
  refine hi.goto hlocked hthread hsz hdir hgrow hcopy (.inr hold) (fun h => ?_) fun h => ?_
  · rw [hshrinks] at h
    cases h
  · rw [hcopies] at h
    cases h

theorem ForkInv.rewrite (hold : (s.thread t).holds = true) (hgrow : Growing s'.mem.dir s.mem.sz pc)
    (hcopy : Copying s.mem.sz pc) (hnew : pc.copies = false)
    (hshrinks : pc.shrinks = (s.thread t).shrinks)
    (hcov : pc.shrinks = false → s.mem.dir.Covers s.mem.sz.toNat →
      s'.mem.dir.Covers s.mem.sz.toNat) : ForkInv s' where
  locked := hlocked
  small := by
    rw [hsz]
    exact hi.small
  covers := by
    intro hnone
    have ht := hnone t
    rw [hthread, update_self] at ht
    rw [hsz]
    refine hcov ht (hi.covers fun u => ?_)
    have hu := hnone u
    rw [hthread] at hu
    by_cases e : u = t
    · subst e
      rw [← hshrinks]
      exact ht
    · rwa [update_of_ne e] at hu
  growing := by
    rw [hsz]
    exact forall_update (F := fun _ => Growing s'.mem.dir s.mem.sz) hthread hgrow
      fun u hu => growing_outside (hi.locked.outside hold hu)
  copying := by
    rw [hsz]
    exact forall_update (F := fun _ => Copying s.mem.sz) hthread hcopy fun u _ => hi.copying u
  apart := by
    refine apart_update hi.apart hthread (fun _ => hnew) (fun hs => .inl ?_) fun hc => ?_
    · rwa [hshrinks] at hs
    · exact absurd hc (Bool.eq_false_iff.1 hnew)

end

/-! ## `growproc` -/

variable {addr n : BitVec 32}

theorem growing_startGrow {d : Dir} (hsmall : sz.toNat < KERNBASE)
    (hcov : d.Covers sz.toNat) (hn : n.toInt < 0 → sz + n ≠ 0) :
    Growing d sz (.sbrk (State.startGrow sz addr n)) := by
  unfold State.startGrow
  split
  · rename_i hpos
    split
    · trivial
    · rename_i hnew
      split
      · exact ⟨hsmall, hcov⟩
      · exact ⟨hpos, rfl, Nat.lt_of_not_le hnew, dvd_roundUp _, Nat.le_refl _, hcov.roundUp⟩
  · split
    · rename_i hneg
      split
      · split
        · trivial
        · exact ⟨hsmall, hcov⟩
      · rename_i hlt
        rw [BitVec.not_le] at hlt
        exact ⟨hneg, rfl, hlt, hn hneg, Nat.le_refl _, hcov.mono (BitVec.lt_def.1 hlt).le⟩
    · exact ⟨hsmall, hcov⟩

/-- Only a negative `n` makes `growproc` shrink the process. -/
theorem shrinks_startGrow
    (h : (Pc.sbrk (State.startGrow sz addr n)).shrinks = true) : n.toInt < 0 := by
  unfold State.startGrow at h
  split at h
  · rename_i hpos
    have hnot : ¬ n.toInt < 0 := by omega
    split at h
    · exact absurd h Bool.false_ne_true
    · split at h
      · simp [Pc.shrinks, hnot] at h
      · exact absurd h Bool.false_ne_true
  · split at h
    · rename_i hneg
      exact hneg
    · rename_i hnot
      simp [Pc.shrinks, hnot] at h

theorem ForkInv.set (hi : ForkInv s) (hlocked : Locked s')
    (hpc : s.thread t = .sbrk (.set addr n sz))
    (hthread : s'.thread = update s.thread t (.sbrk (.leave addr n true)))
    (hmem : s'.mem = { s.mem with sz := sz })
    (hset : sz = s.mem.sz ∨ ∀ u, (s.thread u).copies = false) : ForkInv s' := by
  have hgrow := hi.growing t
  simp only [hpc, Growing] at hgrow
  have hold : (s.thread t).holds = true := by rw [hpc]; rfl
  refine ⟨hlocked, ?_, ?_, ?_, ?_, ?_⟩
  · rw [hmem]
    exact hgrow.1
  · rw [hmem]
    exact fun _ => hgrow.2
  · rw [hmem]
    exact forall_update (F := fun _ => Growing s.mem.dir sz) hthread trivial
      fun u hu => growing_outside (hi.locked.outside hold hu)
  · rw [hmem]
    refine forall_update (F := fun _ => Copying sz) hthread trivial fun u _ => ?_
    rcases hset with hsz | hnone
    · rw [hsz]
      exact hi.copying u
    · exact (hi.copying u).congr (hnone u)
  · exact apart_update hi.apart hthread (fun _ => rfl) (fun h => absurd h Bool.false_ne_true)
      fun h => absurd h Bool.false_ne_true

variable {ok : Bool}

theorem ForkInv.runGrow {g : Grow} (hi : ForkInv s) (hpc : s.thread t = .sbrk g)
    (hstart : ∀ addr n, g = .start addr n → n.toInt < 0 →
      s.mem.sz + n ≠ 0 ∧ ∀ u, (s.thread u).copies = false) (hset : ∀ addr n sz, g = .set addr n sz →
      sz = s.mem.sz ∨ ∀ u, (s.thread u).copies = false)
    (h : s.runGrow t ok g = some (s', e)) : ForkInv s' := by
  have hlocked := hi.locked.runGrow hpc h
  have hgrow := hi.growing t
  have hsmall := hi.small
  cases g with
  | enter addr n =>
    obtain ⟨-, he⟩ := Option.ite_none_right_eq_some.1 h
    cases he
    exact hi.quiet hlocked rfl rfl rfl trivial trivial (by rw [hpc]; rfl) rfl rfl
  | start addr n =>
    cases h
    have hcov := hi.covers_of_holds (t := t) (by rw [hpc]; rfl) (by rw [hpc]; rfl)
    refine hi.goto hlocked rfl rfl rfl
      (growing_startGrow hsmall hcov fun hn => (hstart addr n rfl hn).1) trivial
      (.inr (by rw [hpc]; rfl)) (fun hs => .inr ?_) fun hc => absurd hc Bool.false_ne_true
    exact (hstart addr n rfl (shrinks_startGrow hs)).2
  | alloc addr n old new a =>
    simp only [hpc, Growing] at hgrow
    obtain ⟨hn, hold, hnew, hdvd, hle, hcov⟩ := hgrow
    simp only [State.runGrow] at h
    split at h
    · split at h
      · obtain ⟨m, hm, he⟩ := Option.map_eq_some_iff.1 h
        cases he
        obtain ⟨hsz, hdir⟩ := Mem.mappage_eq hm
        refine hi.rewrite hlocked rfl hsz (by rw [hpc]; rfl) ?_ trivial rfl (by rw [hpc]; rfl) ?_
        · show Growing m.dir s.mem.sz _
          rw [hdir]
          exact ⟨hn, hold, hnew, Nat.dvd_add hdvd (Nat.dvd_refl _), by omega, hcov.alloc hdvd⟩
        · show _ → _ → m.dir.Covers _
          rw [hdir]
          exact fun _ h => h.enter
      · cases h
        exact hi.quiet hlocked rfl rfl rfl ⟨hold, hnew, Nat.le_refl _⟩ trivial
          (by rw [hpc]; rfl) rfl rfl
    · rename_i hlt
      cases h
      refine hi.quiet hlocked rfl rfl rfl ?_ trivial (by rw [hpc]; rfl) ?_ ?_
      · split
        · trivial
        · exact ⟨hnew, hcov.mono (Nat.le_of_not_lt hlt)⟩
      · split
        · rfl
        · simp only [Pc.shrinks, decide_eq_false_iff_not]
          omega
      · split <;> rfl
  | undo addr n old new a =>
    simp only [hpc, Growing] at hgrow
    obtain ⟨hold, hnew, hle⟩ := hgrow
    simp only [State.runGrow] at h
    split at h
    · rename_i hlt
      cases h
      have ha : a < 2 ^ 32 := Nat.lt_trans hlt new.isLt
      have hnext := Dir.lt_dealloc (d := s.mem.dir) ha
      refine hi.rewrite hlocked rfl rfl (by rw [hpc]; rfl) ⟨hold, hnew, by omega⟩ trivial rfl
        (by rw [hpc]; rfl) fun _ hcov => ?_
      rw [hold] at hle
      exact hcov.dealloc ha hle
    · cases h
      exact hi.quiet hlocked rfl rfl rfl trivial trivial (by rw [hpc]; rfl) rfl rfl
  | dealloc addr n old new a =>
    simp only [hpc, Growing] at hgrow
    obtain ⟨hn, hold, hlt, hne, hle, hcov⟩ := hgrow
    simp only [State.runGrow] at h
    split at h
    · rename_i ha
      cases h
      have ha : a < 2 ^ 32 := Nat.lt_trans ha old.isLt
      have hnext := Dir.lt_dealloc (d := s.mem.dir) ha
      exact hi.rewrite hlocked rfl rfl (by rw [hpc]; rfl)
        ⟨hn, hold, hlt, hne, by omega, hcov.dealloc ha hle⟩ trivial rfl (by rw [hpc]; rfl)
        fun hs => absurd hs.symm Bool.false_ne_true
    · cases h
      have hshrinks : (Pc.sbrk (.set addr n new)).shrinks = true := decide_eq_true hn
      have hnew := BitVec.lt_def.1 hlt
      rw [hold] at hnew
      exact hi.goto hlocked rfl rfl rfl ⟨Nat.lt_trans hnew hsmall, hcov⟩ trivial (.inl hshrinks)
        (fun _ => .inl (by rw [hpc]; rfl)) fun hc => absurd hc Bool.false_ne_true
  | set addr n sz =>
    cases h
    exact hi.set hlocked hpc rfl rfl (hset addr n sz rfl)
  | _ =>
    cases h
    exact hi.quiet hlocked rfl rfl rfl trivial trivial (by rw [hpc]; rfl) rfl rfl

/-! ## `fork` -/

theorem ForkInv.runFork {f : Fork} (hi : ForkInv s) (hpc : s.thread t = .fork f)
    (hread : f = .read → ∀ u, (s.thread u).shrinks = false)
    (h : s.runFork t ok f = some (s', e)) : ForkInv s' := by
  have hlocked := hi.locked.runFork hpc h
  have hcopy := hi.copying t
  have hold : (s.thread t).shrinks = false := by rw [hpc]; rfl
  cases f with
  | enter =>
    obtain ⟨-, he⟩ := Option.ite_none_right_eq_some.1 h
    cases he
    exact hi.quiet hlocked rfl rfl rfl trivial trivial hold rfl rfl
  | read =>
    cases h
    refine hi.goto hlocked rfl rfl rfl trivial ?_ (.inr hold)
      (fun hs => absurd hs Bool.false_ne_true) fun _ => .inr (hread rfl)
    split
    · exact ⟨rfl, Nat.dvd_zero _, fun b hb => absurd hb (Nat.not_lt_zero b)⟩
    · trivial
  | copy sz i child =>
    simp only [hpc, Copying] at hcopy
    obtain ⟨hsz, hdvd, hcov⟩ := hcopy
    have hcopies : (s.thread t).copies = true := by rw [hpc]; rfl
    simp only [State.runFork] at h
    split at h
    · split at h
      · split at h
        · obtain ⟨m, hm, he⟩ := Option.map_eq_some_iff.1 h
          cases he
          refine hi.goto hlocked rfl rfl rfl trivial ⟨hsz, ?_, ?_⟩ (.inr hold)
            (fun hs => absurd hs Bool.false_ne_true) fun _ => .inl hcopies
          · exact Nat.dvd_add hdvd (Nat.dvd_refl _)
          · rw [(Mem.mappage_eq hm).2]
            exact hcov.alloc hdvd
        · cases h
          exact hi.quiet hlocked rfl rfl rfl trivial trivial hold rfl rfl
      · cases h
    · rename_i hlt
      cases h
      refine hi.goto hlocked rfl rfl rfl trivial ?_ (.inr hold)
        (fun hs => absurd hs Bool.false_ne_true) fun _ => .inl hcopies
      rw [hsz] at hlt
      exact hcov.mono (Nat.le_of_not_lt hlt)
  | size child =>
    simp only [hpc, Copying] at hcopy
    cases h
    exact hi.quiet hlocked rfl rfl rfl trivial ⟨hi.small, hcopy⟩ hold rfl rfl
  | leave child =>
    cases h
    exact hi.quiet hlocked rfl rfl rfl trivial trivial hold rfl rfl

theorem ForkInv.step (hi : ForkInv s) (h : s.step l = some (s', e)) (hg : Undisturbed s l s') :
    ForkInv s' := by
  cases kind_of_step h with
  | grow t ok g hl hpc h =>
    refine hi.runGrow hpc (fun addr n hg' => ?_) (fun addr n sz hg' => ?_) h
    · exact hg.shrink t ok addr n hl (by rw [hpc, hg'])
    · exact hg.set t ok addr n sz hl (by rw [hpc, hg'])
  | fork t ok f hl hpc h =>
    exact hi.runFork hpc (fun hf => hg.read t ok hl (by rw [hpc, hf])) h
  | aside t pc ha _ _ =>
    exact hi.quiet (hi.locked.step h) ha.thread ha.sz ha.dir
      (growing_outside (Pc.aside_not_holds ha.new)) (copying_aside ha.new)
      (Pc.shrinks_aside ha.old) (Pc.shrinks_aside ha.new) (Pc.copies_aside ha.new)

theorem runGrow_no_child {g : Grow} {m : Mem} (h : s.runGrow t ok g = some (s', e)) :
    .child m ∉ e := by
  cases g <;> simp only [State.runGrow] at h <;> grind [Option.map_eq_some_iff]

/-- The memory of a child covers its size. -/
theorem ForkInv.child {m : Mem} (hi : ForkInv s) (h : s.step l = some (s', e))
    (hm : .child m ∈ e) : m.Loaded := by
  cases kind_of_step h with
  | grow t ok g hl hpc h => exact absurd hm (runGrow_no_child h)
  | fork t ok f hl hpc h =>
    obtain ⟨pc, hf⟩ := forks_of_runFork h
    obtain rfl | ⟨m', rfl, rfl⟩ := hf.event
    · cases hm
    · have hcopy := hi.copying t
      rw [hpc] at hcopy
      cases List.mem_singleton.1 hm
      exact hcopy
  | aside t pc ha _ he =>
    rw [he] at hm
    cases hm

theorem forkInv_of_life (h : Life Undisturbed s) : ForkInv s := by
  induction h with
  | userinit image => exact (Mem.loaded_initcode image).forkInv
  | step _ hs hg ih => exact ih.step hs hg
  | @exec s phs image m _ hout hm ih =>
    have hloaded := Mem.loaded_exec hm
    refine ⟨ih.locked, hloaded.small, fun _ => hloaded.covers, fun t => ?_, fun t => ?_, ih.apart⟩
    · rw [show ({ s with mem := m } : State T).thread t = .out from hout t]
      trivial
    · rw [show ({ s with mem := m } : State T).thread t = .out from hout t]
      trivial
  | child _ hs _ hm ih => exact (ih.child hs hm).forkInv

/-- **`copyuvm` finds every page.** In the life of a process in which `fork` is not disturbed,
when `copyuvm` runs on the size `sz` every page below `sz` has a page table and is present. -/
theorem copyuvm_finds_pages (h : Life Undisturbed s) (t : T) (sz : BitVec 32) (i : Nat)
    (child : Mem) (hpc : s.thread t = .fork (.copy sz i child)) (a : Nat) (ha : a < sz.toNat) :
    ∃ tab, s.mem.dir (PDX a) = some tab ∧ tab (PTX a) = true := by
  have hi := forkInv_of_life h
  have hcopy := hi.copying t
  simp only [hpc, Copying] at hcopy
  have hpres : s.mem.dir.present a = true := by
    rw [hcopy.1] at ha
    exact hi.covers_of_copies (t := t) (by rw [hpc]; rfl) a ha
  unfold Dir.present at hpres
  split at hpres
  · rename_i tab htab
    exact ⟨tab, htab, hpres⟩
  · cases hpres

/-- The size that `copyuvm` was called with. -/
def Pc.copySize : Pc → Option (BitVec 32)
  | .fork (.copy sz _ _) => some sz
  | _ => none

omit [DecidableEq T] in
theorem Pc.copySize_some (h : pc.copySize = some sz) :
    ∃ i child, pc = .fork (.copy sz i child) := by
  unfold copySize at h
  split at h
  · cases h
    exact ⟨_, _, rfl⟩
  · cases h

/-- A step without its events. -/
def State.next (s : State T) (l : Label T) : Option (State T) := (s.step l).map Prod.fst

theorem Life.run {G : Guard (State T) (Label T)} (h : Life G s) (hr : Run State.next G s s') :
    Life G s' := by
  induction hr with
  | refl => exact h
  | next _ hs hg ih =>
    obtain ⟨⟨s1, e⟩, he, rfl⟩ := Option.map_eq_some_iff.1 hs
    exact ih.step he hg

/-- A process with the memory `m` after the steps `ls`. -/
abbrev ran (m : Mem) (ls : List (Label (Fin 2))) : State (Fin 2) := final State.next (.start m) ls

/-- Thread 1 of the first process grows it by a page, and then thread 0 forks and copies the
first of the two pages. -/
def growThenFork : List (Label (Fin 2)) :=
  [.sbrk 1 4096, .fork 0] ++ List.replicate 7 (.run 1 true) ++ List.replicate 3 (.run 0 true)

def isUndisturbed (s : State (Fin 2)) : Label (Fin 2) → Bool
  | .run t _ =>
    match s.thread t with
    | .fork .read => (s.thread 0).shrinks = false ∧ (s.thread 1).shrinks = false
    | .sbrk (.start _ n) => 0 ≤ n.toInt ∨
        (s.mem.sz + n ≠ 0 ∧ (s.thread 0).copies = false ∧ (s.thread 1).copies = false)
    | .sbrk (.set _ _ sz) => sz = s.mem.sz ∨
        ((s.thread 0).copies = false ∧ (s.thread 1).copies = false)
    | _ => true
  | _ => true

theorem isUndisturbed_guard {s s' : State (Fin 2)} {l : Label (Fin 2)}
    (h : isUndisturbed s l) : Undisturbed s l s' where
  read := by
    rintro t ok rfl hpc
    simp only [isUndisturbed, hpc, decide_eq_true_eq] at h
    exact Fin.forall_fin_two.2 h
  shrink := by
    rintro t ok addr n rfl hpc hn
    simp only [isUndisturbed, hpc, decide_eq_true_eq] at h
    obtain ⟨hne, hnone⟩ := h.resolve_left (by omega)
    exact ⟨hne, Fin.forall_fin_two.2 hnone⟩
  set := by
    rintro t ok addr n sz rfl hpc
    simp only [isUndisturbed, hpc, decide_eq_true_eq] at h
    exact h.imp_right fun h => Fin.forall_fin_two.2 h

theorem copyuvm_finds_second_page : ((ran (.initcode fun _ => 0) growThenFork).thread 0).copySize =
        some 8192 ∧ ∃ tab, (ran (.initcode fun _ => 0) growThenFork).mem.dir
        (PDX 4096) = some tab ∧ tab (PTX 4096) = true := by
  have hrun : Run State.next Undisturbed (.start (.initcode fun _ => 0))
      (ran (.initcode fun _ => 0) growThenFork) :=
    run_final isUndisturbed_guard
  have hsize : ((ran (.initcode fun _ => 0) growThenFork).thread
      0).copySize = some 8192 := by decide +kernel
  obtain ⟨i, child, hpc⟩ := Pc.copySize_some hsize
  exact ⟨hsize,
    copyuvm_finds_pages ((Life.userinit _).run hrun) 0 8192 i child hpc 4096 (by decide)⟩

/-- Thread 1 shrinks the process again when `fork` has copied the first page. -/
def forkThenShrink : List (Label (Fin 2)) :=
  growThenFork ++ [.sbrk 1 (-4096)] ++ List.replicate 4 (.run 1 true)

/-- The second page is gone: `copyuvm` was called with the size 8192 and panics at its next
page. -/
theorem copyuvm_misses_page : Life free (ran (.initcode fun _ => 0) forkThenShrink) ∧
      ((ran (.initcode fun _ => 0) forkThenShrink).thread 0).copySize = some 8192 ∧
      (ran (.initcode fun _ => 0) forkThenShrink).mem.dir.present 4096 =
        false ∧ ((ran (.initcode fun _ => 0) forkThenShrink).next
        (.run 0 true)).isNone := by
  have hrun : Run State.next free (.start (.initcode fun _ => 0))
      (ran (.initcode fun _ => 0) forkThenShrink) :=
    run_free
  exact ⟨(Life.userinit _).run hrun, by decide +kernel⟩

end Xv6.Memory
