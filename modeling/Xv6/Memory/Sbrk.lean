import Xv6.Memory.Steps

/-! The ranges that `sbrk` returns. `sys_sbrk` reads the size before `growproc` takes
`p->lock`, so the range of a call is its own only if nobody has changed the size in between. -/

namespace Xv6.Memory

open Runs Pages

variable {T : Type} {s s' : State T} {t u : T} {log e : List (Event T)} {pc : Pc}

/-- The ranges returned by the calls of `sbrk`, as first and last address plus one; the latest
call is the first. -/
def returned : List (Event T) → List (Nat × Nat)
  | [] => []
  | .sbrk _ addr n :: l => (addr.toNat, addr.toNat + n.toNat) :: returned l
  | _ :: l => returned l

/-- Every call asks for more memory, and finds the size when it takes `p->lock` as it has
read it. -/
structure Current (s : State T × List (Event T)) (l : Label T) (_ : State T × List (Event T)) :
    Prop where
  positive : ∀ t n, l = .sbrk t n → 0 < n.toInt
  same : ∀ t ok addr n, l = .run t ok → s.1.thread t = .sbrk (.enter addr n) →
    s.1.mem.sz = addr

/-- What is known of a thread in `sbrk` when the ranges `rs` have been returned. -/
def Fits (sz : BitVec 32) (rs : List (Nat × Nat)) : Pc → Prop
  | .sbrk (.read n) | .sbrk (.enter _ n) => 0 < n.toInt
  | .sbrk (.start addr n) => 0 < n.toInt ∧ addr = sz
  | .sbrk (.alloc addr n _ new _) | .sbrk (.set addr n new) =>
    addr = sz ∧ new.toNat = sz.toNat + n.toNat ∧ new.toNat < KERNBASE
  | .sbrk (.dealloc ..) => False
  | .sbrk (.leave addr n ok) => ok = true →
    sz.toNat = addr.toNat + n.toNat ∧ ∀ r ∈ rs, r.2 ≤ addr.toNat
  | _ => True

theorem Fits.outside {sz sz' : BitVec 32} {rs rs' : List (Nat × Nat)} (h : Fits sz rs pc)
    (hpc : pc.holds = false) : Fits sz' rs' pc := by
  cases pc with
  | sbrk g => cases g <;> first | exact h | exact absurd hpc.symm Bool.false_ne_true
  | out | fork f | path p => trivial

theorem fits_aside {sz : BitVec 32} {rs : List (Nat × Nat)} (hpc : pc.aside = true)
    (h : ∀ n, pc = .sbrk (.read n) → 0 < n.toInt) : Fits sz rs pc := by
  cases pc with
  | sbrk g =>
    cases g with
    | read n => exact h n rfl
    | _ => exact absurd hpc Bool.false_ne_true
  | out | fork f | path p => trivial

/-- Two ranges do not overlap. -/
def Apart (r r' : Nat × Nat) : Prop := r.2 ≤ r'.1 ∨ r'.2 ≤ r.1

structure SbrkInv (s : State T × List (Event T)) : Prop where
  locked : Locked s.1
  small : s.1.mem.sz.toNat < KERNBASE
  below : ∀ r ∈ returned s.2, r.2 ≤ s.1.mem.sz.toNat
  fits : ∀ t, Fits s.1.mem.sz (returned s.2) (s.1.thread t)
  apart : (returned s.2).Pairwise Apart

/-- A positive `n` does not take the size around. -/
theorem toNat_of_positive {n : BitVec 32} (h : 0 < n.toInt) : n.toNat < 2 ^ 31 := by
  rw [BitVec.toInt_eq_toNat_cond] at h
  split at h <;> omega

theorem sbrkInv_start (m : Mem) (hm : m.sz.toNat < KERNBASE) :
    SbrkInv ((State.start m, []) : State T × List (Event T)) :=
  ⟨locked_start m, hm, fun _ h => absurd h List.not_mem_nil, fun _ => trivial, .nil⟩

variable [DecidableEq T]

theorem SbrkInv.goto (hi : SbrkInv (s, log)) (hlocked : Locked s')
    (hthread : s'.thread = Function.update s.thread t pc) (hsz : s'.mem.sz = s.mem.sz)
    (hpc : Fits s.mem.sz (returned log) pc) : SbrkInv (s', log) where
  locked := hlocked
  small := by
    rw [hsz]
    exact hi.small
  below := by
    rw [hsz]
    exact hi.below
  fits := by
    rw [hsz]
    exact forall_update (F := fun _ => Fits s.mem.sz (returned log)) hthread hpc
      fun u _ => hi.fits u
  apart := hi.apart

theorem fits_startGrow {sz n : BitVec 32} {rs : List (Nat × Nat)} (hn : 0 < n.toInt)
    (hsz : sz.toNat < KERNBASE) : Fits sz rs (.sbrk (State.startGrow sz sz n)) := by
  have hlt := toNat_of_positive hn
  have hadd : (sz + n).toNat = sz.toNat + n.toNat := by
    rw [BitVec.toNat_add]
    simp only [KERNBASE] at hsz
    omega
  unfold State.startGrow
  rw [if_pos hn]
  split
  · exact fun h => absurd h Bool.false_ne_true
  · rename_i hsmall
    rw [if_neg (by rw [BitVec.lt_def]; omega)]
    exact ⟨rfl, hadd, Nat.lt_of_not_le hsmall⟩

theorem SbrkInv.runGrow {g : Grow} {ok : Bool} (hi : SbrkInv (s, log))
    (hpc : s.thread t = .sbrk g) (hg : ∀ addr n, g = .enter addr n → s.mem.sz = addr)
    (h : s.runGrow t ok g = some (s', e)) : SbrkInv (s', e ++ log) := by
  have hlocked := hi.locked.runGrow hpc h
  have hfits := hi.fits t
  cases g with
  | read n =>
    simp only [hpc, Fits] at hfits
    cases h
    exact hi.goto hlocked rfl rfl hfits
  | enter addr n =>
    simp only [hpc, Fits] at hfits
    obtain ⟨-, he⟩ := Option.ite_none_right_eq_some.1 h
    cases he
    exact hi.goto hlocked rfl rfl ⟨hfits, (hg addr n rfl).symm⟩
  | start addr n =>
    simp only [hpc, Fits] at hfits
    cases h
    obtain ⟨hn, rfl⟩ := hfits
    exact hi.goto hlocked rfl rfl (fits_startGrow hn hi.small)
  | alloc addr n old new a =>
    simp only [hpc, Fits] at hfits
    simp only [State.runGrow] at h
    split at h
    · split at h
      · obtain ⟨m, hm, he⟩ := Option.map_eq_some_iff.1 h
        cases he
        refine hi.goto hlocked rfl ?_ hfits
        unfold Mem.mappage at hm
        split at hm <;> cases hm
        rfl
      · cases h
        exact hi.goto hlocked rfl rfl trivial
    · cases h
      refine hi.goto hlocked rfl rfl ?_
      split
      · exact fun h => absurd h Bool.false_ne_true
      · exact hfits
  | undo addr n old new a =>
    simp only [State.runGrow] at h
    split at h <;> cases h
    · exact hi.goto hlocked rfl rfl trivial
    · exact hi.goto hlocked rfl rfl fun h => absurd h Bool.false_ne_true
  | dealloc addr n old new a =>
    simp only [hpc, Fits] at hfits
  | set addr n sz =>
    simp only [hpc, Fits] at hfits
    obtain ⟨rfl, hsz, hsmall⟩ := hfits
    cases h
    -- the size grows, and every range returned so far lies below the old one
    refine ⟨hlocked, hsmall, fun r hr => ?_, ?_, hi.apart⟩
    · show r.2 ≤ sz.toNat
      have hbelow : r.2 ≤ s.mem.sz.toNat := hi.below r hr
      omega
    · refine forall_update (F := fun _ => Fits sz (returned log)) rfl (fun _ => ⟨hsz, hi.below⟩) ?_
      exact fun u hu => (hi.fits u).outside (hi.locked.outside (by rw [hpc]; rfl) hu)
  | leave addr n ok' =>
    simp only [hpc, Fits] at hfits
    cases h
    cases ok' with
    | false => exact hi.goto hlocked rfl rfl trivial
    | true =>
      obtain ⟨hsz, hbelow⟩ := hfits rfl
      refine ⟨hlocked, hi.small, ?_, ?_, ?_⟩
      · show ∀ r ∈ (addr.toNat, addr.toNat + n.toNat) :: returned log, r.2 ≤ s.mem.sz.toNat
        rintro r (_ | ⟨_, hr⟩)
        · exact hsz.ge
        · exact hi.below r hr
      · refine forall_update (F := fun _ => Fits s.mem.sz (returned (.sbrk t addr n :: log))) rfl
          trivial ?_
        exact fun u hu => (hi.fits u).outside (hi.locked.outside (by rw [hpc]; rfl) hu)
      · exact .cons (fun r hr => .inr (hbelow r hr)) hi.apart

/-- Whatever `fork` does, it returns no range. -/
theorem SbrkInv.runFork {f : Fork} {ok : Bool} (hi : SbrkInv (s, log))
    (hpc : s.thread t = .fork f) (h : s.runFork t ok f = some (s', e)) :
    SbrkInv (s', e ++ log) := by
  obtain ⟨pc, hf⟩ := forks_of_runFork h
  have hgone : SbrkInv (s', log) := by
    refine hi.goto (hi.locked.runFork hpc h) hf.thread (by rw [hf.mem]) ?_
    obtain rfl | ⟨f', rfl⟩ := hf.new <;> trivial
  obtain rfl | ⟨m, -, rfl⟩ := hf.event
  · exact hgone
  · exact ⟨hgone.locked, hgone.small, hgone.below, hgone.fits, hgone.apart⟩

theorem SbrkInv.step {l : Label T} (hi : SbrkInv (s, log))
    (hpos : ∀ t n, l = .sbrk t n → 0 < n.toInt)
    (hsame : ∀ t ok addr n, l = .run t ok → s.thread t = .sbrk (.enter addr n) → s.mem.sz = addr)
    (h : s.step l = some (s', e)) : SbrkInv (s', e ++ log) := by
  cases kind_of_step h with
  | grow t ok g hl hpc h =>
    exact hi.runGrow hpc (fun addr n hg => hsame t ok addr n hl (by rw [hpc, hg])) h
  | fork t ok f hl hpc h => exact hi.runFork hpc h
  | aside t pc ha hread he =>
    subst he
    refine hi.goto (hi.locked.step h) ha.thread ha.sz (fits_aside ha.new fun n hn => ?_)
    exact hpos t n (hread n hn)

/-- **Ranges of `sbrk`.** When every call of `sbrk` asks for more memory and takes `p->lock`
while the size is still what it has read, the ranges that the calls return do not overlap. -/
theorem sbrk_ranges_disjoint (m : Mem) (hm : m.sz.toNat < KERNBASE) (s : State T)
    (log : List (Event T)) (hr : Run (recording State.step) Current (State.start m, []) (s, log)) :
    (returned log).Pairwise Apart := by
  have hinv : SbrkInv (s, log) := by
    refine hr.invariant (sbrkInv_start m hm) fun x l y hx hs hg => ?_
    obtain ⟨e, he, hy⟩ := recording_some hs
    have hnext := SbrkInv.step hx hg.positive hg.same he
    rwa [← hy] at hnext
  exact hinv.apart

/-- The steps of `sbrk(1)` after the read of the size, for a size that is a multiple of
`PGSIZE`. -/
def growOne (t : Fin 2) : List (Label (Fin 2)) := List.replicate 6 (.run t true)

/-- Two threads call `sbrk(1)`, one after the other. -/
def inTurn : List (Label (Fin 2)) :=
  [.sbrk 0 1, .run 0 true] ++ growOne 0 ++ [.sbrk 1 1, .run 1 true] ++
    List.replicate 5 (.run 1 true)

def isCurrent (s : State (Fin 2) × List (Event (Fin 2))) : Label (Fin 2) → Bool
  | .sbrk _ n => 0 < n.toInt
  | .run t _ =>
    match s.1.thread t with
    | .sbrk (.enter addr _) => s.1.mem.sz = addr
    | _ => true
  | _ => true

theorem isCurrent_guard {s s' : State (Fin 2) × List (Event (Fin 2))} {l : Label (Fin 2)}
    (h : isCurrent s l) : Current s l s' where
  positive := by
    rintro t n rfl
    simpa [isCurrent] using h
  same := by
    rintro t ok addr n rfl hpc
    simpa [isCurrent, hpc] using h

/-- The first process before its first step, with no event recorded. -/
abbrev unrecorded : State (Fin 2) × List (Event (Fin 2)) := (.start (.initcode fun _ => 0), [])

/-- The first process after the steps `ls`, with what was recorded. -/
abbrev recorded (ls : List (Label (Fin 2))) : State (Fin 2) × List (Event (Fin 2)) :=
  final (recording State.step) unrecorded ls

theorem sbrk_ranges_inTurn : returned (recorded inTurn).2 = [(4097, 4098), (4096, 4097)] ∧
    (returned (recorded inTurn).2).Pairwise Apart := by
  have hrun : Run (recording State.step) Current unrecorded (recorded inTurn) :=
    run_final isCurrent_guard
  exact ⟨by decide +kernel, sbrk_ranges_disjoint _ (by decide) _ _ hrun⟩

/-- Two threads call `sbrk(1)`, and both read the size before one of them grows it. -/
def atOnce : List (Label (Fin 2)) :=
  [.sbrk 0 1, .sbrk 1 1, .run 0 true, .run 1 true] ++ growOne 0 ++ List.replicate 5 (.run 1 true)

/-- Both calls succeed and return the same byte. -/
theorem sbrk_ranges_atOnce : Run (recording State.step) free unrecorded (recorded atOnce) ∧
    returned (recorded atOnce).2 = [(4096, 4097), (4096, 4097)] ∧
    ¬ Apart (4096, 4097) (4096, 4097) :=
  ⟨run_free, by decide +kernel, by simp [Apart]⟩

end Xv6.Memory
