import Xv6.Lib.Totals
import Xv6.Links.Model

/-! The directories as they are stored: which entries name which inodes, and what the link
counts have to do with them. A call changes several inodes one after the other; `pend i` is
what the link count of `i` is ahead of the entries in between. -/

namespace Xv6.Links

open Totals Function

variable {n : Nat}

/-- A live entry other than "." and "..". -/
def Dirent.proper (e : Dirent n) : Bool := e.inum ≠ 0 ∧ e.name ≠ dot ∧ e.name ≠ dotdot

/-- The proper entries that name `i`. -/
def named (i : Inum n) (es : List (Dirent n)) : Int := es.countP fun e => e.inum = i ∧ e.proper

/-- The proper entries of all directories that name `i`. -/
def entries (N : Inum n → Node n) (i : Inum n) : Int := total (fun x => named i x.ents) N

/-- The proper entries that name directories. -/
def subdirs (N : Inum n → Node n) (es : List (Dirent n)) : Int :=
  es.countP fun e => e.proper ∧ (N e.inum).type = .dir

/-- The inode that ".." names. -/
def up (x : Node n) : Inum n := (x.ents[1]?).elim 0 Dirent.inum

/-- The first two entries are "." for `i` and ".." for `p`, and no other entry has one of
these names. -/
def Dots (i p : Inum n) (es : List (Dirent n)) : Prop :=
  ∃ rest, es = ⟨i, dot⟩ :: ⟨p, dotdot⟩ :: rest ∧ i ≠ 0 ∧ p ≠ 0 ∧
    ∀ e ∈ rest, e.inum ≠ 0 → e.proper

/-- 1 at `i` and 0 elsewhere. -/
def one {α : Type} [DecidableEq α] (i : α) : α → Int := fun j => if j = i then 1 else 0

/-- What holds of the directories. Under `B` the link counts are exact, and a directory that
no entry names has no proper entries. -/
structure Tree (B : Prop) (N : Inum n → Node n) (pend : Inum n → Int) : Prop where
  root : (N ROOTINO).type = .dir
  rootUp : up (N ROOTINO) = ROOTINO
  rootless : entries N ROOTINO = 0
  zero : (N 0).type = .free
  plain : ∀ i, (N i).type ≠ .dir → (N i).ents = []
  dots : ∀ i, (N i).type = .dir → Dots i (up (N i)) (N i).ents
  freed : ∀ i, (N i).type = .free → (N i).nlink = 0
  pending : ∀ i, 0 ≤ pend i
  links : ∀ i, entries N i + subdirs N (N i).ents + one ROOTINO i + pend i ≤ (N i).nlink
  exact : B → ∀ i, (N i).nlink = entries N i + subdirs N (N i).ents + one ROOTINO i + pend i
  parent : ∀ p, ∀ e ∈ (N p).ents, e.proper → (N e.inum).type = .dir → up (N e.inum) = p
  once : ∀ i, (N i).type = .dir → entries N i ≤ 1
  tidy : B → ∀ i, i ≠ ROOTINO → entries N i = 0 → ∀ e ∈ (N i).ents, e.proper = false

/-! ## Counting -/

theorem named_nonneg (i : Inum n) (es : List (Dirent n)) : 0 ≤ named i es := Int.natCast_nonneg _

theorem entries_nonneg (N : Inum n → Node n) (i : Inum n) : 0 ≤ entries N i :=
  total_nonneg fun _ => named_nonneg i _

theorem subdirs_nonneg (N : Inum n → Node n) (es : List (Dirent n)) : 0 ≤ subdirs N es :=
  Int.natCast_nonneg _

section

variable {α : Type} [DecidableEq α]

theorem one_nonneg (i j : α) : 0 ≤ one i j := by
  unfold one
  split <;> decide

@[simp] theorem one_self (i : α) : one i i = 1 := if_pos rfl

theorem one_of_ne {i j : α} (h : j ≠ i) : one i j = 0 := if_neg h

theorem one_le_left (i j : α) : 1 ≤ (one i + one j) i := by
  have := one_nonneg j i
  rw [Pi.add_apply, one_self]
  omega

theorem one_le_right (i j : α) : 1 ≤ (one i + one j) j := by
  rw [add_comm]
  exact one_le_left j i

end

variable {i : Inum n} {es : List (Dirent n)} {e : Dirent n}

theorem named_pos (he : e ∈ es) (hi : e.inum = i) (hp : e.proper) : 0 < named i es := by
  have hpos : 0 < es.countP fun e => e.inum = i ∧ e.proper :=
    List.countP_pos_iff.2 ⟨e, he, decide_eq_true ⟨hi, hp⟩⟩
  unfold named
  omega

theorem named_zero (h : ∀ e ∈ es, e.proper = false) : named i es = 0 := by
  have h0 : es.countP (fun e => e.inum = i ∧ e.proper) = 0 :=
    List.countP_eq_zero.2 fun e he => by simp [h e he]
  rw [named, h0]
  rfl

theorem named_le_entries (N : Inum n → Node n) (d i : Inum n) : named i (N d).ents ≤ entries N i :=
  le_total (w := fun x : Node n => named i x.ents) (fun _ => named_nonneg i _) d

variable {N : Inum n → Node n}

/-- No entry names an inode that no entry is counted for. -/
theorem inum_ne_of_entries {d : Inum n} (h : entries N i = 0)
    (he : e ∈ (N d).ents) (hp : e.proper) : e.inum ≠ i := by
  intro hi
  have h1 := named_pos he hi hp
  have h2 := named_le_entries N d i
  omega

/-- A named inode is named in some directory. -/
theorem exists_named (h : 0 < entries N i) : ∃ d, ∃ e ∈ (N d).ents, e.inum = i ∧ e.proper := by
  have hsome : ∃ d, named i (N d).ents ≠ 0 := by
    by_contra hnone
    have h0 : entries N i = 0 := total_eq_zero fun d => by
      by_contra hd
      exact hnone ⟨d, hd⟩
    omega
  obtain ⟨d, hd⟩ := hsome
  have hcount : 0 < (N d).ents.countP fun e => e.inum = i ∧ e.proper := by
    unfold named at hd
    omega
  obtain ⟨e, he, hprop⟩ := List.countP_pos_iff.1 hcount
  exact ⟨d, e, he, of_decide_eq_true hprop⟩

theorem entries_update (N : Inum n → Node n) (d i : Inum n) (x : Node n) :
    entries (update N d x) i = entries N i - named i (N d).ents + named i x.ents :=
  total_update _ N d x

/-- Only the types of the inodes that are named matter. -/
theorem subdirs_congr {N' : Inum n → Node n}
    (h : ∀ e ∈ es, e.proper → ((N' e.inum).type = .dir ↔ (N e.inum).type = .dir)) :
    subdirs N' es = subdirs N es := by
  unfold subdirs
  congr 1
  refine List.countP_congr fun e he => ?_
  by_cases hp : e.proper
  · simp [h e he hp]
  · simp [hp]

theorem subdirs_zero (h : ∀ e ∈ es, e.proper = false) : subdirs N es = 0 := by
  have h0 : es.countP (fun e => e.proper ∧ (N e.inum).type = .dir) = 0 :=
    List.countP_eq_zero.2 fun e he => by simp [h e he]
  rw [subdirs, h0]
  rfl

/-! ## Entries written and cleared -/

section Lists

variable {es : List (Dirent n)} {e e' : Dirent n} {i p : Inum n} {name : Name} {k : Nat}

theorem findEnt_some (h : findEnt es name = some (i, k)) :
    ∃ e, es[k]? = some e ∧ e.inum = i ∧ i ≠ 0 ∧ e.name = name := by
  unfold findEnt at h
  split at h
  · rename_i j hj
    obtain ⟨e, he, heq⟩ := Option.map_eq_some_iff.1 h
    cases heq
    obtain ⟨hlt, hp, -⟩ := List.findIdx?_eq_some_iff_getElem.1 hj
    rw [List.getElem?_eq_getElem hlt] at he
    cases he
    have hp' := of_decide_eq_true hp
    exact ⟨_, List.getElem?_eq_getElem hlt, rfl, hp'.1, hp'.2⟩
  · cases h

theorem findEnt_none (h : findEnt es name = none) (he : e ∈ es) (h0 : e.inum ≠ 0) :
    e.name ≠ name := by
  unfold findEnt at h
  split at h
  · rename_i j hj
    obtain ⟨hlt, -⟩ := List.findIdx?_eq_some_iff_getElem.1 hj
    rw [List.getElem?_eq_getElem hlt] at h
    cases h
  · rename_i hj
    have := List.findIdx?_eq_none_iff.1 hj e he
    simp_all

theorem mem_addEnt (h : e' ∈ addEnt es e) : e' = e ∨ e' ∈ es := by
  unfold addEnt at h
  split at h
  · exact (List.mem_or_eq_of_mem_set h).symm
  · simpa [or_comm] using h

variable {P : Dirent n → Bool}

theorem countP_addEnt (h0 : ∀ e, e.inum = 0 → P e = false) :
    ((addEnt es e).countP P : Int) = es.countP P + if P e then 1 else 0 := by
  unfold addEnt
  split
  · rename_i k hk
    obtain ⟨hlt, hp, -⟩ := List.findIdx?_eq_some_iff_getElem.1 hk
    have hz : P es[k] = false := h0 _ (of_decide_eq_true hp)
    rw [List.countP_set hlt, hz]
    split <;> simp_all
  · rw [List.countP_append]
    split <;> simp_all

theorem countP_clearEnt (h0 : P ⟨0, []⟩ = false) (hk : es[k]? = some e) :
    ((clearEnt es k).countP P : Int) = es.countP P - if P e then 1 else 0 := by
  obtain ⟨hlt, rfl⟩ := List.getElem?_eq_some_iff.1 hk
  unfold clearEnt
  rw [List.countP_set hlt, h0]
  have hpos : P es[k] = true → 0 < es.countP P := fun hp =>
    List.countP_pos_iff.2 ⟨_, List.getElem_mem hlt, hp⟩
  split
  · rename_i hp
    have := hpos hp
    simp
    omega
  · simp

theorem named_addEnt (j : Inum n) (he : e.proper) :
    named j (addEnt es e) = named j es + one e.inum j := by
  unfold named
  rw [countP_addEnt]
  · congr 1
    by_cases hj : j = e.inum
    · simp [hj, he]
    · rw [one_of_ne hj]
      simp [Ne.symm hj]
  · intro e h0
    simp [Dirent.proper, h0]

theorem subdirs_addEnt (N : Inum n → Node n) (he : e.proper) :
    subdirs N (addEnt es e) = subdirs N es + if (N e.inum).type = .dir then 1 else 0 := by
  unfold subdirs
  rw [countP_addEnt]
  · simp [he]
  · intro e h0
    simp [Dirent.proper, h0]

theorem named_clearEnt (j : Inum n) (hk : es[k]? = some e) (he : e.proper) :
    named j (clearEnt es k) = named j es - one e.inum j := by
  unfold named
  rw [countP_clearEnt (by simp [Dirent.proper]) hk]
  congr 1
  by_cases hj : j = e.inum
  · simp [hj, he]
  · rw [one_of_ne hj]
    simp [Ne.symm hj]

theorem subdirs_clearEnt (N : Inum n → Node n) (hk : es[k]? = some e) (he : e.proper) :
    subdirs N (clearEnt es k) = subdirs N es - if (N e.inum).type = .dir then 1 else 0 := by
  unfold subdirs
  rw [countP_clearEnt (by simp [Dirent.proper]) hk]
  simp [he]

theorem mem_clearEnt (h : e' ∈ clearEnt es k) (he : e'.proper) : e' ∈ es := by
  rcases List.mem_or_eq_of_mem_set h with h | rfl
  · exact h
  · simp [Dirent.proper] at he

theorem Dots.addEnt (h : Dots i p es) (he : e.proper) : Dots i p (addEnt es e) := by
  obtain ⟨rest, rfl, hi, hp, hrest⟩ := h
  unfold Links.addEnt
  split
  · rename_i k hk
    obtain ⟨hlt, hz, -⟩ := List.findIdx?_eq_some_iff_getElem.1 hk
    match k with
    | 0 => simp [hi] at hz
    | 1 => simp [hp] at hz
    | k + 2 =>
      refine ⟨rest.set k e, rfl, hi, hp, fun e' he' h0 => ?_⟩
      rcases List.mem_or_eq_of_mem_set he' with hm | rfl
      · exact hrest e' hm h0
      · exact he
  · refine ⟨rest ++ [e], rfl, hi, hp, fun e' he' h0 => ?_⟩
    rcases List.mem_append.1 he' with hm | hm
    · exact hrest e' hm h0
    · rw [List.mem_singleton.1 hm]
      exact he

theorem Dots.clearEnt (h : Dots i p es) (hk : es[k]? = some e) (he : e.proper) :
    Dots i p (clearEnt es k) := by
  obtain ⟨rest, rfl, hi, hp, hrest⟩ := h
  match k with
  | 0 =>
    cases hk
    simp [Dirent.proper] at he
  | 1 =>
    cases hk
    simp [Dirent.proper] at he
  | k + 2 =>
    refine ⟨rest.set k ⟨0, []⟩, rfl, hi, hp, fun e' he' h0 => ?_⟩
    rcases List.mem_or_eq_of_mem_set he' with hm | rfl
    · exact hrest e' hm h0
    · exact absurd rfl h0

theorem Dots.up_eq (h : Dots i p es) {x : Node n} (hx : x.ents = es) : up x = p := by
  obtain ⟨rest, rfl, -⟩ := h
  rw [up, hx]
  rfl

end Lists

/-! ## What the calls do to the directories -/

section Changes

variable {B : Prop} {N N' : Inum n → Node n} {pend : Inum n → Int} {i d : Inum n}

/-- An inode without links is named by no entry and has no subdirectories. -/
theorem Tree.unlinked (h : Tree B N pend) (hi : (N i).nlink = 0) :
    entries N i = 0 ∧ subdirs N (N i).ents = 0 ∧ i ≠ ROOTINO ∧ pend i = 0 := by
  have hl := h.links i
  have h1 := entries_nonneg N i
  have h2 := subdirs_nonneg N (N i).ents
  have h3 := one_nonneg ROOTINO i
  have h4 := h.pending i
  refine ⟨by omega, by omega, ?_, by omega⟩
  rintro rfl
  rw [one_self] at hl
  omega

/-- A change of an inode that no entry names leaves the counts of subdirectories alone. -/
theorem subdirs_update {x : Node n} (hi : entries N i = 0) (d : Inum n) :
    subdirs (update N i x) (N d).ents = subdirs N (N d).ents := by
  refine subdirs_congr fun e he hp => ?_
  rw [update_of_ne (inum_ne_of_entries hi he hp)]

section

variable (h : Tree B N pend)

include h

variable {pend' : Inum n → Int}

/-- An inode without links gives way to `x`, which has no proper entries. -/
theorem Tree.replace {x : Node n}
    (hi : (N i).nlink = 0) (h0 : i = 0 → x.type = .free) (hfree : x.type = .free → x.nlink = 0)
    (hnl : 0 ≤ x.nlink) (hfile : x.type ≠ .dir → x.ents = [])
    (hdir : x.type = .dir → Dots i (up x) x.ents) (hplain : ∀ e ∈ x.ents, e.proper = false)
    (hpend' : ∀ j, pend' j = pend j + x.nlink * one i j) : Tree B (update N i x) pend' := by
  obtain ⟨hent, -, hroot, hpend⟩ := h.unlinked hi
  have hnamed (j : Inum n) : entries (update N i x) j = entries N j - named j (N i).ents := by
    rw [entries_update, named_zero hplain, Int.add_zero]
  have hle (j : Inum n) : entries (update N i x) j ≤ entries N j := by
    have := named_nonneg j (N i).ents
    rw [hnamed]
    omega
  have hzero {j : Inum n} (hj : entries N j = 0) : entries (update N i x) j = 0 :=
    le_antisymm (hj ▸ hle j) (entries_nonneg _ j)
  have hexact (hB : B) (j : Inum n) : entries (update N i x) j = entries N j := by
    rw [hnamed, named_zero (h.tidy hB i hroot hent), Int.sub_zero]
  -- The counts of the new inode, and what the other inodes are ahead by.
  have hself : entries (update N i x) i +
      subdirs (update N i x) x.ents + one ROOTINO i + pend' i = x.nlink := by
    rw [hzero hent, subdirs_zero hplain, one_of_ne hroot, hpend', hpend, one_self]
    omega
  have hother {j : Inum n} (hj : j ≠ i) : pend' j = pend j := by
    rw [hpend', one_of_ne hj, Int.mul_zero, Int.add_zero]
  constructor
  · rw [update_of_ne hroot.symm]
    exact h.root
  · rw [update_of_ne hroot.symm]
    exact h.rootUp
  · exact hzero h.rootless
  · by_cases hi0 : 0 = i
    · subst hi0
      rw [update_self]
      exact h0 rfl
    · rw [update_of_ne hi0]
      exact h.zero
  · exact (forall_update_iff N fun _ y => y.type ≠ .dir → y.ents = []).2
      ⟨hfile, fun j _ => h.plain j⟩
  · exact (forall_update_iff N fun j y => y.type = .dir → Dots j (up y) y.ents).2
      ⟨hdir, fun j _ => h.dots j⟩
  · exact (forall_update_iff N fun _ y => y.type = .free → y.nlink = 0).2
      ⟨hfree, fun j _ => h.freed j⟩
  · intro j
    rw [hpend']
    exact Int.add_nonneg (h.pending j) (Int.mul_nonneg hnl (one_nonneg i j))
  · intro j
    by_cases hji : j = i
    · subst hji
      rw [update_self]
      exact hself.le
    · have := h.links j
      have := hle j
      rw [update_of_ne hji, subdirs_update hent, hother hji]
      omega
  · intro hB j
    by_cases hji : j = i
    · subst hji
      rw [update_self]
      exact hself.symm
    · rw [update_of_ne hji, subdirs_update hent, hother hji, hexact hB]
      exact h.exact hB j
  · intro p e he hp hdir'
    by_cases hpi : p = i
    · rw [hpi, update_self] at he
      rw [hplain e he] at hp
      cases hp
    · rw [update_of_ne hpi] at he
      have hei := inum_ne_of_entries hent he hp
      rw [update_of_ne hei] at hdir' ⊢
      exact h.parent p e he hp hdir'
  · intro j hj
    by_cases hji : j = i
    · rw [hji, hzero hent]
      decide
    · rw [update_of_ne hji] at hj
      exact (hle j).trans (h.once j hj)
  · intro hB j hj hent' e he
    by_cases hji : j = i
    · rw [hji, update_self] at he
      exact hplain e he
    · rw [hexact hB] at hent'
      rw [update_of_ne hji] at he
      exact h.tidy hB j hj hent' e he

theorem Tree.free (hi : (N i).nlink = 0) : Tree B (update N i ⟨.free, 0, []⟩) pend :=
  h.replace hi (fun _ => rfl) (fun _ => rfl) (le_refl 0) (fun _ => rfl) (fun hd => by cases hd)
    (fun _ he => by cases he) fun j => by rw [Int.zero_mul, Int.add_zero]

/-- `d` changes to `x`: `δ j` more of its entries name `j`, `c` more name directories, and the
link count changes by `k`. -/
theorem Tree.rewrite {δ : Inum n → Int} {x : Node n} {c k : Int} (ha : (N d).type ≠ .free)
    (hx : x.type = (N d).type)
    (hk : x.nlink = (N d).nlink + k) (hfile : (N d).type ≠ .dir → x.ents = [])
    (hdots : (N d).type = .dir → Dots d (up (N d)) x.ents)
    (hnamed : ∀ j, named j x.ents = named j (N d).ents + δ j)
    (hsub : subdirs N x.ents = subdirs N (N d).ents + c)
    (hpend : ∀ j, pend' j = pend j - δ j + (k - c) * one d j) (hpos : ∀ j, 0 ≤ pend' j)
    (hroot : δ ROOTINO = 0)
    (hparent : ∀ e ∈ x.ents, e.proper → (N e.inum).type = .dir → up (N e.inum) = d)
    (honce : ∀ j, (N j).type = .dir → entries N j + δ j ≤ 1)
    (htidy : B → ∀ j, j ≠ ROOTINO → entries N j + δ j = 0 →
      ∀ e ∈ if j = d then x.ents else (N j).ents, e.proper = false) :
    Tree B (update N d x) pend' := by
  have hty (j : Inum n) : (update N d x j).type = (N j).type := by
    by_cases hj : j = d <;> simp [hj, hx]
  have hup (j : Inum n) (hdir : (N j).type = .dir) : up (update N d x j) = up (N j) := by
    by_cases hj : j = d
    · subst hj
      rw [update_self]
      exact (hdots hdir).up_eq rfl
    · rw [update_of_ne hj]
  have hents (j : Inum n) : (update N d x j).ents = if j = d then x.ents else (N j).ents := by
    by_cases hj : j = d <;> simp [hj]
  have hent (j : Inum n) : entries (update N d x) j = entries N j + δ j := by
    rw [entries_update, hnamed]
    omega
  -- What the count of an inode has to be, and what it is, change by the same.
  have hcount (j : Inum n) : (update N d x j).nlink - (N j).nlink = entries (update N d x) j +
        subdirs (update N d x) (update N d x j).ents + pend' j -
        (entries N j + subdirs N (N j).ents + pend j) := by
    have hsub' : subdirs (update N d x) (update N d x j).ents =
        subdirs N (update N d x j).ents := subdirs_congr fun e _ _ => by rw [hty]
    rw [hent, hsub', hpend]
    by_cases hj : j = d
    · subst hj
      rw [update_self, hsub, hk, one_self]
      omega
    · rw [update_of_ne hj, one_of_ne hj]
      omega
  constructor
  · rw [hty]
    exact h.root
  · rw [hup _ h.root]
    exact h.rootUp
  · rw [hent, hroot, h.rootless]
    rfl
  · rw [hty]
    exact h.zero
  · intro j hj
    rw [hty] at hj
    rw [hents]
    split
    · rename_i hjd
      exact hfile (hjd ▸ hj)
    · exact h.plain j hj
  · intro j hj
    rw [hty] at hj
    rw [hents, hup j hj]
    by_cases hjd : j = d
    · subst hjd
      rw [if_pos rfl]
      exact hdots hj
    · rw [if_neg hjd]
      exact h.dots j hj
  · intro j hj
    rw [hty] at hj
    have hjd : j ≠ d := fun heq => ha (heq ▸ hj)
    rw [update_of_ne hjd]
    exact h.freed j hj
  · exact hpos
  · intro j
    have h1 := h.links j
    have h2 := hcount j
    omega
  · intro hB j
    have h1 := h.exact hB j
    have h2 := hcount j
    omega
  · intro p e he hp hdir
    rw [hents] at he
    rw [hty] at hdir
    rw [hup _ hdir]
    by_cases hpd : p = d
    · rw [if_pos hpd] at he
      rw [hpd]
      exact hparent e he hp hdir
    · rw [if_neg hpd] at he
      exact h.parent p e he hp hdir
  · intro j hj
    rw [hty] at hj
    rw [hent]
    exact honce j hj
  · intro hB j hj hent' e he
    rw [hent] at hent'
    rw [hents] at he
    exact htidy hB j hj hent' e he

theorem Tree.setNlink (ha : (N i).type ≠ .free) {c : Int}
    (hc : 0 ≤ pend i + c) : Tree B (update N i { N i with nlink := (N i).nlink + c })
      fun j => pend j + c * one i j := by
  refine h.rewrite (δ := 0) (c := 0) ha rfl rfl (h.plain i) (h.dots i)
    (fun _ => (Int.add_zero _).symm)
    (Int.add_zero _).symm (fun j => by simp) (fun j => ?_) rfl (h.parent i)
    (fun j hj => by simpa using h.once j hj) fun hB j hj hent => ?_
  · by_cases hj : j = i
    · subst hj
      simpa using hc
    · simpa [one_of_ne hj] using h.pending j
  · have hold := h.tidy hB j hj (by simpa using hent)
    split
    · rename_i hji
      exact hji ▸ hold
    · exact hold

/-- An entry is written into a directory. What it names is ahead by one link, and so is the
directory if a directory is named. -/
theorem Tree.add (hd : (N d).type = .dir) (he : e.proper) (hroot : e.inum ≠ ROOTINO)
    (hdir : (N e.inum).type = .dir → up (N e.inum) = d ∧ entries N e.inum = 0)
    (hpend : ∀ j, pend' j =
      pend j - one e.inum j - (if (N e.inum).type = .dir then 1 else 0) * one d j)
    (hpos : ∀ j, 0 ≤ pend' j) (hB : B → d = ROOTINO ∨ 0 < entries N d) :
    Tree B (update N d { N d with ents := addEnt (N d).ents e }) pend' := by
  refine h.rewrite (by rw [hd]; decide) rfl (Int.add_zero _).symm (absurd hd)
    (fun _ => (h.dots d hd).addEnt he) (fun j => named_addEnt j he) (subdirs_addEnt N he) ?_ hpos
    ?_ ?_ ?_ ?_
  · intro j
    rw [hpend, Int.zero_sub, Int.neg_mul]
    rfl
  · exact one_of_ne hroot.symm
  · intro e' he' hp' hdir'
    rcases mem_addEnt he' with rfl | hold
    · exact (hdir hdir').1
    · exact h.parent d e' hold hp' hdir'
  · intro j hj
    have h1 := h.once j hj
    by_cases hje : j = e.inum
    · subst hje
      rw [(hdir hj).2, one_self]
      decide
    · rw [one_of_ne hje]
      omega
  · intro hB' j hj hent
    have h1 := entries_nonneg N j
    have h2 := one_nonneg e.inum j
    have h0 : entries N j = 0 := by omega
    have hjd : j ≠ d := by
      rintro rfl
      rcases hB hB' with hr | hr
      · exact hj hr
      · omega
    rw [if_neg hjd]
    exact h.tidy hB' j hj h0

/-- An entry is cleared. What it named is ahead by one link then. -/
theorem Tree.clear {k : Nat} (hd : (N d).type = .dir) (hk : (N d).ents[k]? = some e) (he : e.proper)
    (hpend : ∀ j, pend' j =
      pend j + one e.inum j + (if (N e.inum).type = .dir then 1 else 0) * one d j)
    (hB : B → (N e.inum).type = .dir → ∀ e' ∈ (N e.inum).ents, e'.proper = false) :
    Tree B (update N d { N d with ents := clearEnt (N d).ents k }) pend' := by
  have hmem : e ∈ (N d).ents := List.mem_of_getElem? hk
  have hent : 0 < entries N e.inum :=
    lt_of_lt_of_le (named_pos hmem rfl he) (named_le_entries N d e.inum)
  have hroot : e.inum ≠ ROOTINO := by
    intro heq
    rw [heq, h.rootless] at hent
    omega
  refine h.rewrite (δ := fun j => -one e.inum j)
    (c := -(if (N e.inum).type = .dir then 1 else 0)) (by rw [hd]; decide) rfl
    (Int.add_zero _).symm (absurd hd)
    (fun _ => (h.dots d hd).clearEnt hk he) (fun j => named_clearEnt j hk he)
    (subdirs_clearEnt N hk he) ?_ ?_ ?_ ?_ ?_ ?_
  · intro j
    rw [hpend, Int.zero_sub, Int.neg_neg]
    omega
  · intro j
    have h1 := h.pending j
    have h2 := one_nonneg e.inum j
    have h3 := one_nonneg d j
    rw [hpend]
    split <;> omega
  · simp [one_of_ne hroot.symm]
  · intro e' he' hp' hdir'
    exact h.parent d e' (mem_clearEnt he' hp') hp' hdir'
  · intro j hj
    have h1 := h.once j hj
    have h2 := one_nonneg e.inum j
    omega
  · intro hB' j hj hzero e' he'
    by_contra hp'
    rw [Bool.not_eq_false] at hp'
    have hold : e' ∈ (N j).ents := by
      by_cases hjd : j = d
      · rw [if_pos hjd] at he'
        rw [hjd]
        exact mem_clearEnt he' hp'
      · rwa [if_neg hjd] at he'
    by_cases hje : j = e.inum
    · -- What was named is empty.
      subst hje
      by_cases hty : (N e.inum).type = .dir
      · rw [hB hB' hty e' hold] at hp'
        cases hp'
      · rw [h.plain _ hty] at hold
        cases hold
    · rw [one_of_ne hje] at hzero
      have := h.tidy hB' j hj (by omega) e' hold
      rw [this] at hp'
      cases hp'

/-- An inode is allocated with one link, which no entry stands for yet. -/
theorem Tree.alloc {x : Node n} (hi : (N i).type = .free) (h0 : i ≠ 0)
    (hty : x.type ≠ .free) (hnl : x.nlink = 1) (hfile : x.type ≠ .dir → x.ents = [])
    (hdir : x.type = .dir → Dots i (up x) x.ents) (hplain : ∀ e ∈ x.ents, e.proper = false) :
    Tree B (update N i x) fun j => pend j + one i j := by
  refine h.replace (h.freed i hi) (fun he => absurd he h0) (fun hf => absurd hf hty) ?_ hfile hdir
    hplain fun j => ?_
  · rw [hnl]
    decide
  · rw [hnl, Int.one_mul]

end

end Changes

end Xv6.Links
