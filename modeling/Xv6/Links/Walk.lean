import Mathlib.Data.Fintype.Prod
import Xv6.Links.Tree

/-! The inode cache and path walks. A call holds references in hand while it runs; together
with the current directories and the open files they are the reference counts of the
inodes. A walk changes nothing of the directories, but it may give back the last reference
to an inode without links, which is then freed. -/

namespace Xv6.Links

open Calls Totals Function

variable {n : Nat} {π : Type}

def State.nodes (s : State n π) : Inum n → Node n := fun i => (s.inode i).node

/-! ## Where a path leads -/

namespace Paths

/-- The inode that a directory names. -/
def lookup (N : Inum n → Node n) (d : Inum n) (name : Name) : Option (Inum n) :=
  if (N d).type = .dir then (findEnt (N d).ents name).map Prod.fst else none

/-- The inode that a path names, from `i` on. -/
def resolve (N : Inum n → Node n) (i : Inum n) (path : List Name) : Option (Inum n) :=
  path.foldlM (lookup N) i

/-- The directory that all elements but the last name, and the last element. -/
def resolveParent (N : Inum n → Node n) (i : Inum n) (path : List Name) :
    Option (Inum n × Name) := do
  let name ← path.getLast?
  let d ← resolve N i path.dropLast
  if (N d).type = .dir then some (d, name) else none

/-- What `namex` is to return. -/
def target (N : Inum n → Node n) (parent : Bool) (i : Inum n) (path : List Name) :
    Option (Inum n × Name) :=
  if parent then resolveParent N i path else (resolve N i path).map (·, [])

theorem target_cons (N : Inum n → Node n) (parent : Bool) (i : Inum n) (name : Name)
    (path : List Name) : target N parent i (name :: path) = if (N i).type ≠ .dir then none
      else if parent ∧ path = [] then some (i, name)
      else (findEnt (N i).ents name).bind fun q => target N parent q.1 path := by
  by_cases hd : (N i).type = .dir
  · cases parent
    · cases hf : findEnt (N i).ents name <;> simp [target, resolve, lookup, hd, hf]
    · cases path with
      | nil => simp [target, resolveParent, resolve, hd]
      | cons name' path =>
        cases hf : findEnt (N i).ents name <;>
          simp [target, resolveParent, resolve, lookup, hd, hf, List.getLast?_cons_cons]
  · cases parent
    · simp [target, resolve, lookup, hd]
    · cases path <;> simp [target, resolveParent, resolve, lookup, hd]

/-- A walk depends only on the directories. -/
theorem target_of_dirs {N N' : Inum n → Node n} (h : ∀ j, (N' j).type = .dir → N' j = N j)
    {parent : Bool} {i : Inum n} {path : List Name} {r : Inum n × Name}
    (hr : target N' parent i path = some r) : target N parent i path = some r := by
  induction path generalizing i with
  | nil => exact hr
  | cons name path ih =>
    rw [target_cons] at hr ⊢
    rw [Option.ite_none_left_eq_some, not_not] at hr
    rw [← h i hr.1, Option.ite_none_left_eq_some, not_not]
    refine ⟨hr.1, ?_⟩
    split
    · rw [← hr.2, if_pos ‹_›]
    · have hnext := hr.2
      rw [if_neg ‹_›] at hnext
      obtain ⟨q, hq, hr⟩ := Option.bind_eq_some_iff.1 hnext
      exact Option.bind_eq_some_iff.2 ⟨q, hq, ih hr⟩

end Paths

/-- Where a path starts. -/
def State.origin (s : State n π) (p : π) (path : Path) : Inum n :=
  if path.absolute then ROOTINO else (s.cwd p).getD ROOTINO

/-- The directory that `nameiparent` is to return, and the last element. -/
def State.parent (s : State n π) (p : π) (path : Path) : Option (Inum n × Name) :=
  Paths.target s.nodes true (s.origin p path) path.elems

section

variable {s t u : State n π} {i d : Inum n}

theorem ends_inode {α : Type} {f : Inode n → Sys n π α} {E : Stop → Prop}
    {Q : α → State n π → Prop} : Ends (inode i >>= f) s E Q ↔ Ends (f (s.inode i)) s E Q := by
  simp only [inode, ends_bind, ends_get, ends_pure]

/-- Nothing but the inode cache changes. -/
structure Same (s t : State n π) : Prop where
  nodes : t.nodes = s.nodes
  cwd : t.cwd = s.cwd
  file : t.file = s.file
  ofile : t.ofile = s.ofile

theorem Same.refl (s : State n π) : Same s s := ⟨rfl, rfl, rfl, rfl⟩

theorem Same.trans (h : Same s t) (h' : Same t u) : Same s u :=
  ⟨h'.nodes.trans h.nodes, h'.cwd.trans h.cwd, h'.file.trans h.file, h'.ofile.trans h.ofile⟩

@[simp] theorem inode_setInode (x : Inode n) : (s.setInode i x).inode i = x := update_self ..

theorem inode_setInode_ne {j : Inum n} (hj : j ≠ i) (x : Inode n) :
    (s.setInode i x).inode j = s.inode j :=
  update_of_ne hj _ _

@[simp] theorem setInode_setInode (x y : Inode n) :
    (s.setInode i x).setInode i y = s.setInode i y := by
  simp [State.setInode]

theorem nodes_setInode_ne (x : Inode n) {j : Inum n} (hj : j ≠ i) :
    (s.setInode i x).nodes j = s.nodes j := by
  simp [State.nodes, State.setInode, hj]

theorem nodes_setInode_self (x : Inode n) : (s.setInode i x).nodes i = x.node := by
  simp [State.nodes]

theorem nodes_setInode_update (x : Inode n) : (s.setInode i x).nodes = update s.nodes i x.node := by
  funext j
  by_cases hj : j = i
  · subst hj
    simp [nodes_setInode_self]
  · simp [nodes_setInode_ne x hj, hj]

theorem nodes_setInode (x : Inode n) (hx : x.node = s.nodes i) :
    (s.setInode i x).nodes = s.nodes := by
  rw [nodes_setInode_update, hx, update_eq_self]

variable {x : Inode n}

theorem Same.setInode (hx : x.node = s.nodes i) : Same s (s.setInode i x) :=
  ⟨nodes_setInode x hx, rfl, rfl, rfl⟩

variable [Fintype π]

/-- The current directories `cw` and open files that hold inode `i`. -/
def holders (cw : π → Option (Inum n)) (s : State n π) (i : Inum n) : Int :=
  total (fun c => if c = some i then 1 else 0) cw +
    total (fun f : File n => if 0 < f.ref ∧ f.ip = some i then 1 else 0) s.file

/-- What ".." names is a directory that has links. -/
def Upper (N : Inum n → Node n) : Prop :=
  ∀ d, (N d).type = .dir → (N (up (N d))).type = .dir ∧ 0 < (N (up (N d))).nlink

/-- What holds between the steps of a call that has `hand` references to inodes and `fhand`
references to files in hand; `cw` are the current directories, but for one that a call has
taken into hand. The link counts are exact under `B`. -/
structure Inv (A B : Prop) (cw : π → Option (Inum n)) (s : State n π) (hand : Inum n → Int)
    (fhand : Fin NFILE → Int) (pend : Inum n → Int) : Prop where
  tree : Tree B s.nodes pend
  upper : A → Upper s.nodes
  refs : ∀ i, ((s.inode i).ref : Int) = holders cw s i + hand i
  inHand : ∀ i, 0 ≤ hand i
  frefs : ∀ f, ((s.file f).ref : Int) =
    total (fun o => if o = some f then 1 else 0) s.ofile + fhand f
  closed : ∀ f, (s.file f).ref = 0 → (s.file f).ip = none
  kept : ∀ i, 0 < holders cw s i → (s.nodes i).type ≠ .free
  valid : ∀ i, 0 < (s.inode i).ref → (s.inode i).valid = true → (s.nodes i).type ≠ .free
  used : ∀ i, (s.nodes i).type ≠ .free → (s.nodes i).nlink = 0 →
    0 < (s.inode i).ref ∧ (s.inode i).valid = true
  rdonly : ∀ f i, (s.file f).ip = some i → (s.file f).writable = true → (s.nodes i).type ≠ .dir

/-- Inodes that nothing names and nobody holds may have been freed. -/
structure Later (cw : π → Option (Inum n)) (s t : State n π) : Prop where
  nodes : ∀ i, t.nodes i = s.nodes i ∨
    (s.nodes i).nlink = 0 ∧ holders cw s i = 0 ∧ t.nodes i = ⟨.free, 0, []⟩
  cwd : t.cwd = s.cwd
  file : t.file = s.file
  ofile : t.ofile = s.ofile

variable {A B : Prop} {cw : π → Option (Inum n)} {hand : Inum n → Int} {fhand : Fin NFILE → Int}
  {pend : Inum n → Int}

theorem holders_congr (hf : t.file = s.file) (i : Inum n) : holders cw t i = holders cw s i := by
  rw [holders, hf, holders]

theorem holders_nonneg (cw : π → Option (Inum n)) (s : State n π) (i : Inum n) :
    0 ≤ holders cw s i := by
  have h1 : 0 ≤ total (fun c => if c = some i then 1 else 0) cw :=
    total_nonneg fun _ => by split <;> decide
  have h2 : 0 ≤ total (fun f : File n => if 0 < f.ref ∧ f.ip = some i then 1 else 0) s.file :=
    total_nonneg fun _ => by split <;> decide
  unfold holders
  omega

theorem Same.later (h : Same s t) : Later cw s t :=
  ⟨fun _ => .inl (by rw [h.nodes]), h.cwd, h.file, h.ofile⟩

theorem Later.trans (h : Later cw s t) (h' : Later cw t u) : Later cw s u where
  nodes := fun i => by
    rcases h.nodes i with h1 | ⟨h1, h2, h3⟩
    · rcases h'.nodes i with h4 | ⟨h4, h5, h6⟩
      · exact .inl (h4.trans h1)
      · rw [holders_congr h.file] at h5
        exact .inr ⟨by rw [← h1, h4], h5, h6⟩
    · rcases h'.nodes i with h4 | ⟨-, -, h6⟩
      · exact .inr ⟨h1, h2, h4.trans h3⟩
      · exact .inr ⟨h1, h2, h6⟩
  cwd := h'.cwd.trans h.cwd
  file := h'.file.trans h.file
  ofile := h'.ofile.trans h.ofile

theorem Later.node (h : Later cw s t) (ht : (t.nodes i).type ≠ .free) : t.nodes i = s.nodes i := by
  rcases h.nodes i with h1 | ⟨-, -, h1⟩
  · exact h1
  · rw [h1] at ht
    exact absurd rfl ht

section

variable (h : Inv A B cw s hand fhand pend)

include h

/-- A file that has an inode is open, and holds it. -/
theorem Inv.file_holds {f : Fin NFILE} (hf : (s.file f).ip = some i) : 1 ≤ holders cw s i := by
  have hpos : 0 < (s.file f).ref := by
    by_contra hz
    have hnone := h.closed f (by omega)
    rw [hnone] at hf
    cases hf
  have h1 : (if 0 < (s.file f).ref ∧ (s.file f).ip = some i then (1 : Int) else 0) ≤
      total (fun f : File n => if 0 < f.ref ∧ f.ip = some i then 1 else 0) s.file :=
    le_total (w := fun f : File n => if 0 < f.ref ∧ f.ip = some i then (1 : Int) else 0)
      (fun _ => by split <;> decide) f
  have h2 : 0 ≤ total (fun c => if c = some i then (1 : Int) else 0) cw :=
    total_nonneg fun _ => by split <;> decide
  rw [if_pos ⟨hpos, hf⟩] at h1
  unfold holders
  omega

variable {hand' : Inum n → Int}

/-- Inode `i` gives way to `x`. -/
theorem Inv.replace {A' B' : Prop} {pend' : Inum n → Int}
    (htree : Tree B' (update s.nodes i x.node) pend')
    (hup : A' → Upper (update s.nodes i x.node))
    (hhand : ∀ j, j ≠ i → hand' j = hand j) (href : (x.ref : Int) = holders cw s i + hand' i)
    (hpos : 0 ≤ hand' i)
    (hkept : 0 < holders cw s i → x.node.type ≠ .free ∧
      ((s.nodes i).type ≠ .dir → x.node.type ≠ .dir))
    (hvalid : 0 < x.ref → x.valid = true → x.node.type ≠ .free)
    (hused : x.node.type ≠ .free → x.node.nlink = 0 → 0 < x.ref ∧ x.valid = true) :
    Inv A' B' cw (s.setInode i x) hand' fhand pend' where
  tree := by rwa [nodes_setInode_update]
  upper := by rwa [nodes_setInode_update]
  refs := (forall_update_iff s.inode fun j y =>
    (y.ref : Int) = holders cw s j + hand' j).2
      ⟨href, fun j hj => by rw [hhand j hj]; exact h.refs j⟩
  inHand := fun j => by
    rcases eq_or_ne j i with rfl | hj
    · exact hpos
    · rw [hhand j hj]
      exact h.inHand j
  frefs := h.frefs
  closed := h.closed
  kept := (forall_update_iff s.inode fun j y =>
    0 < holders cw s j → y.node.type ≠ .free).2 ⟨fun hi => (hkept hi).1, fun j _ => h.kept j⟩
  valid := (forall_update_iff s.inode fun _ y =>
    0 < y.ref → y.valid = true → y.node.type ≠ .free).2 ⟨hvalid, fun j _ => h.valid j⟩
  used := (forall_update_iff s.inode fun _ y =>
    y.node.type ≠ .free → y.node.nlink = 0 → 0 < y.ref ∧ y.valid = true).2
      ⟨hused, fun j _ => h.used j⟩
  rdonly := fun f => (forall_update_iff s.inode fun j y =>
    (s.file f).ip = some j → (s.file f).writable = true → y.node.type ≠ .dir).2
      ⟨fun hf hw => (hkept (h.file_holds hf)).2 (h.rdonly f i hf hw), fun j _ => h.rdonly f j⟩

/-- A change of the cache entry of `i` by which `c` references come into hand. -/
theorem Inv.setInode (hx : x.node = s.nodes i)
    {c : Int} (href : (x.ref : Int) = (s.inode i).ref + c)
    (hhand : ∀ j, hand' j = hand j + c * one i j) (hpos : 0 ≤ hand i + c)
    (hvalid : 0 < x.ref → x.valid = true → (s.nodes i).type ≠ .free)
    (hused : (s.nodes i).type ≠ .free → (s.nodes i).nlink = 0 → 0 < x.ref ∧ x.valid = true) :
    Inv A B cw (s.setInode i x) hand' fhand pend := by
  have hsame : update s.nodes i x.node = s.nodes := by rw [hx, update_eq_self]
  have hself : hand' i = hand i + c := by rw [hhand, one_self, Int.mul_one]
  refine h.replace (hsame.symm ▸ h.tree) (hsame.symm ▸ h.upper) (fun j hj => ?_) ?_ ?_
    (fun hi => ?_)
    (hx ▸ hvalid) (hx ▸ hused)
  · rw [hhand, one_of_ne hj, Int.mul_zero, Int.add_zero]
  · rw [href, h.refs i, hself]
    omega
  · rw [hself]
    exact hpos
  · rw [hx]
    exact ⟨h.kept i hi, id⟩

theorem Inv.touch (hx : x.node = s.nodes i) (href : x.ref = (s.inode i).ref)
    (hvalid : 0 < x.ref → x.valid = true → (s.nodes i).type ≠ .free)
    (hused : (s.nodes i).type ≠ .free → (s.nodes i).nlink = 0 → 0 < x.ref ∧ x.valid = true) :
    Inv A B cw (s.setInode i x) hand fhand pend := by
  refine h.setInode (c := 0) hx ?_ ?_ ?_ hvalid hused
  · omega
  · simp
  · simpa using h.inHand i

theorem Inv.take (hx : x.node = s.nodes i)
    (href : x.ref = (s.inode i).ref + 1) (hvalid : x.valid = true → (s.nodes i).type ≠ .free)
    (hused : (s.nodes i).type ≠ .free → (s.nodes i).nlink = 0 → x.valid = true) :
    Inv A B cw (s.setInode i x) (hand + one i) fhand pend := by
  have hpos := h.inHand i
  refine h.setInode (c := 1) hx ?_ ?_ ?_ (fun _ => hvalid) fun hty hn => ⟨?_, hused hty hn⟩
  · omega
  · simp
  · omega
  · omega

theorem Inv.hand_le_ref (i : Inum n) : hand i ≤ (s.inode i).ref := by
  have h1 := h.refs i
  have h2 := holders_nonneg cw s i
  omega

end

/-! ## The functions of the inode cache -/

section

-- `E` admits every panic except perhaps that of `ilock`.
variable {E : Stop → Prop} (hE : ∀ e, e ≠ .noType → E e)

/-- A reference to `i` has been taken, and `hand` is in hand. -/
structure Takes (A B : Prop) (cw : π → Option (Inum n)) (s : State n π) (i : Inum n)
    (hand : Inum n → Int) (fhand : Fin NFILE → Int) (pend : Inum n → Int) (t : State n π) :
    Prop where
  inv : Inv A B cw t hand fhand pend
  same : Same s t
  locked : ∀ j, (t.inode j).locked = (s.inode j).locked
  cache : ∀ j, j ≠ i → t.inode j = s.inode j

theorem Takes.of_set (h : Inv A B cw (s.setInode i x) hand fhand pend)
    (hx : x.node = s.nodes i) (hl : x.locked = (s.inode i).locked) :
    Takes A B cw s i hand fhand pend (s.setInode i x) where
  inv := h
  same := .setInode hx
  locked := fun j => by
    by_cases hj : j = i
    · rw [hj, inode_setInode, hl]
    · rw [inode_setInode_ne hj]
  cache := fun j hj => inode_setInode_ne hj x

include hE in
theorem ends_iget (h : Inv A B cw s hand fhand pend) :
    Ends (iget i) s E fun _ t => Takes A B cw s i (hand + one i) fhand pend t := by
  simp only [iget, inode, setInode, ends_bind, ends_get, ends_pure, ends_ite, ends_throw,
    ends_modify]
  refine ⟨fun href => .of_set ?_ rfl rfl, fun href => ⟨fun _ => hE _ (by decide), fun _ =>
    .of_set ?_ rfl rfl⟩⟩
  · exact h.take rfl rfl (h.valid i href) fun hty hn => (h.used i hty hn).2
  · refine h.take rfl ?_ (fun hv => by cases hv) fun hty hn => absurd (h.used i hty hn).1 href
    rw [Nat.eq_zero_of_not_pos href]

theorem ends_idup (h : Inv A B cw s hand fhand pend) (hi : 0 < (s.inode i).ref) :
    Ends (idup i) s E fun _ t => Takes A B cw s i (hand + one i) fhand pend t := by
  simp only [idup, inode, setInode, ends_bind, ends_get, ends_pure, ends_modify]
  exact .of_set (h.take rfl rfl (h.valid i hi) fun hty hn => (h.used i hty hn).2) rfl rfl

/-- `i` has been locked, and is valid. -/
structure Locks (A B : Prop) (cw : π → Option (Inum n)) (s : State n π) (i : Inum n)
    (hand : Inum n → Int) (fhand : Fin NFILE → Int) (pend : Inum n → Int) (t : State n π) :
    Prop where
  inv : Inv A B cw t hand fhand pend
  same : Same s t
  unlocked : (s.inode i).locked = false
  locked : (t.inode i).locked = true
  valid : (t.inode i).valid = true
  type : (t.nodes i).type ≠ .free
  cache : ∀ j, j ≠ i → t.inode j = s.inode j

include hE in
theorem ends_ilock (h : Inv A B cw s hand fhand pend) (hi : 0 < (s.inode i).ref)
    (hty : (s.nodes i).type ≠ .free ∨ E .noType) :
    Ends (ilock i) s E fun _ t => Locks A B cw s i hand fhand pend t := by
  have hlocks {x : Inode n} (hx : x = { s.inode i with valid := true, locked := true })
      (hl : ¬(s.inode i).locked = true) (hty : (s.nodes i).type ≠ .free) :
      Locks A B cw s i hand fhand pend (s.setInode i x) := by
    subst hx
    have hsame : Same s (s.setInode i { s.inode i with valid := true, locked := true }) :=
      .setInode rfl
    refine ⟨h.touch rfl rfl (fun _ _ => hty) fun hty' hn => ⟨(h.used i hty' hn).1, rfl⟩, hsame,
      by simpa using hl, ?_, ?_, by rwa [hsame.nodes], fun j hj => inode_setInode_ne hj _⟩
    · rw [inode_setInode]
    · rw [inode_setInode]
  simp only [ilock, acquiresleep, inode, setInode, ends_bind, ends_get, ends_pure, ends_ite,
    ends_throw, ends_modify, inode_setInode, setInode_setInode]
  refine ⟨fun href => absurd hi (Nat.not_lt.2 (Nat.le_of_lt_succ href)), fun _ =>
    ⟨fun _ => hE _ (by decide), fun hl =>
      ⟨fun hv => ?_, fun _ => ⟨fun hfree => ?_, hlocks rfl hl⟩⟩⟩⟩
  · exact hlocks (by rw [hv]) hl (h.valid i hi hv)
  · exact hty.resolve_left fun hne => hne hfree

include hE in
theorem ends_iunlock (h : Inv A B cw s hand fhand pend) :
    Ends (iunlock i) s E fun _ t => Inv A B cw t hand fhand pend ∧ Same s t ∧
      ∀ j, j ≠ i → t.inode j = s.inode j := by
  simp only [iunlock, releasesleep, inode, setInode, ends_bind, ends_get, ends_pure, ends_ite,
    ends_throw, ends_modify]
  exact ⟨fun _ => ⟨h.touch rfl rfl (h.valid i) (h.used i), .setInode rfl,
    fun j hj => inode_setInode_ne hj _⟩, fun _ => hE _ (by decide)⟩

/-- A reference to `i` has been given back, and `hand` is still in hand. -/
structure Gives (A B : Prop) (cw : π → Option (Inum n)) (s : State n π) (i : Inum n)
    (hand : Inum n → Int) (fhand : Fin NFILE → Int) (pend : Inum n → Int) (t : State n π) :
    Prop where
  inv : Inv A B cw t hand fhand pend
  later : Later cw s t
  held : ∀ j, 1 ≤ hand j → t.nodes j = s.nodes j
  cache : ∀ j, j ≠ i → t.inode j = s.inode j

/-- An inode is freed when its last reference is given back. -/
theorem Inv.free (h : Inv A B cw s hand fhand pend) (hi : 1 ≤ hand i) (hn : (s.nodes i).nlink = 0)
    (hr : (s.inode i).ref = 1) (l : Bool) :
    Gives A B cw s i (hand - one i) fhand pend (s.setInode i ⟨⟨.free, 0, []⟩, 0, false, l⟩) := by
  have hrefs := h.refs i
  have hhold := holders_nonneg cw s i
  have h0 : holders cw s i = 0 := by omega
  have hself : (hand - one i) i = 0 := by
    rw [Pi.sub_apply, one_self]
    omega
  have hnode (j : Inum n) (hj : j ≠ i) :=
    nodes_setInode_ne (s := s) ⟨⟨.free, 0, []⟩, 0, false, l⟩ hj
  refine ⟨?_, ⟨fun j => ?_, rfl, rfl, rfl⟩, fun j hj => hnode j ?_,
    fun j hj => inode_setInode_ne hj _⟩
  · refine h.replace (h.tree.free hn) (fun hA d hd => ?_) (fun j hj => ?_) (by rw [h0, hself]; rfl)
      hself.ge (fun hpos => by omega) (fun hpos => absurd hpos (Nat.lt_irrefl 0))
      fun hty => absurd rfl hty
    · have hdi : d ≠ i := by
        rintro rfl
        simp at hd
      rw [update_of_ne hdi] at hd ⊢
      have hup := h.upper hA d hd
      have hui : up (s.nodes d) ≠ i := by
        intro heq
        rw [heq, hn] at hup
        exact absurd hup.2 (by decide)
      rwa [update_of_ne hui]
    · rw [Pi.sub_apply, one_of_ne hj, Int.sub_zero]
  · rcases eq_or_ne j i with rfl | hj
    · exact .inr ⟨hn, h0, nodes_setInode_self _⟩
    · exact .inl (hnode j hj)
  · rintro rfl
    omega

include hE in
theorem ends_iput (h : Inv A B cw s hand fhand pend) (hi : 1 ≤ hand i) :
    Ends (iput i) s E fun _ t => Gives A B cw s i (hand - one i) fhand pend t := by
  have hle := h.hand_le_ref i
  simp only [iput, acquiresleep, releasesleep, itrunc, setNode, inode, setInode, ends_bind,
    ends_get, ends_pure, ends_ite, ends_throw, ends_modify, State.setNode, inode_setInode,
    setInode_setInode]
  refine ⟨fun _ => hE _ (by decide), fun _ => ⟨fun hfree => ?_, fun hkeep => ?_⟩⟩
  · obtain ⟨hv, hn, hr⟩ := hfree
    rw [hn, hr]
    exact h.free hi hn hr false
  · have hsame : Same s (s.setInode i { s.inode i with
        ref := (s.inode i).ref - 1, locked := false }) := .setInode rfl
    refine ⟨?_, hsame.later, fun j _ => by rw [hsame.nodes], fun j hj => inode_setInode_ne hj _⟩
    refine h.setInode (c := -1) ?_ ?_ ?_ ?_ ?_ ?_
    · rfl
    · show (((s.inode i).ref - 1 : Nat) : Int) = _
      omega
    · intro j
      simp
      rfl
    · omega
    · intro hpos
      exact h.valid i (by omega)
    · intro hty hn
      obtain ⟨hpos, hv⟩ := h.used i hty hn
      refine ⟨?_, hv⟩
      show 0 < (s.inode i).ref - 1
      have : (s.inode i).ref ≠ 1 := fun hr => hkeep ⟨hv, hn, hr⟩
      omega

include hE in
theorem ends_iunlockput (h : Inv A B cw s hand fhand pend) (hi : 1 ≤ hand i) :
    Ends (iunlockput i) s E fun _ t => Gives A B cw s i (hand - one i) fhand pend t := by
  refine (ends_iunlock hE h).bind ?_
  rintro - t ⟨ht, hst, hcache⟩
  refine (ends_iput hE ht hi).post fun _ u hu => ?_
  refine ⟨hu.inv, hst.later.trans hu.later, fun j hj => ?_, fun j hj => ?_⟩
  · rw [hu.held j hj, hst.nodes]
  · rw [hu.cache j hj, hcache j hj]

/-! ## Lookups -/

variable {N : Inum n → Node n} {e : Dirent n}

/-- What a live entry of a directory can be. -/
theorem Tree.entry_cases (h : Tree B N pend) (hd : (N d).type = .dir)
    (he : e ∈ (N d).ents) (h0 : e.inum ≠ 0) : e = ⟨d, dot⟩ ∨ e = ⟨up (N d), dotdot⟩ ∨ e.proper := by
  obtain ⟨rest, hes, -, -, hrest⟩ := h.dots d hd
  rw [hes, List.mem_cons, List.mem_cons] at he
  rcases he with rfl | rfl | he
  · exact .inl rfl
  · exact .inr (.inl rfl)
  · exact .inr (.inr (hrest e he h0))

theorem Tree.linked (h : Tree B N pend)
    (he : e ∈ (N d).ents) (hp : e.proper) : 0 < (N e.inum).nlink := by
  have h1 := named_pos he rfl hp
  have h2 := named_le_entries N d e.inum
  have h3 := h.links e.inum
  have h4 := subdirs_nonneg N (N e.inum).ents
  have h5 := one_nonneg ROOTINO e.inum
  have h6 := h.pending e.inum
  omega

theorem Tree.allocated (h : Tree B N pend) (hn : 0 < (N i).nlink) : (N i).type ≠ .free := by
  intro hfree
  rw [h.freed i hfree] at hn
  omega

/-- Under `A` every live entry names an allocated inode. -/
theorem Inv.named_allocated (h : Inv A B cw s hand fhand pend) (hA : A)
    (hd : (s.nodes d).type = .dir) (he : e ∈ (s.nodes d).ents) (h0 : e.inum ≠ 0) :
    (s.nodes e.inum).type ≠ .free := by
  rcases h.tree.entry_cases hd he h0 with rfl | rfl | hp
  · show (s.nodes d).type ≠ .free
    rw [hd]
    decide
  · exact h.tree.allocated (h.upper hA d hd).2
  · exact h.tree.allocated (h.tree.linked he hp)

include hE in
theorem ends_dirlookup (h : Inv A B cw s hand fhand pend) {name : Name} :
    Ends (dirlookup d name) s E fun r t => (s.nodes d).type = .dir ∧
      match r with
      | none => t = s ∧ findEnt (s.nodes d).ents name = none
      | some (i, k) => Takes A B cw s i (hand + one i) fhand pend t ∧
          findEnt (s.nodes d).ents name = some (i, k) ∧ (A → (s.nodes i).type ≠ .free) := by
  simp only [dirlookup, inode, ends_bind, ends_get, ends_pure, ends_ite, ends_throw]
  refine ⟨fun hd => ?_, fun _ => hE _ (by decide)⟩
  split
  · rename_i i k hf
    refine (ends_iget hE h).bind ?_
    rintro - t ht
    refine ⟨hd, ht, hf, fun hA => ?_⟩
    obtain ⟨e, hk, rfl, h0, -⟩ := findEnt_some hf
    exact h.named_allocated hA hd (List.mem_of_getElem? hk) h0
  · rename_i hf
    exact ⟨hd, rfl, hf⟩

/-- A walk has changed nothing that is in hand. -/
structure Strolls (cw : π → Option (Inum n)) (s : State n π) (hand : Inum n → Int)
    (t : State n π) : Prop where
  later : Later cw s t
  held : ∀ j, 1 ≤ hand j → t.nodes j = s.nodes j

theorem Strolls.trans (h : Strolls cw s hand t) (h' : Strolls cw t hand u) : Strolls cw s hand u :=
  ⟨h.later.trans h'.later, fun j hj => (h'.held j hj).trans (h.held j hj)⟩

theorem Same.strolls (h : Same s t) : Strolls cw s hand t := ⟨h.later, fun j _ => by rw [h.nodes]⟩

/-- What a walk returns. -/
def Walked (A B : Prop) (cw : π → Option (Inum n)) (s : State n π) (hand : Inum n → Int)
    (fhand : Fin NFILE → Int) (pend : Inum n → Int) (parent : Bool) :
    Option (Inum n × Name) → State n π → Prop
  | none, t => Inv A B cw t hand fhand pend ∧ Strolls cw s hand t
  | some (i, _), t => Inv A B cw t (hand + one i) fhand pend ∧ Strolls cw s hand t ∧
      (A → (t.nodes i).type ≠ .free) ∧ (parent = true → (t.nodes i).type = .dir)

variable {parent : Bool}

theorem Walked.of_strolls {r : Option (Inum n × Name)} (h : Strolls cw s hand t)
    (hw : Walked A B cw t hand fhand pend parent r u) :
    Walked A B cw s hand fhand pend parent r u := by
  cases r with
  | none => exact ⟨hw.1, h.trans hw.2⟩
  | some r => exact ⟨hw.1, h.trans hw.2.1, hw.2.2⟩

theorem Inv.ref_pos (h : Inv A B cw s hand fhand pend) (hi : 1 ≤ hand i) : 0 < (s.inode i).ref := by
  have := h.hand_le_ref i
  omega

include hE in
theorem ends_namexLoop (hAE : A ∨ E .noType) {path : List Name}
    (hhand : ∀ j, 0 ≤ hand j) (h : Inv A B cw s (hand + one i) fhand pend)
    (hA : A → (s.nodes i).type ≠ .free) :
    Ends (namexLoop parent path i) s E fun r t => Walked A B cw s hand fhand pend parent r t ∧
      ∀ x ∈ r, Paths.target s.nodes parent i path = some x := by
  have hone (j : Inum n) : 1 ≤ (hand + one j) j := by
    have := hhand j
    simp
    omega
  have hsub (j : Inum n) : hand + one j - one j = hand := by
    funext k
    simp
  -- The ends of the walk that give the last reference back.
  have hgive {s t : State n π} {i : Inum n} {P : Inum n × Name → Prop}
      (ht : Gives A B cw s i (hand + one i - one i) fhand pend t) :
      Walked A B cw s hand fhand pend parent none t ∧
        ∀ x ∈ (none : Option (Inum n × Name)), P x := by
    rw [hsub] at ht
    exact ⟨⟨ht.inv, ht.later, ht.held⟩, fun _ hx => by cases hx⟩
  induction path generalizing s i with
  | nil =>
    rw [namexLoop, ends_ite]
    refine ⟨fun _ => ?_, fun hp => ?_⟩
    · exact (ends_iput hE h (hone i)).bind fun _ t ht => hgive ht
    · refine ⟨⟨h, (Same.refl s).strolls, hA, fun hp' => absurd hp' hp⟩, ?_⟩
      rintro _ ⟨⟩
      rw [Paths.target, if_neg hp]
      rfl
  | cons name path ih =>
    refine (ends_ilock hE h (h.ref_pos (hone i)) (hAE.imp_left hA)).bind ?_
    rintro - t ⟨ht, hsame, -⟩
    rw [Paths.target_cons, ← hsame.nodes, ends_inode, ends_ite]
    refine ⟨fun _ => ?_, fun hdir => ?_⟩
    · exact (ends_iunlockput hE ht (hone i)).bind fun _ u hu =>
        (hgive hu).imp_left (.of_strolls hsame.strolls)
    change ¬(t.nodes i).type ≠ .dir at hdir
    rw [ends_ite]
    refine ⟨fun hlast => ?_, fun hmore => ?_⟩
    · refine (ends_iunlock hE ht).bind ?_
      rintro - u ⟨hu, htu, -⟩
      have hnode := Decidable.of_not_not hdir
      rw [← htu.nodes] at hnode
      refine ⟨⟨hu, (hsame.trans htu).strolls, fun _ => by rw [hnode]; decide, fun _ => hnode⟩, ?_⟩
      rintro _ ⟨⟩
      rw [if_neg hdir, if_pos hlast]
    · refine (ends_dirlookup hE ht).bind ?_
      rintro (_ | ⟨next, k⟩) u ⟨-, hu⟩
      · obtain ⟨rfl, -⟩ := hu
        exact (ends_iunlockput hE ht (hone i)).bind fun _ u hu =>
          (hgive hu).imp_left (.of_strolls hsame.strolls)
      · obtain ⟨hu, hf, hnext⟩ := hu
        have hi : 1 ≤ (hand + one i + one next) i := by
          have h1 := hone i
          have h2 := one_nonneg next i
          rw [Pi.add_apply]
          omega
        refine (ends_iunlockput hE hu.inv hi).bind ?_
        rintro - v hv
        have hswap : hand + one i + one next - one i = hand + one next := by
          funext j
          simp
          omega
        rw [hswap] at hv
        have huv : Strolls cw s hand v := by
          refine (hsame.trans hu.same).strolls.trans ⟨hv.later, fun j hj => hv.held j ?_⟩
          have := one_nonneg next j
          rw [Pi.add_apply]
          omega
        refine (ih hv.inv fun hA' => ?_).post fun _ _ hw => ⟨hw.1.of_strolls huv, fun x hx => ?_⟩
        · rw [hv.held next (hone next), hu.same.nodes]
          exact hnext hA'
        · rw [if_neg hdir, if_neg hmore, hf]
          refine Paths.target_of_dirs (fun j hj => ?_) (hw.2 x hx)
          rw [huv.later.node (by rw [hj]; decide), hsame.nodes]

theorem cwd_holds {p : π} (hp : cw p = some i) (s : State n π) : 1 ≤ holders cw s i := by
  have h1 : (if cw p = some i then (1 : Int) else 0) ≤
      total (fun c => if c = some i then 1 else 0) cw :=
    le_total (w := fun c => if c = some i then (1 : Int) else 0)
      (fun _ => by split <;> decide) p
  have h2 : 0 ≤ total (fun f : File n => if 0 < f.ref ∧ f.ip = some i then 1 else 0) s.file :=
    total_nonneg fun _ => by split <;> decide
  rw [if_pos hp] at h1
  unfold holders
  omega

theorem Inv.ref_pos_of_held (h : Inv A B cw s hand fhand pend) (hi : 1 ≤ holders cw s i) :
    0 < (s.inode i).ref := by
  have := h.refs i
  have := h.inHand i
  omega

include hE in
theorem ends_namex (hAE : A ∨ E .noType) {p : π} {path : Path}
    (h : Inv A B cw s hand fhand pend) (hp : (cw p).isSome) (hcw : s.cwd p = cw p) :
    Ends (namex p parent path) s E fun r t => Walked A B cw s hand fhand pend parent r t ∧
      ∀ x ∈ r, Paths.target s.nodes parent (s.origin p path) path.elems = some x := by
  unfold namex State.origin
  rw [ends_ite]
  refine ⟨fun habs => ?_, fun hrel => ?_⟩
  · rw [if_pos habs]
    refine (ends_iget hE h).bind ?_
    rintro - t ht
    rw [← ht.same.nodes]
    refine (ends_namexLoop hE hAE h.inHand ht.inv fun _ => ?_).post fun _ _ hw =>
      hw.imp_left (.of_strolls ht.same.strolls)
    rw [ht.inv.tree.root]
    decide
  · obtain ⟨d, hd⟩ := Option.isSome_iff_exists.1 hp
    have hcwd := cwd_holds hd s
    simp only [cwd, ends_bind, ends_get, ends_pure, hcw, hd, Option.getD_some, if_neg hrel]
    refine (ends_idup h (h.ref_pos_of_held hcwd)).post ?_
    rintro - t ht
    rw [← ht.same.nodes]
    refine (ends_namexLoop hE hAE h.inHand ht.inv fun _ => ?_).post fun _ _ hw =>
      hw.imp_left (.of_strolls ht.same.strolls)
    rw [ht.same.nodes]
    exact h.kept d (by omega)

/-- The inode at the end of a walk is locked. -/
structure Arrived (A B : Prop) (s : State n π) (parent : Bool) (i : Inum n) (t : State n π) :
    Prop where
  inv : Inv A B s.cwd t (one i) 0 0
  later : Later s.cwd s t
  locked : (t.inode i).locked = true
  valid : (t.inode i).valid = true
  type : (t.nodes i).type ≠ .free
  dir : parent = true → (t.nodes i).type = .dir

include hE in
theorem Walked.lock {name : Name} (hAE : A ∨ E .noType)
    (hw : Walked A B s.cwd s 0 0 0 parent (some (i, name)) t) :
    Ends (ilock i) t E fun _ u => Arrived A B s parent i u := by
  obtain ⟨h, hst, hA, hdir⟩ := hw
  rw [zero_add] at h
  refine (ends_ilock hE h (h.ref_pos (by simp)) (hAE.imp_left hA)).post fun _ u hu => ?_
  exact ⟨hu.inv, hst.later.trans hu.same.later, hu.locked, hu.valid, hu.type,
    fun hp => by rw [hu.same.nodes]; exact hdir hp⟩

theorem Walked.nothing (hw : Walked A B s.cwd s 0 0 0 parent none t) : Inv A B t.cwd t 0 0 0 := by
  rw [hw.2.later.cwd]
  exact hw.1

include hE in
/-- The only inode in hand is given back. -/
theorem ends_put {α : Type} {a : α} (h : Inv A B cw s (one i) 0 0) (hcwd : s.cwd = cw) :
    Ends (do iunlockput i; pure a) s E fun _ t => Inv A B t.cwd t 0 0 0 := by
  refine (ends_iunlockput hE h (by simp)).bind ?_
  rintro - t ht
  rw [sub_self] at ht
  rw [ends_pure, ht.later.cwd, hcwd]
  exact ht.inv

end

end

end Xv6.Links
