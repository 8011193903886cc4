import Xv6.Lib.Runs
import Xv6.Links.Files

/-! Runs of system calls from a valid image. Link counts are exact as long as no directory
gets an entry after its last link has gone; every live entry names an allocated inode as
long as no directory loses its last link while it is the ".." of another. Both can happen. -/

namespace Xv6.Links

open Calls Totals Runs Function

variable {n : Nat} {π : Type} [Fintype π] [DecidableEq π] {N : Inum n → Node n}
  {s t : State n π} {i d : Inum n}

/-- A valid image: the directories are a tree with exact link counts, and every allocated
inode has a link. -/
structure Image (N : Inum n → Node n) : Prop where
  tree : Tree True N 0
  linked : ∀ i, (N i).type ≠ .free → 0 < (N i).nlink

/-- The first process has started, in the root directory. -/
def boot (N : Inum n → Node n) (init : π) : State n π where
  inode := fun i => ⟨N i, if i = ROOTINO then 1 else 0, false, false⟩
  file := fun _ => ⟨0, none, false, false⟩
  cwd := fun p => if p = init then some ROOTINO else none
  ofile := fun _ => none

/-- In an image ".." names a directory with links. -/
theorem Image.upper (h : Image N) : Upper N := by
  intro d hd
  have hlink := h.linked d (by rw [hd]; decide)
  rcases h.tree.named_or_root trivial (d := d) (by simpa using hlink.ne') with rfl | hpos
  · rw [h.tree.rootUp]
    exact ⟨hd, hlink⟩
  · obtain ⟨p, e, he, hi, hproper⟩ := exists_named hpos
    have hup : up (N d) = p := by
      rw [← hi]
      exact h.tree.parent p e he hproper (by rw [hi]; exact hd)
    have hpd : (N p).type = .dir := by
      by_contra hnd
      rw [h.tree.plain p hnd] at he
      cases he
    rw [hup]
    exact ⟨hpd, h.linked p (by rw [hpd]; decide)⟩

theorem Image.boot (h : Image N) (init : π) :
    Inv True True (boot N init : State n π).cwd (boot N init) 0 0 0 := by
  have hhold (i : Inum n) : holders (Links.boot N init : State n π).cwd (Links.boot N init) i =
      one ROOTINO i := by
    have h1 : total (fun f : File n => if 0 < f.ref ∧ f.ip = some i then (1 : Int) else 0)
        (Links.boot N init : State n π).file = 0 := total_eq_zero fun f => by simp [Links.boot]
    have h2 := total_update (fun c : Option (Inum n) => if c = some i then (1 : Int) else 0)
      (fun _ : π => none) init (some ROOTINO)
    have h3 : total (fun c : Option (Inum n) => if c = some i then (1 : Int) else 0)
        (fun _ : π => none) = 0 := total_eq_zero fun _ => by simp
    have h4 : (Links.boot N init : State n π).cwd =
        update (fun _ : π => none) init (some ROOTINO) := by
      funext p
      simp [Links.boot, update_apply]
    rw [holders, h1, h4, h2, h3]
    simp [one, eq_comm]
  constructor
  · exact h.tree
  · exact fun _ => h.upper
  · intro i
    rw [hhold]
    show ((if i = ROOTINO then 1 else 0 : Nat) : Int) = _
    unfold one
    split <;> rfl
  · exact fun _ => Int.le_refl _
  · intro f
    have h0 : total (fun o => if o = some f then (1 : Int) else 0)
        (Links.boot N init : State n π).ofile = 0 := total_eq_zero fun _ => by simp [Links.boot]
    rw [h0]
    rfl
  · exact fun _ _ => rfl
  · intro i hi
    rw [hhold] at hi
    by_cases hroot : i = ROOTINO
    · rw [hroot]
      show (N ROOTINO).type ≠ .free
      rw [h.tree.root]
      decide
    · rw [one_of_ne hroot] at hi
      exact absurd hi (by decide)
  · intro i _ hv
    cases hv
  · intro i hty hn
    have hpos : 0 < (N i).nlink := h.linked i hty
    have hzero : (N i).nlink = 0 := hn
    omega
  · intro f i hf
    cases hf

variable {l : π × Syscall n π}

theorem Inv.step {A B : Prop} (h : Inv A B s.cwd s 0 0 0) (hs : s.step l = some t) :
    Inv (A ∧ l.2.Keeps s l.1) (B ∧ l.2.Spares s l.1) t.cwd t 0 0 0 := by
  unfold State.step at hs
  split at hs
  · rename_i hposs
    split at hs
    · rename_i b u hrun
      cases hs
      exact (ends_run (E := fun _ => True) (fun _ _ => trivial) (.inr trivial) h hposs).of_ok hrun
    · cases hs
  · cases hs

/-! ## An empty file system -/

/-- The image with a root directory only. -/
def rootOnly : Inum n → Node n := fun i =>
  if i = ROOTINO then ⟨.dir, 1, [⟨ROOTINO, dot⟩, ⟨ROOTINO, dotdot⟩]⟩ else ⟨.free, 0, []⟩

theorem rootOnly_plain {e : Dirent n} (he : e ∈ (rootOnly d).ents) : e.proper = false := by
  unfold rootOnly at he
  split at he
  · rcases List.mem_cons.1 he with rfl | he
    · simp [Dirent.proper]
    · rw [List.mem_singleton.1 he]
      simp [Dirent.proper]
  · cases he

theorem rootOnly_ne (h : i ≠ ROOTINO) : (rootOnly i : Node n) = ⟨.free, 0, []⟩ := if_neg h

theorem rootOnly_root : (rootOnly ROOTINO : Node n) =
    ⟨.dir, 1, [⟨ROOTINO, dot⟩, ⟨ROOTINO, dotdot⟩]⟩ := if_pos rfl

theorem image_rootOnly : Image (rootOnly : Inum n → Node n) := by
  have hent (i : Inum n) : entries rootOnly i = 0 :=
    total_eq_zero fun d => named_zero fun _ => rootOnly_plain
  have hsub (i : Inum n) : subdirs rootOnly (rootOnly i : Node n).ents = 0 :=
    subdirs_zero fun _ => rootOnly_plain
  have hdir (i : Inum n) (hi : (rootOnly i).type = .dir) : i = ROOTINO := by
    by_contra hne
    rw [rootOnly_ne hne] at hi
    cases hi
  have hnl (i : Inum n) : (rootOnly i).nlink = one ROOTINO i := by
    by_cases hi : i = ROOTINO
    · rw [hi, rootOnly_root, one_self]
    · rw [rootOnly_ne hi, one_of_ne hi]
  have h0 : (ROOTINO : Inum n) ≠ 0 := by simp [ROOTINO]
  refine ⟨⟨?_, ?_, hent _, ?_, ?_, ?_, ?_, fun _ => Int.le_refl _, ?_, ?_, ?_, ?_, ?_⟩, ?_⟩
  · rw [rootOnly_root]
  · rw [rootOnly_root]
    rfl
  · rw [rootOnly_ne h0.symm]
  · intro i hi
    have hne : i ≠ ROOTINO := by
      rintro rfl
      rw [rootOnly_root] at hi
      exact hi rfl
    rw [rootOnly_ne hne]
  · intro i hi
    rw [hdir i hi, rootOnly_root]
    exact ⟨[], rfl, h0, h0, fun e he => by cases he⟩
  · intro i hi
    rw [hnl, one_of_ne]
    rintro rfl
    rw [rootOnly_root] at hi
    cases hi
  · intro i
    rw [hent, hsub, hnl, Pi.zero_apply]
    omega
  · intro _ i
    rw [hent, hsub, hnl, Pi.zero_apply]
    omega
  · intro p e he hp
    rw [rootOnly_plain he] at hp
    cases hp
  · intro i _
    rw [hent]
    decide
  · exact fun _ i _ _ e => rootOnly_plain
  · intro i hi
    have hroot : i = ROOTINO := by
      by_contra hne
      rw [rootOnly_ne hne] at hi
      exact hi rfl
    rw [hroot, rootOnly_root]
    exact Int.one_pos

/-! ## Entries name allocated inodes -/

/-- Calls by which no ".." loses its directory. -/
def keepsUpper : Guard (State n π) (π × Syscall n π) := fun s l _ => l.2.Keeps s l.1

theorem inv_of_keepsUpper {init : π} (hN : Image N)
    (hr : Run State.step keepsUpper (boot N init) s) : Inv True False s.cwd s 0 0 0 := by
  refine hr.invariant (I := fun s => Inv True False s.cwd s 0 0 0)
    ((hN.boot init).mono id False.elim) fun a l b ha hstep hg => ?_
  exact (ha.step hstep).mono (fun _ => ⟨trivial, hg⟩) False.elim

/-- Every live entry of a directory names an allocated inode, and no call reaches the panic
"ilock: no type". -/
theorem entries_allocated {init : π} (hN : Image N)
    (hr : Run State.step keepsUpper (boot N init) s) :
    (∀ d, (s.nodes d).type = .dir → ∀ e ∈ (s.nodes d).ents, e.inum ≠ 0 →
      (s.nodes e.inum).type ≠ .free) ∧
    ∀ (p : π) (c : Syscall n π), c.possible s p = true → c.run p s ≠ .error .noType := by
  have h := inv_of_keepsUpper hN hr
  refine ⟨fun d hd e he h0 => h.named_allocated trivial hd he h0, fun p c hc herr => ?_⟩
  have hends := ends_run (E := fun e => e ≠ .noType) (fun _ he => he) (.inl trivial) h hc
  exact hends.of_error herr rfl

instance (p : π) (path : Path) : Decidable (Unshared s p path) :=
  inferInstanceAs (Decidable (∀ _, _))

instance (p : π) (c : Syscall n π) : Decidable (c.Keeps s p) :=
  inferInstanceAs (Decidable (∀ _, _))

/-- The state after the calls `cs`. -/
abbrev ran {m : ℕ} [NeZero m] (cs : List (Fin m × Syscall 2 (Fin m))) : State 2 (Fin m) :=
  final State.step (boot rootOnly 0) cs

/-- A directory is removed while a process is in it. -/
def inside : List (Fin 1 × Syscall 2 (Fin 1)) :=
  [(0, .mkdir ⟨true, [['a']]⟩), (0, .mkdir ⟨true, [['a'], ['b']]⟩),
   (0, .chdir ⟨true, [['a'], ['b']]⟩), (0, .unlink ⟨true, [['a'], ['b']]⟩)]

/-- The process finds its way back to the parent. -/
theorem entries_allocated_inside : (((ran inside).nodes 3).nlink = 0 ∧
      ⟨2, dotdot⟩ ∈ ((ran inside).nodes 3).ents) ∧
    ((ran inside).nodes 2).type ≠ .free ∧
    (Syscall.chdir ⟨false, [dotdot]⟩).run 0 (ran inside) ≠ .error .noType := by
  have hr : Run State.step keepsUpper (boot rootOnly 0) (ran inside) :=
    run_final (g := fun s l => l.2.Keeps s l.1) of_decide_eq_true (by decide +kernel)
  have h := entries_allocated image_rootOnly hr
  exact ⟨by decide +kernel, h.1 3 (by decide +kernel) ⟨2, dotdot⟩ (by decide +kernel) (by decide),
    h.2 0 _ (by decide +kernel)⟩

/-- The panic that a call ends in. -/
def stops (s : State n π) (p : π) (c : Syscall n π) : Option Stop :=
  match c.run p s with
  | .ok _ => none
  | .error e => some e

omit [Fintype π] in
theorem run_of_stops {p : π} {c : Syscall n π} {e : Stop} (h : stops s p c = some e) :
    c.run p s = .error e := by
  unfold stops at h
  split at h
  · cases h
  · rename_i hrun
    cases h
    exact hrun

/-- Process 0 is in a/b when process 1 removes a/b and then a. -/
def orphaned : List (Fin 2 × Syscall 2 (Fin 2)) :=
  [(0, .mkdir ⟨true, [['a']]⟩), (0, .mkdir ⟨true, [['a'], ['b']]⟩), (0, .fork 1),
   (0, .chdir ⟨true, [['a'], ['b']]⟩), (1, .unlink ⟨true, [['a'], ['b']]⟩),
   (1, .unlink ⟨true, [['a']]⟩)]

/-- The ".." of a removed directory names a free inode, and chdir("..") panics. -/
theorem dotdot_free : ∃ s : State 2 (Fin 2), Run State.step free (boot rootOnly 0) s ∧
    (∃ d, ∃ e ∈ (s.nodes d).ents, (s.nodes d).type = .dir ∧ e.inum ≠ 0 ∧
      (s.nodes e.inum).type = .free) ∧ (Syscall.chdir ⟨false, [dotdot]⟩).possible s 0 = true ∧
    (Syscall.chdir ⟨false, [dotdot]⟩).run 0 s = .error .noType := by
  refine ⟨ran orphaned, run_free, ⟨3, ⟨2, dotdot⟩, ?_⟩, ?_, run_of_stops ?_⟩
  · decide +kernel
  · decide +kernel
  · decide +kernel

/-! ## Link counts -/

/-- The live entries other than "." that name `i`, in directories that have links. -/
def linksTo (N : Inum n → Node n) (i : Inum n) : Int :=
  total (fun x : Node n => if x.type = .dir ∧ 0 < x.nlink then
    (x.ents.countP fun e => e.inum = i ∧ e.inum ≠ 0 ∧ e.name ≠ dot : Nat) else 0) N

/-- The directories with links whose ".." is `i`. -/
def children (N : Inum n → Node n) (i : Inum n) : Int :=
  total (fun x : Node n => if x.type = .dir ∧ 0 < x.nlink ∧ up x = i then 1 else 0) N

theorem countP_dots {es : List (Dirent n)} {p : Inum n} (h : Dots d p es) (i : Inum n) :
    ((es.countP fun e => e.inum = i ∧ e.inum ≠ 0 ∧ e.name ≠ dot : Nat) : Int) =
      named i es + if p = i then 1 else 0 := by
  obtain ⟨rest, rfl, -, hp, hrest⟩ := h
  have hcount : rest.countP (fun e => e.inum = i ∧ e.inum ≠ 0 ∧ e.name ≠ dot) =
      rest.countP fun e => e.inum = i ∧ e.proper := by
    refine List.countP_congr fun e he => ?_
    simp only [decide_eq_true_eq]
    refine ⟨fun hl => ⟨hl.1, hrest e he hl.2.1⟩, fun hl => ⟨hl.1, ?_⟩⟩
    have hprop := of_decide_eq_true hl.2
    exact ⟨hprop.1, hprop.2.1⟩
  have hdd : dotdot ≠ dot := by decide
  unfold named
  rw [List.countP_cons, List.countP_cons, List.countP_cons, List.countP_cons, hcount]
  by_cases hpi : p = i
  · simp [Dirent.proper, hpi, hdd, hpi ▸ hp]
  · simp [Dirent.proper, hpi]

theorem Tree.linksTo_eq (h : Tree True N 0) (i : Inum n) :
    linksTo N i = entries N i + children N i := by
  unfold linksTo entries children total
  rw [← Finset.sum_add_distrib]
  refine Finset.sum_congr rfl fun d _ => ?_
  beta_reduce
  by_cases hd : (N d).type = .dir
  · by_cases hn : 0 < (N d).nlink
    · rw [if_pos ⟨hd, hn⟩, countP_dots (h.dots d hd)]
      simp [hd, hn]
    · -- A directory without links has no proper entries.
      have hl := h.links d
      have h1 := entries_nonneg N d
      have h2 := subdirs_nonneg N (N d).ents
      have h3 := one_nonneg ROOTINO d
      rw [Pi.zero_apply] at hl
      obtain ⟨he, -, hroot, -⟩ := h.unlinked (i := d) (by omega)
      rw [named_zero (h.tidy trivial d hroot he)]
      simp [hn]
  · rw [h.plain d hd]
    simp [hd, named]

/-- A directory with links other than the root has one entry, in its "..". -/
theorem Tree.child_eq (h : Tree True N 0) (hd : (N d).type = .dir) (hroot : d ≠ ROOTINO) :
    (if 0 < (N d).nlink ∧ up (N d) = i then (1 : Int) else 0) = named d (N i).ents := by
  by_cases hpos : 0 < named d (N i).ents
  · have hcount : 0 < (N i).ents.countP fun e => e.inum = d ∧ e.proper := by
      unfold named at hpos
      omega
    obtain ⟨e, he, hprop⟩ := List.countP_pos_iff.1 hcount
    obtain ⟨rfl, hproper⟩ := of_decide_eq_true hprop
    have h1 := named_le_entries N i e.inum
    have h2 := h.once e.inum hd
    rw [if_pos ⟨h.linked he hproper, h.parent i e he hproper hd⟩]
    omega
  · have h0 := named_nonneg d (N i).ents
    rw [if_neg]
    · omega
    · rintro ⟨hn, hup⟩
      have hent := (h.named_or_root trivial (d := d) (by simpa using hn.ne')).resolve_left hroot
      obtain ⟨p, e, he, rfl, hproper⟩ := exists_named hent
      have hp := h.parent p e he hproper hd
      rw [hup] at hp
      subst hp
      exact hpos (named_pos he rfl hproper)

/-- Counting the entries that name directories by what they name. -/
theorem sum_named (N : Inum n → Node n) (es : List (Dirent n)) :
    (∑ d, if (N d).type = .dir then named d es else 0) = subdirs N es := by
  induction es with
  | nil => simp [named, subdirs]
  | cons e es ih =>
    have hnamed (d : Inum n) : (if (N d).type = .dir then named d (e :: es) else 0) =
        (if (N d).type = .dir then named d es else 0) +
          if d = e.inum then (if e.proper ∧ (N e.inum).type = .dir then 1 else 0) else 0 := by
      unfold named
      rw [List.countP_cons]
      by_cases hd : d = e.inum
      · subst hd
        by_cases hty : (N e.inum).type = .dir <;> by_cases hp : e.proper <;> simp [hty, hp]
      · simp [hd, Ne.symm hd]
    have hsub : subdirs N (e :: es) =
        subdirs N es + if e.proper ∧ (N e.inum).type = .dir then 1 else 0 := by
      unfold subdirs
      rw [List.countP_cons]
      split <;> simp_all
    rw [Finset.sum_congr rfl fun d _ => hnamed d, Finset.sum_add_distrib, ih, hsub]
    simp

theorem Tree.children_eq (h : Tree True N 0) (i : Inum n) :
    children N i = subdirs N (N i).ents + one ROOTINO i := by
  have hterm (d : Inum n) : (if (N d).type = .dir ∧ 0 < (N d).nlink ∧ up (N d) = i then (1 : Int)
      else 0) = (if (N d).type = .dir then named d (N i).ents else 0) +
        if d = ROOTINO then one ROOTINO i else 0 := by
    by_cases hroot : d = ROOTINO
    · subst hroot
      have h0 : named ROOTINO (N i).ents = 0 := by
        have h1 := named_le_entries N i ROOTINO
        have h2 := named_nonneg ROOTINO (N i).ents
        rw [h.rootless] at h1
        omega
      have hl := h.links ROOTINO
      have hs := subdirs_nonneg N (N ROOTINO).ents
      rw [h.rootless, one_self, Pi.zero_apply] at hl
      have hn : 0 < (N ROOTINO).nlink := by omega
      simp [h.root, h.rootUp, hn, h0, one, eq_comm]
    · by_cases hd : (N d).type = .dir
      · have hc := h.child_eq (i := i) hd hroot
        simp only [hd, true_and, hroot, if_true, if_false, Int.add_zero]
        exact hc
      · simp [hd, hroot]
  unfold children total
  rw [Finset.sum_congr rfl fun d _ => hterm d, Finset.sum_add_distrib, sum_named]
  simp

/-- The link count is the number of live entries other than ".". -/
theorem Tree.nlink_eq (h : Tree True N 0) (i : Inum n) : (N i).nlink = linksTo N i := by
  have h1 := h.exact trivial i
  rw [Pi.zero_apply] at h1
  rw [h.linksTo_eq, h.children_eq, h1]
  omega

/-- Calls that put no entry into a directory without links. -/
def sparesRemoved : Guard (State n π) (π × Syscall n π) := fun s l _ => l.2.Spares s l.1

/-- The link count of every inode is the number of live entries other than "." that
name it in directories that have links; an inode with links has such an entry. -/
theorem nlink_exact {init : π} (hN : Image N)
    (hr : Run State.step sparesRemoved (boot N init) s) (i : Inum n) :
    (s.nodes i).nlink = linksTo s.nodes i ∧
    (0 < (s.nodes i).nlink → ∃ d, (s.nodes d).type = .dir ∧ 0 < (s.nodes d).nlink ∧
      ∃ e ∈ (s.nodes d).ents, e.inum = i ∧ e.name ≠ dot) := by
  have h : Inv False True s.cwd s 0 0 0 := by
    refine hr.invariant (I := fun s => Inv False True s.cwd s 0 0 0)
      ((hN.boot init).mono False.elim id) fun a l b ha hstep hg => ?_
    exact (ha.step hstep).mono False.elim fun _ => ⟨trivial, hg⟩
  have hexact := h.tree.nlink_eq i
  refine ⟨hexact, fun hpos => ?_⟩
  rw [hexact] at hpos
  by_contra hnone
  have h0 : linksTo s.nodes i = 0 := by
    refine total_eq_zero fun d => ?_
    split
    · rename_i hd
      have hz : (s.nodes d).ents.countP (fun e => e.inum = i ∧ e.inum ≠ 0 ∧ e.name ≠ dot) = 0 := by
        refine List.countP_eq_zero.2 fun e he hcount => hnone ?_
        have hc := of_decide_eq_true hcount
        exact ⟨d, hd.1, hd.2, e, he, hc.1, hc.2.2⟩
      rw [hz]
      rfl
    · rfl
  omega

instance (p : π) (path : Path) : Decidable (Linked s p path) :=
  inferInstanceAs (Decidable (∀ _, _))

instance (p : π) (c : Syscall n π) : Decidable (c.Spares s p) :=
  inferInstanceAs (Decidable (∀ _, _))

/-- A file gets a second name in another directory and loses the first. -/
def renamed : List (Fin 1 × Syscall 2 (Fin 1)) :=
  [(0, .mkdir ⟨true, [['a']]⟩), (0, .open ⟨true, [['a'], ['x']]⟩ 0x202),
   (0, .link ⟨true, [['a'], ['x']]⟩ ⟨true, [['y']]⟩), (0, .unlink ⟨true, [['a'], ['x']]⟩)]

theorem nlink_exact_renamed : ((ran renamed).nodes 3).type = .file ∧
    ((ran renamed).nodes 3).nlink = linksTo (ran renamed).nodes 3 := by
  have hr : Run State.step sparesRemoved (boot rootOnly 0) (ran renamed) :=
    run_final (g := fun s l => l.2.Spares s l.1) of_decide_eq_true (by decide +kernel)
  exact ⟨by decide +kernel, (nlink_exact image_rootOnly hr 3).1⟩

/-- A process makes a file in its current directory, which it has removed. -/
def afterRemoval : List (Fin 1 × Syscall 2 (Fin 1)) :=
  [(0, .mkdir ⟨true, [['a']]⟩), (0, .chdir ⟨true, [['a']]⟩), (0, .unlink ⟨true, [['a']]⟩),
   (0, .open ⟨false, [['x']]⟩ 0x202)]

/-- The file has a link, but no directory with links names it. -/
theorem nlink_unnamed : ∃ (s : State 2 (Fin 1)) (i : Inum 2),
    Run State.step free (boot rootOnly 0) s ∧ (s.nodes i).type = .file ∧ (s.nodes i).nlink = 1 ∧
    linksTo s.nodes i = 0 := by
  refine ⟨ran afterRemoval, 3, run_free, ?_⟩
  decide +kernel

end Xv6.Links
