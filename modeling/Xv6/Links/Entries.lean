import Xv6.Links.Walk

/-! The calls that change directories: `create`, `link` and `unlink`. The counts stay exact
unless a directory that has no links any more gets an entry, and ".." keeps naming a
directory with links unless `unlink` takes the last one. Both are seen before the call. -/

namespace Xv6.Links

open Calls Totals Function

variable {n : Nat} {π : Type} {s t u : State n π} {i j d dp ip : Inum n} {N : Inum n → Node n}
  {x : Node n} {e : Dirent n} {name : Name} {ty : Ty} {k : Nat}

/-! ## What is written -/

@[simp] theorem inode_setNode (x : Node n) :
    (s.setNode i x).inode i = { s.inode i with node := x } := inode_setInode _

theorem inode_setNode_ne (hj : j ≠ i) (x : Node n) :
    (s.setNode i x).inode j = s.inode j := inode_setInode_ne hj _

theorem nodes_setNode (x : Node n) : (s.setNode i x).nodes = update s.nodes i x :=
  nodes_setInode_update _

theorem setInode_comm (hne : i ≠ j) (x y : Inode n) :
    (s.setInode i x).setInode j y = (s.setInode j y).setInode i x := by
  simp only [State.setInode, update_comm hne]

theorem setInode_inode (i : Inum n) : s.setInode i (s.inode i) = s := by
  simp only [State.setInode, update_eq_self]

/-- `c` more links are counted for `i`. -/
abbrev State.addLinks (s : State n π) (i : Inum n) (c : Int) : State n π :=
  s.setNode i { s.nodes i with nlink := (s.nodes i).nlink + c }

/-- An inode that `create` has made: a directory has its two entries. -/
def fresh (ty : Ty) (ip dp : Inum n) : Node n :=
  ⟨ty, 1, if ty = .dir then [⟨ip, dot⟩, ⟨dp, dotdot⟩] else []⟩

/-- What `create` writes first: the new inode `ip`, and the link count of the directory `dp`
for "..". -/
def State.born (s : State n π) (dp ip : Inum n) (ty : Ty) : State n π :=
  (s.setInode ip ⟨fresh ty ip dp, 1, true, true⟩).setNode dp { s.nodes dp with
    nlink := (s.nodes dp).nlink + if ty = .dir then 1 else 0 }

/-- Then it writes the entry. -/
def State.made (s : State n π) (dp : Inum n) (name : Name) (ip : Inum n) (ty : Ty) :
    State n π :=
  (s.born dp ip ty).setNode dp { (s.born dp ip ty).nodes dp with
    ents := addEnt ((s.born dp ip ty).nodes dp).ents ⟨ip, name⟩ }

theorem fresh_dots (hty : ty = .dir) (hip : ip ≠ 0) (hdp : dp ≠ 0) :
    Dots ip (up (fresh ty ip dp)) (fresh ty ip dp).ents := by
  subst hty
  exact ⟨[], rfl, hip, hdp, fun e he => by cases he⟩

theorem fresh_plain (he : e ∈ (fresh ty ip dp).ents) : e.proper = false := by
  unfold fresh at he
  split at he
  · rcases List.mem_cons.1 he with rfl | he
    · simp [Dirent.proper]
    · rw [List.mem_singleton.1 he]
      simp [Dirent.proper]
  · cases he

theorem nodes_born_self (hne : ip ≠ dp) : (s.born dp ip ty).nodes ip = fresh ty ip dp := by
  simp [State.born, nodes_setNode, nodes_setInode_update, hne]

theorem nodes_born_dir : (s.born dp ip ty).nodes dp =
    { s.nodes dp with nlink := (s.nodes dp).nlink + if ty = .dir then 1 else 0 } := by
  simp [State.born, nodes_setNode]

theorem nodes_made_self (hne : ip ≠ dp) : (s.made dp name ip ty).nodes ip = fresh ty ip dp := by
  simp [State.made, nodes_setNode, hne, nodes_born_self]

theorem nodes_made_dir : (s.made dp name ip ty).nodes dp =
    ⟨(s.nodes dp).type, (s.nodes dp).nlink + if ty = .dir then 1 else 0,
      addEnt (s.nodes dp).ents ⟨ip, name⟩⟩ := by
  simp [State.made, nodes_setNode, nodes_born_dir]

theorem nodes_made_ne (h1 : i ≠ ip) (h2 : i ≠ dp) : (s.made dp name ip ty).nodes i = s.nodes i := by
  simp [State.made, State.born, nodes_setNode, nodes_setInode_update, h1, h2]

/-- A file has no entries, and its directory no link for it. -/
theorem State.born_file (hne : ip ≠ dp) (hty : ty ≠ .dir) :
    s.born dp ip ty = s.setInode ip ⟨⟨ty, 1, []⟩, 1, true, true⟩ := by
  have hfresh : fresh ty ip dp = ⟨ty, 1, []⟩ := by rw [fresh, if_neg hty]
  have hself := setInode_inode (s := s.setInode ip ⟨⟨ty, 1, []⟩, 1, true, true⟩) dp
  rw [inode_setInode_ne hne.symm] at hself
  rw [State.born, if_neg hty, Int.add_zero, hfresh, State.setNode, inode_setInode_ne hne.symm]
  exact hself

/-- What `unlink` writes into the directory `dp` of `ip`. -/
def State.cleared (s : State n π) (dp : Inum n) (k : Nat) (ip : Inum n) : State n π :=
  let t := s.setNode dp { s.nodes dp with ents := clearEnt (s.nodes dp).ents k }
  t.setNode dp { t.nodes dp with
    nlink := (t.nodes dp).nlink + -(if (s.nodes ip).type = .dir then 1 else 0) }

theorem State.cleared_dir (hdir : (s.nodes ip).type = .dir) : s.cleared dp k ip =
    let t := s.setNode dp { s.nodes dp with ents := clearEnt (s.nodes dp).ents k }
    t.setNode dp { t.nodes dp with nlink := (t.nodes dp).nlink - 1 } := by
  rw [State.cleared, if_pos hdir]
  rfl

theorem State.cleared_file (hdir : (s.nodes ip).type ≠ .dir) : s.cleared dp k ip =
    s.setNode dp { s.nodes dp with ents := clearEnt (s.nodes dp).ents k } := by
  rw [State.cleared, if_neg hdir]
  simp only [neg_zero, Int.add_zero]
  exact setInode_inode dp

/-- What is still allocated has its type and its "..". -/
def Older (s t : State n π) : Prop :=
  ∀ d, (t.nodes d).type ≠ .free →
    (t.nodes d).type = (s.nodes d).type ∧ up (t.nodes d) = up (s.nodes d)

theorem Older.trans (h : Older s t) (h' : Older t u) : Older s u := by
  intro d hd
  obtain ⟨h1, h2⟩ := h' d hd
  rw [h1] at hd
  obtain ⟨h3, h4⟩ := h d hd
  exact ⟨h1.trans h3, h2.trans h4⟩

theorem Older.setNode (hty : x.type = (s.nodes i).type)
    (hup : up x = up (s.nodes i)) : Older s (s.setNode i x) := by
  intro d _
  rw [nodes_setNode]
  by_cases hd : d = i
  · rw [hd, update_self]
    exact ⟨hty, hup⟩
  · rw [update_of_ne hd]
    exact ⟨rfl, rfl⟩

theorem ne_of_type (hi : (N i).type = .free) (hd : (N d).type = .dir) : i ≠ d := by
  rintro rfl
  rw [hd] at hi
  cases hi

theorem freeInode_some (h : s.freeInode = some i) : i ≠ 0 ∧ (s.nodes i).type = .free := by
  have hp := List.find?_some h
  exact of_decide_eq_true hp

section

variable {E : Stop → Prop} (hE : ∀ e, e ≠ .noType → E e)

include hE

theorem ends_dirlink_none (hd : (s.nodes d).type = .dir)
    (hf : findEnt (s.nodes d).ents name = none) : Ends (dirlink d name i) s E fun r t => r = true ∧
      t = s.setNode d { s.nodes d with ents := addEnt (s.nodes d).ents ⟨i, name⟩ } := by
  have hd' : (s.inode d).node.type = .dir := hd
  have hf' : findEnt (s.inode d).node.ents name = none := hf
  simp only [dirlink, dirlookup, inode, setNode, ends_bind, ends_get, ends_pure, ends_ite,
    ends_throw, ends_modify, hd', hf', true_and]
  refine ⟨fun _ => ⟨fun _ => hE _ (by decide), fun _ => ?_⟩, fun hne => absurd trivial hne⟩
  rw [hd]
  rfl

theorem ends_ialloc (hz : ∀ j, (s.nodes j).type = .free → (s.inode j).ref = 0) :
    Ends (ialloc ty) s E fun i t => (s.nodes i).type = .free ∧ i ≠ 0 ∧
      t = s.setInode i ⟨⟨ty, 0, []⟩, 1, false, (s.inode i).locked⟩ := by
  simp only [ialloc, ends_bind, ends_get]
  split
  · rename_i i hi
    have hp := freeInode_some hi
    have href : ¬ 0 < (s.inode i).ref := by
      rw [hz i hp.2]
      decide
    simp only [iget, inode, setInode, setNode, ends_bind, ends_get, ends_pure, ends_ite,
      ends_throw, ends_modify, State.setNode, inode_setInode, setInode_setInode]
    exact ⟨fun h => absurd h href, fun _ => ⟨fun _ => hE _ (by decide), fun _ =>
      ⟨hp.2, hp.1, trivial⟩⟩⟩
  · exact hE _ (by decide)

theorem ends_ilock_allocated (hty : (s.inode i).node.type ≠ .free) : Ends (ilock i) s E fun _ t =>
      t = s.setInode i { s.inode i with valid := true, locked := true } := by
  simp only [ilock, acquiresleep, inode, setInode, ends_bind, ends_get, ends_pure, ends_ite,
    ends_throw, ends_modify, inode_setInode, setInode_setInode]
  refine ⟨fun _ => hE _ (by decide), fun _ => ⟨fun _ => hE _ (by decide), fun _ =>
    ⟨fun hv => ?_, fun _ => ⟨fun h => absurd h hty, fun _ => trivial⟩⟩⟩⟩
  rw [hv]

/-- The two entries of a new directory. -/
theorem ends_dots {α : Type} {rest : Sys n π α} {Q : α → State n π → Prop}
    (hne : ip ≠ dp) (h0 : ip ≠ 0) (hrest : Ends rest (s.born dp ip .dir) E Q) :
    Ends (do
      let x ← inode dp
      setNode dp { x.node with nlink := x.node.nlink + 1 }
      if ← dirlink ip dot ip then
        if ← dirlink ip dotdot dp then rest else do
          throw .createDots
          rest
      else do
        throw .createDots
        rest) (s.setInode ip ⟨⟨.dir, 1, []⟩, 1, true, true⟩) E Q := by
  rw [ends_inode, inode_setInode_ne hne.symm]
  simp only [setNode, ends_bind, ends_modify, State.setNode]
  rw [inode_setInode_ne hne.symm, setInode_comm hne]
  refine (ends_dirlink_none hE ?_ ?_).post ?_
  · rw [nodes_setInode_self]
  · rw [nodes_setInode_self]
    rfl
  rintro - - ⟨rfl, rfl⟩
  rw [if_pos rfl, nodes_setInode_self, ends_bind]
  simp only [State.setNode, inode_setInode, setInode_setInode]
  refine (ends_dirlink_none hE ?_ ?_).post ?_
  · rw [nodes_setInode_self]
  · rw [nodes_setInode_self]
    simp [findEnt, addEnt, dot, dotdot]
  rintro - - ⟨rfl, rfl⟩
  rw [if_pos rfl, nodes_setInode_self]
  simp only [State.setNode, inode_setInode, setInode_setInode]
  have hents : addEnt (addEnt [] ⟨ip, dot⟩) ⟨dp, dotdot⟩ =
      [(⟨ip, dot⟩ : Dirent n), ⟨dp, dotdot⟩] := by
    simp [addEnt, h0]
  rw [hents, ← setInode_comm hne]
  rw [State.born, State.setNode, inode_setInode_ne hne.symm] at hrest
  exact hrest

end

variable [Fintype π] {A A' B B' : Prop} {cw : π → Option (Inum n)} {hand : Inum n → Int}
  {fhand : Fin NFILE → Int} {pend pend' : Inum n → Int}

/-! ## Changes of the stored part of an inode -/

theorem Tree.mono (h : Tree B N pend) (hB : B' → B) : Tree B' N pend :=
  { h with exact := fun hb => h.exact (hB hb), tidy := fun hb => h.tidy (hB hb) }

theorem Inv.mono (h : Inv A B cw s hand fhand pend) (hA : A' → A) (hB : B' → B) :
    Inv A' B' cw s hand fhand pend :=
  { h with tree := h.tree.mono hB, upper := fun ha => h.upper (hA ha) }

theorem Inv.with_upper (h : Inv A B cw s hand fhand pend) (hA : A' → Upper s.nodes) :
    Inv A' B cw s hand fhand pend :=
  { h with upper := hA }

theorem Inv.setNode (h : Inv A B cw s hand fhand pend) (hi : 1 ≤ hand i)
    (hv : (s.inode i).valid = true) (hty : x.type = (s.nodes i).type)
    (htree : Tree B' (update s.nodes i x) pend') (hup : A' → Upper (update s.nodes i x)) :
    Inv A' B' cw (s.setNode i x) hand fhand pend' :=
  h.replace htree hup (fun _ _ => rfl) (h.refs i) (h.inHand i)
    (fun hold => by rw [hty]; exact ⟨h.kept i hold, id⟩)
    (fun hr hx => by rw [hty]; exact h.valid i hr hx)
    fun _ _ => ⟨h.ref_pos hi, hv⟩

/-- A change that leaves ".." alone and takes no directory's last link. -/
theorem Upper.change (h : Upper N) (hty : x.type = (N i).type)
    (hdir : (N i).type = .dir → up x = up (N i) ∧ (N i).nlink ≤ x.nlink) :
    Upper (update N i x) := by
  have htype (j : Inum n) : (update N i x j).type = (N j).type := by
    by_cases hj : j = i
    · rw [hj, update_self, hty]
    · rw [update_of_ne hj]
  have hup (j : Inum n) (hj : (N j).type = .dir) : up (update N i x j) = up (N j) ∧
        (N j).nlink ≤ (update N i x j).nlink := by
    by_cases hji : j = i
    · subst hji
      rw [update_self]
      exact hdir hj
    · rw [update_of_ne hji]
      exact ⟨rfl, Int.le_refl _⟩
  intro d hd
  rw [htype] at hd
  obtain ⟨h1, h2⟩ := h d hd
  rw [(hup d hd).1, htype]
  exact ⟨h1, lt_of_lt_of_le h2 (hup _ h1).2⟩

theorem Inv.addLinks {c : Int} (h : Inv A B cw s hand fhand pend) (hi : 1 ≤ hand i)
    (hv : (s.inode i).valid = true) (hty : (s.nodes i).type ≠ .free) (hc : 0 ≤ pend i + c)
    (hpend : ∀ j, pend j + c * one i j = pend' j) (hA : A' → A ∧ (s.nodes i).type ≠ .dir) :
    Inv A' B cw (s.addLinks i c) hand fhand pend' := by
  have htree := h.tree.setNlink hty hc
  rw [funext hpend] at htree
  exact h.setNode hi hv rfl htree fun ha =>
    (h.upper (hA ha).1).change rfl fun hdir => absurd hdir (hA ha).2

/-- An inode is allocated, with one link that no entry stands for yet. -/
theorem Inv.alloc (h : Inv A B cw s hand fhand pend)
    (hi : (s.nodes i).type = .free) (hh : hand i = 0)
    (htree : Tree B (update s.nodes i x) pend') (hty : x.type ≠ .free) (hnl : x.nlink = 1) :
    Inv False B cw (s.setInode i ⟨x, 1, true, true⟩) (hand + one i) fhand pend' := by
  have h0 : holders cw s i = 0 := by
    have h1 := holders_nonneg cw s i
    have h2 : ¬ 0 < holders cw s i := fun hpos => h.kept i hpos hi
    omega
  have hself : (hand + one i) i = 1 := by rw [Pi.add_apply, hh, one_self]; rfl
  refine h.replace htree False.elim (fun j hj => ?_) (by rw [h0, hself]; rfl)
    (by rw [hself]; decide)
    (fun hpos => by omega) (fun _ _ => hty) fun _ hn => absurd hn (by rw [hnl]; decide)
  rw [Pi.add_apply, one_of_ne hj, Int.add_zero]

/-- An inode that has more links than are pending is the root or is named by an entry. -/
theorem Tree.named_or_root (h : Tree B N pend) (hB : B)
    (hn : (N d).nlink ≠ pend d) : d = ROOTINO ∨ 0 < entries N d := by
  have h1 := h.exact hB d
  have h2 := entries_nonneg N d
  by_cases hroot : d = ROOTINO
  · exact .inl hroot
  · refine .inr ?_
    by_contra hz
    have h3 : entries N d = 0 := by omega
    have h4 : subdirs N (N d).ents = 0 := subdirs_zero (h.tidy hB d hroot h3)
    rw [one_of_ne hroot] at h1
    omega

theorem Tree.proper_of_none (h : Tree B N pend)
    (hd : (N d).type = .dir) (hf : findEnt (N d).ents name = none) (hi : i ≠ 0) :
    (⟨i, name⟩ : Dirent n).proper := by
  obtain ⟨rest, hes, h0, hp, -⟩ := h.dots d hd
  have h1 := findEnt_none hf (e := ⟨d, dot⟩) (by simp [hes]) h0
  have h2 := findEnt_none hf (e := ⟨up (N d), dotdot⟩) (by rw [hes]; simp) hp
  exact decide_eq_true ⟨hi, h1.symm, h2.symm⟩

theorem Later.keeps (h : Later cw s t) (hj : 0 < (s.nodes j).nlink) : t.nodes j = s.nodes j := by
  rcases h.nodes j with h1 | ⟨h1, -⟩
  · exact h1
  · omega

/-! ## What a call may not do -/

/-- A directory that is to get an entry for `path` has links. -/
def Linked (s : State n π) (p : π) (path : Path) : Prop :=
  ∀ x ∈ s.parent p path, findEnt (s.nodes x.1).ents x.2 = none → (s.nodes x.1).nlink ≠ 0

/-- An empty directory that `unlink` is to remove is the ".." of no directory, and the directory
that it is removed from has another link. -/
def Unshared (s : State n π) (p : π) (path : Path) : Prop :=
  ∀ x ∈ s.parent p path, x.2 ≠ dot → x.2 ≠ dotdot → ∀ y ∈ findEnt (s.nodes x.1).ents x.2,
    (s.nodes y.1).type = .dir → isdirempty (s.nodes y.1).ents = true →
    (s.nodes x.1).nlink ≠ 1 ∧ ∀ d, (s.nodes d).type = .dir → up (s.nodes d) ≠ y.1

/-- The path at whose end a call may make an entry. -/
def Syscall.makes : Syscall n π → Option Path
  | .open path omode => if omode &&& O_CREATE ≠ 0 then some path else none
  | .mkdir path | .mknod path | .link _ path => some path
  | _ => none

/-- The call makes no entry in a directory without links. -/
def Syscall.Spares (s : State n π) (p : π) (c : Syscall n π) : Prop :=
  ∀ path ∈ c.makes, Linked s p path

/-- The path whose last entry a call may remove. -/
def Syscall.removes : Syscall n π → Option Path
  | .unlink path => some path
  | _ => none

/-- The call takes no directory from a "..". -/
def Syscall.Keeps (s : State n π) (p : π) (c : Syscall n π) : Prop :=
  ∀ path ∈ c.removes, Unshared s p path

/-! ## `create` -/

section

variable {E : Stop → Prop} (hE : ∀ e, e ≠ .noType → E e)

include hE in
/-- `dirlink` when it has looked: the name was there, or the entry is written. -/
theorem ends_dirlink (h : Inv A B cw s hand fhand pend) : Ends (dirlink d name i) s E fun r t =>
      if r then t = s.setNode d { s.nodes d with ents := addEnt (s.nodes d).ents ⟨i, name⟩ } ∧
        (s.nodes d).type = .dir ∧ findEnt (s.nodes d).ents name = none
      else Inv A B cw t hand fhand pend ∧ Strolls cw s hand t := by
  refine (ends_dirlookup hE h).bind ?_
  rintro (_ | ⟨j, k⟩) t ⟨hd, ht⟩
  · obtain ⟨rfl, hf⟩ := ht
    simp only [inode, setNode, ends_bind, ends_get, ends_pure, ends_ite, ends_throw, ends_modify,
      if_true]
    exact ⟨fun _ => hE _ (by decide), fun _ => ⟨rfl, hd, hf⟩⟩
  · have hj : 1 ≤ (hand + one j) j := by
      have := h.inHand j
      simp
      omega
    refine (ends_iput hE ht.1.inv hj).bind ?_
    rintro - u hu
    have hsub : hand + one j - one j = hand := by
      funext k
      simp
    rw [hsub] at hu
    exact ⟨hu.inv, ht.1.same.strolls.trans ⟨hu.later, hu.held⟩⟩

/-- The new directory has a parent with links, and no directory has lost one. -/
theorem Inv.made_upper (h : Inv A B cw s hand 0 0) (hA : A) (hfree : (s.nodes ip).type = .free)
    (hd : (s.nodes dp).type = .dir) (hf : findEnt (s.nodes dp).ents name = none) (h0 : ip ≠ 0) :
    Upper (s.made dp name ip ty).nodes := by
  have hne := ne_of_type hfree hd
  have hkeep (j : Inum n) (hj : (s.nodes j).type = .dir) :
      ((s.made dp name ip ty).nodes j).type = .dir ∧
      up ((s.made dp name ip ty).nodes j) = up (s.nodes j) ∧
      (s.nodes j).nlink ≤ ((s.made dp name ip ty).nodes j).nlink := by
    have hji := (ne_of_type hfree hj).symm
    by_cases hjd : j = dp
    · subst hjd
      rw [nodes_made_dir]
      refine ⟨hd, ?_, ?_⟩
      · exact ((h.tree.dots j hd).addEnt (h.tree.proper_of_none hd hf h0)).up_eq rfl
      · show (s.nodes j).nlink ≤ (s.nodes j).nlink + if ty = .dir then 1 else 0
        split <;> omega
    · rw [nodes_made_ne hji hjd]
      exact ⟨hj, rfl, Int.le_refl _⟩
  intro j hj
  by_cases hji : j = ip
  · subst hji
    rw [nodes_made_self hne] at hj ⊢
    have hty : ty = .dir := hj
    have hup : up (fresh ty j dp) = dp := by rw [hty]; rfl
    have hnn := h.tree.links dp
    have h1 := entries_nonneg s.nodes dp
    have h2 := subdirs_nonneg s.nodes (s.nodes dp).ents
    have h3 := one_nonneg ROOTINO dp
    rw [hup, nodes_made_dir]
    refine ⟨hd, ?_⟩
    show 0 < (s.nodes dp).nlink + if ty = .dir then 1 else 0
    rw [if_pos hty]
    simp only [Pi.zero_apply] at hnn
    omega
  · have hj' : (s.nodes j).type = .dir := by
      by_cases hjd : j = dp
      · rw [hjd]
        exact hd
      · rwa [nodes_made_ne hji hjd] at hj
    obtain ⟨hu1, hu2⟩ := h.upper hA j hj'
    obtain ⟨hk1, -, hk3⟩ := hkeep _ hu1
    rw [(hkeep j hj').2.1]
    exact ⟨hk1, lt_of_lt_of_le hu2 hk3⟩

/-- The counts after `create`, where the directory had a link. -/
theorem Inv.made (h : Inv A B cw s (one dp) 0 0)
    (hfree : (s.nodes ip).type = .free) (h0 : ip ≠ 0) (hty : ty ≠ .free)
    (hv : (s.inode dp).valid = true) (hd : (s.nodes dp).type = .dir)
    (hf : findEnt (s.nodes dp).ents name = none) :
    Inv A (B ∧ (s.nodes dp).nlink ≠ 0) cw (s.made dp name ip ty) (one dp + one ip) 0 0 := by
  have hne := ne_of_type hfree hd
  have hdp0 := (ne_of_type h.tree.zero hd).symm
  have hroot := ne_of_type hfree h.tree.root
  have hdp := one_le_left dp ip
  -- The new inode.
  have h1 : Inv False B cw (s.setInode ip ⟨fresh ty ip dp, 1, true, true⟩) (one dp + one ip) 0
      fun j => 0 + one ip j := by
    refine h.alloc hfree (one_of_ne hne) ?_ hty rfl
    refine h.tree.alloc hfree h0 hty rfl (fun hnd => if_neg hnd) ?_ fun e he => fresh_plain he
    exact fun hdir => fresh_dots hdir h0 hdp0
  -- The link of "..".
  have hn1 : (s.setInode ip ⟨fresh ty ip dp, 1, true, true⟩).nodes dp = s.nodes dp :=
    nodes_setInode_ne _ hne.symm
  have h2 : Inv False B cw (s.born dp ip ty) (one dp + one ip) 0
      fun j => 0 + one ip j + (if ty = .dir then 1 else 0) * one dp j := by
    have htree := h1.tree.setNlink (i := dp) (c := if ty = .dir then 1 else 0)
      (by rw [hn1, hd]; decide) (by rw [one_of_ne hne.symm]; split <;> decide)
    rw [hn1] at htree
    refine h1.setNode hdp ?_ ?_ htree False.elim
    · rw [inode_setInode_ne hne.symm]
      exact hv
    · rw [hn1]
  have hnd : (s.born dp ip ty).nodes dp =
      { s.nodes dp with nlink := (s.nodes dp).nlink + if ty = .dir then 1 else 0 } :=
    nodes_born_dir
  have hni : (s.born dp ip ty).nodes ip = fresh ty ip dp := nodes_born_self hne
  have hvt : ((s.born dp ip ty).inode dp).valid = true := by
    rw [State.born, inode_setNode, inode_setInode_ne hne.symm]
    exact hv
  -- The entry.
  have h3 : Inv False (B ∧ (s.nodes dp).nlink ≠ 0) cw (s.made dp name ip ty)
      (one dp + one ip) 0 0 := by
    refine h2.setNode hdp hvt rfl ?_ False.elim
    refine (h2.tree.mono And.left).add ?_ ?_ hroot ?_ ?_ ?_ ?_
    · rw [hnd]
      exact hd
    · exact h.tree.proper_of_none hd hf h0
    · intro hdir
      rw [hni] at hdir ⊢
      have hty' : ty = .dir := hdir
      refine ⟨by rw [hty']; rfl, ?_⟩
      have hl := h2.tree.links ip
      have he := entries_nonneg (s.born dp ip ty).nodes ip
      have hs := subdirs_nonneg (s.born dp ip ty).nodes ((s.born dp ip ty).nodes ip).ents
      rw [hni, one_of_ne hroot, one_of_ne hne, one_self] at hl
      have hnl : (fresh ty ip dp).nlink = 1 := rfl
      rw [hni] at hs
      show entries (s.born dp ip ty).nodes ip = 0
      omega
    · intro j
      rw [hni]
      show (0 : Int) = 0 + one ip j + (if ty = .dir then 1 else 0) * one dp j - one ip j -
        (if ty = .dir then 1 else 0) * one dp j
      omega
    · exact fun _ => Int.le_refl _
    · rintro ⟨hB, hnz⟩
      refine h2.tree.named_or_root hB ?_
      rw [hnd, one_of_ne hne.symm, one_self]
      show (s.nodes dp).nlink + (if ty = .dir then 1 else 0) ≠ _
      omega
  exact h3.with_upper fun hA => h.made_upper hA hfree hd hf h0

/-- What `create` returns: the inode, of the type asked for. -/
def Created (A B : Prop) (cw : π → Option (Inum n)) (ty : Ty) : Option (Inum n) → State n π → Prop
  | none, t => Inv A B cw t 0 0 0
  | some ip, t => Inv A B cw t (one ip) 0 0 ∧ (t.nodes ip).type = ty

include hE in
theorem ends_create {p : π} {path : Path} (hAE : A ∨ E .noType) (hty : ty ≠ .free)
    (h : Inv A B s.cwd s 0 0 0) (hp : (s.cwd p).isSome) :
    Ends (create p path ty) s E fun r t => t.cwd = s.cwd ∧
      Created A (B ∧ Linked s p path) s.cwd ty r t := by
  refine (ends_namex hE hAE h hp rfl).bind ?_
  rintro (_ | ⟨dp, name⟩) s1 ⟨hw, hpath⟩
  · obtain ⟨h1, hst⟩ := hw
    exact ⟨hst.later.cwd, h1.mono id And.left⟩
  refine (hw.lock hE hAE).bind ?_
  rintro - s2 ⟨h2, hlater, -, hv2, -, -⟩
  refine (ends_dirlookup hE h2).bind ?_
  rintro (_ | ⟨ip, k⟩) s3 ⟨hd, h3⟩
  · obtain ⟨rfl, hf⟩ := h3
    -- A free inode is in nobody's hand.
    have hz (j : Inum n) (hj : (s3.nodes j).type = .free) : (s3.inode j).ref = 0 := by
      have hr := h2.refs j
      have hh := holders_nonneg s.cwd s3 j
      have hk : ¬ 0 < holders s.cwd s3 j := fun hpos => h2.kept j hpos hj
      rw [one_of_ne (ne_of_type hj hd)] at hr
      omega
    refine (ends_ialloc hE hz).bind ?_
    rintro ip - ⟨hfree, h0, rfl⟩
    have hne := ne_of_type hfree hd
    have hfinish : Ends (do
        if ← dirlink dp name ip then do
          iunlockput dp
          pure (some ip)
        else throw .createDirlink) (s3.born dp ip ty) E fun r t => t.cwd = s.cwd ∧
          Created A (B ∧ Linked s p path) s.cwd ty r t := by
      refine (ends_dirlink_none hE ?_ ?_).bind ?_
      · rw [nodes_born_dir]
        exact hd
      · rw [nodes_born_dir]
        exact hf
      rintro - - ⟨rfl, rfl⟩
      rw [if_pos rfl]
      have h4 : Inv A (B ∧ (s3.nodes dp).nlink ≠ 0) s.cwd (s3.made dp name ip ty)
          (one dp + one ip) 0 0 := h2.made hfree h0 hty hv2 hd hf
      refine (ends_iunlockput hE h4 (one_le_left dp ip)).bind ?_
      rintro - u hu
      rw [add_sub_cancel_left] at hu
      refine ⟨hu.later.cwd.trans hlater.cwd, ?_, ?_⟩
      · refine hu.inv.mono id fun hb => ⟨hb.1, ?_⟩
        have hnode : s3.nodes dp = s.nodes dp := hlater.node (by rw [hd]; decide)
        rw [hnode] at hf ⊢
        exact hb.2 _ (hpath _ rfl) hf
      · rw [hu.held ip (by simp), nodes_made_self hne]
        rfl
    refine (ends_ilock_allocated hE (by rw [inode_setInode]; exact hty)).bind ?_
    rintro - - rfl
    rw [inode_setInode, setInode_setInode, ends_inode, inode_setInode, ends_bind]
    simp only [setNode, ends_modify, State.setNode, inode_setInode, setInode_setInode]
    by_cases hdir : ty = .dir
    · rw [if_pos hdir]
      subst hdir
      exact ends_dots hE hne h0 hfinish
    · rw [if_neg hdir]
      rwa [State.born_file hne hdir] at hfinish
  · obtain ⟨h3, -, hty3⟩ := h3
    refine (ends_iunlockput hE h3.inv (one_le_left dp ip)).bind ?_
    rintro - s4 h4
    rw [add_sub_cancel_left] at h4
    have hst4 : Later s.cwd s s4 := hlater.trans (h3.same.later.trans h4.later)
    refine (ends_ilock hE h4.inv (h4.inv.ref_pos (by simp)) (hAE.imp_left fun hA => ?_)).bind ?_
    · rw [h4.held ip (by simp), h3.same.nodes]
      exact hty3 hA
    rintro - s5 ⟨h5, hsame5, -⟩
    have hst5 : Later s.cwd s s5 := hst4.trans hsame5.later
    rw [ends_inode, ends_ite]
    refine ⟨fun hfile => ?_, fun _ => ?_⟩
    · exact ⟨hst5.cwd, h5.mono id And.left, hfile.2.trans hfile.1.symm⟩
    · refine (ends_iunlockput hE h5 (by simp)).bind ?_
      rintro - s6 h6
      rw [sub_self] at h6
      exact ⟨(hst5.trans h6.later).cwd, h6.inv.mono id And.left⟩

include hE in
theorem ends_sysMake {p : π} {path : Path} (hAE : A ∨ E .noType) (hty : ty ≠ .free)
    (h : Inv A B s.cwd s 0 0 0) (hp : (s.cwd p).isSome) :
    Ends (sysMake p path ty) s E fun _ t => Inv A (B ∧ Linked s p path) t.cwd t 0 0 0 := by
  refine (ends_create hE hAE hty h hp).bind ?_
  rintro (_ | ip) t ⟨hcwd, ht⟩
  · rw [ends_pure, hcwd]
    exact ht
  · exact ends_put hE ht.1 hcwd

/-! ## `link` -/

include hE in
theorem ends_linkBad (h : Inv A B cw s (one ip) 0 (one ip))
    (hty : (s.nodes ip).type ≠ .free) (hnd : (s.nodes ip).type ≠ .dir) :
    Ends (linkBad ip) s E fun _ t => Inv A B cw t 0 0 0 ∧ t.cwd = s.cwd := by
  refine (ends_ilock hE h (h.ref_pos (by simp)) (.inl hty)).bind ?_
  rintro - t ⟨ht, hsame, -, -, hv, -, -⟩
  rw [← hsame.nodes] at hty hnd
  have hu : Inv A B cw (t.addLinks ip (-1)) (one ip) 0 0 :=
    ht.addLinks (by simp) hv hty (by simp) (by simp) fun hA => ⟨hA, hnd⟩
  rw [ends_inode]
  simp only [setNode, ends_bind, ends_modify]
  refine (ends_iunlockput hE hu (by simp)).post fun _ v hv => ?_
  rw [sub_self] at hv
  exact ⟨hv.inv, hv.later.cwd.trans hsame.cwd⟩

/-- The new entry of a link. -/
theorem Inv.linked (h : Inv A B cw s (one ip + one dp) 0 (one ip))
    (hty : (s.nodes ip).type ≠ .free) (hnd : (s.nodes ip).type ≠ .dir)
    (hd : (s.nodes dp).type = .dir) (hv : (s.inode dp).valid = true)
    (hf : findEnt (s.nodes dp).ents name = none) : Inv A (B ∧ (s.nodes dp).nlink ≠ 0) cw
      (s.setNode dp { s.nodes dp with ents := addEnt (s.nodes dp).ents ⟨ip, name⟩ })
      (one ip + one dp) 0 0 := by
  have h0 : ip ≠ 0 := by
    rintro rfl
    exact hty h.tree.zero
  have hroot : ip ≠ ROOTINO := by
    rintro rfl
    exact hnd h.tree.root
  have hne : dp ≠ ip := by
    rintro rfl
    exact hnd hd
  have hproper : (⟨ip, name⟩ : Dirent n).proper := h.tree.proper_of_none hd hf h0
  refine h.setNode (one_le_right ip dp) hv rfl ?_ fun hA =>
    (h.upper hA).change rfl fun hdir => ⟨?_, Int.le_refl _⟩
  · refine (h.tree.mono And.left).add hd hproper hroot (fun hdir => absurd hdir hnd) ?_ ?_ ?_
    · intro j
      rw [if_neg hnd]
      simp
    · exact fun _ => Int.le_refl _
    · rintro ⟨hB, hn⟩
      refine h.tree.named_or_root hB ?_
      rwa [one_of_ne hne]
  · exact ((h.tree.dots dp hd).addEnt hproper).up_eq rfl

include hE in
theorem ends_sysLink {p : π} {old new : Path} (hAE : A ∨ E .noType)
    (h : Inv A B s.cwd s 0 0 0) (hp : (s.cwd p).isSome) :
    Ends (sysLink p old new) s E fun _ t => Inv A (B ∧ Linked s p new) t.cwd t 0 0 0 := by
  refine (ends_namex hE hAE h hp rfl).bind ?_
  rintro (_ | ⟨ip, last⟩) s1 ⟨hw, -⟩
  · exact hw.nothing.mono id And.left
  refine (hw.lock hE hAE).bind ?_
  rintro - s2 ⟨h2, hlater2, -, hv2, hty, -⟩
  rw [ends_inode, ends_ite]
  refine ⟨fun _ => (ends_put hE h2 hlater2.cwd).post fun _ _ ht => ht.mono id And.left,
    fun hnd => ?_⟩
  -- The link is counted before there is an entry for it.
  have h3 : Inv A B s.cwd (s2.addLinks ip 1) (one ip) 0 (one ip) :=
    h2.addLinks (by simp) hv2 hty (by simp) (by simp) fun hA => ⟨hA, hnd⟩
  rw [ends_bind]
  simp only [setNode, ends_modify]
  refine (ends_iunlock hE h3).bind ?_
  rintro - s4 ⟨h4, hsame4, -⟩
  have hcwd4 : s4.cwd = s.cwd := hsame4.cwd.trans hlater2.cwd
  have hip4 : s4.nodes ip = { s2.nodes ip with nlink := (s2.nodes ip).nlink + 1 } := by
    rw [hsame4.nodes, nodes_setNode, update_self]
  -- The directories are as they were when the call began.
  have hdirs (j : Inum n) (hj : (s4.nodes j).type = .dir) : s4.nodes j = s.nodes j := by
    have hne : j ≠ ip := by
      rintro rfl
      rw [hip4] at hj
      exact hnd hj
    rw [hsame4.nodes, nodes_setNode, update_of_ne hne] at hj ⊢
    exact hlater2.node (by rw [hj]; decide)
  refine (ends_namex hE hAE h4 hp (by rw [hcwd4])).bind ?_
  rintro (_ | ⟨dp, name⟩) s5 ⟨hw, hpath⟩
  · obtain ⟨h5, hst5⟩ := hw
    have hip5 := hst5.held ip (by simp)
    refine (ends_linkBad hE h5 ?_ ?_).post fun _ t ht => .mono ?_ id And.left
    · rw [hip5, hip4]
      exact hty
    · rw [hip5, hip4]
      exact hnd
    · rw [ht.2, hst5.later.cwd, hcwd4]
      exact ht.1
  obtain ⟨h5, hst5, -, hdir⟩ := hw
  have hd5 := hdir rfl
  have hip5 := hst5.held ip (by simp)
  have hdp := one_le_right ip dp
  refine (ends_ilock hE h5 (h5.ref_pos hdp) (.inl (by rw [hd5]; decide))).bind ?_
  rintro - s6 ⟨h6, hsame6, -, -, hv6, -, -⟩
  have hcwd6 : s6.cwd = s.cwd := hsame6.cwd.trans (hst5.later.cwd.trans hcwd4)
  have hip6 : s6.nodes ip = { s2.nodes ip with nlink := (s2.nodes ip).nlink + 1 } := by
    rw [hsame6.nodes, hip5, hip4]
  have hty6 : (s6.nodes ip).type ≠ .free := by
    rw [hip6]
    exact hty
  have hnd6 : (s6.nodes ip).type ≠ .dir := by
    rw [hip6]
    exact hnd
  refine (ends_dirlink hE h6).bind ?_
  rintro (_ | _) s7 h7
  · obtain ⟨h7, hst7⟩ := h7
    refine (ends_iunlockput hE h7 hdp).bind ?_
    rintro - s8 h8
    rw [add_sub_cancel_right] at h8
    have hip8 : s8.nodes ip = s6.nodes ip := by
      rw [h8.held ip (by simp), hst7.held ip (one_le_left ip dp)]
    refine (ends_linkBad hE h8.inv ?_ ?_).post fun _ t ht => .mono ?_ id And.left
    · rwa [hip8]
    · rwa [hip8]
    · rw [ht.2, h8.later.cwd, hst7.later.cwd, hcwd6]
      exact ht.1
  · obtain ⟨rfl, hd6, hf⟩ := h7
    have h7 := h6.linked hty6 hnd6 hd6 hv6 hf
    refine (ends_iunlockput hE h7 hdp).bind ?_
    rintro - s8 h8
    rw [add_sub_cancel_right] at h8
    refine (ends_iput hE h8.inv (by simp)).bind ?_
    rintro - s9 h9
    rw [sub_self] at h9
    rw [ends_pure, (h8.later.trans h9.later).cwd.trans hcwd6]
    refine h9.inv.mono id fun hb => ⟨hb.1, ?_⟩
    have hdir4 : s6.nodes dp = s4.nodes dp := by
      rw [hsame6.nodes]
      exact hst5.later.node (by rw [hd5]; decide)
    have hdir6 : s6.nodes dp = s.nodes dp := by
      rw [hdir4] at hd6 ⊢
      exact hdirs dp hd6
    have horigin : s4.origin p new = s.origin p new := by rw [State.origin, hcwd4, State.origin]
    rw [hdir6] at hf ⊢
    refine hb.2 (dp, name) (Paths.target_of_dirs hdirs ?_) hf
    rw [← horigin]
    exact hpath _ rfl

/-! ## `unlink` -/

theorem Later.older (h : Later cw s t) : Older s t := by
  intro d hd
  rw [h.node hd]
  exact ⟨rfl, rfl⟩

/-- No ".." has lost its directory. -/
theorem Older.upper (h : Older s t) (hs : Upper s.nodes) (ht : Inv A B cw t hand fhand pend)
    (hkeep : ∀ d, (s.nodes d).type = .dir → 0 < (s.nodes (up (s.nodes d))).nlink →
      0 < (t.nodes (up (s.nodes d))).nlink) : Upper t.nodes := by
  intro d hd
  obtain ⟨h1, h2⟩ := h d (by rw [hd]; decide)
  rw [hd] at h1
  obtain ⟨h3, h4⟩ := hs d h1.symm
  have h5 := hkeep d h1.symm h4
  rw [h2]
  exact ⟨(h _ (ht.tree.allocated h5)).1.trans h3, h5⟩

/-- An empty directory has no entries but the two. -/
theorem Dots.empty {p : Inum n} {es : List (Dirent n)} (h : Dots i p es)
    (he : isdirempty es = true) (hmem : e ∈ es) : e.proper = false := by
  obtain ⟨rest, rfl, -⟩ := h
  rcases List.mem_cons.1 hmem with rfl | hmem
  · simp [Dirent.proper]
  rcases List.mem_cons.1 hmem with rfl | hmem
  · simp [Dirent.proper]
  · have h0 := List.all_eq_true.1 he e hmem
    simp only [decide_eq_true_eq] at h0
    simp [Dirent.proper, h0]

theorem Inv.cleared (h : Inv A B cw s (one dp + one ip) 0 0) (hd : (s.nodes dp).type = .dir)
    (hv : (s.inode dp).valid = true) (hk : (s.nodes dp).ents[k]? = some e) (he : e.proper)
    (hi : e.inum = ip) (hempty : (s.nodes ip).type = .dir → isdirempty (s.nodes ip).ents = true) :
    Inv False B cw (s.cleared dp k ip) (one dp + one ip) 0 (one ip) := by
  subst hi
  have hdp := one_le_left dp e.inum
  have h1 : Inv False B cw (s.setNode dp { s.nodes dp with ents := clearEnt (s.nodes dp).ents k })
      (one dp + one e.inum) 0 fun j => 0 + one e.inum j +
        (if (s.nodes e.inum).type = .dir then 1 else 0) * one dp j := by
    refine h.setNode hdp hv rfl ?_ False.elim
    refine h.tree.clear hd hk he (fun _ => rfl) fun _ hdir e' he' => ?_
    exact (h.tree.dots _ hdir).empty (hempty hdir) he'
  refine h1.addLinks hdp ?_ ?_ ?_ ?_ False.elim
  · rw [inode_setNode]
    exact hv
  · rw [nodes_setNode, update_self]
    rw [hd]
    decide
  · have := one_nonneg e.inum dp
    rw [one_self]
    omega
  · intro j
    rw [Int.neg_mul]
    omega

theorem Inv.cleared_older (h : Inv A B cw s hand 0 0) (hd : (s.nodes dp).type = .dir)
    (hk : (s.nodes dp).ents[k]? = some e) (he : e.proper) : Older s (s.cleared dp k ip) := by
  refine (Older.setNode (i := dp)
    (x := { s.nodes dp with ents := clearEnt (s.nodes dp).ents k }) ?_ ?_).trans (.setNode rfl rfl)
  · rfl
  · exact ((h.tree.dots dp hd).clearEnt hk he).up_eq rfl

include hE in
theorem ends_sysUnlink {p : π} {path : Path} (hAE : A ∨ E .noType)
    (h : Inv A B s.cwd s 0 0 0) (hp : (s.cwd p).isSome) :
    Ends (sysUnlink p path) s E fun _ t => Inv (A ∧ Unshared s p path) B t.cwd t 0 0 0 := by
  refine (ends_namex hE hAE h hp rfl).bind ?_
  rintro (_ | ⟨dp, name⟩) s1 ⟨hw, hpath⟩
  · exact hw.nothing.mono And.left id
  refine (hw.lock hE hAE).bind ?_
  rintro - s2 ⟨h2, hlater2, hl2, hv2, -, -⟩
  have hbad (t : State n π) (ht : Inv A B s.cwd t (one dp) 0 0) (hcwd : t.cwd = s.cwd) :
      Ends (unlinkBad dp) t E fun _ u => Inv (A ∧ Unshared s p path) B u.cwd u 0 0 0 :=
    (ends_put hE ht hcwd).post fun _ _ hu => hu.mono And.left id
  rw [ends_ite]
  refine ⟨fun _ => hbad s2 h2 hlater2.cwd, fun hname => ?_⟩
  refine (ends_dirlookup hE h2).bind ?_
  rintro (_ | ⟨ip, k⟩) s3 ⟨hd, h3⟩
  · obtain ⟨rfl, -⟩ := h3
    exact hbad s3 h2 hlater2.cwd
  obtain ⟨h3, hf, hty3⟩ := h3
  have hip := one_le_right dp ip
  have hdp := one_le_left dp ip
  refine (ends_ilock hE h3.inv (h3.inv.ref_pos hip) (hAE.imp_left fun hA => ?_)).bind ?_
  · rw [h3.same.nodes]
    exact hty3 hA
  rintro - s4 ⟨h4, hsame4, hl3, -, hv4, hty4, hcache4⟩
  -- The directory is locked and what it names was not.
  have hne : ip ≠ dp := by
    rintro rfl
    rw [h3.locked, hl2] at hl3
    cases hl3
  have hlater4 : Later s.cwd s s4 := hlater2.trans (h3.same.trans hsame4).later
  have hnodes4 : s4.nodes = s2.nodes := hsame4.nodes.trans h3.same.nodes
  have hvd4 : (s4.inode dp).valid = true := by
    rw [hcache4 dp hne.symm, h3.cache dp hne.symm]
    exact hv2
  rw [← hnodes4] at hd hf
  rw [ends_inode, ends_ite]
  refine ⟨fun _ => hE _ (by decide), fun _ => ?_⟩
  rw [ends_ite]
  refine ⟨fun _ => ?_, fun hempty => ?_⟩
  · refine (ends_iunlockput hE h4 hip).bind ?_
    rintro - s5 h5
    rw [add_sub_cancel_right] at h5
    exact hbad s5 h5.inv (h5.later.cwd.trans hlater4.cwd)
  obtain ⟨e, hk, hei, h0, hen⟩ := findEnt_some hf
  have he : e.proper := by
    rw [← hen] at hname
    rw [← hei] at h0
    exact decide_eq_true ⟨h0, fun hdot => hname (.inl hdot), fun hdot => hname (.inr hdot)⟩
  have hempty4 (hdir : (s4.nodes ip).type = .dir) : isdirempty (s4.nodes ip).ents = true := by
    by_contra hfull
    rw [Bool.not_eq_true] at hfull
    refine hempty ⟨hdir, ?_⟩
    show (!isdirempty (s4.nodes ip).ents) = true
    rw [hfull]
    rfl
  have h5 := h4.cleared hd hvd4 hk he hei hempty4
  have hds : s4.nodes dp = s.nodes dp := hlater4.node (by rw [hd]; decide)
  have his : s4.nodes ip = s.nodes ip := hlater4.node hty4
  -- What the call may not do is asked of the state before it.
  have hun (hu : Unshared s p path) (hdir : (s4.nodes ip).type = .dir) :
      (s4.nodes dp).nlink ≠ 1 ∧ ∀ d, (s.nodes d).type = .dir → up (s.nodes d) ≠ ip := by
    have hemp := hempty4 hdir
    rw [his] at hdir hemp
    rw [hds] at hf ⊢
    exact hu _ (hpath _ rfl) (fun h => hname (.inl h)) (fun h => hname (.inr h)) _ hf hdir hemp
  have hfinish : Ends (do
      iunlockput dp
      let x ← inode ip
      setNode ip { x.node with nlink := x.node.nlink - 1 }
      iunlockput ip
      pure true) (s4.cleared dp k ip) E fun _ t => Inv (A ∧ Unshared s p path) B t.cwd t 0 0 0 := by
    refine (ends_iunlockput hE h5 hdp).bind ?_
    rintro - s6 h6
    rw [add_sub_cancel_left] at h6
    have hv6 : (s6.inode ip).valid = true := by
      rw [h6.cache ip hne, State.cleared, inode_setNode_ne hne, inode_setNode_ne hne]
      exact hv4
    have hn6 : s6.nodes ip = s4.nodes ip := by
      rw [h6.held ip (by simp), State.cleared, nodes_setNode, update_of_ne hne,
        nodes_setNode, update_of_ne hne]
    have h7 : Inv False B s.cwd (s6.addLinks ip (-1)) (one ip) 0 0 :=
      h6.inv.addLinks (by simp) hv6 (by rwa [hn6]) (by simp) (by simp) False.elim
    rw [ends_inode]
    simp only [setNode, ends_bind, ends_modify]
    refine (ends_iunlockput hE h7 (by simp)).post fun _ t ht => ?_
    rw [sub_self] at ht
    have hcwd : t.cwd = s.cwd := ht.later.cwd.trans (h6.later.cwd.trans hlater4.cwd)
    have holder7 : Older s6 (s6.addLinks ip (-1)) := .setNode rfl rfl
    have holder : Older s t := hlater4.older.trans ((h4.cleared_older hd hk he).trans
      (h6.later.older.trans (holder7.trans ht.later.older)))
    rw [ends_pure, hcwd]
    refine ht.inv.with_upper fun hA => holder.upper (h.upper hA.1) ht.inv fun d hd' hpos => ?_
    have hup := (h.upper hA.1 d hd').1
    generalize hz : up (s.nodes d) = z at hpos hup ⊢
    have h4z := hlater4.keeps hpos
    rw [← h4z] at hpos hup
    have hzi : z ≠ ip := by
      rintro rfl
      exact (hun hA.2 hup).2 d hd' hz
    have hclear : 0 < ((s4.cleared dp k ip).nodes z).nlink := by
      rw [State.cleared, nodes_setNode]
      rcases eq_or_ne z dp with rfl | hzd
      · rw [update_self, nodes_setNode, update_self]
        show 0 < (s4.nodes z).nlink + -(if (s4.nodes ip).type = .dir then 1 else 0)
        split
        · have := (hun hA.2 ‹_›).1
          omega
        · omega
      · rwa [update_of_ne hzd, nodes_setNode, update_of_ne hzd]
    have h6z := h6.later.keeps hclear
    have h7z : (s6.addLinks ip (-1)).nodes z = s6.nodes z := by
      rw [nodes_setNode, update_of_ne hzi]
    rw [← h6z, ← h7z] at hclear
    rwa [ht.later.keeps hclear]
  rw [ends_inode, ends_bind]
  show Ends (if (s4.nodes ip).type = .dir then _ else _) _ E _
  by_cases hdir : (s4.nodes ip).type = .dir
  · rw [State.cleared_dir hdir] at hfinish
    rw [if_pos hdir, ends_inode, ends_bind]
    exact hfinish
  · rw [State.cleared_file hdir] at hfinish
    rw [if_neg hdir]
    exact hfinish

end

end Xv6.Links
