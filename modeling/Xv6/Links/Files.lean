import Xv6.Links.Entries

/-! Open files and current directories: the calls that move references between the hand of
a call, the file table and the processes. -/

namespace Xv6.Links

open Calls Totals Function

variable {n : Nat} {π : Type} [Fintype π] {A B : Prop}
  {cw cw' : π → Option (Inum n)} {s t : State n π} {hand hand' : Inum n → Int}
  {fhand fhand' : Fin NFILE → Int} {pend : Inum n → Int} {i : Inum n} {f : Fin NFILE} {p : π}

/-- 1 at what `o` points to. -/
def opt {α : Type} [DecidableEq α] (o : Option α) : α → Int := fun a => if o = some a then 1 else 0

section

variable {α : Type} [DecidableEq α]

theorem opt_nonneg (o : Option α) (a : α) : 0 ≤ opt o a := by
  unfold opt
  split <;> decide

theorem opt_some (a : α) : opt (some a) = one a := by
  funext b
  simp [opt, one, eq_comm]

theorem opt_none : opt (none : Option α) = 0 := by
  funext b
  simp [opt]

theorem one_add_nonneg {g : α → Int} (hg : ∀ a, 0 ≤ g a) (b a : α) : 0 ≤ (g + one b) a := by
  have h1 := hg a
  have h2 := one_nonneg b a
  rw [Pi.add_apply]
  omega

end

/-- The inode that an entry of the file table holds. -/
def File.holds (x : File n) : Option (Inum n) := if 0 < x.ref then x.ip else none

theorem opt_holds (x : File n) (i : Inum n) :
    opt x.holds i = if 0 < x.ref ∧ x.ip = some i then 1 else 0 := by
  unfold opt File.holds
  by_cases hx : 0 < x.ref <;> simp [hx]

theorem holders_cw [DecidableEq π] (cw : π → Option (Inum n)) (p : π) (v : Option (Inum n))
    (s : State n π) (i : Inum n) :
    holders (update cw p v) s i = holders cw s i - opt (cw p) i + opt v i := by
  have h := total_update (fun c => if c = some i then (1 : Int) else 0) cw p v
  unfold holders opt
  omega

theorem holders_setFile (cw : π → Option (Inum n)) (s : State n π) (f : Fin NFILE) (x : File n)
    (i : Inum n) :
    holders cw (s.setFile f x) i = holders cw s i - opt (s.file f).holds i + opt x.holds i := by
  have h := total_update (fun f : File n => if 0 < f.ref ∧ f.ip = some i then (1 : Int) else 0)
    s.file f x
  have hfile : (s.setFile f x).file = update s.file f x := rfl
  rw [opt_holds, opt_holds, holders, hfile, holders]
  omega

section

variable (h : Inv A B cw s hand fhand pend)

include h

theorem Inv.setCw [DecidableEq π] {v : Option (Inum n)}
    (hhand : ∀ i, hand' i = hand i + opt (cw p) i - opt v i) (hin : ∀ i, 0 ≤ hand' i)
    (hv : ∀ i, v = some i → (s.nodes i).type ≠ .free) :
    Inv A B (update cw p v) s hand' fhand pend := { h with
  refs := fun i => by
    have h1 := h.refs i
    have h2 := holders_cw cw p v s i
    have h3 := hhand i
    omega
  inHand := hin
  kept := fun i hi => by
    by_cases hvi : v = some i
    · exact hv i hvi
    · refine h.kept i ?_
      have h1 := holders_cw cw p v s i
      have h2 := opt_nonneg (cw p) i
      have h3 : opt v i = 0 := if_neg hvi
      omega }

/-- The stored current directories are not looked at. -/
theorem Inv.setCwd (c : π → Option (Inum n)) : Inv A B cw { s with cwd := c } hand fhand pend :=
  { h with }

theorem Inv.setFile {x : File n} {c : Int} (href : (x.ref : Int) = (s.file f).ref + c)
    (hfhand : ∀ g, fhand' g = fhand g + c * one f g)
    (hhand : ∀ i, hand' i = hand i + opt (s.file f).holds i - opt x.holds i)
    (hin : ∀ i, 0 ≤ hand' i) (hclosed : x.ref = 0 → x.ip = none)
    (hip : ∀ i, x.ip = some i → (s.nodes i).type ≠ .free ∧
      (x.writable = true → (s.nodes i).type ≠ .dir)) :
    Inv A B cw (s.setFile f x) hand' fhand' pend := { h with
  refs := fun i => by
    have h1 := h.refs i
    have h2 := holders_setFile cw s f x i
    have h3 := hhand i
    rw [h2]
    show ((s.inode i).ref : Int) = _
    omega
  inHand := hin
  frefs := fun g => by
    have h1 := h.frefs g
    have h2 := hfhand g
    show (((update s.file f x) g).ref : Int) = _ + fhand' g
    by_cases hg : g = f
    · subst hg
      rw [one_self] at h2
      rw [update_self]
      show (x.ref : Int) = total (fun o => if o = some g then 1 else 0) s.ofile + fhand' g
      omega
    · rw [one_of_ne hg] at h2
      rw [update_of_ne hg]
      show ((s.file g).ref : Int) = total (fun o => if o = some g then 1 else 0) s.ofile + fhand' g
      omega
  closed := fun g => by
    show ((update s.file f x) g).ref = 0 → ((update s.file f x) g).ip = none
    by_cases hg : g = f
    · rw [hg, update_self]
      exact hclosed
    · rw [update_of_ne hg]
      exact h.closed g
  kept := fun i hi => by
    by_cases hx : x.ip = some i
    · exact (hip i hx).1
    · refine h.kept i ?_
      have h1 := holders_setFile cw s f x i
      have h2 := opt_nonneg (s.file f).holds i
      have h3 : opt x.holds i = 0 := by
        rw [opt_holds, if_neg]
        exact fun hc => hx hc.2
      omega
  rdonly := fun g j => by
    show ((update s.file f x) g).ip = some j →
      ((update s.file f x) g).writable = true → _
    by_cases hg : g = f
    · rw [hg, update_self]
      exact fun hj => (hip j hj).2
    · rw [update_of_ne hg]
      exact h.rdonly g j }

theorem Inv.setOfile [DecidableEq π] {fd : Fin NOFILE} {v : Option (Fin NFILE)}
    (hfhand : ∀ g, fhand' g = fhand g + opt (s.ofile (p, fd)) g - opt v g) :
    Inv A B cw { s with ofile := update s.ofile (p, fd) v } hand fhand' pend := { h with
  frefs := fun g => by
    have h1 := h.frefs g
    have h2 := hfhand g
    have h3 := total_update (fun o => if o = some g then (1 : Int) else 0) s.ofile (p, fd) v
    unfold opt at h2
    show ((s.file g).ref : Int) =
      total (fun o => if o = some g then 1 else 0) (update s.ofile (p, fd) v) + fhand' g
    omega }

end

/-! ## The file table -/

section

variable {E : Stop → Prop} (hE : ∀ e, e ≠ .noType → E e)

/-- `filealloc` takes an entry that holds nothing. -/
theorem ends_filealloc (h : Inv A B cw s hand fhand pend) :
    Ends filealloc s E fun r t => match r with
      | none => t = s
      | some f => Inv A B cw t hand (fhand + one f) pend ∧ (s.file f).ip = none ∧
          t = s.setFile f { s.file f with ref := 1 } := by
  simp only [filealloc, ends_bind, ends_get]
  split
  · rename_i f hf
    have href := List.find?_some hf
    rw [decide_eq_true_eq] at href
    have hip := h.closed f href
    simp only [ends_bind, ends_modify, ends_pure]
    refine ⟨h.setFile (c := 1) ?_ ?_ ?_ h.inHand ?_ ?_, hip, trivial⟩
    · rw [href]
      rfl
    · simp
    · intro i
      rw [opt_holds, opt_holds, hip]
      simp
    · intro h1
      cases h1
    · intro i hi
      rw [hip] at hi
      cases hi
  · rfl

omit [Fintype π] in
theorem ends_fdalloc [DecidableEq π] : Ends (fdalloc p f : Sys n π _) s E fun r t => match r with
    | none => t = s
    | some fd => s.ofile (p, fd) = none ∧
        t = { s with ofile := update s.ofile (p, fd) (some f) } := by
  simp only [fdalloc, setOfile, ends_bind, ends_get]
  split
  · rename_i fd hfd
    have hnone := List.find?_some hfd
    rw [decide_eq_true_eq] at hnone
    simp only [ends_bind, ends_modify, ends_pure]
    exact ⟨hnone, trivial⟩
  · rfl

include hE

theorem ends_filedup (h : Inv A B cw s hand fhand pend) :
    Ends (filedup f) s E fun _ t => Inv A B cw t hand (fhand + one f) pend ∧
      t.cwd = s.cwd ∧ t.ofile = s.ofile := by
  simp only [filedup, ends_bind, ends_get, ends_ite, ends_throw, ends_modify]
  refine ⟨fun _ => hE _ (by decide), fun hpos => ⟨?_, rfl, rfl⟩⟩
  refine h.setFile (c := 1) ?_ ?_ ?_ h.inHand ?_ ?_
  · exact Int.natCast_succ _
  · simp
  · intro i
    have h1 : 0 < (s.file f).ref := by omega
    have h2 : 0 < (s.file f).ref + 1 := by omega
    rw [opt_holds, opt_holds]
    simp [h1, h2]
  · intro h0
    cases h0
  · exact fun i hi => ⟨h.kept i (h.file_holds hi), h.rdonly f i hi⟩

/-- `fileclose` gives a reference back, and the inode with the last one. -/
theorem ends_fileclose (h : Inv A B cw s hand fhand pend) :
    Ends (fileclose f) s E fun _ t => Inv A B cw t hand (fhand - one f) pend ∧
      t.cwd = s.cwd ∧ t.ofile = s.ofile ∧ ((s.file f).ip = none → t.inode = s.inode) := by
  simp only [fileclose, ends_bind, ends_get, ends_ite, ends_throw, ends_modify]
  refine ⟨fun _ => hE _ (by decide), fun hpos => ⟨fun hmore => ?_, fun hlast => ?_⟩⟩
  · refine ⟨h.setFile (c := -1) ?_ ?_ ?_ h.inHand ?_ ?_, rfl, rfl, fun _ => rfl⟩
    · show (((s.file f).ref - 1 : Nat) : Int) = _
      omega
    · intro g
      simp
      omega
    · intro i
      have h1 : 0 < (s.file f).ref := by omega
      rw [opt_holds, opt_holds]
      simp only [h1, hmore, true_and]
      omega
    · intro h0
      exact absurd h0 (by show (s.file f).ref - 1 ≠ 0; omega)
    · exact fun i hi => ⟨h.kept i (h.file_holds hi), h.rdonly f i hi⟩
  · have href : (s.file f).ref = 1 := by omega
    have hholds : (s.file f).holds = (s.file f).ip := if_pos (by omega)
    have ht : Inv A B cw (s.setFile f { s.file f with ref := 0, ip := none })
        (hand + opt (s.file f).ip) (fhand - one f) pend := by
      refine h.setFile (c := -1) ?_ ?_ ?_ ?_ ?_ ?_
      · rw [href]
        rfl
      · intro g
        simp
        omega
      · intro i
        rw [hholds]
        simp [File.holds, opt_none]
      · intro i
        have h1 := h.inHand i
        have h2 := opt_nonneg (s.file f).ip i
        rw [Pi.add_apply]
        omega
      · exact fun _ => rfl
      · intro i hi
        cases hi
    split
    · rename_i i hi
      rw [hi, opt_some] at ht
      have hone : 1 ≤ (hand + one i) i := by
        have := h.inHand i
        simp
        omega
      refine (ends_iput hE ht hone).post fun _ u hu => ?_
      rw [add_sub_cancel_right] at hu
      exact ⟨hu.inv, hu.later.cwd, hu.later.ofile, fun hnone => by rw [hi] at hnone; cases hnone⟩
    · rename_i hi
      rw [hi, opt_none, add_zero] at ht
      exact ⟨ht, rfl, rfl, fun _ => rfl⟩

/-! ## The calls -/

variable {path : Path}

theorem ends_lookAt (h : Inv A B s.cwd s 0 0 0) :
    Ends (lookAt s f) s E fun _ t => Inv A B t.cwd t 0 0 0 := by
  unfold lookAt
  split
  · exact h
  · rename_i i hi
    have hhold := h.file_holds hi
    refine (ends_ilock hE h (h.ref_pos_of_held hhold) (.inl (h.kept i hhold))).bind ?_
    rintro - s1 ⟨h1, hsame1, -⟩
    refine (ends_iunlock hE h1).bind ?_
    rintro - t ⟨ht, hsame, -⟩
    rwa [ends_pure, (hsame1.trans hsame).cwd]

theorem ends_sysFstat {fd : Fin NOFILE} (h : Inv A B s.cwd s 0 0 0) :
    Ends (sysFstat p fd) s E fun _ t => Inv A B t.cwd t 0 0 0 := by
  simp only [sysFstat, ends_bind, ends_get]
  split
  · exact h
  · exact ends_lookAt hE h

theorem ends_sysRead {fd : Fin NOFILE} (h : Inv A B s.cwd s 0 0 0) :
    Ends (sysRead p fd) s E fun _ t => Inv A B t.cwd t 0 0 0 := by
  simp only [sysRead, ends_bind, ends_get]
  split
  · exact h
  · rw [ends_ite]
    exact ⟨fun _ => ends_lookAt hE h, fun _ => h⟩

/-- No file that is open for writing is a directory. -/
theorem ends_sysWrite {fd : Fin NOFILE} {es : List (Dirent n)} (h : Inv A B s.cwd s 0 0 0) :
    Ends (sysWrite p fd es) s E fun _ t => Inv A B t.cwd t 0 0 0 := by
  simp only [sysWrite, ends_bind, ends_get]
  split
  · exact h
  rename_i f hf
  rw [ends_ite]
  refine ⟨fun hw => ?_, fun _ => h⟩
  split
  · exact h
  · rename_i i hi
    have hhold := h.file_holds hi
    have hnd := h.rdonly f i hi hw
    refine (ends_ilock hE h (h.ref_pos_of_held hhold) (.inl (h.kept i hhold))).bind ?_
    rintro - s1 ⟨h1, hsame1, -⟩
    rw [← hsame1.nodes] at hnd
    rw [ends_inode, ends_ite]
    refine ⟨fun hdir => absurd hdir hnd, fun _ => ?_⟩
    refine (ends_iunlock hE h1).bind ?_
    rintro - t ⟨ht, hsame, -⟩
    rwa [ends_pure, (hsame1.trans hsame).cwd]

theorem ends_sysExec (hAE : A ∨ E .noType) (h : Inv A B s.cwd s 0 0 0) (hp : (s.cwd p).isSome) :
    Ends (sysExec p path) s E fun _ t => Inv A B t.cwd t 0 0 0 := by
  refine (ends_namex hE hAE h hp rfl).bind ?_
  rintro (_ | ⟨ip, last⟩) s1 ⟨hw, -⟩
  · exact hw.nothing
  refine (hw.lock hE hAE).bind ?_
  rintro - s2 ⟨h2, hlater, -⟩
  exact ends_put hE h2 hlater.cwd

variable [DecidableEq π]

/-- `sys_open` from where the inode is locked. -/
theorem ends_openInode {ip : Inum n} {omode : Nat} (h : Inv A B cw s (one ip) 0 0)
    (hty : (s.nodes ip).type ≠ .free) (hrd : omode ≠ 0 → (s.nodes ip).type ≠ .dir) :
    Ends (openInode p ip omode) s E fun _ t => Inv A B cw t 0 0 0 ∧ t.cwd = s.cwd := by
  have hone : 1 ≤ one ip ip := by simp
  refine (ends_filealloc h).bind ?_
  rintro (_ | f) s1 h1
  · cases h1
    refine (ends_iunlockput hE h hone).bind ?_
    rintro - t ht
    rw [sub_self] at ht
    exact ⟨ht.inv, ht.later.cwd⟩
  obtain ⟨h1, hip, hs1⟩ := h1
  have hn1 : s1.nodes = s.nodes := by
    rw [hs1]
    rfl
  have hf1 : s1.file f = { s.file f with ref := 1 } := by
    rw [hs1]
    exact update_self ..
  have hc1 : s1.cwd = s.cwd := by
    rw [hs1]
    rfl
  rw [zero_add] at h1
  refine ends_fdalloc.bind ?_
  rintro (_ | fd) s2 h2
  · cases h2
    refine (ends_fileclose hE h1).bind ?_
    rintro - s3 ⟨h3, hc3, -⟩
    rw [sub_self] at h3
    refine (ends_iunlockput hE h3 hone).bind ?_
    rintro - t ht
    rw [sub_self] at ht
    exact ⟨ht.inv, ht.later.cwd.trans (hc3.trans hc1)⟩
  · obtain ⟨hfd, hs2⟩ := h2
    have h2 : Inv A B cw s2 (one ip) 0 0 := by
      rw [hs2]
      refine h1.setOfile fun g => ?_
      rw [hfd, opt_none, opt_some]
      simp
    refine (ends_iunlock hE h2).bind ?_
    rintro - s3 ⟨h3, hsame3, -⟩
    have hf3 : s3.file f = { s.file f with ref := 1 } := by
      rw [hsame3.file, hs2]
      exact hf1
    have hn3 : s3.nodes = s.nodes := by
      rw [hsame3.nodes, hs2]
      exact hn1
    have hc3 : s3.cwd = s.cwd := by
      rw [hsame3.cwd, hs2]
      exact hc1
    simp only [ends_bind, ends_modify, ends_pure]
    refine ⟨h3.setFile (c := 0) ?_ ?_ ?_ ?_ ?_ ?_, hc3⟩
    · simp
    · simp
    · intro i
      rw [opt_holds, hf3, hip]
      simp [File.holds, opt_some]
    · exact fun _ => Int.le_refl _
    · intro h0
      rw [hf3] at h0
      cases h0
    · intro i hi
      cases hi
      rw [hn3]
      refine ⟨hty, fun hw => hrd ?_⟩
      rintro rfl
      simp at hw

theorem ends_sysOpen {omode : Nat} (hAE : A ∨ E .noType)
    (h : Inv A B s.cwd s 0 0 0) (hp : (s.cwd p).isSome) :
    Ends (sysOpen p path omode) s E fun _ t =>
      Inv A (B ∧ (omode &&& O_CREATE ≠ 0 → Linked s p path)) t.cwd t 0 0 0 := by
  unfold sysOpen
  rw [ends_ite]
  refine ⟨fun hcr => ?_, fun _ => ?_⟩
  · refine (ends_create hE hAE (by decide) h hp).bind ?_
    rintro (_ | ip) t ⟨hcwd, ht⟩
    · rw [ends_pure, hcwd]
      exact ht.mono id fun hb => ⟨hb.1, hb.2 hcr⟩
    · have hty : (t.nodes ip).type = .file := ht.2
      refine (ends_openInode hE ht.1 ?_ ?_).post fun _ u hu => ?_
      · rw [hty]
        decide
      · intro _
        rw [hty]
        decide
      · rw [hu.2.trans hcwd]
        exact hu.1.mono id fun hb => ⟨hb.1, hb.2 hcr⟩
  · refine (ends_namex hE hAE h hp rfl).bind ?_
    rintro (_ | ⟨ip, last⟩) s1 ⟨hw, -⟩
    · exact hw.nothing.mono id And.left
    refine (hw.lock hE hAE).bind ?_
    rintro - s2 ⟨h2, hlater, -, -, hty, -⟩
    rw [ends_inode, ends_ite]
    refine ⟨fun _ => (ends_put hE h2 hlater.cwd).post fun _ _ ht => ht.mono id And.left,
      fun hno => ?_⟩
    refine (ends_openInode hE h2 hty fun hom hdir => hno ⟨hdir, hom⟩).post fun _ t ht => ?_
    rw [ht.2, hlater.cwd]
    exact ht.1.mono id And.left

theorem ends_sysChdir (hAE : A ∨ E .noType) (h : Inv A B s.cwd s 0 0 0) (hp : (s.cwd p).isSome) :
    Ends (sysChdir p path) s E fun _ t => Inv A B t.cwd t 0 0 0 := by
  refine (ends_namex hE hAE h hp rfl).bind ?_
  rintro (_ | ⟨ip, last⟩) s1 ⟨hw, -⟩
  · exact hw.nothing
  refine (hw.lock hE hAE).bind ?_
  rintro - s2 ⟨h2, hlater, -, -, hty, -⟩
  rw [ends_inode, ends_ite]
  refine ⟨fun _ => ends_put hE h2 hlater.cwd, fun hdir => ?_⟩
  · refine (ends_iunlock hE h2).bind ?_
    rintro - s3 ⟨h3, hsame3, -⟩
    have hcwd3 : s3.cwd = s.cwd := hsame3.cwd.trans hlater.cwd
    obtain ⟨d, hd⟩ := Option.isSome_iff_exists.1 hp
    simp only [cwd, ends_bind, ends_get, ends_pure, hcwd3, hd, Option.getD_some]
    -- The old directory is taken into hand before it is given back.
    have h4 : Inv A B (update s.cwd p none) s3 (one ip + one d) 0 0 := by
      refine h3.setCw (fun i => ?_) (one_add_nonneg (one_nonneg ip) d) ?_
      · rw [hd, opt_some, opt_none]
        simp
      · intro i hi
        cases hi
    refine (ends_iput hE h4 (one_le_right ip d)).post fun _ s5 h5 => ?_
    rw [add_sub_cancel_right] at h5
    simp only [setCwd, ends_modify]
    have hc5 : s5.cwd = s.cwd := h5.later.cwd.trans hcwd3
    have h6 : Inv A B (update (update s.cwd p none) p (some ip)) s5 0 0 0 := by
      refine h5.inv.setCw (fun i => ?_) (fun _ => Int.le_refl _) ?_
      · rw [update_self, opt_some, opt_none]
        simp
      · intro i hi
        cases hi
        rw [h5.held ip (by simp), hsame3.nodes]
        exact hty
    rw [update_idem] at h6
    rw [hc5]
    exact h6.setCwd _

theorem ends_sysClose {fd : Fin NOFILE} (h : Inv A B s.cwd s 0 0 0) :
    Ends (sysClose p fd) s E fun _ t => Inv A B t.cwd t 0 0 0 := by
  simp only [sysClose, ends_bind, ends_get]
  split
  · exact h
  · rename_i f hf
    simp only [setOfile, ends_bind, ends_modify]
    have h1 : Inv A B s.cwd { s with ofile := update s.ofile (p, fd) none } 0 (one f) 0 := by
      refine h.setOfile fun g => ?_
      rw [hf, opt_some, opt_none]
      simp
    refine (ends_fileclose hE h1).post ?_
    rintro - t ⟨ht, hc, -, -⟩
    rw [sub_self] at ht
    rw [ends_pure, hc]
    exact ht

theorem ends_sysDup {fd : Fin NOFILE} (h : Inv A B s.cwd s 0 0 0) :
    Ends (sysDup p fd) s E fun _ t => Inv A B t.cwd t 0 0 0 := by
  simp only [sysDup, ends_bind, ends_get]
  split
  · exact h
  · rename_i f hf
    refine ends_fdalloc.bind ?_
    rintro (_ | fd') s1 h1
    · cases h1
      exact h
    · obtain ⟨hnone, rfl⟩ := h1
      -- The descriptor is there before the reference is counted.
      have h1 : Inv A B s.cwd { s with ofile := update s.ofile (p, fd') (some f) } 0
          (-one f) 0 := by
        refine h.setOfile fun g => ?_
        rw [hnone, opt_some, opt_none]
        simp
      refine (ends_filedup hE h1).bind ?_
      rintro - t ⟨ht, hc, -⟩
      rw [neg_add_cancel] at ht
      rw [ends_pure, hc]
      exact ht

variable {fds : List (Fin NOFILE)}

/-- `fork` copies the descriptors to a process that has none. -/
theorem ends_forkFiles {q : π} (hfds : fds.Nodup)
    (h : Inv A B cw s hand 0 pend) (hq : ∀ fd ∈ fds, s.ofile (q, fd) = none) :
    Ends (forkFiles p q fds) s E fun _ t => Inv A B cw t hand 0 pend ∧ t.cwd = s.cwd := by
  induction fds generalizing s with
  | nil => exact ⟨h, rfl⟩
  | cons fd fds ih =>
    obtain ⟨hnot, hfds⟩ := List.nodup_cons.1 hfds
    simp only [forkFiles, ends_bind, ends_get]
    split
    · rename_i f hf
      refine (ends_filedup hE h).bind ?_
      rintro - s1 ⟨h1, hc1, ho1⟩
      simp only [setOfile]
      have h2 : Inv A B cw { s1 with ofile := update s1.ofile (q, fd) (some f) } hand 0 pend := by
        refine h1.setOfile fun g => ?_
        rw [ho1, hq fd (by simp), opt_some, opt_none]
        simp
      refine (ih hfds h2 fun fd' hfd' => ?_).post fun _ t ht => ⟨ht.1, ht.2.trans hc1⟩
      have hne : (q, fd') ≠ (q, fd) := by
        intro heq
        cases heq
        exact hnot hfd'
      show update s1.ofile (q, fd) (some f) (q, fd') = none
      rw [update_of_ne hne, ho1]
      exact hq fd' (by simp [hfd'])
    · exact ih hfds h fun fd' hfd' => hq fd' (by simp [hfd'])

theorem ends_sysFork {q : π} (h : Inv A B s.cwd s 0 0 0) (hp : (s.cwd p).isSome)
    (hq : s.cwd q = none) (hfds : ∀ fd, s.ofile (q, fd) = none) :
    Ends (sysFork p q) s E fun _ t => Inv A B t.cwd t 0 0 0 := by
  refine (ends_forkFiles hE (List.nodup_finRange _) h fun fd _ => hfds fd).bind ?_
  rintro - s1 ⟨h1, hc1⟩
  obtain ⟨d, hd⟩ := Option.isSome_iff_exists.1 hp
  simp only [cwd, ends_bind, ends_get, ends_pure, hc1, hd, Option.getD_some]
  have hhold := cwd_holds hd s1
  refine (ends_idup h1 (h1.ref_pos_of_held hhold)).post fun _ s2 h2 => ?_
  simp only [setCwd, ends_modify]
  have hc2 : s2.cwd = s.cwd := h2.same.cwd.trans hc1
  have h3 : Inv A B (update s.cwd q (some d)) s2 0 0 0 := by
    refine h2.inv.setCw (fun i => ?_) (fun _ => Int.le_refl _) ?_
    · rw [hq, opt_some, opt_none]
      simp
    · intro i hi
      cases hi
      rw [h2.same.nodes]
      exact h1.kept d hhold
  rw [hc2]
  exact h3.setCwd _

theorem ends_closeFiles (h : Inv A B cw s hand 0 pend) :
    Ends (closeFiles p fds) s E fun _ t => Inv A B cw t hand 0 pend ∧ t.cwd = s.cwd := by
  induction fds generalizing s with
  | nil => exact ⟨h, rfl⟩
  | cons fd fds ih =>
    simp only [closeFiles, ends_bind, ends_get]
    split
    · rename_i f hf
      refine (ends_fileclose hE h).bind ?_
      rintro - s1 ⟨h1, hc1, ho1, -⟩
      simp only [setOfile]
      have h2 : Inv A B cw { s1 with ofile := update s1.ofile (p, fd) none } hand 0 pend := by
        refine h1.setOfile fun g => ?_
        rw [ho1, hf, opt_some, opt_none]
        simp
      exact (ih h2).post fun _ t ht => ⟨ht.1, ht.2.trans hc1⟩
    · exact ih h

theorem ends_sysExit (h : Inv A B s.cwd s 0 0 0) (hp : (s.cwd p).isSome) :
    Ends (sysExit p) s E fun _ t => Inv A B t.cwd t 0 0 0 := by
  refine (ends_closeFiles hE h).bind ?_
  rintro - s1 ⟨h1, hc1⟩
  obtain ⟨d, hd⟩ := Option.isSome_iff_exists.1 hp
  simp only [cwd, ends_bind, ends_get, ends_pure, hc1, hd, Option.getD_some]
  have h2 : Inv A B (update s.cwd p none) s1 (one d) 0 0 := by
    refine h1.setCw (fun i => ?_) (one_nonneg d) ?_
    · rw [hd, opt_some, opt_none]
      simp
    · intro i hi
      cases hi
  refine (ends_iput hE h2 (by simp)).post fun _ s3 h3 => ?_
  rw [sub_self] at h3
  simp only [setCwd, ends_modify]
  have hc3 : s3.cwd = s.cwd := h3.later.cwd.trans hc1
  rw [hc3]
  exact h3.inv.setCwd _

/-- Every call keeps the counts. -/
theorem ends_run {c : Syscall n π} (hAE : A ∨ E .noType) (h : Inv A B s.cwd s 0 0 0)
    (hc : c.possible s p = true) : Ends (c.run p) s E fun _ t =>
      Inv (A ∧ c.Keeps s p) (B ∧ c.Spares s p) t.cwd t 0 0 0 := by
  have hp : (s.cwd p).isSome = true := by
    cases c <;> simp_all [Syscall.possible]
  have hplain {m : Sys n π Bool} (hm : Ends m s E fun _ t => Inv A B t.cwd t 0 0 0) :
      Ends m s E fun _ t => Inv (A ∧ c.Keeps s p) (B ∧ c.Spares s p) t.cwd t 0 0 0 :=
    hm.post fun _ _ ht => ht.mono And.left And.left
  cases c with
  | «open» path omode =>
    exact (ends_sysOpen hE hAE h hp).post fun _ _ ht =>
      ht.mono And.left fun hb => ⟨hb.1, fun hcr => hb.2 path (if_pos hcr)⟩
  | mkdir path | mknod path =>
    exact (ends_sysMake hE hAE (by decide) h hp).post fun _ _ ht =>
      ht.mono And.left fun hb => ⟨hb.1, hb.2 path rfl⟩
  | link old new =>
    exact (ends_sysLink hE hAE h hp).post fun _ _ ht =>
      ht.mono And.left fun hb => ⟨hb.1, hb.2 new rfl⟩
  | unlink path =>
    exact (ends_sysUnlink hE hAE h hp).post fun _ _ ht =>
      ht.mono (fun ha => ⟨ha.1, ha.2 path rfl⟩) And.left
  | chdir path => exact hplain (ends_sysChdir hE hAE h hp)
  | close fd => exact hplain (ends_sysClose hE h)
  | dup fd => exact hplain (ends_sysDup hE h)
  | fstat fd => exact hplain (ends_sysFstat hE h)
  | read fd => exact hplain (ends_sysRead hE h)
  | write fd es => exact hplain (ends_sysWrite hE h)
  | exec path => exact hplain (ends_sysExec hE hAE h hp)
  | fork q =>
    simp only [Syscall.possible, Bool.and_eq_true, Option.isNone_iff_eq_none,
      List.all_eq_true] at hc
    exact hplain (ends_sysFork hE h hp hc.1.2 fun fd => hc.2 fd (List.mem_finRange fd))
  | exit => exact hplain (ends_sysExit hE h hp)

end

end Xv6.Links
