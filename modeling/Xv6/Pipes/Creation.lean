import Xv6.Descriptors.Model
import Xv6.Lib.Calls
import Xv6.Pipes.Model

/-! `sys_pipe` (`sysfile.c`) with `pipealloc`, `fdalloc`, `fileclose` and `pipeclose`, called by
the only thread of a process. It needs two files, a page and two descriptors, and it either gets
them all or leaves everything as it was. -/

namespace Xv6.Pipes

open Calls Descriptors Function

inductive FdType
  | none
  | pipe
  | inode
  deriving DecidableEq, Repr

variable {ρ : Type}

/-- A `struct file`; `pipe` is the page with the pipe. -/
structure File (ρ : Type) where
  type : FdType
  ref : Int
  readable : Bool
  writable : Bool
  pipe : ρ
  ip : Nat

/-- The tables, the free pages, the pipes in the pages, and the words of the caller's memory;
`ρ` are the pages that `kfree` accepts. -/
structure Tables (ρ : Type) where
  file : FileIx → File ρ
  ofile : Fd → Option FileIx
  freelist : List ρ
  pipe : ρ → Pipe
  user : Nat → Int

inductive Panic
  | fileclose

abbrev Sys (ρ : Type) := Calls.Call (Tables ρ) Panic

section Model

variable [DecidableEq ρ]

namespace Tables

variable (s : Tables ρ)

def setFile (f : FileIx) (x : File ρ) : Tables ρ := { s with file := update s.file f x }

def setPipe (p : ρ) (x : Pipe) : Tables ρ := { s with pipe := update s.pipe p x }

def setOfile (fd : Fd) (o : Option FileIx) : Tables ρ :=
  { s with ofile := update s.ofile fd o }

end Tables

def filealloc : Sys ρ (Option FileIx) := do
  let s ← get
  match (List.finRange NFILE).find? fun f => (s.file f).ref = 0 with
  | none => pure none
  | some f => do
    modify (·.setFile f { s.file f with ref := 1 })
    pure (some f)

def kalloc : Sys ρ (Option ρ) := do
  let s ← get
  match s.freelist with
  | [] => pure none
  | p :: next => do
    modify fun s => { s with freelist := next }
    pure (some p)

def kfree (p : ρ) : Sys ρ Unit := modify fun s => { s with freelist := p :: s.freelist }

/-- Nobody sleeps on a pipe that is being made, so `wakeup` does nothing here. -/
def pipeclose (p : ρ) (writable : Bool) : Sys ρ Unit := do
  modify fun s => s.setPipe p ((s.pipe p).shut writable)
  let s ← get
  if (s.pipe p).readopen = false ∧ (s.pipe p).writeopen = false then kfree p else pure ()

variable (iput : Nat → Sys ρ Unit)

def fileclose (f : FileIx) : Sys ρ Unit := do
  let s ← get
  let ff := s.file f
  if ff.ref < 1 then throw .fileclose
  else if ff.ref - 1 > 0 then modify (·.setFile f { ff with ref := ff.ref - 1 })
  else do
    modify (·.setFile f { ff with ref := 0, type := .none })
    match ff.type with
    | .none => pure ()
    | .pipe => pipeclose ff.pipe ff.writable
    | .inode => iput ff.ip

/-- The statements after `bad:`; `p`, `f0` and `f1` are what has been allocated. -/
def bad (p : Option ρ) (f0 f1 : Option FileIx) : Sys ρ (Option (FileIx × FileIx)) := do
  p.forM kfree
  f0.forM (fileclose iput)
  f1.forM (fileclose iput)
  pure none

def pipealloc : Sys ρ (Option (FileIx × FileIx)) := do
  match ← filealloc with
  | none => bad iput none none none
  | some f0 =>
    match ← filealloc with
    | none => bad iput none (some f0) none
    | some f1 =>
      match ← kalloc with
      | none => bad iput none (some f0) (some f1)
      | some p => do
        modify fun s => s.setPipe p
          { s.pipe p with readopen := true, writeopen := true, nwrite := 0, nread := 0 }
        modify fun s => s.setFile f0
          { s.file f0 with type := .pipe, readable := true, writable := false, pipe := p }
        modify fun s => s.setFile f1
          { s.file f1 with type := .pipe, readable := false, writable := true, pipe := p }
        pure (some (f0, f1))

def fdalloc (f : FileIx) : Sys ρ (Option Fd) := do
  let s ← get
  match (List.finRange NOFILE).find? fun fd => s.ofile fd = none with
  | none => pure none
  | some fd => do
    modify (·.setOfile fd (some f))
    pure (some fd)

/-- What `sys_pipe` does when it gets no descriptor. -/
def undo (fd0 : Option Fd) (rf wf : FileIx) : Sys ρ Int := do
  fd0.forM fun fd => modify (·.setOfile fd none)
  fileclose iput rf
  fileclose iput wf
  pure (-1)

/-- `fd` is the word that `argptr` finds, if the argument is in the caller's memory. -/
def sysPipe (fd : Option Nat) : Sys ρ Int := do
  match fd with
  | none => pure (-1)
  | some fd =>
    match ← pipealloc iput with
    | none => pure (-1)
    | some (rf, wf) =>
      match ← fdalloc rf with
      | none => undo iput none rf wf
      | some fd0 =>
        match ← fdalloc wf with
        | none => undo iput (some fd0) rf wf
        | some fd1 => do
          modify fun s => { s with
            user := update (update s.user fd (fd0 : ℕ)) (fd + 1) (fd1 : ℕ) }
          pure 0

end Model

/-! ## All or nothing -/

/-- Entries of `ftable` start as zeros, and `fileclose` leaves no type in a free one. -/
def Tables.Unused (s : Tables ρ) : Prop := ∀ f, (s.file f).ref = 0 → (s.file f).type = .none

/-- Files, pages and descriptors are as they were. -/
structure Restored (s t : Tables ρ) : Prop where
  ofile : t.ofile = s.ofile
  ref : ∀ f, (t.file f).ref = (s.file f).ref
  freelist : t.freelist = s.freelist
  unused : t.Unused

/-- Two files that were free are the ends of a new and empty pipe. -/
structure Opened (s : Tables ρ) (f0 f1 : FileIx) (p : ρ) (t : Tables ρ) : Prop where
  ne : f0 ≠ f1
  free0 : (s.file f0).ref = 0
  free1 : (s.file f1).ref = 0
  page : s.freelist = p :: t.freelist
  file0 : t.file f0 = ⟨.pipe, 1, true, false, p, (s.file f0).ip⟩
  file1 : t.file f1 = ⟨.pipe, 1, false, true, p, (s.file f1).ip⟩
  others : ∀ f, f ≠ f0 → f ≠ f1 → t.file f = s.file f
  empty : (t.pipe p).nread = 0 ∧ (t.pipe p).nwrite = 0
  readopen : (t.pipe p).readopen = true
  writeopen : (t.pipe p).writeopen = true

/-- Two descriptors that were free are those of the new pipe. -/
structure Created (s : Tables ρ) (f0 f1 : FileIx) (p : ρ) (fd0 fd1 : Fd) (t : Tables ρ) : Prop
    extends Opened s f0 f1 p t where
  fd_ne : fd0 ≠ fd1
  fd_free0 : s.ofile fd0 = none
  fd_free1 : s.ofile fd1 = none
  ofile : t.ofile = update (update s.ofile fd0 (some f0)) fd1 (some f1)

variable {iput : Nat → Sys ρ Unit} {s t : Tables ρ} {f f0 f1 : FileIx} {p : ρ} {E : Panic → Prop}

theorem Opened.setOfile (h : Opened s f0 f1 p t) (fd : Fd) (o : Option FileIx) :
    Opened s f0 f1 p (t.setOfile fd o) := { h with }

theorem ends_kalloc {Q : Option ρ → Tables ρ → Prop} (hnone : Q none s)
    (hsome : ∀ p next, s.freelist = p :: next → Q (some p) { s with freelist := next }) :
    Ends kalloc s E Q := by
  simp only [kalloc, ends_bind, ends_get]
  cases h : s.freelist with
  | nil => exact hnone
  | cons p next => exact hsome p next h

theorem ends_filealloc {Q : Option FileIx → Tables ρ → Prop} (hnone : Q none s)
    (hsome : ∀ f, (s.file f).ref = 0 → Q (some f) (s.setFile f { s.file f with ref := 1 })) :
    Ends filealloc s E Q := by
  simp only [filealloc, ends_bind, ends_get]
  cases h : (List.finRange NFILE).find? fun f => decide ((s.file f).ref = 0) with
  | none => exact hnone
  | some f => exact hsome f (by simpa using List.find?_some h)

theorem ends_fdalloc {Q : Option Fd → Tables ρ → Prop} (hnone : Q none s)
    (hsome : ∀ fd, s.ofile fd = none → Q (some fd) (s.setOfile fd (some f))) :
    Ends (fdalloc f) s E Q := by
  simp only [fdalloc, ends_bind, ends_get]
  cases h : (List.finRange NOFILE).find? fun fd => decide (s.ofile fd = none) with
  | none => exact hnone
  | some fd => exact hsome fd (by simpa using List.find?_some h)

/-- The files that were taken are free again. -/
theorem Restored.of_files (h : s.Unused) (hofile : t.ofile = s.ofile)
    (hfree : t.freelist = s.freelist) (hfiles : ∀ f, t.file f = s.file f ∨
      (s.file f).ref = 0 ∧ (t.file f).ref = 0 ∧ (t.file f).type = .none) : Restored s t := by
  refine ⟨hofile, fun f => ?_, hfree, fun f hf => ?_⟩
  · obtain he | ⟨h0, h1, -⟩ := hfiles f
    · rw [he]
    · rw [h0, h1]
  · obtain he | ⟨-, -, htype⟩ := hfiles f
    · rw [he] at hf ⊢
      exact h f hf
    · exact htype

variable [DecidableEq ρ] {Q : Unit → Tables ρ → Prop}

/-- A file that has been allocated and nothing else. -/
theorem ends_fileclose_fresh (href : (s.file f).ref = 1) (htype : (s.file f).type = .none) :
    Ends (fileclose iput f) s E Q ↔
      Q () (s.setFile f { s.file f with ref := 0, type := .none }) := by
  simp [fileclose, href, htype]

/-- One of the ends of a pipe. -/
theorem ends_fileclose_pipe (href : (s.file f).ref = 1) (htype : (s.file f).type = .pipe) :
    Ends (fileclose iput f) s E Q ↔ Ends (pipeclose (s.file f).pipe (s.file f).writable)
      (s.setFile f { s.file f with ref := 0, type := .none }) E Q := by
  simp [fileclose, href, htype]

/-- `pipealloc` gets two files and a page, or leaves all as it was. -/
theorem pipealloc_spec (h : s.Unused) :
    Ends (pipealloc iput) s (fun _ => False) fun r t => t.ofile = s.ofile ∧
      (r = none ∧ Restored s t ∨ ∃ f0 f1 p, r = some (f0, f1) ∧ Opened s f0 f1 p t) := by
  rw [pipealloc, ends_bind]
  refine ends_filealloc ?_ fun f0 h0 => ?_
  · have hsame : Restored s s := .of_files h rfl rfl fun _ => .inl rfl
    simpa [bad, Option.forM] using hsame
  dsimp only
  rw [ends_bind]
  refine ends_filealloc ?_ fun f1 h1 => ?_
  · simp only [bad, Option.forM, ends_bind, ends_pure]
    rw [ends_fileclose_fresh (by simp [Tables.setFile]) (by simp [Tables.setFile, h f0 h0])]
    refine ⟨rfl, .inl ⟨trivial, .of_files h rfl rfl fun f => ?_⟩⟩
    by_cases hf : f = f0
    · subst hf
      simp [Tables.setFile, h0]
    · simp [Tables.setFile, hf]
  have hne : f0 ≠ f1 := by
    rintro rfl
    simp [Tables.setFile] at h1
  have h1 : (s.file f1).ref = 0 := by simpa [Tables.setFile, hne.symm] using h1
  dsimp only
  rw [ends_bind]
  refine ends_kalloc ?_ fun p next hp => ?_
  · simp only [bad, Option.forM, ends_bind, ends_pure]
    rw [ends_fileclose_fresh, ends_fileclose_fresh]
    · refine ⟨rfl, .inl ⟨trivial, .of_files h rfl rfl fun f => ?_⟩⟩
      by_cases hf1 : f = f1
      · subst hf1
        simp [Tables.setFile, h1]
      by_cases hf : f = f0
      · subst hf
        simp [Tables.setFile, h0, hf1]
      · simp [Tables.setFile, hf, hf1]
    all_goals simp [Tables.setFile, hne, hne.symm, h f0 h0, h f1 h1]
  · refine ⟨rfl, .inr ⟨f0, f1, p, rfl, ?_⟩⟩
    exact
      { ne := hne
        free0 := h0
        free1 := h1
        page := hp
        file0 := by simp [Tables.setFile, Tables.setPipe, hne]
        file1 := by simp [Tables.setFile, Tables.setPipe, hne.symm]
        others := fun f hf0 hf1 => by simp [Tables.setFile, Tables.setPipe, hf0, hf1]
        empty := by simp [Tables.setFile, Tables.setPipe]
        readopen := by simp [Tables.setFile, Tables.setPipe]
        writeopen := by simp [Tables.setFile, Tables.setPipe] }

/-- The clean-up of `sys_pipe` gives back what `pipealloc` got. -/
theorem Opened.close (iput : Nat → Sys ρ Unit) (h : Opened s f0 f1 p t) (hunused : s.Unused)
    (hofile : t.ofile = s.ofile) :
    Ends (do fileclose iput f0; fileclose iput f1) t (fun _ => False) fun _ u => Restored s u := by
  rw [ends_bind, ends_fileclose_pipe (by rw [h.file0]) (by rw [h.file0]), h.file0]
  simp [pipeclose, Pipe.shut, Tables.setFile, Tables.setPipe, h.writeopen]
  rw [ends_fileclose_pipe (by simp [h.ne.symm, h.file1]) (by simp [h.ne.symm, h.file1])]
  simp [pipeclose, kfree, Pipe.shut, Tables.setFile, Tables.setPipe, h.file1, h.ne.symm]
  refine .of_files hunused hofile h.page.symm fun f => ?_
  by_cases hf1 : f = f1
  · subst hf1
    simp [h.free1]
  by_cases hf : f = f0
  · subst hf
    simp [hf1, h.free0]
  · simp [hf, hf1, h.others]

/-- **`sys_pipe` is all or nothing.** It does not panic. When it returns -1, descriptors, reference
counts and free pages are as before; when it returns 0, two descriptors that were free, which it
has stored where the argument says, refer to two files that were free, the ends of one new
pipe. -/
theorem sys_pipe_all_or_nothing (iput : Nat → Sys ρ Unit) (h : s.Unused) (fd : Option Nat) :
    Ends (sysPipe iput fd) s (fun _ => False) fun r t =>
      r = -1 ∧ Restored s t ∨
      r = 0 ∧ ∃ w f0 f1 p fd0 fd1, fd = some w ∧ Created s f0 f1 p fd0 fd1 t ∧
        t.user w = (fd0 : ℕ) ∧ t.user (w + 1) = (fd1 : ℕ) := by
  have hsame : Restored s s := .of_files h rfl rfl fun _ => .inl rfl
  cases fd with
  | none => simpa [sysPipe] using hsame
  | some fd =>
  rw [sysPipe, ends_bind]
  refine (pipealloc_spec h).post fun r t => ?_
  rintro ⟨hofile, ⟨rfl, hr⟩ | ⟨f0, f1, p, rfl, hopen⟩⟩
  · simpa using hr
  dsimp only
  rw [ends_bind]
  refine ends_fdalloc ?_ fun fd0 hfd0 => ?_
  · have hclose := hopen.close iput h hofile
    simpa [undo, Option.forM] using hclose
  dsimp only
  rw [ends_bind]
  refine ends_fdalloc ?_ fun fd1 hfd1 => ?_
  · have hback : ((t.setOfile fd0 (some f0)).setOfile fd0 none).ofile = s.ofile := by
      simp only [Tables.setOfile, update_idem]
      rw [← hfd0, update_eq_self, hofile]
    have hclose := ((hopen.setOfile fd0 (some f0)).setOfile fd0 none).close iput h hback
    simpa [undo, Option.forM] using hclose
  · have hfd : fd0 ≠ fd1 := by
      rintro rfl
      simp [Tables.setOfile] at hfd1
    have hfd1 : t.ofile fd1 = none := by simpa [Tables.setOfile, hfd.symm] using hfd1
    refine .inr ⟨rfl, fd, f0, f1, p, fd0, fd1, rfl, ?_, by simp, by simp⟩
    exact { hopen with
      fd_ne := hfd
      fd_free0 := hofile ▸ hfd0
      fd_free1 := hofile ▸ hfd1
      ofile := by rw [← hofile]; rfl }

/-- One page is free, and all files and descriptors. -/
def bareTables : Tables Unit where
  file _ := ⟨.none, 0, false, false, (), 0⟩
  ofile _ := none
  freelist := [()]
  pipe _ := ⟨fun _ => 0, 0, 0, false, false⟩
  user _ := 0

theorem sys_pipe_all_or_nothing_bare :
    Ends (sysPipe (fun _ => pure ()) (some 0)) bareTables (fun _ => False) fun r t =>
      r = 0 ∧ ∃ f0 f1 p fd0 fd1, Created bareTables f0 f1 p fd0 fd1 t ∧
        t.user 0 = (fd0 : ℕ) ∧ t.user 1 = (fd1 : ℕ) := by
  have hrun : Ends (sysPipe (fun _ => pure ()) (some 0)) bareTables (fun _ => False)
      fun r _ => r = 0 := by decide +kernel
  refine (hrun.and (sys_pipe_all_or_nothing (fun _ => pure ()) (fun _ _ => rfl) (some 0))).imp
    (fun _ => And.left) fun r t ht => ⟨ht.1, ?_⟩
  obtain ⟨rfl, ⟨hr, -⟩ | ⟨-, w, f0, f1, p, fd0, fd1, hw, hcreated⟩⟩ := ht
  · cases hr
  · cases hw
    exact ⟨f0, f1, p, fd0, fd1, hcreated⟩

end Xv6.Pipes
