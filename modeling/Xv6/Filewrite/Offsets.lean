import Xv6.Filewrite.Model
import Xv6.Lib.Totals

/-! Writers of a shared `struct file` do not overwrite each other. `f->off` is read and
advanced under `ip->lock`, so the chunks of all writers follow one another in the file in the
order in which they got the lock, at offsets that need not be multiples of `BSIZE`. -/

namespace Xv6.Filewrite

open Runs Segments Totals Function

variable {T : Type} {f : File} {s s' : State T} {t u : T} {log : List (Event T)} {buf : List Byte}
  {i : Nat}

/-- The chunks, in the order in which they were written; the history has its latest event
first. -/
def chunks : List (Event T) → List (Segment Byte)
  | [] => []
  | .chunk _ off bytes :: l => chunks l ++ [⟨off, bytes⟩]
  | _ :: l => chunks l

/-- The bytes that `t` has written since it last called `filewrite`. -/
def sinceCall [DecidableEq T] (t : T) : List (Event T) → List Byte
  | [] => []
  | .call u _ :: l => if u = t then [] else sinceCall t l
  | .chunk u _ bytes :: l => if u = t then sinceCall t l ++ bytes else sinceCall t l
  | _ :: l => sinceCall t l

/-- The sum of the lengths of all calls. -/
def called : List (Event T) → Nat
  | [] => 0
  | .call _ buf :: l => called l + buf.length
  | _ :: l => called l

/-! ## Blocks and bytes -/

theorem BSIZE_pos : 0 < BSIZE := by decide

theorem maxBytes_lt : MAXFILE * BSIZE < 2 ^ 32 := by decide

variable {pos : Nat}

/-- A `memmove` into one block, seen as one into the file. -/
theorem byte_fill {bytes : List Byte} (h : pos % BSIZE + bytes.length ≤ BSIZE) :
    (f.fill pos bytes).byte = put f.byte pos bytes := by
  funext k
  have hpos := Nat.div_add_mod pos BSIZE
  have hk := Nat.div_add_mod k BSIZE
  have hkB := Nat.mod_lt k BSIZE_pos
  by_cases hb : k / BSIZE = pos / BSIZE
  · rw [hb] at hk
    simp only [File.byte, File.fill, File.bread, hb, update_self, Option.getD_some, put]
    by_cases hle : pos ≤ k
    · rw [if_pos (by omega), if_pos hle, show k % BSIZE - pos % BSIZE = k - pos by omega]
    · rw [if_neg (by omega), if_neg hle]
  · have hrest : put f.byte pos bytes k = f.byte k := by
      unfold put
      split
      · -- the block of `k` is behind that of `pos`
        have hlt : pos / BSIZE < k / BSIZE :=
          Nat.lt_of_le_of_ne (Nat.div_le_div_right ‹_›) (Ne.symm hb)
        have hmul : BSIZE * (pos / BSIZE + 1) ≤ BSIZE * (k / BSIZE) := Nat.mul_le_mul_left _ hlt
        rw [Nat.mul_add, Nat.mul_one] at hmul
        rw [List.getElem?_eq_none_iff.2 (by omega)]
        rfl
      · rfl
    rw [hrest]
    simp only [File.byte, File.fill, File.bread, update_of_ne hb]

theorem n1_le (buf : List Byte) (i : Nat) : n1 buf i ≤ buf.length - i := by
  unfold n1
  split <;> omega

theorem n1_le_maxChunk (buf : List Byte) (i : Nat) : n1 buf i ≤ maxChunk := by
  unfold n1
  split <;> omega

theorem n1_pos (h : i < buf.length) : 0 < n1 buf i := by
  unfold n1
  split
  · decide
  · omega

theorem src_length (buf : List Byte) (i : Nat) : (src buf i).length = n1 buf i := by
  have := n1_le buf i
  rw [src, List.length_take, List.length_drop]
  omega

theorem take_append_src (buf : List Byte) (i : Nat) :
    buf.take i ++ src buf i = buf.take (i + n1 buf i) := by
  rw [src, List.take_add]

variable {off : BitVec 32}

/-- What `writei` accepts lies within the largest file; nothing wraps. -/
theorem File.bounds_of_accepts {n : Nat} (hn : n ≤ maxChunk)
    (h : ¬ f.refuses off (BitVec.ofNat 32 n) = true) :
    off.toNat ≤ f.size.toNat ∧ off.toNat + n ≤ MAXFILE * BSIZE := by
  have hn' : n < 2 ^ 32 := Nat.lt_of_le_of_lt hn (by decide)
  have hoff := off.isLt
  simp only [File.refuses, Bool.or_eq_true, decide_eq_true_eq, not_or, BitVec.not_lt,
    BitVec.le_def, BitVec.toNat_add, BitVec.toNat_ofNat, Nat.mod_eq_of_lt hn',
    Nat.mod_eq_of_lt maxBytes_lt] at h
  omega

/-- The offset `k` bytes behind `off`. -/
theorem toNat_add_ofNat {k : Nat} (h : off.toNat + k ≤ MAXFILE * BSIZE) :
    (off + BitVec.ofNat 32 k).toNat = off.toNat + k := by
  have hmax := maxBytes_lt
  rw [BitVec.toNat_add, BitVec.toNat_ofNat]
  omega

/-! ## The invariant -/

/-- The thread holds `ip->lock`. -/
def Pc.inside : Pc → Bool
  | .writei .. | .copy .. | .grow .. | .got .. | .iunlock .. => true
  | _ => false

/-- What a thread has written in its call. -/
def Called [DecidableEq T] (log : List (Event T)) (t : T) : Pc → Prop
  | .out => True
  | .loop buf i => i ≤ buf.length ∧ sinceCall t log = buf.take i
  | .begin buf i | .ilock buf i | .writei buf i | .copy buf i _ _ | .grow buf i _ =>
    i < buf.length ∧ sinceCall t log = buf.take i
  | .got buf i _ r => i < buf.length ∧ sinceCall t log = buf.take i ∧ (r = -1 ∨ r = n1 buf i)
  | .iunlock buf i r | .endOp buf i r =>
    i < buf.length ∧ (r = -1 ∨ r = n1 buf i ∧ sinceCall t log = buf.take (i + n1 buf i))

/-- `writei` was called with `f->off` and accepts `n` bytes. -/
structure Accepted (f : File) (off : BitVec 32) (n : Nat) : Prop where
  eq : off = f.off
  size : off.toNat ≤ f.size.toNat
  fits : off.toNat + n ≤ MAXFILE * BSIZE

/-- What the holder of the lock has done to the file. -/
def Writing (f : File) : Pc → Prop
  | .copy buf i off tot =>
    Accepted f off (n1 buf i) ∧ tot ≤ n1 buf i ∧ Has f.byte off.toNat ((src buf i).take tot)
  | .grow buf i off => Accepted f off (n1 buf i) ∧ Has f.byte off.toNat (src buf i)
  | .got buf i off r => 0 < r → Accepted f off (n1 buf i) ∧
      Has f.byte off.toNat (src buf i) ∧ off.toNat + n1 buf i ≤ f.size.toNat
  | _ => True

theorem writing_outside {pc : Pc} (h : pc.inside = false) : Writing f pc := by
  cases pc <;> trivial

/-- Where the chunks are, for a file whose offset was `a` at the start. -/
structure Placed (a : Nat) (f : File) (cs : List (Segment Byte)) : Prop where
  tiles : Tiles a cs f.off.toNat
  kept : ∀ c ∈ cs, c.stop ≤ f.size.toNat ∧ Has f.byte c.start c.cells

section

variable {a : Nat} {cs : List (Segment Byte)}

/-- `f->off` is advanced behind a chunk that is written. -/
theorem Placed.advance (hp : Placed a f cs) (hacc : Accepted f off (n1 buf i))
    (hhas : Has f.byte off.toNat (src buf i)) (hsize : off.toNat + n1 buf i ≤ f.size.toNat) :
    Placed a (f.advance (n1 buf i)) (cs ++ [⟨off.toNat, src buf i⟩]) where
  tiles := by
    have hstop : (f.advance (n1 buf i)).off.toNat = off.toNat + n1 buf i := by
      rw [File.advance, ← hacc.eq, BitVec.ofInt_natCast]
      exact toNat_add_ofNat hacc.fits
    have hsnoc := hp.tiles.snoc (c := ⟨off.toNat, src buf i⟩) (by rw [hacc.eq])
    rw [Segment.stop, src_length] at hsnoc
    rw [hstop]
    exact hsnoc
  kept := by
    intro c hc
    rcases List.mem_append.1 hc with hc | hc
    · exact hp.kept c hc
    · rw [List.mem_singleton.1 hc, Segment.stop, src_length]
      exact ⟨hsize, hhas⟩

/-- What is stored behind `f->off` touches no chunk. -/
theorem Placed.fill {bytes : List Byte} (hp : Placed a f cs)
    (hpos : f.off.toNat ≤ pos) (hblock : pos % BSIZE + bytes.length ≤ BSIZE) :
    Placed a (f.fill pos bytes) cs where
  tiles := hp.tiles
  kept := by
    intro c hc
    obtain ⟨hsize, hhas⟩ := hp.kept c hc
    rw [byte_fill hblock]
    exact ⟨hsize, hhas.put_after (Nat.le_trans (hp.tiles.stop_le hc).2 hpos)⟩

theorem Placed.grow {n : Nat} (hp : Placed a f cs) : Placed a (f.grow off n) cs := by
  unfold File.grow
  split
  · rename_i h
    have hlt := BitVec.lt_def.1 h.2
    exact ⟨hp.tiles, fun c hc => ⟨Nat.le_trans (hp.kept c hc).1 hlt.le, (hp.kept c hc).2⟩⟩
  · exact hp

theorem File.grow_size {n : Nat} (h : off.toNat ≤ f.size.toNat)
    (hfits : off.toNat + n ≤ MAXFILE * BSIZE) :
    off.toNat + n ≤ (f.grow (off + BitVec.ofNat 32 n) n).size.toNat := by
  unfold File.grow
  split
  · exact (toNat_add_ofNat hfits).ge
  · rename_i hn
    rw [BitVec.lt_def, toNat_add_ofNat hfits] at hn
    omega

end

structure Inv [DecidableEq T] (a : Nat) (s : State T × List (Event T)) : Prop where
  lock : ∀ t, (s.1.thread t).inside = true ↔ s.1.lock = some t
  placed : Placed a s.1.file (chunks s.2)
  called : ∀ t, Called s.2 t (s.1.thread t)
  writing : ∀ t, Writing s.1.file (s.1.thread t)
  wrote : ∀ l1 l2 t buf ret, s.2 = l1 ++ .wrote t buf ret :: l2 → ret = buf.length →
    sinceCall t l2 = buf

variable [DecidableEq T] {a : Nat} {pc : Pc} {ret : Int}

theorem Inv.outside (hi : Inv a (s, log)) (ht : (s.thread t).inside = true) (hu : u ≠ t) :
    (s.thread u).inside = false := by
  rw [Bool.eq_false_iff]
  intro h
  exact hu (Option.some.inj (((hi.lock u).1 h).symm.trans ((hi.lock t).1 ht)))

theorem forall_goto {F : T → Pc → Prop} (ht : F t pc) (h : ∀ u, u ≠ t → F u (s.thread u)) (u : T) :
    F u ((s.goto t pc).thread u) :=
  (forall_update_iff s.thread F).2 ⟨ht, h⟩ u

/-- Thread `t` goes on to `pc`, where it has the lock if it had it before. -/
theorem lock_goto (hi : ∀ u, (s.thread u).inside = true ↔ s.lock = some u)
    (hpc : pc.inside = (s.thread t).inside) (u : T) :
    ((s.goto t pc).thread u).inside = true ↔ s.lock = some u :=
  forall_goto (F := fun u pc => pc.inside = true ↔ s.lock = some u) (hpc ▸ hi t) (fun u _ => hi u) u

theorem Inv.goto (hi : Inv a (s, log)) (hpc : pc.inside = (s.thread t).inside)
    (hcalled : Called log t pc) (hwriting : Writing s.file pc) :
    Inv a (s.goto t pc, log) := { hi with
  lock := lock_goto hi.lock hpc
  called := forall_goto (F := Called log) hcalled fun u _ => hi.called u
  writing := forall_goto (F := fun _ => Writing s.file) hwriting fun u _ => hi.writing u }

theorem Inv.rewrite (hi : Inv a (s, log)) (ht : (s.thread t).inside = true)
    (hpc : pc.inside = true) (hplaced : Placed a f (chunks log)) (hcalled : Called log t pc)
    (hwriting : Writing f pc) : Inv a ({ s.goto t pc with file := f }, log) := { hi with
  lock := lock_goto hi.lock (hpc.trans ht.symm)
  placed := hplaced
  called := forall_goto (F := Called log) hcalled fun u _ => hi.called u
  writing := forall_goto (F := fun _ => Writing f) hwriting
    fun _ hu => writing_outside (hi.outside ht hu) }

theorem Inv.acquire (hi : Inv a (s, log)) (hfree : s.lock = none) (hpc : pc.inside = true)
    (hcalled : Called log t pc) (hwriting : Writing s.file pc) :
    Inv a ({ s.goto t pc with lock := some t }, log) := { hi with
  lock := by
    refine forall_goto (F := fun u pc => pc.inside = true ↔ some t = some u) ?_ fun u hu => ?_
    · simp [hpc]
    · simp [hi.lock u, hfree, Ne.symm hu]
  called := forall_goto (F := Called log) hcalled fun u _ => hi.called u
  writing := forall_goto (F := fun _ => Writing s.file) hwriting fun u _ => hi.writing u }

theorem Inv.release (hi : Inv a (s, log)) (ht : (s.thread t).inside = true)
    (hpc : pc.inside = false) (hcalled : Called log t pc) :
    Inv a ({ s.goto t pc with lock := none }, log) := { hi with
  lock := by
    refine forall_goto (F := fun u pc => pc.inside = true ↔ none = some u) ?_ fun u hu => ?_
    · simp [hpc]
    · simp [hi.outside ht hu]
  called := forall_goto (F := Called log) hcalled fun u _ => hi.called u
  writing := forall_goto (F := fun _ => Writing s.file) (writing_outside hpc)
    fun u _ => hi.writing u }

/-! ## Events -/

/-- An event of another thread says nothing about the call of `u`. -/
theorem Called.congr {log' : List (Event T)} (h : sinceCall u log' = sinceCall u log)
    (hc : Called log u pc) : Called log' u pc := by
  cases pc <;> simp only [Called, h] at hc ⊢ <;> exact hc

section

variable (hi : Inv a (s, log))

include hi

theorem Inv.wrote_other {e : Event T} (he : ∀ u b r, e ≠ .wrote u b r)
    (l1 l2 : List (Event T)) (u : T) (b : List Byte) (r : Int)
    (hl : e :: log = l1 ++ .wrote u b r :: l2) (hr : r = b.length) : sinceCall u l2 = b := by
  obtain ⟨-, h⟩ | ⟨l1', -, hl'⟩ := List.cons_eq_append_iff.1 hl
  · exact absurd (List.cons.inj h).1.symm (he u b r)
  · exact hi.wrote l1' l2 u b r hl' hr

theorem Inv.call (ht : s.thread t = .out) :
    Inv a (s.goto t (.loop buf 0), .call t buf :: log) := { hi with
  lock := lock_goto hi.lock (by rw [ht]; rfl)
  called := by
    refine forall_goto (F := Called (.call t buf :: log)) ⟨Nat.zero_le _, ?_⟩ fun u hu => ?_
    · exact if_pos rfl
    · exact (hi.called u).congr (if_neg (Ne.symm hu))
  writing := forall_goto (F := fun _ => Writing s.file) trivial fun u _ => hi.writing u
  wrote := hi.wrote_other fun _ _ _ h => by cases h }

theorem Inv.finish (ht : (s.thread t).inside = false)
    (hret : ret = buf.length → sinceCall t log = buf) :
    Inv a (s.goto t .out, .wrote t buf ret :: log) := { hi with
  lock := lock_goto hi.lock ht.symm
  called := forall_goto (F := Called (.wrote t buf ret :: log)) trivial
    fun u _ => (hi.called u).congr rfl
  writing := forall_goto (F := fun _ => Writing s.file) trivial fun u _ => hi.writing u
  wrote := by
    intro l1 l2 u b r hl hr
    obtain ⟨-, he⟩ | ⟨l1', -, hl'⟩ := List.cons_eq_append_iff.1 hl
    · cases he
      exact hret hr
    · exact hi.wrote l1' l2 u b r hl' hr }

theorem Inv.chunk (ht : s.thread t = .got buf i off (n1 buf i)) (hpos : 0 < n1 buf i) :
    Inv a ({ s.goto t (.iunlock buf i (n1 buf i)) with file := s.file.advance (n1 buf i) },
      .chunk t off.toNat (src buf i) :: log) := by
  have hin : (s.thread t).inside = true := by rw [ht]; rfl
  have hcalled := hi.called t
  have hwriting := hi.writing t
  simp only [ht, Called] at hcalled
  simp only [ht, Writing] at hwriting
  obtain ⟨hacc, hhas, hsize⟩ := hwriting (by omega)
  refine ⟨lock_goto hi.lock hin.symm, hi.placed.advance hacc hhas hsize, ?_, ?_, ?_⟩
  · refine forall_goto (F := Called (.chunk t off.toNat (src buf i) :: log)) ?_ fun u hu => ?_
    · refine ⟨hcalled.1, .inr ⟨rfl, ?_⟩⟩
      rw [← take_append_src, ← hcalled.2.1]
      exact if_pos rfl
    · exact (hi.called u).congr (if_neg (Ne.symm hu))
  · exact forall_goto (F := fun _ => Writing (s.file.advance (n1 buf i))) trivial
      fun u hu => writing_outside (hi.outside hin hu)
  · exact hi.wrote_other fun _ _ _ h => by cases h

/-! ## The loop of `writei` -/

theorem Inv.copy {tot m : Nat} (ht : s.thread t = .copy buf i off tot) (htot : tot < n1 buf i)
    (hpos : pos = (off + BitVec.ofNat 32 tot).toNat)
    (hm : m = min (n1 buf i - tot) (BSIZE - pos % BSIZE)) :
    Inv a ({ s.goto t (.copy buf i off (tot + m)) with
      file := s.file.fill pos (((src buf i).drop tot).take m) }, log) := by
  have hcalled := hi.called t
  have hwriting := hi.writing t
  simp only [ht, Called] at hcalled
  simp only [ht, Writing] at hwriting
  obtain ⟨hacc, -, hhas⟩ := hwriting
  have hfits := hacc.fits
  rw [toNat_add_ofNat (by omega)] at hpos
  have hlen : (((src buf i).drop tot).take m).length = m := by
    rw [List.length_take, List.length_drop, src_length]
    omega
  have hblock : pos % BSIZE + (((src buf i).drop tot).take m).length ≤ BSIZE := by
    have := Nat.mod_lt pos BSIZE_pos
    omega
  refine hi.rewrite (by rw [ht]; rfl) rfl (hi.placed.fill ?_ hblock) hcalled ⟨?_, by omega, ?_⟩
  · show s.file.off.toNat ≤ pos
    rw [← hacc.eq]
    omega
  · exact ⟨hacc.eq, hacc.size, hacc.fits⟩
  · rw [byte_fill hblock, List.take_add]
    have htake : ((src buf i).take tot).length = tot := by
      rw [List.length_take, src_length]
      omega
    refine (hhas.put_after ?_).append ?_
    · omega
    · rw [htake, ← hpos]
      exact has_put

theorem Inv.grow (ht : s.thread t = .grow buf i off) :
    Inv a ({ s.goto t (.got buf i off (n1 buf i)) with
      file := s.file.grow (off + BitVec.ofNat 32 (n1 buf i)) (n1 buf i) }, log) := by
  have hcalled := hi.called t
  have hwriting := hi.writing t
  simp only [ht, Called] at hcalled
  simp only [ht, Writing] at hwriting
  obtain ⟨hacc, hhas⟩ := hwriting
  have hgrow := File.grow_size hacc.size hacc.fits
  have hbyte : (s.file.grow (off + BitVec.ofNat 32 (n1 buf i)) (n1 buf i)).byte = s.file.byte := by
    unfold File.grow
    split <;> rfl
  have hoff : (s.file.grow (off + BitVec.ofNat 32 (n1 buf i)) (n1 buf i)).off = s.file.off := by
    unfold File.grow
    split <;> rfl
  refine hi.rewrite (by rw [ht]; rfl) rfl hi.placed.grow ⟨hcalled.1, hcalled.2, .inr rfl⟩
    fun _ => ?_
  rw [hbyte]
  exact ⟨⟨hacc.eq.trans hoff.symm, by omega, hacc.fits⟩, hhas, hgrow⟩

end

theorem State.Idle.inv (h : s.Idle) : Inv s.file.off.toNat (s, []) where
  lock := by
    intro t
    simp [h.lock, h.thread, Pc.inside]
  placed := ⟨rfl, fun c hc => absurd hc List.not_mem_nil⟩
  called := by
    intro t
    simp only [h.thread, Called]
  writing := by
    intro t
    simp only [h.thread, Writing]
  wrote := by
    intro l1 l2 t buf ret hl
    exact absurd hl (by simp)

/-! ## The sum of the lengths -/

/-- How much of its call a thread has still to write. -/
def Pc.rest : Pc → Int
  | .out => 0
  | .loop buf i | .begin buf i | .ilock buf i | .writei buf i | .copy buf i _ _ | .grow buf i _
  | .got buf i _ _ => buf.length - i
  | .iunlock buf i r | .endOp buf i r => buf.length - i - max r 0

/-- No call has failed. -/
def NoneFailed (log : List (Event T)) : Prop :=
  ∀ t buf ret, .wrote t buf ret ∈ log → ret = (buf.length : Int)

/-- The sum of the lengths of the chunks. -/
def written (log : List (Event T)) : Nat := ((chunks log).map fun c => c.cells.length).sum

omit [DecidableEq T] in
theorem written_chunk (off : Nat) (bytes : List Byte) :
    written (.chunk t off bytes :: log) = written log + bytes.length := by
  simp [written, chunks]

/-- What the calls were to write is written or still to be written. -/
def Balanced [Fintype T] (s : State T × List (Event T)) : Prop :=
  NoneFailed s.2 → (called s.2 : Int) = written s.2 + total Pc.rest s.1.thread

variable [Fintype T]

omit [DecidableEq T] in
theorem total_rest (h : ∀ t, s.thread t = .out) : total Pc.rest s.thread = 0 := by
  refine total_eq_zero fun t => ?_
  rw [h]
  rfl

theorem Balanced.goto (hb : Balanced (s, log)) (ht : s'.thread = update s.thread t pc)
    (hpc : pc.rest = (s.thread t).rest) : Balanced (s', log) := by
  intro hf
  have hold := hb hf
  simp only at hold ⊢
  rw [ht, total_update, hpc]
  omega

theorem Balanced.finish (hb : Balanced (s, log)) (hret : ret = buf.length → (s.thread t).rest = 0) :
    Balanced (s.goto t .out, .wrote t buf ret :: log) := by
  intro hf
  have hold := hb fun u b r hm => hf u b r (List.mem_cons_of_mem _ hm)
  have hrest := hret (hf t buf ret List.mem_cons_self)
  show (called log : Int) = written log + total Pc.rest (update s.thread t .out)
  simp only at hold
  rw [total_update, hrest, hold]
  simp only [Pc.rest]
  omega

theorem Balanced.chunk (hb : Balanced (s, log)) (ht : s.thread t = .got buf i off (n1 buf i)) :
    Balanced ({ s.goto t (.iunlock buf i (n1 buf i)) with file := f },
      .chunk t off.toNat (src buf i) :: log) := by
  intro hf
  have hold := hb fun u b r hm => hf u b r (List.mem_cons_of_mem _ hm)
  show (called log : Int) = written (.chunk t off.toNat (src buf i) :: log) +
    total Pc.rest (update s.thread t (.iunlock buf i (n1 buf i)))
  simp only at hold
  rw [total_update, written_chunk, src_length, hold, ht]
  simp only [Pc.rest]
  omega

theorem Balanced.call (hb : Balanced (s, log)) (ht : s.thread t = .out) :
    Balanced (s.goto t (.loop buf 0), .call t buf :: log) := by
  intro hf
  have hold := hb fun u b r hm => hf u b r (List.mem_cons_of_mem _ hm)
  show ((called log + buf.length : Nat) : Int) = written log +
    total Pc.rest (update s.thread t (.loop buf 0))
  simp only at hold
  rw [total_update, ht]
  simp only [Pc.rest]
  omega

/-! ## All steps -/

theorem Inv.run {e : List (Event T)} (hi : Inv a (s, log)) (hb : Balanced (s, log))
    (h : s.run t = some (s', e)) : Inv a (s', e ++ log) ∧ Balanced (s', e ++ log) := by
  have hcalled := hi.called t
  have hwriting := hi.writing t
  unfold State.run at h
  split at h
  case h_1 => cases h
  case h_2 buf i hpc =>
    simp only [hpc, Called] at hcalled
    split at h
    · rename_i hlt
      cases h
      exact ⟨hi.goto (by rw [hpc]; rfl) ⟨hlt, hcalled.2⟩ trivial, hb.goto rfl (by rw [hpc]; rfl)⟩
    · cases h
      refine ⟨hi.finish (by rw [hpc]; rfl) fun _ => ?_, hb.finish fun _ => ?_⟩
      · rw [hcalled.2, List.take_of_length_le (by omega)]
      · simp only [hpc, Pc.rest]
        omega
  case h_3 buf i hpc =>
    simp only [hpc, Called] at hcalled
    cases h
    exact ⟨hi.goto (by rw [hpc]; rfl) hcalled trivial, hb.goto rfl (by rw [hpc]; rfl)⟩
  case h_4 buf i hpc =>
    simp only [hpc, Called] at hcalled
    split at h
    · rename_i hfree
      cases h
      exact ⟨hi.acquire hfree rfl hcalled trivial, hb.goto rfl (by rw [hpc]; rfl)⟩
    · cases h
  case h_5 buf i hpc =>
    simp only [hpc, Called] at hcalled
    split at h
    · cases h
      refine ⟨hi.goto (by rw [hpc]; rfl) ⟨hcalled.1, hcalled.2, .inl rfl⟩ fun hr => ?_,
        hb.goto rfl (by rw [hpc]; rfl)⟩
      exact absurd hr (by decide)
    · rename_i hok
      cases h
      obtain ⟨hsize, hfits⟩ := File.bounds_of_accepts (n1_le_maxChunk buf i) hok
      exact ⟨hi.goto (by rw [hpc]; rfl) hcalled ⟨⟨rfl, hsize, hfits⟩, Nat.zero_le _, has_nil⟩,
        hb.goto rfl (by rw [hpc]; rfl)⟩
  case h_6 buf i off tot hpc =>
    simp only [hpc, Called] at hcalled
    simp only [hpc, Writing] at hwriting
    split at h
    · rename_i htot
      simp only at h
      split at h
      · cases h
        exact ⟨hi.copy hpc htot rfl rfl, hb.goto rfl (by rw [hpc]; rfl)⟩
      · cases h
    · cases h
      obtain ⟨hacc, hle, hhas⟩ := hwriting
      rw [List.take_of_length_le (by rw [src_length]; omega)] at hhas
      exact ⟨hi.goto (by rw [hpc]; rfl) hcalled ⟨hacc, hhas⟩, hb.goto rfl (by rw [hpc]; rfl)⟩
  case h_7 buf i off hpc =>
    cases h
    exact ⟨hi.grow hpc, hb.goto rfl (by rw [hpc]; rfl)⟩
  case h_8 buf i off r hpc =>
    simp only [hpc, Called] at hcalled
    split at h
    · rename_i hr
      cases h
      obtain rfl : r = n1 buf i := hcalled.2.2.resolve_left (by omega)
      exact ⟨hi.chunk hpc (by omega), hb.chunk hpc⟩
    · rename_i hr
      cases h
      have hneg : r = -1 := by
        refine hcalled.2.2.resolve_right fun hr' => ?_
        have := n1_pos hcalled.1
        omega
      refine ⟨hi.goto (by rw [hpc]; rfl) ⟨hcalled.1, .inl hneg⟩ trivial, hb.goto rfl ?_⟩
      simp only [hpc, Pc.rest]
      omega
  case h_9 buf i r hpc =>
    simp only [hpc, Called] at hcalled
    cases h
    exact ⟨hi.release (by rw [hpc]; rfl) rfl hcalled, hb.goto rfl (by rw [hpc]; rfl)⟩
  case h_10 buf i r hpc =>
    simp only [hpc, Called] at hcalled
    obtain ⟨hlt, hr⟩ := hcalled
    split at h
    · cases h
      have hshort : (if i = buf.length then (buf.length : Int) else -1) ≠ buf.length := by
        rw [if_neg (by omega)]
        omega
      exact ⟨hi.finish (by rw [hpc]; rfl) fun hret => absurd hret hshort,
        hb.finish fun hret => absurd hret hshort⟩
    · split at h
      · cases h
      · rename_i hneg hn
        cases h
        obtain ⟨hr, hsince⟩ := hr.resolve_left (by omega)
        have hle := n1_le buf i
        refine ⟨hi.goto (by rw [hpc]; rfl) ⟨by omega, ?_⟩ trivial, hb.goto rfl ?_⟩
        · rw [hsince, hr]
          rfl
        · simp only [hpc, Pc.rest]
          omega

theorem Inv.step {e : List (Event T)} {l : Label T} (hi : Inv a (s, log)) (hb : Balanced (s, log))
    (h : s.step l = some (s', e)) : Inv a (s', e ++ log) ∧ Balanced (s', e ++ log) := by
  cases l with
  | call t buf =>
    obtain ⟨ht, he⟩ := Option.ite_none_right_eq_some.1 h
    cases he
    exact ⟨hi.call ht, hb.call ht⟩
  | run t => exact hi.run hb h

/-- **Shared writes do not meet.** In every run of `filewrite` calls on one `struct file`: the
chunks follow one another from the first offset to the present one, so that no two overlap;
each is in the file, at its own range; a call that returns `n` has written its `n` bytes in
its chunks; and when all calls have returned without failing, the offset has advanced by the
sum of their lengths. -/
theorem filewrite_shared (s0 : State T) (h0 : s0.Idle) (s : State T) (log : List (Event T))
    (hr : Run (recording State.step) free (s0, []) (s, log)) :
    Tiles s0.file.off.toNat (chunks log) s.file.off.toNat ∧
      ((chunks log).Pairwise fun c d => c.stop ≤ d.start) ∧
      (∀ c ∈ chunks log, c.stop ≤ s.file.size.toNat ∧ Has s.file.byte c.start c.cells) ∧
      (∀ l1 l2 t buf ret, log = l1 ++ .wrote t buf ret :: l2 → ret = buf.length →
        sinceCall t l2 = buf) ∧ ((∀ t, s.thread t = .out) → NoneFailed log →
        s.file.off.toNat = s0.file.off.toNat + called log) := by
  obtain ⟨hi, hbal⟩ : Inv s0.file.off.toNat (s, log) ∧ Balanced (s, log) := by
    refine hr.invariant (I := fun x => Inv s0.file.off.toNat x ∧ Balanced x) ⟨h0.inv, fun _ => ?_⟩
      fun y l z hy hs _ => ?_
    · show (0 : Int) = 0 + total Pc.rest s0.thread
      rw [total_rest h0.thread]
      rfl
    · obtain ⟨e, he, hz⟩ := recording_some hs
      have hnext := hy.1.step hy.2 he
      rwa [← hz] at hnext
  have htiles : Tiles s0.file.off.toNat (chunks log) s.file.off.toNat := hi.placed.tiles
  refine ⟨htiles, htiles.pairwise, hi.placed.kept, hi.wrote, fun hout hnone => ?_⟩
  have hsum := hbal hnone
  have hrest := total_rest hout
  have hlen : s.file.off.toNat = s0.file.off.toNat + written log := htiles.length
  simp only at hsum
  omega

/-- A file of 510 bytes that is open at its end. -/
def shortFile : State (Fin 2) where
  file := ⟨510, 510, fun bn => if bn = 0 then some fun _ => 7 else none⟩
  lock := none
  thread := fun _ => .out

/-- Thread 0 writes three bytes across the end of a block while thread 1 waits for the lock
with two bytes. -/
def twoWriters : List (Label (Fin 2)) :=
  [.call 0 [1, 2, 3], .call 1 [4, 5]] ++ List.replicate 3 (.run 0) ++ List.replicate 2 (.run 1) ++
    List.replicate 7 (.run 0) ++ List.replicate 7 (.run 1) ++ List.replicate 2 (.run 0) ++
    List.replicate 2 (.run 1)

def bothWrote : State (Fin 2) × List (Event (Fin 2)) :=
  final (recording State.step) (shortFile, []) twoWriters

theorem filewrite_shared_twoWriters : chunks bothWrote.2 = [⟨510, [1, 2, 3]⟩, ⟨513, [4, 5]⟩] ∧
    bothWrote.1.file.off.toNat = 510 + 5 := by
  have hrun : Run (recording State.step) free (shortFile, []) bothWrote := run_free
  have hlog : bothWrote.2 =
      [.wrote 1 [4, 5] 2, .wrote 0 [1, 2, 3] 3, .chunk 1 513 [4, 5], .chunk 0 510 [1, 2, 3],
        .call 1 [4, 5], .call 0 [1, 2, 3]] := by decide +kernel
  have hnone : NoneFailed bothWrote.2 := by
    rw [hlog]
    intro t buf ret hm
    simp only [List.mem_cons, Event.wrote.injEq, reduceCtorEq, or_false, List.not_mem_nil] at hm
    obtain ⟨-, rfl, rfl⟩ | ⟨-, rfl, rfl⟩ := hm <;> rfl
  exact ⟨by decide +kernel,
    (filewrite_shared shortFile ⟨rfl, fun _ => rfl⟩ _ _ hrun).2.2.2.2 (by decide +kernel) hnone⟩

end Xv6.Filewrite
