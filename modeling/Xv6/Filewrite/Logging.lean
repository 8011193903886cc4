import Mathlib.Data.Finset.Card
import Xv6.Filewrite.Model
import Xv6.Lib.Calls

/-! How many blocks a transaction of `filewrite` writes: `balloc`, `bmap` and `writei` (`fs.c`)
as far as they decide which block numbers are passed to `log_write`. The blocks of a file are
different ones, so that the bytes of the data blocks can be left out. -/

namespace Xv6.Filewrite
namespace Logging

open Calls Function

/-- `BSIZE * 8` -/
def BPB : Nat := BSIZE * 8

/-- What the functions read of the super block, and `IBLOCK` of the inode. -/
structure Layout where
  size : Nat
  bmapstart : Nat
  iblock : Nat

structure State where
  /-- The bits of the bitmap. -/
  used : Nat → Bool
  /-- `ip->addrs`, `ip->size`, and the words of the indirect block. -/
  addrs : Nat → Nat
  size : Nat
  a : Nat → Nat
  /-- The block numbers passed to `log_write` since `begin_op`. -/
  log : List Nat
  /-- The same, for the transactions that have ended. -/
  done : List (List Nat)

/-- The calls of `panic`. -/
inductive Panic
  | outOfBlocks
  | outOfRange
  | shortFilewrite
  deriving DecidableEq, Repr

abbrev Sys := Calls.Call State Panic

def logWrite (b : Nat) : Sys Unit := modify fun s => { s with log := b :: s.log }

variable (sb : Layout)

def BBLOCK (b : Nat) : Nat := b / BPB + sb.bmapstart

/-- The first free block is marked, and `bzero` clears it. -/
def balloc : Sys Nat := do
  let s ← get
  match (List.range sb.size).find? fun b => s.used b = false with
  | some b => do
    modify fun s => { s with used := update s.used b true }
    logWrite (BBLOCK sb b)
    logWrite b
    pure b
  | none => throw .outOfBlocks

/-- `bmap` gives the file an indirect block if it has none. -/
def allocIndirect : Sys Unit := do
  let s ← get
  if s.addrs NDIRECT = 0 then do
    let addr ← balloc sb
    modify fun s => { s with addrs := update s.addrs NDIRECT addr, a := fun _ => 0 }
  else pure ()

/-- The rest of `bmap`, for the word `k` of the indirect block. -/
def bmapIndirect (k : Nat) : Sys Nat := do
  let s ← get
  if s.a k = 0 then do
    let addr ← balloc sb
    modify fun s => { s with a := update s.a k addr }
    logWrite (s.addrs NDIRECT)
    pure addr
  else pure (s.a k)

def bmap (bn : Nat) : Sys Nat := do
  let s ← get
  if bn < NDIRECT then
    if s.addrs bn = 0 then do
      let addr ← balloc sb
      modify fun s => { s with addrs := update s.addrs bn addr }
      pure addr
    else pure (s.addrs bn)
  else if bn - NDIRECT < NINDIRECT then do
    allocIndirect sb
    bmapIndirect sb (bn - NDIRECT)
  else throw .outOfRange

/-- The loop of `writei`, with `n` bytes left; the result is the last value of `off`. -/
def writeLoop (off n : Nat) : Sys Nat :=
  if 0 < n then do
    let addr ← bmap sb (off / BSIZE)
    logWrite addr
    let m := min n (BSIZE - off % BSIZE)
    writeLoop (off + m) (n - m)
  else pure off
termination_by n
decreasing_by
  have : off % BSIZE < BSIZE := Nat.mod_lt _ (by decide)
  omega

def writei (off n : Nat) : Sys Int := do
  let s ← get
  if s.size < off ∨ (off + n) % 2 ^ 32 < off then pure (-1)
  else if MAXFILE * BSIZE < (off + n) % 2 ^ 32 then pure (-1)
  else do
    let off ← writeLoop sb off n
    if 0 < n ∧ s.size < off then do
      modify fun s => { s with size := off }
      -- `iupdate`
      logWrite sb.iblock
    else pure ()
    pure n

def beginOp : Sys Unit := modify fun s => { s with log := [] }

def endOp : Sys Unit := modify fun s => { s with done := s.log :: s.done }

/-- The loop of `filewrite`, with `n` bytes left, from the offset `off` on; it breaks with
`false`. -/
def filewriteLoop (off n : Nat) : Sys Bool :=
  if 0 < n then do
    let n1 := if n > maxChunk then maxChunk else n
    beginOp
    let r ← writei sb off n1
    endOp
    if r < 0 then pure false
    else if r ≠ n1 then throw .shortFilewrite
    else filewriteLoop (off + n1) (n - n1)
  else pure true
termination_by n
decreasing_by
  have : 0 < maxChunk := by decide
  split <;> omega

/-- The result of `filewrite` for `n` bytes, at `f->off = off`. -/
def filewrite (off : Nat) (n : Int) : Sys Int := do
  let all ← filewriteLoop sb off n.toNat
  pure (if all ∧ 0 ≤ n then n else -1)

/-! ## Budgets -/

/-- The block `bn` of the file is there. -/
def Mapped (s : State) (bn : Nat) : Prop :=
  if bn < NDIRECT then s.addrs bn ≠ 0
  else s.addrs NDIRECT ≠ 0 ∧ s.a (bn - NDIRECT) ≠ 0

/-- The boot block is in use, and the file has all blocks below its size. -/
structure Sound (s : State) : Prop where
  boot : s.used 0 = true
  mapped : ∀ bn, bn * BSIZE < s.size → Mapped s bn

/-- What has been written are `d` data blocks at most, the indirect block, and `b` blocks of the
bitmap at most, of which one is put aside until the file has an indirect block. -/
def Budget (d b : Nat) (s : State) : Prop :=
  ∃ D B : Finset Nat, (∀ x ∈ s.log, x ∈ D ∨ x ∈ B ∨ s.addrs NDIRECT ≠ 0 ∧ x = s.addrs NDIRECT) ∧
    D.card ≤ d ∧ B.card + (if s.addrs NDIRECT = 0 then 1 else 0) ≤ b

variable {sb} {s t : State} {d b d' b' bn off n : Nat} {E : Panic → Prop}

theorem Budget.mono (h : Budget d b s) (hd : d ≤ d') (hb : b ≤ b') : Budget d' b' s := by
  obtain ⟨D, B, hlog, hD, hB⟩ := h
  exact ⟨D, B, hlog, hD.trans hd, hB.trans hb⟩

/-- A data block is written, and a block of the bitmap with it if it is new. -/
theorem Budget.add (h : Budget d b s) {p q : Nat} {new : Bool}
    (haddrs : t.addrs NDIRECT = s.addrs NDIRECT)
    (hlog : ∀ x ∈ t.log, x ∈ s.log ∨ x = p ∨ new = true ∧ x = q ∨
      t.addrs NDIRECT ≠ 0 ∧ x = t.addrs NDIRECT) : Budget (d + 1) (b + new.toNat) t := by
  obtain ⟨D, B, hin, hD, hB⟩ := h
  refine ⟨insert p D, if new then insert q B else B, fun x hx => ?_,
    (Finset.card_insert_le _ _).trans (by omega), ?_⟩
  · rw [haddrs] at hlog ⊢
    rcases hlog x hx with h | rfl | ⟨hnew, rfl⟩ | h
    · rcases hin x h with h | h | h
      · exact .inl (Finset.mem_insert_of_mem h)
      · refine .inr (.inl ?_)
        split
        · exact Finset.mem_insert_of_mem h
        · exact h
      · exact .inr (.inr h)
    · exact .inl (Finset.mem_insert_self _ _)
    · rw [if_pos hnew]
      exact .inr (.inl (Finset.mem_insert_self _ _))
    · exact .inr (.inr h)
  · rw [haddrs]
    cases new with
    | false => exact hB
    | true =>
      have := Finset.card_insert_le q B
      simp only [if_true, Bool.toNat_true]
      omega

/-- The file gets an indirect block. -/
theorem Budget.indirect (h : Budget d b s) (hno : s.addrs NDIRECT = 0) (hyes : t.addrs NDIRECT ≠ 0)
    {q : Nat} (hlog : ∀ x ∈ t.log, x ∈ s.log ∨ x = q ∨ x = t.addrs NDIRECT) : Budget d b t := by
  obtain ⟨D, B, hin, hD, hB⟩ := h
  refine ⟨D, insert q B, fun x hx => ?_, hD, ?_⟩
  · rcases hlog x hx with h | rfl | h
    · rcases hin x h with h | h | h
      · exact .inl h
      · exact .inr (.inl (Finset.mem_insert_of_mem h))
      · exact absurd hno h.1
    · exact .inr (.inl (Finset.mem_insert_self _ _))
    · exact .inr (.inr ⟨hyes, h⟩)
  · rw [if_pos hno] at hB
    rw [if_neg hyes]
    exact (Finset.card_insert_le _ _).trans hB

/-- All that has been written, with one block more. -/
theorem Budget.card_le (h : Budget d b s) (x : Nat) : (x :: s.log).toFinset.card ≤ d + b + 2 := by
  obtain ⟨D, B, hin, hD, hB⟩ := h
  have hsub : (x :: s.log).toFinset ⊆ insert x (insert (s.addrs NDIRECT) (D ∪ B)) := by
    intro y hy
    rw [List.toFinset_cons, Finset.mem_insert, List.mem_toFinset] at hy
    rcases hy with rfl | hy
    · exact Finset.mem_insert_self _ _
    · rcases hin y hy with h | h | ⟨-, rfl⟩ <;> simp [*]
  have h1 := Finset.card_le_card hsub
  have h2 := Finset.card_insert_le x (insert (s.addrs NDIRECT) (D ∪ B))
  have h3 := Finset.card_insert_le (s.addrs NDIRECT) (D ∪ B)
  have h4 := Finset.card_union_le D B
  omega

/-! ## The calls -/

section

variable (hE : E .outOfBlocks)

include hE

theorem ends_balloc (h0 : s.used 0 = true) : Ends (balloc sb) s E fun x t => x ≠ 0 ∧ t = { s with
      used := update s.used x true, log := x :: BBLOCK sb x :: s.log } := by
  simp only [balloc, logWrite, ends_bind, ends_get]
  split
  · rename_i x hx
    have hfree := List.find?_some hx
    refine ⟨?_, rfl⟩
    rintro rfl
    simp [h0] at hfree
  · exact hE

/-- What `bmap` leaves. -/
structure Touched (s t : State) : Prop where
  boot : t.used 0 = true
  size : t.size = s.size
  done : t.done = s.done
  mapped : ∀ k, Mapped s k → Mapped t k

omit hE in
theorem Touched.trans {u : State} (h : Touched s t) (h' : Touched t u) : Touched s u :=
  ⟨h'.boot, h'.size.trans h.size, h'.done.trans h.done, fun k hk => h'.mapped k (h.mapped k hk)⟩

omit hE in
theorem Touched.of_alloc (h0 : s.used 0 = true) {x : Nat} (hused : t.used = update s.used x true)
    (hsize : t.size = s.size) (hdone : t.done = s.done)
    (haddrs : ∀ j, s.addrs j ≠ 0 → t.addrs j ≠ 0)
    (ha : s.addrs NDIRECT ≠ 0 → ∀ j, s.a j ≠ 0 → t.a j ≠ 0) : Touched s t := by
  refine ⟨by rw [hused, update_apply, h0, ite_self], hsize, hdone, fun k hk => ?_⟩
  by_cases hd : k < NDIRECT <;> simp only [Mapped, hd, if_true, if_false] at hk ⊢
  · exact haddrs k hk
  · exact ⟨haddrs _ hk.1, ha hk.1 _ hk.2⟩

omit hE in
theorem update_ne_zero {f : Nat → Nat} {i x j : Nat} (hx : x ≠ 0) (hf : f j ≠ 0) :
    update f i x j ≠ 0 := by
  rw [update_apply]
  split
  · exact hx
  · exact hf

omit hE in
theorem update_self_ne {f : Nat → Nat} {i x : Nat} (hx : x ≠ 0) : update f i x i ≠ 0 := by
  rwa [update_self]

section

variable (h0 : s.used 0 = true) (hb : Budget d b s)

include h0 hb

theorem ends_allocIndirect :
    Ends (allocIndirect sb) s E fun _ t => Touched s t ∧ Budget d b t ∧ t.addrs NDIRECT ≠ 0 ∧
      (s.addrs NDIRECT ≠ 0 → t = s) := by
  unfold allocIndirect
  rw [ends_bind, ends_get]
  split
  · rename_i hz
    refine (ends_balloc hE h0).bind ?_
    rintro x t ⟨hx, rfl⟩
    have hnew : update s.addrs NDIRECT x NDIRECT ≠ 0 := update_self_ne hx
    refine ⟨.of_alloc h0 rfl rfl rfl (fun j => update_ne_zero hx) fun h => absurd hz h,
      hb.indirect (q := BBLOCK sb x) hz hnew fun y hy => ?_, hnew, fun h => absurd hz h⟩
    simp only [List.mem_cons, update_self] at hy ⊢
    tauto
  · rename_i hz
    exact ⟨⟨h0, rfl, rfl, fun _ => id⟩, hb, hz, fun _ => rfl⟩

theorem ends_bmapIndirect (hind : s.addrs NDIRECT ≠ 0) (k : Nat) :
    Ends (bmapIndirect sb k) s E fun x t => Touched s t ∧ t.addrs NDIRECT ≠ 0 ∧ t.a k ≠ 0 ∧
      ∃ new : Bool, (s.a k ≠ 0 → new = false) ∧
        Budget (d + 1) (b + new.toNat) { t with log := x :: t.log } := by
  unfold bmapIndirect
  rw [ends_bind, ends_get]
  split
  · rename_i hz
    refine (ends_balloc hE h0).bind ?_
    rintro x t ⟨hx, rfl⟩
    refine ⟨.of_alloc h0 rfl rfl rfl (fun _ => id) fun _ j => update_ne_zero hx, hind,
      update_self_ne hx, true, fun h => absurd hz h,
      hb.add (p := x) (q := BBLOCK sb x) rfl fun y hy => ?_⟩
    simp only [List.mem_cons] at hy ⊢
    tauto
  · rename_i hz
    refine ⟨⟨h0, rfl, rfl, fun _ => id⟩, hind, hz, false, fun _ => rfl,
      hb.add (p := s.a k) (q := 0) rfl fun y hy => ?_⟩
    exact (List.mem_cons.1 hy).elim (.inr ∘ .inl) .inl

/-- `bmap`, with the `log_write` that follows it. -/
theorem ends_bmap (hbn : bn < MAXFILE) :
    Ends (bmap sb bn) s E fun x t => Touched s t ∧ Mapped t bn ∧
      ∃ new : Bool, (Mapped s bn → new = false) ∧
        Budget (d + 1) (b + new.toNat) { t with log := x :: t.log } := by
  unfold bmap Mapped
  rw [ends_bind, ends_get]
  split
  · rename_i hdir
    have hne : bn ≠ NDIRECT := by omega
    split
    · rename_i hz
      refine (ends_balloc hE h0).bind ?_
      rintro x t ⟨hx, rfl⟩
      refine ⟨.of_alloc h0 rfl rfl rfl (fun j => update_ne_zero hx) fun _ _ => id,
        update_self_ne hx, true, fun h => absurd hz h,
        hb.add (p := x) (q := BBLOCK sb x) (update_of_ne hne.symm _ _) fun y hy => ?_⟩
      simp only [List.mem_cons] at hy ⊢
      tauto
    · rename_i hz
      refine ⟨⟨h0, rfl, rfl, fun _ => id⟩, hz, false, fun _ => rfl,
        hb.add (p := s.addrs bn) (q := 0) rfl fun y hy => ?_⟩
      exact (List.mem_cons.1 hy).elim (.inr ∘ .inl) .inl
  · rw [if_pos (by unfold MAXFILE at hbn; omega)]
    refine (ends_allocIndirect hE h0 hb).bind ?_
    rintro - t ⟨ht, hbt, hind, hsame⟩
    refine (ends_bmapIndirect hE ht.boot hbt hind _).post ?_
    rintro x u ⟨hu, hmap, hword, new, hnew, hbu⟩
    refine ⟨ht.trans hu, ⟨hmap, hword⟩, new, fun hm => hnew ?_, hbu⟩
    rw [hsame hm.1]
    exact hm.2

end

/-- What the loop of `writei` leaves. -/
structure Wrote (off n d b : Nat) (s : State) (r : Nat) (t : State) : Prop where
  result : r = off + n
  touched : Touched s t
  mapped : ∀ x, off ≤ x → x < off + n → Mapped t (x / BSIZE)
  budget : Budget d b t

/-- A turn of the loop. -/
theorem ends_writeLoop (hn : 0 < n) (hmax : off + n ≤ MAXFILE * BSIZE) (h0 : s.used 0 = true)
    (hb : Budget d b s) (hrest : ∀ t new m, m = min n (512 - off % 512) → t.used 0 = true →
      (Mapped s (off / BSIZE) → new = false) → Budget (d + 1) (b + new.toNat) t →
      Ends (writeLoop sb (off + m) (n - m)) t E (Wrote (off + m) (n - m) d' b' t)) :
    Ends (writeLoop sb off n) s E (Wrote off n d' b' s) := by
  have hbn : off / BSIZE < MAXFILE := Nat.div_lt_of_lt_mul (by rw [Nat.mul_comm]; omega)
  rw [writeLoop, if_pos hn]
  refine (ends_bmap hE h0 hb hbn).bind ?_
  rintro x t ⟨ht, hmap, new, hnew, hbt⟩
  refine (hrest { t with log := x :: t.log } new _ rfl ht.boot hnew hbt).post ?_
  rintro r u ⟨hr, hu, hrange, hbu⟩
  have ht' : Touched t { t with log := x :: t.log } := ⟨ht.boot, rfl, rfl, fun _ => id⟩
  refine ⟨by omega, (ht.trans ht').trans hu, fun y h1 h2 => ?_, hbu⟩
  by_cases hy : y < off + min n (512 - off % 512)
  · rw [show y / BSIZE = off / BSIZE by unfold BSIZE; omega]
    exact hu.mapped _ hmap
  · exact hrange y (by omega) (by omega)

/-- The loop from the start of a block on. -/
theorem ends_writeLoop_aligned (k : Nat) (hn : n ≤ k * 512) (hoff : off % 512 = 0 ∨ n = 0)
    (hmax : off + n ≤ MAXFILE * BSIZE) (h0 : s.used 0 = true) (hb : Budget d b s) :
    Ends (writeLoop sb off n) s E (Wrote off n (d + k) (b + k) s) := by
  induction k generalizing off n d b s with
  | zero =>
    obtain rfl : n = 0 := by omega
    rw [writeLoop, if_neg (Nat.lt_irrefl 0)]
    exact ⟨rfl, ⟨h0, rfl, rfl, fun _ => id⟩, fun x h1 h2 => by omega, hb⟩
  | succ k ih =>
    rcases Nat.eq_zero_or_pos n with rfl | hpos
    · rw [writeLoop, if_neg (Nat.lt_irrefl 0)]
      exact ⟨rfl, ⟨h0, rfl, rfl, fun _ => id⟩, fun x h1 h2 => by omega,
        hb.mono (by omega) (by omega)⟩
    rw [show d + (k + 1) = d + 1 + k by omega, show b + (k + 1) = b + 1 + k by omega]
    refine ends_writeLoop hE hpos hmax h0 hb fun t new m hm ht _ hbt => ?_
    have hle := new.toNat_le
    exact ih (by omega) (by omega) (by omega) ht (hbt.mono (Nat.le_refl _) (by omega))

/-- A chunk of `filewrite`: a first block that is not full is there, so that three blocks at most
are new. -/
theorem ends_writeLoop_chunk (hn : n ≤ maxChunk) (hmax : off + n ≤ MAXFILE * BSIZE)
    (hs : Sound s) (hoff : off ≤ s.size) (hlog : s.log = []) :
    Ends (writeLoop sb off n) s E (Wrote off n 4 4 s) := by
  have hchunk : maxChunk = 1536 := rfl
  have hstart : Budget 0 1 s := ⟨∅, ∅, by simp [hlog], by simp, by simp; split <;> decide⟩
  by_cases hal : off % 512 = 0 ∨ n = 0
  · refine (ends_writeLoop_aligned hE 3 (by omega) hal hmax hs.boot hstart).post ?_
    rintro r t ⟨hr, ht, hm, hb⟩
    exact ⟨hr, ht, hm, hb.mono (by omega) (by omega)⟩
  · have hthere : Mapped s (off / BSIZE) := hs.mapped _ (by unfold BSIZE; omega)
    refine ends_writeLoop hE (by omega) hmax hs.boot hstart fun t new m hm ht hnew hbt => ?_
    rw [hnew hthere] at hbt
    exact ends_writeLoop_aligned hE 3 (by omega) (by omega) (by omega) ht hbt

/-- One transaction. -/
theorem ends_writei (hn : n ≤ maxChunk) (hs : Sound s) (hoff : off < 2 ^ 32) (hlog : s.log = []) :
    Ends (writei sb off n) s E fun r t => Sound t ∧ t.done = s.done ∧
      t.log.toFinset.card ≤ MAXOPBLOCKS ∧ (r = -1 ∨ r = n ∧ off + n < 2 ^ 32) := by
  have hchunk : maxChunk = 1536 := rfl
  have hmax : MAXFILE * BSIZE = 71680 := rfl
  unfold writei
  rw [ends_bind, ends_get]
  split
  · exact ⟨hs, rfl, by simp [hlog], .inl rfl⟩
  split
  · exact ⟨hs, rfl, by simp [hlog], .inl rfl⟩
  rename_i hin hfits
  refine (ends_writeLoop_chunk hE hn (by omega) hs (by omega) hlog).bind ?_
  rintro r t ⟨rfl, ht, hmap, hb⟩
  have hcard : (sb.iblock :: t.log).toFinset.card ≤ MAXOPBLOCKS := hb.card_le _
  have hbelow : ∀ bn, bn * BSIZE < max s.size (off + n) → Mapped t bn := by
    intro bn hbn
    by_cases hold : bn * BSIZE < s.size
    · exact ht.mapped bn (hs.mapped bn hold)
    · rw [← Nat.mul_div_cancel bn (show 0 < BSIZE by decide)]
      exact hmap _ (by omega) (by omega)
  split
  · exact ⟨⟨ht.boot, fun bn hbn => hbelow bn (lt_max_of_lt_right hbn)⟩, ht.done, hcard,
      .inr ⟨rfl, by omega⟩⟩
  · refine ⟨⟨ht.boot, fun bn hbn => hbelow bn ?_⟩, ht.done, ?_, .inr ⟨rfl, by omega⟩⟩
    · rw [ht.size] at hbn
      exact lt_max_of_lt_left hbn
    · exact (Finset.card_le_card (by simp)).trans hcard

end

/-- The transactions that have ended fit into the log. -/
def Fits (s : State) : Prop := ∀ log ∈ s.done, log.toFinset.card ≤ MAXOPBLOCKS

theorem ends_filewriteLoop (hs : Sound s) (hfits : Fits s) (hoff : off < 2 ^ 32) :
    Ends (filewriteLoop sb off n) s (fun e => e = .outOfBlocks) fun _ t => Fits t := by
  induction n using Nat.strong_induction_on generalizing off s with
  | _ n ih =>
    rw [filewriteLoop]
    split
    · rename_i hn
      rw [ends_bind, beginOp, ends_modify]
      generalize hn1 : (if n > maxChunk then maxChunk else n) = n1
      have hle : n1 ≤ maxChunk ∧ 0 < n1 := by
        have : 0 < maxChunk := by decide
        split at hn1 <;> omega
      refine (ends_writei (E := fun e => e = .outOfBlocks) rfl hle.1
        (s := { s with log := [] }) ⟨hs.boot, hs.mapped⟩ hoff rfl).bind ?_
      rintro r t ⟨ht, hdone, hcard, hr⟩
      have hfits' : Fits { t with done := t.log :: t.done } := by
        intro log hlog
        rcases List.mem_cons.1 hlog with rfl | hlog
        · exact hcard
        · exact hfits log (hdone ▸ hlog)
      rw [ends_bind, endOp, ends_modify]
      rcases hr with rfl | ⟨rfl, hsum⟩
      · exact hfits'
      · rw [if_neg (by omega), if_neg (not_not.2 rfl)]
        exact ih (n - n1) (by omega) ⟨ht.boot, ht.mapped⟩ hfits' hsum
    · exact hfits

/-- **Every transaction of `filewrite` fits into the log.** -/
theorem filewrite_logs (off : Nat) (n : Int) (hoff : off < 2 ^ 32) (hs : Sound s)
    (hdone : s.done = []) : Ends (filewrite sb off n) s (fun e => e = .outOfBlocks) fun _ t =>
      ∀ log ∈ t.done, log.toFinset.card ≤ MAXOPBLOCKS :=
  (ends_filewriteLoop hs (by simp [Fits, hdone]) hoff).bind fun _ _ ht => ht

/-- An empty file on a disk whose first free block is 60. -/
def newFile : State where
  used := fun b => b < 60
  addrs := fun _ => 0
  size := 0
  a := fun _ => 0
  log := []
  done := []

theorem filewrite_logs_new :
    Ends (filewrite ⟨100, 58, 32⟩ 0 2000) newFile (fun e => e = .outOfBlocks) fun _ t =>
      ∀ log ∈ t.done, log.toFinset.card ≤ MAXOPBLOCKS :=
  filewrite_logs 0 2000 (by decide) ⟨rfl, fun _ h => absurd h (Nat.not_lt_zero _)⟩ rfl

end Logging
end Xv6.Filewrite
