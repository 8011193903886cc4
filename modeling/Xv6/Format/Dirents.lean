import Mathlib.Algebra.Order.Group.Nat
import Mathlib.Data.List.GetD
import Mathlib.Tactic.Common

/-! The format of a directory (`fs.h`): `struct dirent`, names of at most `DIRSIZ` characters
as `strncmp` and `strncpy` (`string.c`) treat them, and the scan of `dirlookup` (`fs.c`) over
whatever `readi` returns. Two names are equal exactly if `strncpy` makes the same 14 bytes
of them. -/

namespace Xv6.Format

/-- The number of blocks of the file system (`param.h`). -/
def FSSIZE : Nat := 1000
def BSIZE : Nat := 512
def NDIRECT : Nat := 12
def NINDIRECT : Nat := BSIZE / 4
def MAXFILE : Nat := NDIRECT + NINDIRECT
def DIRSIZ : Nat := 14

abbrev Byte := BitVec 8

/-! ## Names -/

/-- The characters from a pointer on. -/
abbrev Chars := Nat → Byte

def Chars.next (p : Chars) : Chars := fun i => p (i + 1)

/-- A string constant. -/
def Chars.lit (l : List Byte) : Chars := fun i => l.getD i 0

def strncmp : Nat → Chars → Chars → Int
  | 0, _, _ => 0
  | n + 1, p, q =>
    if p 0 ≠ 0 ∧ p 0 = q 0 then strncmp n p.next q.next
    else (p 0).toNat - (q 0).toNat

/-- The `n` characters that `strncpy` stores. -/
def strncpy : Nat → Chars → List Byte
  | 0, _ => []
  | n + 1, t => if t 0 = 0 then List.replicate (n + 1) 0 else t 0 :: strncpy n t.next

def namecmp (s t : Chars) : Int := strncmp DIRSIZ s t

/-- The name as it is stored in a `struct dirent`. -/
def key (name : Chars) : List Byte := strncpy DIRSIZ name

theorem strncpy_length (n : Nat) (t : Chars) : (strncpy n t).length = n := by
  induction n generalizing t with
  | zero => rfl
  | succ n ih =>
    simp only [strncpy]
    split
    · simp
    · simp [ih]

theorem strncpy_head (n : Nat) (t : Chars) : (strncpy (n + 1) t).head? = some (t 0) := by
  simp only [strncpy]
  split
  · rename_i h0
    simp [List.replicate_succ, h0]
  · simp

/-- **Names that compare as equal are stored as the same bytes**, and no others. -/
theorem strncmp_eq_zero_iff (n : Nat) (p q : Chars) :
    strncmp n p q = 0 ↔ strncpy n p = strncpy n q := by
  induction n generalizing p q with
  | zero => simp [strncmp, strncpy]
  | succ n ih =>
    by_cases heq : p 0 = q 0
    · by_cases h0 : p 0 = 0
      · have hq : q 0 = 0 := heq ▸ h0
        simp [strncmp, strncpy, h0, hq]
      · have hq : q 0 ≠ 0 := heq ▸ h0
        rw [strncmp, if_pos ⟨h0, heq⟩, ih, strncpy, if_neg h0, strncpy, if_neg hq, heq]
        simp
    · -- the first character differs, also where one of the strings ends
      have hne : ((p 0).toNat : Int) ≠ (q 0).toNat := by
        intro e
        exact heq (BitVec.eq_of_toNat_eq (by omega))
      rw [strncmp, if_neg fun h => heq h.2]
      refine iff_of_false (by omega) fun e => heq ?_
      have hsome := congrArg List.head? e
      rw [strncpy_head, strncpy_head] at hsome
      exact Option.some.inj hsome

theorem namecmp_eq_zero_iff (s t : Chars) : namecmp s t = 0 ↔ key s = key t :=
  strncmp_eq_zero_iff DIRSIZ s t

theorem key_length (name : Chars) : (key name).length = DIRSIZ := strncpy_length DIRSIZ name

/-- Equal names agree in their first two characters. -/
theorem key_first {p q : Chars} (h : key p = key q) : p 0 = q 0 := by
  have hsome := congrArg List.head? h
  rw [key, key, DIRSIZ, strncpy_head, strncpy_head] at hsome
  exact Option.some.inj hsome

theorem key_second {p q : Chars} (h : key p = key q) (h0 : p 0 ≠ 0) : p 1 = q 1 := by
  have hq : q 0 ≠ 0 := key_first h ▸ h0
  have hcons : ∀ t : Chars, t 0 ≠ 0 → key t = t 0 :: strncpy 13 t.next := fun t ht => if_neg ht
  rw [hcons p h0, hcons q hq] at h
  have hsome := congrArg List.head? (List.cons.inj h).2
  rw [strncpy_head, strncpy_head] at hsome
  exact Option.some.inj hsome

/-- Only the characters that are stored count. -/
theorem strncpy_lit (n : Nat) (t : Chars) : strncpy n (Chars.lit (strncpy n t)) = strncpy n t := by
  induction n generalizing t with
  | zero => rfl
  | succ n ih =>
    by_cases h0 : t 0 = 0
    · have hlit : Chars.lit (strncpy (n + 1) t) 0 = 0 := by
        simp [Chars.lit, strncpy, h0, List.replicate_succ]
      rw [strncpy, if_pos hlit, strncpy, if_pos h0]
    · have hcons : strncpy (n + 1) t = t 0 :: strncpy n t.next := by rw [strncpy, if_neg h0]
      have hlit : Chars.lit (strncpy (n + 1) t) 0 = t 0 := by rw [hcons]; rfl
      have hnext : (Chars.lit (strncpy (n + 1) t)).next = Chars.lit (strncpy n t.next) := by
        rw [hcons]
        rfl
      rw [strncpy, if_neg (by rw [hlit]; exact h0), hlit, hnext, ih, hcons]

/-! ## Entries -/

/-- `sizeof(struct dirent)` -/
def direntSize : Nat := 2 + DIRSIZ

/-- `de.inum` of the bytes of a `struct dirent`: the low byte is the first. -/
def inumOf (de : List Byte) : Nat := (de.getD 0 0).toNat + 256 * (de.getD 1 0).toNat

/-- `de.name` -/
def nameOf (de : List Byte) : Chars := fun i => de.getD (2 + i) 0

/-- A `struct dirent` with the number `inum`, which is stored as a `ushort`. -/
def direntBytes (inum : Nat) (name : List Byte) : List Byte :=
  BitVec.ofNat 8 inum :: BitVec.ofNat 8 (inum / 256) :: name

theorem direntBytes_length (inum : Nat) (name : Chars) :
    (direntBytes inum (key name)).length = direntSize := by
  rw [direntBytes, List.length_cons, List.length_cons, key_length]
  rfl

theorem inumOf_direntBytes (inum : Nat) (name : List Byte) :
    inumOf (direntBytes inum name) = inum % 2 ^ 16 := by
  simp only [inumOf, direntBytes, List.getD_cons_zero, List.getD_cons_succ, BitVec.toNat_ofNat]
  omega

theorem nameOf_direntBytes (inum : Nat) (name : List Byte) :
    nameOf (direntBytes inum name) = Chars.lit name := by
  funext i
  rw [nameOf, direntBytes, Nat.add_comm]
  rfl

theorem key_direntBytes (inum : Nat) (name : Chars) :
    key (nameOf (direntBytes inum (key name))) = key name := by
  rw [nameOf_direntBytes]
  exact strncpy_lit DIRSIZ name

/-- The calls of `panic`. -/
inductive Panic
  | dirlookupRead
  | dirlinkRead
  | dirlink
  | unlinkWritei
  | outOfBlocks
  deriving DecidableEq, Repr

/-- The loop of `dirlookup` from `off` on; the offset and the number of the entry. `readi off n`
are the bytes that it copies, none when it returns -1. -/
def dirlookupLoop (readi : Nat → Nat → Option (List Byte)) (size : Nat) (name : Chars) :
    Nat → Nat → Except Panic (Option (Nat × Nat))
  | 0, _ => .ok none
  | k + 1, off =>
    if off < size then
      match readi off direntSize with
      | none => .error .dirlookupRead
      | some de =>
        if de.length ≠ direntSize then .error .dirlookupRead
        else if inumOf de = 0 then dirlookupLoop readi size name k (off + direntSize)
        else if namecmp name (nameOf de) = 0 then .ok (some (off, inumOf de))
        else dirlookupLoop readi size name k (off + direntSize)
    else .ok none

/-- Every turn advances `off`, so there are at most `size` turns. -/
def dirlookup (readi : Nat → Nat → Option (List Byte)) (size : Nat) (name : Chars) :
    Except Panic (Option (Nat × Nat)) :=
  dirlookupLoop readi size name (size + 1) 0

/-! ## What the scan finds -/

section Scan

variable {readi : Nat → Nat → Option (List Byte)} {size N : Nat} {de : Nat → List Byte}

/-- The entry in slot `i` is the one that is looked for. -/
def Matches (de : Nat → List Byte) (name : Chars) (i : Nat) : Prop :=
  inumOf (de i) ≠ 0 ∧ key (nameOf (de i)) = key name

section

variable (name : Chars) (hsize : size = N * direntSize)
  (hread : ∀ i < N, readi (i * direntSize) direntSize = some (de i))
  (hlen : ∀ i < N, (de i).length = direntSize)

include name hsize hread hlen

/-- The scan from slot `i` on, where `readi` returns the entries `de`. -/
theorem dirlookupLoop_spec (k i : Nat) (hk : N < i + k) :
    (∃ j, i ≤ j ∧ j < N ∧ Matches de name j ∧ dirlookupLoop readi size name k (i * direntSize) =
        .ok (some (j * direntSize, inumOf (de j)))) ∨ (∀ j, i ≤ j → j < N → ¬ Matches de name j) ∧
      dirlookupLoop readi size name k (i * direntSize) = .ok none := by
  induction k generalizing i with
  | zero => exact .inr ⟨fun j h1 h2 => absurd h2 (by omega), rfl⟩
  | succ k ih =>
    by_cases hi : i < N
    · have hlt : i * direntSize < size := by
        rw [hsize]
        exact Nat.mul_lt_mul_of_pos_right hi (by decide)
      have hnext : i * direntSize + direntSize = (i + 1) * direntSize := by rw [Nat.succ_mul]
      -- what the rest of the scan finds, if slot `i` does not match
      have hrest : ¬ Matches de name i →
          dirlookupLoop readi size name (k + 1) (i * direntSize) =
            dirlookupLoop readi size name k ((i + 1) * direntSize) →
          (∃ j, i ≤ j ∧ j < N ∧ Matches de name j ∧
            dirlookupLoop readi size name (k + 1) (i * direntSize) =
              .ok (some (j * direntSize, inumOf (de j)))) ∨
          (∀ j, i ≤ j → j < N → ¬ Matches de name j) ∧
            dirlookupLoop readi size name (k + 1) (i * direntSize) = .ok none := by
        intro hno hstep
        rw [hstep]
        rcases ih (i + 1) (by omega) with ⟨j, h1, h2, hmatch, hres⟩ | ⟨hnone, hres⟩
        · exact .inl ⟨j, by omega, h2, hmatch, hres⟩
        · refine .inr ⟨fun j h1 h2 => ?_, hres⟩
          rcases Nat.eq_or_lt_of_le h1 with rfl | h1
          · exact hno
          · exact hnone j h1 h2
      have hstep : dirlookupLoop readi size name (k + 1) (i * direntSize) =
          if inumOf (de i) = 0 then dirlookupLoop readi size name k ((i + 1) * direntSize)
          else if namecmp name (nameOf (de i)) = 0 then
            .ok (some (i * direntSize, inumOf (de i)))
          else dirlookupLoop readi size name k ((i + 1) * direntSize) := by
        simp only [dirlookupLoop, hread i hi, if_pos hlt, hlen i hi, ne_eq, not_true_eq_false,
          if_false, hnext]
      by_cases h0 : inumOf (de i) = 0
      · exact hrest (fun hm => hm.1 h0) (by rw [hstep, if_pos h0])
      · by_cases hname : namecmp name (nameOf (de i)) = 0
        · refine .inl ⟨i, le_rfl, hi, ⟨h0, ?_⟩, by rw [hstep, if_neg h0, if_pos hname]⟩
          exact ((namecmp_eq_zero_iff _ _).1 hname).symm
        · refine hrest (fun hm => hname ?_) (by rw [hstep, if_neg h0, if_neg hname])
          exact (namecmp_eq_zero_iff _ _).2 hm.2.symm
    · refine .inr ⟨fun j h1 h2 => absurd h2 (by omega), ?_⟩
      have hge : ¬ i * direntSize < size := by
        rw [hsize, not_lt]
        exact Nat.mul_le_mul_right _ (by omega)
      simp only [dirlookupLoop, if_neg hge]

/-- **`dirlookup`** finds the first entry with the name that is in use. -/
theorem dirlookup_spec : (∃ j < N, Matches de name j ∧
      dirlookup readi size name = .ok (some (j * direntSize, inumOf (de j)))) ∨
    (∀ j < N, ¬ Matches de name j) ∧ dirlookup readi size name = .ok none := by
  have hfuel : N < 0 + (size + 1) := by
    have : N ≤ N * direntSize := Nat.le_mul_of_pos_right N (by decide)
    omega
  rcases dirlookupLoop_spec name hsize hread hlen (size + 1) 0 hfuel with
    ⟨j, _, h2, hmatch, hres⟩ | ⟨hnone, hres⟩
  · rw [Nat.zero_mul] at hres
    exact .inl ⟨j, h2, hmatch, hres⟩
  · rw [Nat.zero_mul] at hres
    exact .inr ⟨fun j => hnone j (Nat.zero_le j), hres⟩

end

/-- What a scan finds, it finds also in a longer directory. -/
theorem dirlookupLoop_mono {size' k k' : Nat} {name : Chars} (hsize : size' ≤ size) (hk : k ≤ k')
    (off : Nat) {r : Nat × Nat} (h : dirlookupLoop readi size' name k off = .ok (some r)) :
    dirlookupLoop readi size name k' off = .ok (some r) := by
  induction k generalizing k' off with
  | zero => simp [dirlookupLoop] at h
  | succ k ih =>
    obtain ⟨k', rfl⟩ : ∃ l, k' = l + 1 := ⟨k' - 1, by omega⟩
    have hrest := fun off => @ih k' (by omega) off
    rw [dirlookupLoop] at h ⊢
    split at h
    swap
    · cases h
    rename_i hoff
    rw [if_pos (by omega)]
    split at h
    · cases h
    split_ifs at h ⊢
    · exact hrest _ h
    · exact h
    · exact hrest _ h

/-- `dirlookup` finds the first entry with the name, whatever is behind it. -/
theorem dirlookup_first {name : Chars} {j : Nat} (hsize : j * direntSize < size)
    (haligned : size % direntSize = 0)
    (hread : ∀ i ≤ j, readi (i * direntSize) direntSize = some (de i))
    (hlen : ∀ i ≤ j, (de i).length = direntSize) (hmatch : Matches de name j)
    (hno : ∀ i < j, ¬ Matches de name i) :
    dirlookup readi size name = .ok (some (j * direntSize, inumOf (de j))) := by
  have hle : (j + 1) * direntSize ≤ size := by
    simp only [direntSize, DIRSIZ] at hsize haligned ⊢
    omega
  obtain ⟨i, hi, hm, hres⟩ | ⟨hnone, -⟩ := dirlookup_spec (N := j + 1) name rfl
    (fun i hi => hread i (by omega)) fun i hi => hlen i (by omega)
  · have hij : i = j := by
      by_contra hne
      exact hno i (by omega) hm
    rw [hij] at hres
    exact dirlookupLoop_mono hle (by omega) 0 hres
  · exact absurd hmatch (hnone j (Nat.lt_succ_self j))

end Scan

end Xv6.Format
