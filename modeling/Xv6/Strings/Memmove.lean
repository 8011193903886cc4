import Mathlib.Data.BitVec
import Mathlib.Logic.Function.Basic
import Mathlib.Tactic.Abel

/-! `memmove` of `string.c` and `memmove` of `ulib.c`, over a memory with addresses of 32 bits. The
one of the kernel copies from the end when the target begins inside the source; the one of the user
library always copies from the front, and its `n` is an `int`. -/

namespace Xv6.Strings

open Function

abbrev Addr := BitVec 32

abbrev Bytes := Addr → BitVec 8

/-- `while(n-- > 0) *d++ = *s++;` -/
def copyUp (mem : Bytes) (d s : Addr) : Nat → Bytes
  | 0 => mem
  | n + 1 => copyUp (update mem d (mem s)) (d + 1) (s + 1) n

/-- `while(n-- > 0) *--d = *--s;` -/
def copyDown (mem : Bytes) (d s : Addr) : Nat → Bytes
  | 0 => mem
  | n + 1 => copyDown (update mem (d - 1) (mem (s - 1))) (d - 1) (s - 1) n

/-- `string.c`: the memory afterwards and the pointer that is returned. -/
def memmove (mem : Bytes) (dst src : Addr) (n : BitVec 32) : Bytes × Addr :=
  if src < dst ∧ src + n > dst then (copyDown mem (dst + n) (src + n) n.toNat, dst)
  else (copyUp mem dst src n.toNat, dst)

/-- `ulib.c` -/
def Ulib.memmove (mem : Bytes) (vdst vsrc : Addr) (n : BitVec 32) : Bytes × Addr :=
  (copyUp mem vdst vsrc n.toInt.toNat, vdst)

variable {m : Bytes} {d s dst src : Addr} {n : Nat}

theorem update_zero (a : Addr) : update (fun _ => 0 : Bytes) a 0 = fun _ => 0 := update_eq_self a _

/-- Copying in a memory of zeros. -/
theorem copyUp_zero : copyUp (fun _ => 0) d s n = fun _ => 0 := by
  induction n generalizing d s with
  | zero => rfl
  | succ n ih =>
    rw [copyUp, update_zero, ih]

theorem add_eq_step (d x : Addr) : d + x = d + 1 + (x - 1) := by abel

theorem step_lt_iff {x : Addr} (h : x ≠ 0) : (x - 1).toNat < n ↔ x.toNat < n + 1 := by bv_omega

theorem not_step_lt (hn : n < 2 ^ 32) : ¬ (0 - 1 : Addr).toNat < n := by
  have htop : (0 - 1 : Addr).toNat = 2 ^ 32 - 1 := rfl
  omega

/-- The target does not begin behind the beginning of the source and before its end. By induction
on the bytes that are left; offsets are words, as addresses are. -/
theorem copyUp_apply (hn : n ≤ 2 ^ 32) (h : d = s ∨ n ≤ (d - s).toNat) (x : Addr) :
    copyUp m d s n (d + x) = if x.toNat < n then m (s + x) else m (d + x) := by
  induction n generalizing m d s x with
  | zero => rfl
  | succ n ih =>
    have hsame : d + 1 - (s + 1) = d - s := by abel
    have hrest := ih (m := update m d (m s)) (d := d + 1) (s := s + 1) (by omega)
      (h.imp (congrArg (· + 1)) (by rw [hsame]; omega)) (x - 1)
    rw [← add_eq_step, ← add_eq_step] at hrest
    rw [copyUp, hrest]
    by_cases hx : x = 0
    · subst hx
      rw [if_neg (not_step_lt hn)]
      simp
    · have hne : d + x ≠ d := by simpa using hx
      simp only [step_lt_iff hx, update_of_ne hne]
      refine ite_congr rfl (fun hlt => update_of_ne (fun he => ?_) ..) fun _ => rfl
      have hdiff : d - s = x := by rw [← he]; bv_omega
      rcases h with rfl | h
      · exact hne he
      · rw [hdiff] at h
        omega

/-- The same from the end on: `d` and `s` are behind the last bytes, and `x + 1` is the distance
from there. -/
theorem copyDown_apply (hn : n ≤ 2 ^ 32) (h : n ≤ (s - d).toNat) (x : Addr) :
    copyDown m d s n (d - 1 - x) = if x.toNat < n then m (s - 1 - x) else m (d - 1 - x) := by
  induction n generalizing m d s x with
  | zero => rfl
  | succ n ih =>
    have hsame : s - 1 - (d - 1) = s - d := by abel
    have hstep (a : Addr) : a - 1 - 1 - (x - 1) = a - 1 - x := by abel
    have hrest := ih (m := update m (d - 1) (m (s - 1))) (d := d - 1) (s := s - 1) (by omega)
      (by rw [hsame]; omega) (x - 1)
    rw [hstep, hstep] at hrest
    rw [copyDown, hrest]
    by_cases hx : x = 0
    · subst hx
      rw [if_neg (not_step_lt hn)]
      simp
    · have hne : d - 1 - x ≠ d - 1 := by bv_omega
      simp only [step_lt_iff hx, update_of_ne hne]
      refine ite_congr rfl (fun hlt => update_of_ne (fun he => ?_) ..) fun _ => rfl
      have hdiff : s - d = x := by bv_omega
      rw [hdiff] at h
      omega

/-- `[dst, dst + n)` has the bytes that `[src, src + n)` had, and nothing else is different. -/
def Moved (mem mem' : Bytes) (dst src : Addr) (n : Nat) : Prop :=
  ∀ a, mem' a = if dst.toNat ≤ a.toNat ∧ a.toNat < dst.toNat + n then mem (src + (a - dst))
    else mem a

theorem sub_lt_iff (hdst : dst.toNat + n ≤ 2 ^ 32) (a : Addr) :
    (a - dst).toNat < n ↔ dst.toNat ≤ a.toNat ∧ a.toNat < dst.toNat + n := by
  have ha := a.isLt
  rw [BitVec.toNat_sub]
  omega

theorem mirror_lt_iff (k x : Addr) : (k - 1 - x).toNat < k.toNat ↔ x.toNat < k.toNat := by
  bv_omega

section

variable {n : BitVec 32} (hdst : dst.toNat + n.toNat ≤ 2 ^ 32)
  (hsrc : src.toNat + n.toNat ≤ 2 ^ 32)

include hdst hsrc

theorem copyUp_moved (h : ¬ (src < dst ∧ dst.toNat < src.toNat + n.toNat)) :
    Moved m (copyUp m dst src n.toNat) dst src n.toNat := by
  intro a
  have hfar : dst = src ∨ n.toNat ≤ (dst - src).toNat := by
    refine or_iff_not_imp_left.2 fun hne => ?_
    rw [← BitVec.toNat_inj] at hne
    rw [BitVec.lt_def] at h
    rw [BitVec.toNat_sub]
    omega
  have happly := copyUp_apply (m := m) n.isLt.le hfar (a - dst)
  rw [add_sub_cancel] at happly
  rw [happly]
  exact if_congr (sub_lt_iff hdst a) rfl rfl

omit hsrc in
theorem copyDown_moved (h : src < dst) :
    Moved m (copyDown m (dst + n) (src + n) n.toNat) dst src n.toNat := by
  intro a
  have hfar : n.toNat ≤ (src + n - (dst + n)).toNat := by
    rw [add_sub_add_right_eq_sub, BitVec.toNat_sub]
    rw [BitVec.lt_def] at h
    omega
  have happly := copyDown_apply (m := m) n.isLt.le hfar (n - 1 - (a - dst))
  have htarget : dst + n - 1 - (n - 1 - (a - dst)) = a := by abel
  have hsource : src + n - 1 - (n - 1 - (a - dst)) = src + (a - dst) := by abel
  rw [htarget, hsource] at happly
  rw [happly]
  exact if_congr ((mirror_lt_iff n _).trans (sub_lt_iff hdst a)) rfl rfl

theorem memmove_moved (mem : Bytes) : Moved mem (memmove mem dst src n).1 dst src n.toNat ∧
    (¬ (src < dst ∧ dst.toNat < src.toNat + n.toNat) →
      memmove mem dst src n = (copyUp mem dst src n.toNat, dst)) := by
  -- the sum of the test wraps around only at the end of the address space
  have htest : src < dst ∧ src + n > dst ↔ src < dst ∧ dst.toNat < src.toNat + n.toNat := by
    refine and_congr_right fun h => ?_
    rw [BitVec.lt_def] at h
    rw [gt_iff_lt, BitVec.lt_def, BitVec.toNat_add]
    omega
  rw [memmove]
  simp only [htest]
  constructor
  · split
    · rename_i h
      exact copyDown_moved hdst h.1
    · rename_i h
      exact copyUp_moved hdst hsrc h
  · exact fun h => if_neg h

/-- **`memmove`** of the kernel moves the bytes, however the ranges overlap. That of the user
library does the same for all memories if and only if there is nothing to move, or the target does
not begin inside the source and `n` is not negative as an `int`. -/
theorem memmove_moves : (∀ mem, Moved mem (memmove mem dst src n).1 dst src n.toNat) ∧
    ((∀ mem, Ulib.memmove mem dst src n = memmove mem dst src n) ↔
      dst = src ∨ (n.toNat < 2 ^ 31 ∧ ¬ (src < dst ∧ dst.toNat < src.toNat + n.toNat))) := by
  have hmoved (mem : Bytes) := memmove_moved hdst hsrc mem
  have hcount : n.toInt.toNat = if n.toNat < 2 ^ 31 then n.toNat else 0 := by
    rw [BitVec.toInt_eq_toNat_cond]
    split <;> split <;> omega
  refine ⟨fun mem => (hmoved mem).1, fun h => ?_, fun h mem => ?_⟩
  · refine or_iff_not_imp_left.2 fun hne => ?_
    -- one byte, at the beginning of the target
    have hbyte := (hmoved (update (fun _ => 0) dst 1)).1
    rw [← h, Ulib.memmove, hcount] at hbyte
    by_contra hno
    rw [not_and_or, not_not] at hno
    split at hbyte
    · rename_i hn
      obtain ⟨hlt, hin⟩ := hno.resolve_left (not_not.2 hn)
      rw [BitVec.lt_def] at hlt
      have hsucc : n.toNat = n.toNat - 1 + 1 := by omega
      have hdiff : (dst + (dst - src) - dst).toNat < n.toNat := by bv_omega
      have hzero := hbyte (dst + (dst - src))
      rw [hsucc, copyUp, update_of_ne (Ne.symm hne), update_idem, update_zero, copyUp_zero,
        ← hsucc, if_pos ((sub_lt_iff hdst _).1 hdiff)] at hzero
      have hback : src + (dst + (dst - src) - dst) = dst := by abel
      rw [hback, update_self] at hzero
      cases hzero
    · have hone := hbyte dst
      have hback : src + (dst - dst) = src := by abel
      rw [if_pos (by omega), hback, update_of_ne (Ne.symm hne)] at hone
      simp [copyUp] at hone
  · by_cases hn : n.toNat < 2 ^ 31
    · rw [Ulib.memmove, hcount, if_pos hn, (hmoved mem).2]
      rcases h with rfl | h
      · exact fun hc => (BitVec.lt_irrefl _) hc.1
      · exact h.2
    · obtain rfl := h.resolve_right fun hc => hn hc.1
      rw [Ulib.memmove, hcount, if_neg hn]
      refine Prod.ext (funext fun a => ?_)
        (by rw [(hmoved mem).2 fun hc => BitVec.lt_irrefl _ hc.1])
      rw [(hmoved mem).1 a, add_sub_cancel, ite_self]
      rfl

end

/-- A memory with one byte that is not 0. -/
def single : Bytes := update (fun _ => 0) 0 1

theorem memmove_moves_down : Moved single (memmove single 0 1 2).1 0 1 2 ∧
    Ulib.memmove single 0 1 2 = memmove single 0 1 2 := by
  have h := memmove_moves (n := 2) (show (0 : Addr).toNat + 2 ≤ 2 ^ 32 by decide)
    (show (1 : Addr).toNat + 2 ≤ 2 ^ 32 by decide)
  exact ⟨h.1 single, h.2.2 (.inr (by decide)) single⟩

/-- Two bytes are moved by one byte, and the first is written over the second before that is read;
and `n` is 2^31, so that nothing is moved. -/
theorem memmove_smears : ¬ Moved single (Ulib.memmove single 1 0 2).1 1 0 2 ∧
    Ulib.memmove single 1 0 2 ≠ memmove single 1 0 2 ∧
    ¬ Moved single (Ulib.memmove single 0x80000000 0 0x80000000).1 0x80000000 0 0x80000000 := by
  refine ⟨fun h => absurd (h 2) (by decide), fun h => ?_,
    fun h => absurd (h 0x80000000) (by decide)⟩
  have hbyte : (Ulib.memmove single 1 0 2).1 2 = (memmove single 1 0 2).1 2 := by rw [h]
  exact absurd hbyte (by decide)

end Xv6.Strings
