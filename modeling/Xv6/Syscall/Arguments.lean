import Xv6.Pages.Model

/-! The arguments of system calls: the functions of `syscall.c` that take them from user memory,
and the loop of `sys_exec` over the argument vector. A user program chooses every value these
functions compute with. -/

namespace Xv6.Syscall

open Words

abbrev Uint := BitVec 32

/-- What the functions read: the size of the process, its memory at the addresses it sees and the
`%esp` of the trap frame. -/
structure User where
  sz : Uint
  mem : Nat → BitVec 8
  esp : Uint

variable {u : User} {addr p : Uint}

def fetchint (u : User) (addr : Uint) : Option Uint :=
  if addr ≥ u.sz ∨ addr + 4 > u.sz then none else some (BitVec.ofNat 32 (word u.mem addr.toNat 4))

theorem toNat_succ {s e : Uint} (h : s < e) : (s + 1).toNat = s.toNat + 1 := by
  have := e.isLt
  rw [BitVec.lt_def] at h
  rw [BitVec.toNat_add_of_lt (by simp; omega)]
  rfl

/-- The loop of `fetchstr`, from `s` on. -/
def scan (u : User) (pp s : Uint) : Option Int :=
  if h : s < u.sz then
    if u.mem s.toNat = 0 then some (s - pp).toInt else scan u pp (s + 1)
  else none
termination_by u.sz.toNat - s.toNat
decreasing_by
  rw [toNat_succ h]
  exact Nat.sub_succ_lt_self _ _ (BitVec.lt_def.1 h)

/-- `fetchstr`: where `*pp` points then, and the result. -/
def fetchstr (u : User) (addr : Uint) : Option (Uint × Int) :=
  if addr ≥ u.sz then none else (scan u addr addr).map (addr, ·)

def argint (u : User) (n : Uint) : Option Uint := fetchint u (u.esp + 4 + 4 * n)

def argptr (u : User) (n size : Uint) : Option Uint := do
  let i ← argint u n
  if size.toInt < 0 ∨ i ≥ u.sz ∨ i + size > u.sz then none else some i

def argstr (u : User) (n : Uint) : Option (Uint × Int) := do
  let addr ← argint u n
  fetchstr u addr

def MAXARG : Nat := 32

/-- The loop of `sys_exec`, from `argv[i]` on. -/
def execArgs (u : User) (uargv : Uint) (i : Nat) : Option (List Uint) :=
  if i ≥ MAXARG then none
  else do
    let uarg ← fetchint u (uargv + 4 * BitVec.ofNat 32 i)
    if uarg = 0 then some []
    else
      let (arg, _) ← fetchstr u uarg
      let args ← execArgs u uargv (i + 1)
      some (arg :: args)
termination_by MAXARG - i

/-- `sys_exec` up to the call of `exec`: the path and the arguments, with the address they were
read from. -/
def sysExec (u : User) : Option (Uint × Uint × List Uint) := do
  let (path, _) ← argstr u 0
  let uargv ← argint u 1
  let argv ← execArgs u uargv 0
  some (path, uargv, argv)

/-! ## What is accepted -/

/-- The `n` bytes from `addr` on are in the memory of the process. -/
def Inside (u : User) (addr : Uint) (n : Nat) : Prop := addr.toNat + n ≤ u.sz.toNat

/-- There is a string of length `n` at `addr`, with its end in the memory of the process. -/
def StringAt (u : User) (addr : Uint) (n : Nat) : Prop :=
  Inside u addr (n + 1) ∧ u.mem (addr.toNat + n) = 0 ∧ ∀ i < n, u.mem (addr.toNat + i) ≠ 0

theorem fetchint_eq_some (hsz : u.sz.toNat < Pages.KERNBASE) {v : Uint} : fetchint u addr = some v ↔
      Inside u addr 4 ∧ v = BitVec.ofNat 32 (word u.mem addr.toNat 4) := by
  have hk : Pages.KERNBASE = 2 ^ 31 := rfl
  have hsum : addr.toNat < u.sz.toNat → (addr + 4).toNat = addr.toNat + 4 := fun h =>
    BitVec.toNat_add_of_lt (by simp; omega)
  rw [fetchint, Inside, Option.ite_none_left_eq_some, eq_comm (a := v)]
  simp only [not_or, ge_iff_le, gt_iff_lt, BitVec.le_def, BitVec.lt_def, Option.some.injEq]
  refine and_congr_left fun _ => ⟨fun h => ?_, fun h => ?_⟩
  · rw [hsum (not_le.1 h.1)] at h
    omega
  · rw [hsum (by omega)]
    omega

theorem stringAt_zero {s : Uint} : StringAt u s 0 ↔ s < u.sz ∧ u.mem s.toNat = 0 := by
  rw [StringAt, Inside, BitVec.lt_def]
  exact and_congr_right fun _ => and_iff_left fun i hi => absurd hi (Nat.not_lt_zero i)

theorem stringAt_succ {s : Uint} {n : Nat} (hs : s < u.sz) :
    StringAt u s (n + 1) ↔ u.mem s.toNat ≠ 0 ∧ StringAt u (s + 1) n := by
  have hnext (i : Nat) : s.toNat + (i + 1) = (s + 1).toNat + i := by rw [toNat_succ hs]; omega
  simp only [StringAt, Inside, hnext, Nat.forall_lt_succ_left', Nat.add_zero]
  tauto

/-- The scan goes to the next NUL. -/
theorem scan_eq_some {pp s : Uint} {len : Int} : scan u pp s = some len ↔
    ∃ n, StringAt u s n ∧ (s + BitVec.ofNat 32 n - pp).toInt = len := by
  fun_induction scan u pp s with
  | case1 s h hnul =>
    constructor
    · rintro ⟨⟩
      exact ⟨0, stringAt_zero.2 ⟨h, hnul⟩, by simp⟩
    · rintro ⟨n, hn, rfl⟩
      cases n with
      | zero => simp
      | succ n => exact absurd hnul ((stringAt_succ h).1 hn).1
  | case2 s h hne ih =>
    rw [ih]
    have hnext (n : Nat) : s + 1 + BitVec.ofNat 32 n = s + BitVec.ofNat 32 (n + 1) := by
      rw [BitVec.ofNat_add, BitVec.add_assoc, BitVec.add_comm 1]
      rfl
    constructor
    · rintro ⟨n, hn, rfl⟩
      exact ⟨n + 1, (stringAt_succ h).2 ⟨hne, hn⟩, by rw [hnext]⟩
    · rintro ⟨n, hn, rfl⟩
      cases n with
      | zero => exact absurd (stringAt_zero.1 hn).2 hne
      | succ n => exact ⟨n, ((stringAt_succ h).1 hn).2, by rw [hnext]⟩
  | case3 s h =>
    constructor
    · rintro ⟨⟩
    · rintro ⟨n, ⟨hn, -⟩, -⟩
      rw [Inside] at hn
      rw [BitVec.lt_def] at h
      omega

theorem fetchstr_eq_some (hsz : u.sz.toNat < Pages.KERNBASE) {len : Int} :
    fetchstr u addr = some (p, len) ↔ p = addr ∧ ∃ n : Nat, StringAt u addr n ∧ len = n := by
  have hk : Pages.KERNBASE = 2 ^ 31 := rfl
  have hlen {n : Nat} (hn : StringAt u addr n) : (addr + BitVec.ofNat 32 n - addr).toInt = n := by
    have hin := hn.1
    rw [Inside] at hin
    rw [BitVec.add_comm, BitVec.add_sub_cancel, BitVec.toInt_eq_toNat_of_lt]
    · rw [BitVec.toNat_ofNat, Nat.mod_eq_of_lt (by omega)]
    · rw [BitVec.toNat_ofNat, Nat.mod_eq_of_lt (by omega)]
      omega
  rw [fetchstr, Option.ite_none_left_eq_some, Option.map_eq_some_iff]
  constructor
  · rintro ⟨-, l, hl, he⟩
    cases he
    obtain ⟨n, hn, rfl⟩ := scan_eq_some.1 hl
    exact ⟨rfl, n, hn, hlen hn⟩
  · rintro ⟨rfl, n, hn, rfl⟩
    refine ⟨?_, n, scan_eq_some.2 ⟨n, hn, hlen hn⟩, rfl⟩
    have hin := hn.1
    rw [Inside] at hin
    rw [ge_iff_le, BitVec.le_def]
    omega

theorem argptr_eq_some (hsz : u.sz.toNat < Pages.KERNBASE) {n size : Uint} :
    argptr u n size = some p ↔ argint u n = some p ∧ p < u.sz ∧ size.toNat < 2 ^ 31 ∧
      Inside u p size.toNat := by
  have hk : Pages.KERNBASE = 2 ^ 31 := rfl
  rw [argptr, Option.bind_eq_bind, Option.bind_eq_some_iff]
  have hsign : ¬size.toInt < 0 ↔ size.toNat < 2 ^ 31 := by
    rw [BitVec.toInt_eq_toNat_cond]
    have := size.isLt
    split <;> omega
  have hsum : p.toNat < u.sz.toNat → size.toNat < 2 ^ 31 →
      (p + size).toNat = p.toNat + size.toNat := fun h h' =>
    BitVec.toNat_add_of_lt (by omega)
  constructor
  · rintro ⟨i, hi, hite⟩
    rw [Option.ite_none_left_eq_some] at hite
    obtain ⟨hno, he⟩ := hite
    cases he
    simp only [not_or, ge_iff_le, gt_iff_lt, BitVec.le_def, BitVec.lt_def, not_le] at hno
    obtain ⟨hs, hp, hle⟩ := hno
    rw [hsum hp (hsign.1 hs)] at hle
    exact ⟨hi, BitVec.lt_def.2 hp, hsign.1 hs, not_lt.1 hle⟩
  · rintro ⟨hi, hp, hs, hin⟩
    rw [BitVec.lt_def] at hp
    refine ⟨p, hi, ?_⟩
    rw [Option.ite_none_left_eq_some]
    simp only [not_or, ge_iff_le, gt_iff_lt, BitVec.le_def, BitVec.lt_def, not_le, hsum hp hs]
    exact ⟨⟨hsign.2 hs, hp, not_lt.2 hin⟩, trivial⟩

/-- Each pointer of the vector is read inside the memory of the process, so the address of the
next one does not wrap. -/
theorem execArgs_inside (hsz : u.sz.toNat < Pages.KERNBASE) {uargv : Uint} {i : Nat}
    {args : List Uint} (h : execArgs u uargv i = some args) (hi : uargv.toNat + 4 * i < 2 ^ 32) :
    i + args.length < MAXARG ∧ uargv.toNat + 4 * (i + args.length) + 4 ≤ u.sz.toNat ∧
      ∀ arg ∈ args, ∃ n, StringAt u arg n := by
  have hk : Pages.KERNBASE = 2 ^ 31 := rfl
  fun_induction execArgs u uargv i generalizing args with
  | case1 i hlast => cases h
  | case2 i hlast ih =>
    rw [Option.bind_eq_bind, Option.bind_eq_some_iff] at h
    obtain ⟨uarg, hfetch, h⟩ := h
    have haddr : (uargv + 4 * BitVec.ofNat 32 i).toNat = uargv.toNat + 4 * i := by
      have h4 : (4 : Uint).toNat = 4 := rfl
      simp only [BitVec.toNat_add, BitVec.toNat_mul, BitVec.toNat_ofNat, h4]
      omega
    have hin := ((fetchint_eq_some hsz).1 hfetch).1
    rw [Inside, haddr] at hin
    split at h
    · cases h
      exact ⟨not_le.1 hlast, hin, by simp⟩
    · simp only [Option.bind_eq_bind, Option.bind_eq_some_iff, Prod.exists] at h
      obtain ⟨arg, len, hstr, rest, hrest, he⟩ := h
      cases he
      obtain ⟨rfl, n, hn, -⟩ := (fetchstr_eq_some hsz).1 hstr
      obtain ⟨hlen, hptr, hargs⟩ := ih hrest (by omega)
      rw [List.length_cons]
      refine ⟨by omega, by omega, ?_⟩
      simpa using ⟨⟨n, hn⟩, hargs⟩

/-- **What is accepted lies below the size of the process**, without wraparound: the word of
`fetchint` and `argint`, the string of `fetchstr` and `argstr` with its NUL, the block of
`argptr`, and all that `sys_exec` reads. -/
theorem arguments_below_size (u : User) (hsz : u.sz.toNat < Pages.KERNBASE) :
    (∀ addr v, fetchint u addr = some v →
      Inside u addr 4 ∧ v = BitVec.ofNat 32 (word u.mem addr.toNat 4)) ∧
    (∀ addr p len, fetchstr u addr = some (p, len) →
      p = addr ∧ ∃ n : Nat, StringAt u addr n ∧ len = n) ∧
    (∀ n v, argint u n = some v → Inside u (u.esp + 4 + 4 * n) 4) ∧
    (∀ n size p, argptr u n size = some p → size.toNat < 2 ^ 31 ∧ Inside u p size.toNat) ∧
    (∀ n p len, argstr u n = some (p, len) → ∃ n : Nat, StringAt u p n ∧ len = n) ∧
    ∀ path uargv argv, sysExec u = some (path, uargv, argv) →
      (∃ n, StringAt u path n) ∧ Inside u uargv (4 * argv.length + 4) ∧
      argv.length < MAXARG ∧ ∀ arg ∈ argv, ∃ n, StringAt u arg n := by
  have hstr {n p : Uint} {len : Int} (h : argstr u n = some (p, len)) :
      ∃ n : Nat, StringAt u p n ∧ len = n := by
    rw [argstr, Option.bind_eq_bind, Option.bind_eq_some_iff] at h
    obtain ⟨addr, -, h⟩ := h
    obtain ⟨rfl, hn⟩ := (fetchstr_eq_some hsz).1 h
    exact hn
  refine ⟨fun addr v h => (fetchint_eq_some hsz).1 h,
    fun addr p len h => (fetchstr_eq_some hsz).1 h,
    fun n v h => ((fetchint_eq_some hsz).1 h).1,
    fun n size p h => ((argptr_eq_some hsz).1 h).2.2, fun n p len h => hstr h, ?_⟩
  intro path uargv argv h
  simp only [sysExec, Option.bind_eq_bind, Option.bind_eq_some_iff, Prod.exists] at h
  obtain ⟨p, len, hpath, a, -, args, hargs, he⟩ := h
  cases he
  obtain ⟨n, hn, -⟩ := hstr hpath
  obtain ⟨hlen, hptr, hall⟩ := execArgs_inside hsz hargs (by have := uargv.isLt; omega)
  rw [Nat.zero_add] at hlen hptr
  exact ⟨⟨n, hn⟩, by rw [Inside]; omega, hlen, hall⟩

/-- A process of one page whose stack has the path "a" and an empty argument vector. -/
def calling : User where
  sz := 4096
  mem a := if a = 4004 then 0xc8 else if a = 4005 then 0x0f else if a = 4008 then 0xd0
    else if a = 4009 then 0x0f else if a = 4040 then 97 else 0
  esp := 4000

theorem arguments_below_size_calling : sysExec calling = some (4040, 4048, []) ∧
    Inside calling 4048 4 :=
  have h : sysExec calling = some (4040, 4048, []) := by decide +kernel
  ⟨h, ((arguments_below_size calling (by decide)).2.2.2.2.2 4040 4048 [] h).2.1⟩

end Xv6.Syscall
