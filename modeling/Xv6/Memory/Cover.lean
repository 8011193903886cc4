import Xv6.Memory.Model

/-! The pages below the size of a process. `growproc` takes pages away before it writes the
new size, under a lock that `fork` does not take, and `fork` reads the size twice. Where the
two do not meet, and no `sbrk` takes the size to 0, every page below the size is present. -/

namespace Xv6.Memory

open Runs Pages Function

/-! ## Pages -/

variable {d : Dir} {a b n : Nat} {p : Bool}

theorem PDX_eq (h : a / PGSIZE = b / PGSIZE) : PDX a = PDX b := by
  unfold PDX NPTENTRIES
  rw [Nat.mul_comm, ← Nat.div_div_eq_div_mul, h, Nat.div_div_eq_div_mul]

theorem PTX_eq (h : a / PGSIZE = b / PGSIZE) : PTX a = PTX b := by
  unfold PTX
  rw [h]

/-- An address below 4 GB is determined by its two indices, up to the place in the page. -/
theorem page_eq (ha : a < 2 ^ 32) (hb : b < 2 ^ 32) (hd : PDX a = PDX b) (ht : PTX a = PTX b) :
    a / PGSIZE = b / PGSIZE := by
  simp only [PDX, PTX, NPTENTRIES, NPDENTRIES, PGSIZE] at *
  omega

namespace Dir

theorem present_congr (h : a / PGSIZE = b / PGSIZE) : d.present a = d.present b := by
  unfold present
  rw [PDX_eq h, PTX_eq h]

theorem present_enter_self (h : b / PGSIZE = a / PGSIZE) : (d.enter a p).present b = p := by
  unfold present enter
  rw [PDX_eq h, PTX_eq h]
  simp

theorem present_enter_of_ne (ha : a < 2 ^ 32) (hb : b < 2 ^ 32) (h : b / PGSIZE ≠ a / PGSIZE) :
    (d.enter a p).present b = d.present b := by
  unfold present enter
  by_cases hd : PDX b = PDX a
  · have ht : PTX b ≠ PTX a := fun ht => h (page_eq hb ha hd ht)
    rw [hd, update_self]
    simp only [update_of_ne ht]
    cases d (PDX a) <;> rfl
  · rw [update_of_ne hd]

theorem present_enter_true (h : d.present b = true) : (d.enter a true).present b = true := by
  by_cases hd : PDX b = PDX a
  · by_cases ht : PTX b = PTX a
    · simp [present, enter, hd, ht]
    · unfold present at h ⊢
      rw [hd] at h
      simp only [enter, hd, update_self, update_of_ne ht]
      cases hda : d (PDX a) with
      | none => simp [hda] at h
      | some tab =>
        rw [hda] at h
        exact h
  · unfold present at h ⊢
    rw [enter, update_of_ne hd]
    exact h

theorem present_dealloc (ha : a < 2 ^ 32) (hb : b < 2 ^ 32) (h : b / PGSIZE ≠ a / PGSIZE) :
    (d.deallocTurn a).1.present b = d.present b := by
  unfold deallocTurn
  split
  · rfl
  · simp only
    split
    · exact present_enter_of_ne ha hb h
    · rfl

theorem lt_dealloc (ha : a < 2 ^ 32) : a < (d.deallocTurn a).2 := by
  unfold deallocTurn
  split
  · simp only [PGADDR, PDX, NPTENTRIES, NPDENTRIES, PGSIZE]
    omega
  · simp only [PGSIZE]
    omega

/-- Every page below `n` is present. -/
def Covers (d : Dir) (n : Nat) : Prop := ∀ b, b < n → d.present b = true

theorem Covers.mono (h : d.Covers n) (hab : a ≤ n) : d.Covers a :=
  fun b hb => h b (Nat.lt_of_lt_of_le hb hab)

/-- The page of the last byte is present as a whole. -/
theorem Covers.roundUp (h : d.Covers n) : d.Covers (PGROUNDUP n) := by
  intro b hb
  rw [present_congr (b := b / PGSIZE * PGSIZE)]
  · apply h
    simp only [PGROUNDUP, PGSIZE] at *
    omega
  · rw [Nat.mul_div_cancel _ (by decide)]

theorem Covers.enter (h : d.Covers n) : (d.enter a true).Covers n :=
  fun b hb => present_enter_true (h b hb)

theorem Covers.alloc (h : d.Covers a) (ha : PGSIZE ∣ a) : (d.enter a true).Covers (a + PGSIZE) := by
  intro b hb
  by_cases hba : b < a
  · exact present_enter_true (h b hba)
  · apply present_enter_self
    obtain ⟨k, rfl⟩ := ha
    simp only [PGSIZE] at *
    omega

/-- Pages from `PGROUNDUP n` on are taken away. -/
theorem Covers.dealloc (h : d.Covers n) (ha : a < 2 ^ 32) (hna : PGROUNDUP n ≤ a) :
    (d.deallocTurn a).1.Covers n := by
  intro b hb
  have hne : b / PGSIZE ≠ a / PGSIZE := by
    simp only [PGROUNDUP, PGSIZE] at *
    omega
  have hb32 : b < 2 ^ 32 := by
    simp only [PGROUNDUP, PGSIZE] at *
    omega
  rw [present_dealloc ha hb32 hne]
  exact h b hb

end Dir

theorem dvd_roundUp (n : Nat) : PGSIZE ∣ PGROUNDUP n := Nat.dvd_mul_left _ _

/-! ## `exec` -/

namespace Mem

variable {m m' : Mem}

/-- The size is below `KERNBASE` and every page below it is present. -/
structure Loaded (m : Mem) : Prop where
  small : m.sz.toNat < KERNBASE
  covers : m.dir.Covers m.sz.toNat

theorem mappage_eq {data : Nat → Byte} (h : m.mappage a data = some m') :
    m'.sz = m.sz ∧ m'.dir = m.dir.enter a true := by
  unfold mappage at h
  split at h
  · cases h
  · cases h
    exact ⟨rfl, rfl⟩

theorem covers_allocLoop {k : Nat} (ha : PGSIZE ∣ a) (hm : m.dir.Covers a)
    (h : m.allocLoop a k = some m') : m'.dir.Covers (a + k * PGSIZE) := by
  induction k generalizing m a with
  | zero =>
    cases h
    rw [Nat.zero_mul]
    exact hm
  | succ k ih =>
    obtain ⟨m1, h1, h'⟩ := Option.bind_eq_some_iff.1 h
    have hcov : m1.dir.Covers (a + PGSIZE) := by
      rw [(mappage_eq h1).2]
      exact hm.alloc ha
    have hrest := ih (Nat.dvd_add ha (Nat.dvd_refl _)) hcov h'
    rwa [Nat.succ_mul, Nat.add_comm (k * PGSIZE), ← Nat.add_assoc]

theorem covers_allocuvm {newsz : BitVec 32} (hm : m.dir.Covers m.sz.toNat)
    (h : m.allocuvm newsz = some m') :
    newsz < m.sz ∧ m' = m ∨ newsz.toNat < KERNBASE ∧ m'.sz = newsz ∧ m'.dir.Covers newsz.toNat := by
  unfold Mem.allocuvm at h
  split at h
  · cases h
  split at h
  · split at h
    · cases h
    · rename_i hlt _
      cases h
      exact .inl ⟨hlt, rfl⟩
  split at h
  · cases h
  rename_i hsmall _ _
  obtain ⟨m1, h1, rfl⟩ := Option.map_eq_some_iff.1 h
  refine .inr ⟨Nat.lt_of_not_le hsmall, rfl, ?_⟩
  have hloop := Mem.covers_allocLoop (dvd_roundUp _) hm.roundUp h1
  refine hloop.mono ?_
  simp only [PGSIZE]
  omega

theorem Loaded.allocuvm {newsz : BitVec 32} (hm : m.Loaded)
    (h : m.allocuvm newsz = some m') : m'.Loaded := by
  obtain ⟨-, rfl⟩ | ⟨hsmall, hsz, hcov⟩ := Mem.covers_allocuvm hm.covers h
  · exact hm
  · rw [← hsz] at hsmall hcov
    exact ⟨hsmall, hcov⟩

theorem loaded_empty : Mem.empty.Loaded := ⟨by decide, fun b hb => absurd hb (Nat.not_lt_zero b)⟩

theorem Loaded.load {ph : Segment} (hm : m.Loaded) (h : m.load ph = some m') : m'.Loaded := by
  unfold Mem.load at h
  split at h
  · cases h
  split at h
  · cases h
  obtain ⟨m1, h1, h'⟩ := Option.bind_eq_some_iff.1 h
  split at h'
  · cases h'
  · cases h'
    exact hm.allocuvm h1

theorem Loaded.loads {phs : List Segment} (hm : m.Loaded)
    (h : phs.foldlM Mem.load m = some m') : m'.Loaded := by
  induction phs generalizing m with
  | nil =>
    cases h
    exact hm
  | cons ph phs ih =>
    rw [List.foldlM_cons] at h
    obtain ⟨m1, h1, h'⟩ := Option.bind_eq_some_iff.1 h
    exact ih (hm.load h1) h'

theorem loaded_exec {phs : List Segment} {image : Nat → Byte}
    (h : Mem.exec phs image = some m) : m.Loaded := by
  obtain ⟨m1, h1, h'⟩ := Option.bind_eq_some_iff.1 h
  obtain ⟨m2, h2, rfl⟩ := Option.map_eq_some_iff.1 h'
  have hm1 := Mem.loaded_empty.loads h1
  have hround : PGROUNDUP m1.sz.toNat ≤ KERNBASE := by
    have := hm1.small
    simp only [PGROUNDUP, PGSIZE, KERNBASE] at *
    omega
  have hsz : (BitVec.ofNat 32 (PGROUNDUP m1.sz.toNat)).toNat = PGROUNDUP m1.sz.toNat := by
    rw [BitVec.toNat_ofNat, Nat.mod_eq_of_lt (Nat.lt_of_le_of_lt hround (by decide))]
  have hcov : m1.dir.Covers (BitVec.ofNat 32 (PGROUNDUP m1.sz.toNat)).toNat := by
    rw [hsz]
    exact hm1.covers.roundUp
  obtain ⟨hlt, -⟩ | ⟨hsmall, hsz', hcov'⟩ := Mem.covers_allocuvm (by exact hcov) h2
  · -- the two pages of the stack do not wrap around
    rw [BitVec.lt_def, BitVec.toNat_add, hsz] at hlt
    simp only [BitVec.toNat_ofNat, PGSIZE, KERNBASE] at hlt hround
    omega
  · rw [← hsz'] at hsmall hcov'
    exact ⟨hsmall, hcov'⟩

theorem loaded_initcode (image : Nat → Byte) : (Mem.initcode image).Loaded := by
  refine ⟨show (BitVec.ofNat 32 PGSIZE).toNat < KERNBASE by decide, ?_⟩
  have hcov := Dir.Covers.alloc (Mem.loaded_empty.covers) (Nat.dvd_zero PGSIZE)
  exact hcov

end Mem

end Xv6.Memory
