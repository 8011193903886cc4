import Xv6.Dirs.Model
import Xv6.Lib.Slots

/-! A directory is a finite map from names to inode numbers. The entries are the slots of a
table; `dirlookup` reads the map, `dirlink` adds a name and `sys_unlink` takes one away. A
directory of the largest size without an empty entry cannot grow, and `dirlink` panics. -/

namespace Xv6.Dirs

open Format Runs Segments Slots Function

/-! ## Entries -/

namespace Dir

/-- The bytes of entry `i`. -/
def entry (d : Dir) (i : Nat) : List Byte :=
  (List.range direntSize).map fun j => d.data (i * direntSize + j)

def count (d : Dir) : Nat := d.size / direntSize

/-- The entries that are in use, by the name as it is stored. -/
def slots (d : Dir) : Table (List Byte) Nat where
  count := d.count
  slot i := if inumOf (d.entry i) = 0 then none
    else some (key (nameOf (d.entry i)), inumOf (d.entry i))

/-- The numbers that the names are mapped to, by the name as it is stored. -/
def contents (d : Dir) (k : List Byte) : Option Nat :=
  ((List.range d.count).find? fun i =>
    inumOf (d.entry i) ≠ 0 ∧ key (nameOf (d.entry i)) = k).map fun i => inumOf (d.entry i)

/-- Entries are complete, the directory is not too large, and no two entries in use have equal
names. -/
structure WellFormed (d : Dir) : Prop where
  aligned : d.size % direntSize = 0
  bounded : d.size ≤ MAXFILE * BSIZE
  distinct : ∀ i j, i < d.count → j < d.count → inumOf (d.entry i) ≠ 0 → inumOf (d.entry j) ≠ 0 →
    namecmp (nameOf (d.entry i)) (nameOf (d.entry j)) = 0 → i = j

/-- There is an empty entry, or the directory can grow. -/
def HasSpace (d : Dir) (room : Bool) : Prop :=
  (∃ i < d.count, inumOf (d.entry i) = 0) ∨
    d.size < MAXFILE * BSIZE ∧ (d.size % BSIZE ≠ 0 ∨ room = true)

/-- What `dirlookup` finds. -/
def maps (d : Dir) (name : Chars) : Except Panic (Option Nat) :=
  (d.dirlookup name).map (Option.map Prod.snd)

variable {d d' : Dir} {i j : Nat} {name : Chars}

theorem entry_length (d : Dir) (i : Nat) : (d.entry i).length = direntSize := by
  simp [entry]

theorem WellFormed.size_eq (h : d.WellFormed) : d.size = d.count * direntSize :=
  (Nat.div_mul_cancel (Nat.dvd_of_mod_eq_zero h.aligned)).symm

theorem at_slots {k : List Byte} {v : Nat} : d.slots.At i k v ↔
      i < d.count ∧ inumOf (d.entry i) ≠ 0 ∧ key (nameOf (d.entry i)) = k ∧
        inumOf (d.entry i) = v := by
  simp only [Table.At, slots]
  refine and_congr_right fun _ => ?_
  split
  · rename_i h0
    simp [h0]
  · rename_i h0
    simp [h0]

/-- The table of a well-formed directory is its map. -/
theorem WellFormed.represents (h : d.WellFormed) : Represents d.slots d.contents := by
  have hdistinct : ∀ i j k v v', d.slots.At i k v → d.slots.At j k v' → i = j := by
    intro i j k v v' hi hj
    rw [at_slots] at hi hj
    refine h.distinct i j hi.1 hj.1 hi.2.1 hj.2.1 ((namecmp_eq_zero_iff _ _).2 ?_)
    rw [hi.2.2.1, hj.2.2.1]
  refine ⟨hdistinct, fun k v => ?_⟩
  rw [contents, Option.map_eq_some_iff]
  constructor
  · rintro ⟨i, hi, rfl⟩
    have hmem := List.mem_range.1 (List.mem_of_find?_eq_some hi)
    have hmatch : inumOf (d.entry i) ≠ 0 ∧ key (nameOf (d.entry i)) = k := by
      simpa using List.find?_some hi
    exact ⟨i, at_slots.2 ⟨hmem, hmatch.1, hmatch.2, rfl⟩⟩
  · rintro ⟨i, hi⟩
    obtain ⟨hlt, h0, hkey, rfl⟩ := at_slots.1 hi
    cases hfind : (List.range d.count).find? fun i =>
        inumOf (d.entry i) ≠ 0 ∧ key (nameOf (d.entry i)) = k with
    | none =>
      have hno := List.find?_eq_none.1 hfind i (List.mem_range.2 hlt)
      exact absurd (decide_eq_true (And.intro h0 hkey)) hno
    | some j =>
      have hmem := List.mem_range.1 (List.mem_of_find?_eq_some hfind)
      have hmatch : inumOf (d.entry j) ≠ 0 ∧ key (nameOf (d.entry j)) = k := by
        simpa using List.find?_some hfind
      have hj : d.slots.At j k _ := at_slots.2 ⟨hmem, hmatch.1, hmatch.2, rfl⟩
      exact ⟨j, rfl, by rw [hdistinct j i k _ _ hj hi]⟩

/-! ## Reading -/

section

variable (h : d.WellFormed)

include h

theorem WellFormed.lt_size (hi : i < d.count) : i * direntSize + direntSize ≤ d.size := by
  rw [h.size_eq, ← Nat.succ_mul]
  exact Nat.mul_le_mul_right _ hi

/-- An entry is read as a whole. -/
theorem WellFormed.readi_entry (hi : i < d.count) :
    d.readi (i * direntSize) direntSize = some (d.entry i) := by
  have hle := h.lt_size hi
  have hbound := h.bounded
  have hmax : MAXFILE * BSIZE = 71680 := rfl
  have hsize : direntSize = 16 := rfl
  rw [readi, if_neg (by omega), if_neg (by omega)]
  rfl

theorem WellFormed.lookup_cases (name : Chars) : (∃ j < d.count, Matches d.entry name j ∧
      d.dirlookup name = .ok (some (j * direntSize, inumOf (d.entry j)))) ∨
    (∀ j < d.count, ¬ Matches d.entry name j) ∧ d.dirlookup name = .ok none :=
  dirlookup_spec name h.size_eq (fun _ hi => h.readi_entry hi) fun i _ => d.entry_length i

/-- **`dirlookup` reads the map.** -/
theorem WellFormed.maps_eq (name : Chars) : d.maps name = .ok (d.contents (key name)) := by
  rcases h.lookup_cases name with ⟨j, hj, hmatch, hres⟩ | ⟨hnone, hres⟩
  · have hat : d.slots.At j (key name) (inumOf (d.entry j)) :=
      at_slots.2 ⟨hj, hmatch.1, hmatch.2, rfl⟩
    rw [maps, hres, h.represents.of_at hat]
    rfl
  · have hno : d.contents (key name) = none := by
      rw [h.represents.absent]
      intro i v hi
      obtain ⟨hlt, h0, hkey, _⟩ := at_slots.1 hi
      exact hnone i hlt ⟨h0, hkey⟩
    rw [maps, hres, hno]
    rfl

theorem WellFormed.dirlookup_none (hno : d.contents (key name) = none) :
    d.dirlookup name = .ok none := by
  rcases h.lookup_cases name with ⟨j, hj, hmatch, _⟩ | ⟨_, hres⟩
  · have hat : d.slots.At j (key name) (inumOf (d.entry j)) :=
      at_slots.2 ⟨hj, hmatch.1, hmatch.2, rfl⟩
    rw [h.represents.of_at hat] at hno
    cases hno
  · exact hres

theorem WellFormed.dirlookup_some {v : Nat} (hv : d.contents (key name) = some v) :
    ∃ i, d.slots.At i (key name) v ∧ d.dirlookup name = .ok (some (i * direntSize, v)) := by
  rcases h.lookup_cases name with ⟨j, hj, hmatch, hres⟩ | ⟨hnone, _⟩
  · have hat : d.slots.At j (key name) (inumOf (d.entry j)) :=
      at_slots.2 ⟨hj, hmatch.1, hmatch.2, rfl⟩
    have hsame := (h.represents.of_at hat).symm.trans hv
    rw [← Option.some.inj hsame]
    exact ⟨j, hat, hres⟩
  · obtain ⟨i, hi⟩ := (h.represents.at_iff _ _).1 hv
    obtain ⟨hlt, h0, hkey, _⟩ := at_slots.1 hi
    exact absurd ⟨h0, hkey⟩ (hnone i hlt)

/-- The empty entry that `dirlink` finds, from entry `i` on: the first one, or the one behind
the last. -/
theorem WellFormed.emptyLoop_spec (k i : Nat) (hk : d.count < i + k) (hi : i ≤ d.count) :
    ∃ j, i ≤ j ∧ j ≤ d.count ∧ d.emptyLoop k (i * direntSize) = .ok (j * direntSize) ∧
      (j < d.count → inumOf (d.entry j) = 0) ∧
      (j = d.count → ∀ l, i ≤ l → l < d.count → inumOf (d.entry l) ≠ 0) := by
  induction k generalizing i with
  | zero => omega
  | succ k ih =>
    by_cases hlt : i < d.count
    · have hsize : i * direntSize < d.size := by
        have := h.lt_size hlt
        have : 0 < direntSize := by decide
        omega
      have hstep : d.emptyLoop (k + 1) (i * direntSize) =
          if inumOf (d.entry i) = 0 then .ok (i * direntSize)
          else d.emptyLoop k ((i + 1) * direntSize) := by
        simp only [emptyLoop, h.readi_entry hlt, if_pos hsize, entry_length, ne_eq,
          not_true_eq_false, if_false, ← Nat.succ_mul]
      by_cases h0 : inumOf (d.entry i) = 0
      · refine ⟨i, le_rfl, hi, by rw [hstep, if_pos h0], fun _ => h0, fun e => ?_⟩
        omega
      · obtain ⟨j, h1, h2, hres, hempty, hfull⟩ := ih (i + 1) (by omega) hlt
        refine ⟨j, by omega, h2, by rw [hstep, if_neg h0, hres], hempty, fun e l hl hl' => ?_⟩
        rcases Nat.eq_or_lt_of_le hl with rfl | hl
        · exact h0
        · exact hfull e l hl hl'
    · have hend : i = d.count := by omega
      have hge : ¬ i * direntSize < d.size := by
        rw [h.size_eq, hend]
        exact Nat.lt_irrefl _
      refine ⟨i, le_rfl, hi, by simp only [emptyLoop, if_neg hge], fun hj => absurd hj hlt,
        fun _ l hl hl' => ?_⟩
      omega

end

/-! ## Writing -/

/-- The directory after the entry `i` has been written. -/
def setEntry (d : Dir) (i : Nat) (src : List Byte) : Dir :=
  ⟨max d.size (i * direntSize + direntSize), put d.data (i * direntSize) src⟩

variable {src : List Byte}

theorem entry_setEntry (hsrc : src.length = direntSize) :
    (d.setEntry i src).entry j = if j = i then src else d.entry j := by
  split
  · rename_i e
    subst e
    apply List.ext_getElem
    · rw [entry_length, hsrc]
    · intro n h1 h2
      simp only [entry, setEntry, put, List.getElem_map, List.getElem_range, Nat.le_add_right,
        if_true, Nat.add_sub_cancel_left]
      rw [List.getElem?_eq_getElem h2, Option.getD_some]
  · rename_i hne
    refine List.map_congr_left fun n hn => ?_
    rw [List.mem_range] at hn
    simp only [setEntry, put]
    split
    · -- the byte is behind entry `i`
      rename_i hle
      have hlt : i < j := by
        by_contra hnot
        have : (j + 1) * direntSize ≤ i * direntSize := Nat.mul_le_mul_right _ (by omega)
        rw [Nat.succ_mul] at this
        omega
      have hge : (i + 1) * direntSize ≤ j * direntSize := Nat.mul_le_mul_right _ hlt
      rw [Nat.succ_mul] at hge
      rw [List.getElem?_eq_none (by omega), Option.getD_none]
    · rfl

theorem count_setEntry (h : d.WellFormed) : (d.setEntry i src).count = max d.count (i + 1) := by
  have hsize := h.size_eq
  have h16 : direntSize = 16 := rfl
  simp only [count, setEntry]
  rw [h16] at *
  omega

theorem slots_setEntry (h : d.WellFormed) (hsrc : src.length = direntSize) :
    (d.setEntry i src).slots = d.slots.set i
      (if inumOf src = 0 then none else some (key (nameOf src), inumOf src)) := by
  simp only [slots, Table.set, Table.mk.injEq]
  refine ⟨count_setEntry h, ?_⟩
  funext j
  rw [entry_setEntry hsrc]
  rcases eq_or_ne j i with rfl | hj
  · rw [if_pos rfl, update_self]
  · rw [if_neg hj, update_of_ne hj]

/-- What is known of a directory that is a map. -/
theorem wellFormed_of_represents {m : List Byte → Option Nat} (h : Represents d.slots m)
    (ha : d.size % direntSize = 0) (hb : d.size ≤ MAXFILE * BSIZE) :
    d.WellFormed ∧ d.contents = m := by
  have hwf : d.WellFormed := by
    refine ⟨ha, hb, fun i j hi hj h0 h0' hname => ?_⟩
    exact h.distinct i j (key (nameOf (d.entry i))) _ _ (at_slots.2 ⟨hi, h0, rfl, rfl⟩)
      (at_slots.2 ⟨hj, h0', ((namecmp_eq_zero_iff _ _).1 hname).symm, rfl⟩)
  refine ⟨hwf, funext fun k => ?_⟩
  refine Option.ext fun v => ?_
  exact (hwf.represents.at_iff k v).trans (h.at_iff k v).symm

theorem setEntry_bounds (src : List Byte) (h : d.WellFormed)
    (hmax : i * direntSize + direntSize ≤ MAXFILE * BSIZE) :
    (d.setEntry i src).size % direntSize = 0 ∧ (d.setEntry i src).size ≤ MAXFILE * BSIZE := by
  refine ⟨?_, max_le h.bounded hmax⟩
  simp only [setEntry]
  rcases max_choice d.size (i * direntSize + direntSize) with e | e
  · rw [e]
    exact h.aligned
  · rw [e, Nat.add_mod_right, Nat.mul_mod_left]

variable {room : Bool}

/-- `writei` of a whole entry. -/
theorem WellFormed.writei_entry (h : d.WellFormed) (hi : i ≤ d.count)
    (hsrc : src.length = direntSize) (hmax : i * direntSize + direntSize ≤ MAXFILE * BSIZE)
    (hroom : i < d.count ∨ d.size % BSIZE ≠ 0 ∨ room = true) :
    d.writei room src (i * direntSize) = .ok (direntSize, d.setEntry i src) := by
  have hsize := h.size_eq
  have hbound := h.bounded
  have hb : MAXFILE * BSIZE = 71680 := rfl
  have h16 : direntSize = 16 := rfl
  have h512 : BSIZE = 512 := rfl
  have hle : i * direntSize ≤ d.size := by
    rw [hsize]
    exact Nat.mul_le_mul_right _ hi
  have hmapped : ¬ (d.size ≤ i * direntSize / BSIZE * BSIZE ∧ room = false) := by
    rintro ⟨hge, hno⟩
    rcases hroom with hlt | hne | hyes
    · have := h.lt_size hlt
      rw [h16, h512] at *
      omega
    · have : i * direntSize = d.size := by
        rw [h16, h512] at *
        omega
      rw [this] at hge
      rw [h512] at *
      omega
    · rw [hno] at hyes
      cases hyes
  rw [writei, hsrc, if_neg (by rw [h16] at *; omega), if_neg (by omega), if_neg hmapped]
  rfl

/-! ## `dirlink` and `sys_unlink` -/

/-- The number as it is stored: 0 is not a number of an entry in use. -/
def live (inum : Nat) : Option Nat := if inum % 2 ^ 16 = 0 then none else some (inum % 2 ^ 16)

/-- `d'` is `d` with an entry for `name` where none was in use: in an empty entry, or behind
the last. All other entries are the same. -/
def Adds (d d' : Dir) (name : Chars) (inum : Nat) : Prop :=
  ∃ i ≤ d.count, (i < d.count → inumOf (d.entry i) = 0) ∧ d'.count = max d.count (i + 1) ∧
    inumOf (d'.entry i) = inum % 2 ^ 16 ∧ namecmp name (nameOf (d'.entry i)) = 0 ∧
    ∀ j, j ≠ i → d'.entry j = d.entry j

section

variable (h : d.WellFormed)

include h

/-- **A name that is there** is not added. -/
theorem WellFormed.dirlink_fails {v : Nat}
    (hv : d.contents (key name) = some v) (room : Bool) (inum : Nat) :
    d.dirlink room name inum = .ok (-1, d) := by
  obtain ⟨i, _, hlookup⟩ := h.dirlookup_some hv
  rw [dirlink, hlookup]
  rfl

theorem wellFormed_add (hi : i ≤ d.count) (hempty : i < d.count → inumOf (d.entry i) = 0)
    (hmax : i * direntSize + direntSize ≤ MAXFILE * BSIZE)
    (hno : d.contents (key name) = none) (inum : Nat) :
    (d.setEntry i (direntBytes inum (key name))).WellFormed ∧
      (d.setEntry i (direntBytes inum (key name))).contents =
        update d.contents (key name) (live inum) := by
  have hslots := slots_setEntry (i := i) h (direntBytes_length inum name)
  have ho : (if inumOf (direntBytes inum (key name)) = 0 then none
      else some (key (nameOf (direntBytes inum (key name))),
        inumOf (direntBytes inum (key name)))) =
      (live inum).map fun v => (key name, v) := by
    rw [inumOf_direntBytes, key_direntBytes, live]
    split <;> rfl
  rw [ho] at hslots
  have hfree : ∀ k v, ¬ d.slots.At i k v := by
    intro k v hat
    obtain ⟨hlt, h0, _⟩ := at_slots.1 hat
    exact h0 (hempty hlt)
  obtain ⟨ha, hb⟩ := setEntry_bounds (direntBytes inum (key name)) h hmax
  refine wellFormed_of_represents ?_ ha hb
  rw [hslots]
  exact h.represents.add hi hfree hno (live inum)

theorem adds_setEntry (hi : i ≤ d.count)
    (hempty : i < d.count → inumOf (d.entry i) = 0) (inum : Nat) :
    Adds d (d.setEntry i (direntBytes inum (key name))) name inum := by
  have hentry := fun j => entry_setEntry (d := d) (i := i) (j := j) (direntBytes_length inum name)
  refine ⟨i, hi, hempty, count_setEntry h, ?_, ?_, fun j hj => ?_⟩
  · rw [hentry, if_pos rfl, inumOf_direntBytes]
  · rw [hentry, if_pos rfl, namecmp_eq_zero_iff, key_direntBytes]
  · rw [hentry, if_neg hj]

/-- What `dirlink` does with a name that is not there: it finds entry `i`, and writes it. -/
theorem WellFormed.dirlink_new (hno : d.contents (key name) = none) :
    ∃ i ≤ d.count, (i < d.count → inumOf (d.entry i) = 0) ∧
      (i = d.count → ∀ l < d.count, inumOf (d.entry l) ≠ 0) ∧
      ∀ room inum, d.dirlink room name inum =
        (do
          let (r, d') ← d.writei room (direntBytes inum (key name)) (i * direntSize)
          if r ≠ direntSize then throw .dirlink else pure (0, d')) := by
  have hfuel : d.count < 0 + (d.size + 1) := by
    have := Nat.div_le_self d.size direntSize
    rw [count]
    omega
  obtain ⟨i, _, hi, hres, hempty, hfull⟩ := h.emptyLoop_spec (d.size + 1) 0 hfuel (Nat.zero_le _)
  rw [Nat.zero_mul] at hres
  refine ⟨i, hi, hempty, fun e l => hfull e l (Nat.zero_le l), fun room inum => ?_⟩
  rw [dirlink, h.dirlookup_none hno]
  simp only [bind, Except.bind, hres]
  rfl

/-- **A new name** is added, if there is space. -/
theorem WellFormed.dirlink_adds (hno : d.contents (key name) = none)
    (hspace : d.HasSpace room) (inum : Nat) :
    ∃ d', d.dirlink room name inum = .ok (0, d') ∧ d'.WellFormed ∧
      d'.contents = update d.contents (key name) (live inum) ∧ Adds d d' name inum := by
  obtain ⟨i, hi, hempty, hfull, hres⟩ := h.dirlink_new hno
  have hgrows : i < d.count ∨ d.size < MAXFILE * BSIZE ∧ (d.size % BSIZE ≠ 0 ∨ room = true) := by
    rcases Nat.lt_or_eq_of_le hi with hlt | heq
    · exact .inl hlt
    · rcases hspace with ⟨l, hl, h0⟩ | hgrow
      · exact absurd h0 (hfull heq l hl)
      · exact .inr hgrow
  have hmax : i * direntSize + direntSize ≤ MAXFILE * BSIZE := by
    rcases Nat.lt_or_eq_of_le hi with hlt | heq
    · exact (h.lt_size hlt).trans h.bounded
    · have hsize := h.size_eq
      have hb : MAXFILE * BSIZE = 71680 := rfl
      have h16 : direntSize = 16 := rfl
      have hlt := (hgrows.resolve_left (by omega)).1
      rw [heq, ← hsize]
      have ha := h.aligned
      rw [h16] at *
      omega
  have hroom : i < d.count ∨ d.size % BSIZE ≠ 0 ∨ room = true := hgrows.imp id And.right
  refine ⟨_, ?_, (wellFormed_add h hi hempty hmax hno inum).1,
    (wellFormed_add h hi hempty hmax hno inum).2, adds_setEntry h hi hempty inum⟩
  rw [hres, h.writei_entry hi (direntBytes_length inum name) hmax hroom]
  simp [bind, Except.bind, pure, Except.pure]

/-- **Without space** `dirlink` panics: the directory is as large as it can be, or the disk
is full. -/
theorem WellFormed.dirlink_panics (hno : d.contents (key name) = none)
    (hspace : ¬ d.HasSpace room) (inum : Nat) : d.dirlink room name inum =
      .error (if d.size = MAXFILE * BSIZE then .dirlink else .outOfBlocks) := by
  obtain ⟨i, hi, hempty, _, hres⟩ := h.dirlink_new hno
  have hend : i = d.count := by
    by_contra hne
    have hlt : i < d.count := by omega
    exact hspace (.inl ⟨i, hlt, hempty hlt⟩)
  have hsize := h.size_eq
  have hbound := h.bounded
  have hb : MAXFILE * BSIZE = 71680 := rfl
  have h16 : direntSize = 16 := rfl
  have hlen := direntBytes_length inum name
  rw [hres, hend, ← hsize, writei, hlen, if_neg (by omega)]
  by_cases hfull : d.size = MAXFILE * BSIZE
  · rw [if_pos (by omega), if_pos hfull]
    rfl
  · have hgrow : ¬ (d.size % BSIZE ≠ 0 ∨ room = true) := fun hgrow =>
      hspace (.inr ⟨by omega, hgrow⟩)
    have hroom : room = false := by simpa using fun e => hgrow (.inr e)
    have hmod : d.size % BSIZE = 0 := by
      by_contra hne
      exact hgrow (.inl hne)
    have hblock : d.size ≤ d.size / BSIZE * BSIZE := by
      have := Nat.div_add_mod d.size BSIZE
      rw [Nat.mul_comm] at this
      omega
    have ha := h.aligned
    rw [h16] at ha
    rw [if_neg (by omega), if_pos ⟨hblock, hroom⟩, if_neg hfull]
    rfl

/-- What a call of `dirlink` that returns has done. -/
theorem WellFormed.dirlink_cases {inum : Nat} {r : Int}
    (hres : d.dirlink room name inum = .ok (r, d')) : (r = -1 ∧ d' = d) ∨ r = 0 ∧ d'.WellFormed ∧
      d'.contents = update d.contents (key name) (live inum) := by
  cases hv : d.contents (key name) with
  | some v =>
    rw [h.dirlink_fails hv] at hres
    cases hres
    exact .inl ⟨rfl, rfl⟩
  | none =>
    by_cases hspace : d.HasSpace room
    · obtain ⟨x, hx, hwf, hcontents, _⟩ := h.dirlink_adds hv hspace inum
      rw [hx] at hres
      cases hres
      exact .inr ⟨rfl, hwf, hcontents⟩
    · rw [h.dirlink_panics hv hspace] at hres
      cases hres

/-- **Removal.** `sys_unlink` fails and changes nothing, or takes the name away. -/
theorem WellFormed.unlink_cases (name : Chars) (ok : Bool) : (d.unlink name ok = .ok (-1, d) ∧
      (ok = false ∨ d.contents (key name) = none ∨ namecmp name dot = 0 ∨
        namecmp name dotdot = 0)) ∨ ∃ d', d.unlink name ok = .ok (0, d') ∧ d'.WellFormed ∧
      d'.contents = update d.contents (key name) none := by
  by_cases hdots : namecmp name dot = 0 ∨ namecmp name dotdot = 0
  · refine .inl ⟨?_, .inr (.inr hdots)⟩
    rw [unlink, if_pos hdots]
    rfl
  cases hv : d.contents (key name) with
  | none =>
    refine .inl ⟨?_, .inr (.inl rfl)⟩
    rw [unlink, if_neg hdots, h.dirlookup_none hv]
    rfl
  | some v =>
    obtain ⟨i, hat, hlookup⟩ := h.dirlookup_some hv
    cases ok with
    | false =>
      refine .inl ⟨?_, .inl rfl⟩
      rw [unlink, if_neg hdots, hlookup]
      rfl
    | true =>
      have hlt := (at_slots.1 hat).1
      have hmax := (h.lt_size hlt).trans h.bounded
      have hlen : (List.replicate direntSize (0 : Byte)).length = direntSize :=
        List.length_replicate
      have hslots := slots_setEntry (i := i) h hlen
      rw [if_pos (by decide)] at hslots
      obtain ⟨ha, hb⟩ := setEntry_bounds (List.replicate direntSize (0 : Byte)) h hmax
      obtain ⟨hwf, hcontents⟩ := wellFormed_of_represents
        (by rw [hslots]; exact h.represents.erase hat) ha hb
      refine .inr ⟨_, ?_, hwf, hcontents⟩
      rw [unlink, if_neg hdots, hlookup]
      simp only [bind, Except.bind]
      rw [h.writei_entry (Nat.le_of_lt hlt) hlen hmax (.inl hlt)]
      rfl

end

end Dir

/-! ## Runs -/

/-- What a name is mapped to after the operations of a log, the last one first: the number of
the last `dirlink` of an equal name that has not been removed since. -/
def last (m : List Byte → Option Nat) : List Event → List Byte → Option Nat
  | [], k => m k
  | .looked _ _ :: log, k => last m log k
  | .linked name inum r :: log, k => if r = 0 ∧ key name = k then Dir.live inum else last m log k
  | .unlinked name r :: log, k => if r = 0 ∧ key name = k then none else last m log k

open Dir

variable {d d' d0 : Dir} {log log' : List Event}

theorem last_linked (m : List Byte → Option Nat) (name : Chars) (inum : Nat) :
    last m (.linked name inum 0 :: log) = update (last m log) (key name) (live inum) := by
  funext k
  simp only [last, update_apply, true_and]
  exact if_congr eq_comm rfl rfl

theorem last_unlinked (m : List Byte → Option Nat) (name : Chars) :
    last m (.unlinked name 0 :: log) = update (last m log) (key name) none := by
  funext k
  simp only [last, update_apply, true_and]
  exact if_congr eq_comm rfl rfl

theorem step_keeps {op : Op} (h : d.WellFormed) {es : List Event}
    (hs : step d op = some (d', es)) {m : List Byte → Option Nat}
    (hm : d.contents = last m log) : d'.WellFormed ∧ d'.contents = last m (es ++ log) := by
  cases op with
  | lookup name =>
    simp only [step] at hs
    split at hs <;> cases hs
    · exact ⟨h, hm⟩
    · exact ⟨h, hm⟩
  | link room name inum =>
    simp only [step] at hs
    split at hs
    · rename_i r x hres
      cases hs
      rcases h.dirlink_cases hres with ⟨rfl, rfl⟩ | ⟨rfl, hwf, hcontents⟩
      · exact ⟨h, hm⟩
      · exact ⟨hwf, by rw [hcontents, hm]; exact (last_linked m name inum).symm⟩
    · cases hs
  | unlink name ok =>
    simp only [step] at hs
    split at hs
    · rename_i r x hres
      cases hs
      rcases h.unlink_cases name ok with ⟨e, _⟩ | ⟨y, e, hwf, hcontents⟩
      · rw [e] at hres
        cases hres
        exact ⟨h, hm⟩
      · rw [e] at hres
        cases hres
        exact ⟨hwf, by rw [hcontents, hm]; exact (last_unlinked m name).symm⟩
    · cases hs

theorem contents_of_run (h0 : d0.WellFormed) (hr : Run (recording step) free (d0, []) (d, log)) :
    d.WellFormed ∧ d.contents = last d0.contents log := by
  refine hr.invariant (I := fun x => x.1.WellFormed ∧ x.1.contents = last d0.contents x.2)
    ⟨h0, rfl⟩ ?_
  rintro ⟨d, log⟩ op ⟨d', log'⟩ ⟨h, hm⟩ hrec _
  obtain ⟨es, hs, rfl⟩ := recording_some hrec
  exact step_keeps h hs hm

/-- **A directory is a finite map.** After any operations on a well-formed directory no two
entries in use have equal names, and `dirlookup` finds the number of the last `dirlink` of
an equal name that has not been removed since. `dirlink` returns -1 exactly if the name is
there, and changes nothing then; where there is space for an entry it adds exactly that
entry otherwise. Removal takes the name away, or changes nothing because the name is not there,
is one of `.` and `..`, or its inode may not be unlinked. No operation changes what another
name is mapped to. -/
theorem directory_map (h0 : d0.WellFormed) (hr : Run (recording step) free (d0, []) (d, log)) :
    d.WellFormed ∧ (∀ name, d.maps name = .ok (last d0.contents log (key name))) ∧
    (∀ room name inum, last d0.contents log (key name) ≠ none →
      d.dirlink room name inum = .ok (-1, d)) ∧
    (∀ room name inum, last d0.contents log (key name) = none → d.HasSpace room →
      ∃ d', d.dirlink room name inum = .ok (0, d') ∧ Adds d d' name inum ∧
        d'.maps name = .ok (live inum) ∧
        ∀ name', namecmp name' name ≠ 0 → d'.maps name' = d.maps name') ∧
    ∀ name ok, (d.unlink name ok = .ok (-1, d) ∧
        (ok = false ∨ last d0.contents log (key name) = none ∨ namecmp name dot = 0 ∨
          namecmp name dotdot = 0)) ∨
      ∃ d', d.unlink name ok = .ok (0, d') ∧ d'.maps name = .ok none ∧
        ∀ name', namecmp name' name ≠ 0 → d'.maps name' = d.maps name' := by
  obtain ⟨h, hm⟩ := contents_of_run h0 hr
  have hothers : ∀ {d' : Dir} {name : Chars} {o : Option Nat}, d'.WellFormed →
      d'.contents = update d.contents (key name) o →
      d'.maps name = .ok o ∧ ∀ name', namecmp name' name ≠ 0 → d'.maps name' = d.maps name' := by
    intro d' name o hwf hcontents
    refine ⟨?_, fun name' hne => ?_⟩
    · rw [hwf.maps_eq, hcontents, update_self]
    · have hkey : key name' ≠ key name := fun e => hne ((namecmp_eq_zero_iff _ _).2 e)
      rw [hwf.maps_eq, hcontents, update_of_ne hkey, h.maps_eq]
  rw [← hm]
  refine ⟨h, h.maps_eq, fun room name inum hv => ?_, fun room name inum hno hspace => ?_,
    fun name ok => ?_⟩
  · obtain ⟨v, hv⟩ := Option.ne_none_iff_exists'.1 hv
    exact h.dirlink_fails hv room inum
  · obtain ⟨d', hres, hwf, hcontents, hadds⟩ := h.dirlink_adds hno hspace inum
    exact ⟨d', hres, hadds, hothers hwf hcontents⟩
  · rcases h.unlink_cases name ok with e | ⟨d', e, hwf, hcontents⟩
    · exact .inl e
    · exact .inr ⟨d', e, hothers hwf hcontents⟩

/-- A directory without entries. -/
def noEntries : Dir := ⟨0, fun _ => 0⟩

theorem noEntries_wellFormed : noEntries.WellFormed :=
  ⟨rfl, Nat.zero_le _, fun _ _ hi => absurd hi (Nat.not_lt_zero _)⟩

/-- A name of one character is added, removed and added again. -/
def relinked : List Op :=
  [.link true (Chars.lit [97]) 5, .link true (Chars.lit [98]) 6, .unlink (Chars.lit [97]) true,
    .link true (Chars.lit [97]) 7]

theorem directory_map_relinked :
    (final (recording step) (noEntries, []) relinked).1.maps (Chars.lit [97]) = .ok (some 7) := by
  have hrun : Run (recording step) free (noEntries, [])
      (final (recording step) (noEntries, []) relinked) := run_free
  rw [(directory_map noEntries_wellFormed (by rw [Prod.mk.eta]; exact hrun)).2.1]
  have hlast : last noEntries.contents (final (recording step) (noEntries, []) relinked).2
      (key (Chars.lit [97])) = some 7 := by decide +kernel
  rw [hlast]

/-! ## A full directory -/

/-- Names that are all different. -/
def numbered (k : Nat) : Chars :=
  Chars.lit [BitVec.ofNat 8 (1 + k % 128), BitVec.ofNat 8 (1 + k / 128)]

theorem ofNat_inj {a b : Nat} (ha : a < 256) (hb : b < 256)
    (h : (BitVec.ofNat 8 a : Byte) = BitVec.ofNat 8 b) : a = b := by
  have hnat := congrArg BitVec.toNat h
  rw [BitVec.toNat_ofNat, BitVec.toNat_ofNat] at hnat
  omega

theorem numbered_first (k : Nat) : numbered k 0 ≠ 0 := by
  intro h
  have := ofNat_inj (show 1 + k % 128 < 256 by omega) (show 0 < 256 by decide) h
  omega

theorem key_numbered_inj {j k : Nat} (hj : j < 4480) (hk : k < 4480)
    (h : key (numbered j) = key (numbered k)) : j = k := by
  have h1 : 1 + j % 128 = 1 + k % 128 := ofNat_inj (by omega) (by omega) (key_first h)
  have h2 : 1 + j / 128 = 1 + k / 128 :=
    ofNat_inj (by omega) (by omega) (key_second h (numbered_first j))
  omega

/-- The name that is still to be added. -/
def extra : Chars := Chars.lit [120]

theorem key_extra_ne {k : Nat} (hk : k < 4480) : key (numbered k) ≠ key extra := by
  intro h
  have h2 : 1 + k / 128 = 0 := ofNat_inj (by omega) (by decide) (key_second h (numbered_first k))
  omega

/-- The directory can be filled with any number of names that it has space for. -/
theorem filled (n : Nat) (hn : n ≤ 4480) :
    ∃ d log, Run (recording step) free (noEntries, []) (d, log) ∧ d.count = n ∧
      (∀ i < n, inumOf (d.entry i) ≠ 0) ∧ d.contents (key extra) = none ∧
      ∀ k, n ≤ k → k < 4480 → d.contents (key (numbered k)) = none := by
  induction n with
  | zero =>
    exact ⟨noEntries, [], .refl, rfl, fun i hi => absurd hi (Nat.not_lt_zero i), rfl,
      fun _ _ _ => rfl⟩
  | succ n ih =>
    obtain ⟨d, log, hrun, hcount, hlive, hextra, hfree⟩ := ih (by omega)
    have hwf := (contents_of_run noEntries_wellFormed hrun).1
    have hb : MAXFILE * BSIZE = 71680 := rfl
    have h16 : direntSize = 16 := rfl
    have hsize := hwf.size_eq
    have hspace : d.HasSpace true := .inr ⟨by rw [hcount, h16] at hsize; omega, .inr rfl⟩
    obtain ⟨d', hres, _, hcontents, i, hi, hempty, hcount', hinum, _, hentries⟩ :=
      hwf.dirlink_adds (hfree n le_rfl (by omega)) hspace 1
    -- there is no empty entry, so the new one is behind the last
    have hend : i = n := by
      by_contra hne
      exact hlive i (by omega) (hempty (by omega))
    have hstep : recording step (d, log) (.link true (numbered n) 1) =
        some (d', [.linked (numbered n) 1 0] ++ log) := by
      simp only [recording, step, hres, Option.map_some]
    refine ⟨d', _, .next hrun hstep trivial, by omega, fun j hj => ?_, ?_, fun k hk hk' => ?_⟩
    · rcases eq_or_ne j i with rfl | hji
      · rw [hinum]
        decide
      · rw [hentries j hji]
        exact hlive j (by omega)
    · rw [hcontents, update_of_ne (Ne.symm (key_extra_ne (by omega)))]
      exact hextra
    · have hne : key (numbered k) ≠ key (numbered n) := fun e => by
        have := key_numbered_inj hk' (by omega) e
        omega
      rw [hcontents, update_of_ne hne]
      exact hfree k (by omega) hk'

/-- **A full directory.** After 4480 names have been added to an empty directory another name is
not there, but `dirlink` panics instead of adding it. -/
theorem dirlink_full :
    ∃ d log, Run (recording step) free (noEntries, []) (d, log) ∧ d.maps extra = .ok none ∧
      d.dirlink true extra 1 = .error .dirlink := by
  obtain ⟨d, log, hrun, hcount, hlive, hextra, _⟩ := filled 4480 le_rfl
  have hwf := (contents_of_run noEntries_wellFormed hrun).1
  have hsize : d.size = MAXFILE * BSIZE := by
    rw [hwf.size_eq, hcount]
    rfl
  have hspace : ¬ d.HasSpace true := by
    rintro (⟨i, hi, h0⟩ | ⟨hlt, _⟩)
    · exact hlive i (by omega) h0
    · omega
  refine ⟨d, log, hrun, by rw [hwf.maps_eq, hextra], ?_⟩
  rw [hwf.dirlink_panics hextra hspace, if_pos hsize]

end Xv6.Dirs
