import Mathlib.Data.Option.Basic
import Mathlib.Logic.Function.Basic
import Mathlib.Order.Basic

/-! A finite map in a table of slots. A slot is empty or has a key with its value, and no key
is in two slots. A new key goes into an empty slot or into one behind the last, and a key
is taken away by emptying its slot. -/

namespace Slots

open Function

variable {κ ν : Type*}

/-- The slots below `count` are in the table. -/
structure Table (κ ν : Type*) where
  count : ℕ
  slot : ℕ → Option (κ × ν)

variable {S : Table κ ν} {m : κ → Option ν} {k k' : κ} {v v' : ν} {i j : ℕ}

/-- Key `k` is in slot `i`, with the value `v`. -/
def Table.At (S : Table κ ν) (i : ℕ) (k : κ) (v : ν) : Prop := i < S.count ∧ S.slot i = some (k, v)

/-- The table is the map `m`, and no key is in it twice. -/
structure Represents (S : Table κ ν) (m : κ → Option ν) : Prop where
  distinct : ∀ i j k v v', S.At i k v → S.At j k v' → i = j
  at_iff : ∀ k v, m k = some v ↔ ∃ i, S.At i k v

theorem Represents.absent (h : Represents S m) : m k = none ↔ ∀ i v, ¬ S.At i k v := by
  rw [Option.eq_none_iff_forall_ne_some]
  constructor
  · intro hno i v hi
    exact hno v ((h.at_iff k v).2 ⟨i, hi⟩)
  · intro hno v hv
    obtain ⟨i, hi⟩ := (h.at_iff k v).1 hv
    exact hno i v hi

theorem Represents.of_at (h : Represents S m) (hi : S.At i k v) : m k = some v :=
  (h.at_iff k v).2 ⟨i, hi⟩

/-- Slot `i`, which may be the one behind the last, gets new contents. -/
def Table.set (S : Table κ ν) (i : ℕ) (o : Option (κ × ν)) : Table κ ν :=
  ⟨max S.count (i + 1), update S.slot i o⟩

/-- What is where after slot `i` has got the contents `o`. -/
theorem at_set_iff {o : Option (κ × ν)} (hi : i ≤ S.count) :
    (S.set i o).At j k v ↔ j = i ∧ o = some (k, v) ∨ j ≠ i ∧ S.At j k v := by
  simp only [Table.At, Table.set]
  rcases eq_or_ne j i with rfl | hj
  · rw [update_self]
    constructor
    · rintro ⟨_, ho⟩
      exact .inl ⟨rfl, ho⟩
    · rintro (⟨_, ho⟩ | ⟨hne, _⟩)
      · exact ⟨by omega, ho⟩
      · exact absurd rfl hne
  · rw [update_of_ne hj]
    constructor
    · rintro ⟨hlt, hslot⟩
      exact .inr ⟨hj, by omega, hslot⟩
    · rintro (⟨e, _⟩ | ⟨_, hlt, hslot⟩)
      · exact absurd e hj
      · exact ⟨by omega, hslot⟩

variable [DecidableEq κ]

/-- **A new key.** The slot is empty or behind the last, and the key is not in the table. -/
theorem Represents.add (h : Represents S m) (hi : i ≤ S.count) (hfree : ∀ k v, ¬ S.At i k v)
    (hk : m k = none) (o : Option ν) :
    Represents (S.set i (o.map fun v => (k, v))) (update m k o) := by
  have hno := h.absent.1 hk
  have hset : ∀ j k' v', (S.set i (o.map fun v => (k, v))).At j k' v' ↔
      j = i ∧ k' = k ∧ o = some v' ∨ S.At j k' v' := by
    intro j k' v'
    rw [at_set_iff hi]
    constructor
    · rintro (⟨e, ho⟩ | ⟨_, hj⟩)
      · obtain ⟨v, hv, e'⟩ := Option.map_eq_some_iff.1 ho
        obtain ⟨rfl, rfl⟩ := Prod.mk.inj e'
        exact .inl ⟨e, rfl, hv⟩
      · exact .inr hj
    · rintro (⟨e, rfl, rfl⟩ | hj)
      · exact .inl ⟨e, rfl⟩
      · refine .inr ⟨?_, hj⟩
        rintro rfl
        exact hfree k' v' hj
  constructor
  · intro a b k' v v' ha hb
    rcases (hset a k' v).1 ha with ⟨rfl, rfl, _⟩ | hold
    · rcases (hset b k' v').1 hb with ⟨rfl, _, _⟩ | hold'
      · rfl
      · exact absurd hold' (hno b v')
    · rcases (hset b k' v').1 hb with ⟨rfl, rfl, _⟩ | hold'
      · exact absurd hold (hno a v)
      · exact h.distinct a b k' v v' hold hold'
  · intro k' v'
    simp only [hset]
    rcases eq_or_ne k' k with rfl | hne
    · rw [update_self]
      constructor
      · intro ho
        exact ⟨i, .inl ⟨rfl, rfl, ho⟩⟩
      · rintro ⟨j, ⟨_, _, ho⟩ | hj⟩
        · exact ho
        · exact absurd hj (hno j v')
    · rw [update_of_ne hne, h.at_iff]
      constructor
      · rintro ⟨j, hj⟩
        exact ⟨j, .inr hj⟩
      · rintro ⟨j, ⟨_, e, _⟩ | hj⟩
        · exact absurd e hne
        · exact ⟨j, hj⟩

/-- **A key is taken away.** -/
theorem Represents.erase (h : Represents S m) (hi : S.At i k v) :
    Represents (S.set i none) (update m k none) := by
  have hset : ∀ j k' v', (S.set i none).At j k' v' ↔ j ≠ i ∧ S.At j k' v' := by
    intro j k' v'
    rw [at_set_iff (Nat.le_of_lt hi.1)]
    exact or_iff_right fun hno => absurd hno.2 (by simp)
  constructor
  · intro a b k' v v' ha hb
    exact h.distinct a b k' v v' ((hset a k' v).1 ha).2 ((hset b k' v').1 hb).2
  · intro k' v'
    simp only [hset]
    rcases eq_or_ne k' k with rfl | hne
    · rw [update_self]
      refine iff_of_false (by simp) ?_
      rintro ⟨j, hj, hat⟩
      exact hj (h.distinct j i k' v' v hat hi)
    · rw [update_of_ne hne, h.at_iff]
      constructor
      · rintro ⟨j, hj⟩
        refine ⟨j, ?_, hj⟩
        rintro rfl
        have := hj.2.symm.trans hi.2
        exact hne (Prod.mk.inj (Option.some.inj this)).1
      · rintro ⟨j, _, hj⟩
        exact ⟨j, hj⟩

end Slots
