import Mathlib.Data.List.Chain
import Mathlib.Data.List.Nodup
import Mathlib.Logic.Function.Basic

/-! Circular doubly linked lists with a sentinel, at the level of the links. `Ring k h l`
says that following `next` from the sentinel `h` visits exactly the nodes of `l`, in
order, and comes back, and that `prev` is the way back. -/

namespace Rings

open Function

variable {α : Type*}

structure Links (α : Type*) where
  next : α → α
  prev : α → α

/-- `a` and `b` are neighbours. -/
def Links.Edge (k : Links α) (a b : α) : Prop := k.next a = b ∧ k.prev b = a

def Ring (k : Links α) (h : α) (l : List α) : Prop :=
  List.IsChain k.Edge (h :: l ++ [h]) ∧ (h :: l).Nodup

variable {k : Links α} {h x a b : α} {l l1 l2 : List α}

/-- The sentinel alone, linked to itself. -/
theorem Ring.alone (hn : k.next h = h) (hp : k.prev h = h) : Ring k h [] := by
  simp [Ring, Links.Edge, hn, hp]

theorem Ring.notMem (hr : Ring k h (l1 ++ x :: l2)) : x ∉ h :: (l1 ++ l2) := by
  have hnd : ((h :: l1) ++ x :: l2).Nodup := hr.2
  exact (List.nodup_middle.1 hnd).notMem

variable [DecidableEq α]

/-- Take `x` out: `x->next->prev = x->prev`, then `x->prev->next = x->next`. -/
def Links.unlink (k : Links α) (x : α) : Links α :=
  let k := { k with prev := update k.prev (k.next x) (k.prev x) }
  { k with next := update k.next (k.prev x) (k.next x) }

/-- Put `x` behind `h`, in four assignments. -/
def Links.pushFront (k : Links α) (h x : α) : Links α :=
  let k := { k with next := update k.next x (k.next h) }
  let k := { k with prev := update k.prev x h }
  let k := { k with prev := update k.prev (k.next h) x }
  { k with next := update k.next h x }

/-- The edges that do not touch `x` survive when it is taken out. -/
theorem Links.Edge.unlink (hp : k.Edge a x) (hn : k.Edge x b) {c d : α} (he : k.Edge c d)
    (hc : c ≠ x) (hd : d ≠ x) : (k.unlink x).Edge c d := by
  obtain ⟨hp1, hp2⟩ := hp
  obtain ⟨hn1, hn2⟩ := hn
  obtain ⟨he1, he2⟩ := he
  have hx : k.next x ≠ d := by
    intro heq
    exact hc (by rw [← he2, ← heq, hn1, hn2])
  have hy : k.prev x ≠ c := by
    intro heq
    exact hd (by rw [← he1, ← heq, hp2, hp1])
  have hpx : update k.prev (k.next x) (k.prev x) x = k.prev x := by
    by_cases hxx : x = k.next x
    · rw [← hxx, update_self]
    · rw [update_of_ne hxx]
  refine ⟨?_, ?_⟩
  · simp only [Links.unlink, hpx]
    rw [update_of_ne (Ne.symm hy), he1]
  · simp only [Links.unlink]
    rw [update_of_ne (Ne.symm hx), he2]

/-- The two neighbours of `x` become neighbours. -/
theorem Links.Edge.join (hp : k.Edge a x) (hn : k.Edge x b) (hb : b ≠ x) :
    (k.unlink x).Edge a b := by
  obtain ⟨-, hp2⟩ := hp
  obtain ⟨hn1, -⟩ := hn
  subst hp2 hn1
  have hpx : update k.prev (k.next x) (k.prev x) x = k.prev x := update_of_ne hb.symm ..
  simp [Links.unlink, Links.Edge, hpx]

theorem Ring.unlink (hr : Ring k h (l1 ++ x :: l2)) : Ring (k.unlink x) h (l1 ++ l2) := by
  have hx := hr.notMem
  obtain ⟨hchain, hnd⟩ := hr
  have hsplit : h :: (l1 ++ x :: l2) ++ [h] = (h :: l1) ++ x :: (l2 ++ [h]) := by simp
  rw [hsplit, List.isChain_append] at hchain
  obtain ⟨hleft, hright, hmid⟩ := hchain
  rw [List.isChain_cons] at hright
  obtain ⟨hfirst, hright⟩ := hright
  simp only [List.mem_cons, List.mem_append, not_or] at hx
  obtain ⟨hxh, hx1, hx2⟩ := hx
  -- The neighbours of `x`.
  obtain ⟨a, ha⟩ : ∃ a, a ∈ (h :: l1).getLast? := ⟨_, List.getLast?_eq_some_getLast (by simp)⟩
  obtain ⟨b, hb⟩ : ∃ b, b ∈ (l2 ++ [h]).head? := by
    cases l2 <;> simp
  have hpa : k.Edge a x := hmid a ha x rfl
  have hnb : k.Edge x b := hfirst b hb
  have hbx : b ≠ x := by
    have := List.mem_of_mem_head? hb
    rintro rfl
    simp_all
  have hgood (l : List α) (hl : List.IsChain k.Edge l) (hxl : x ∉ l) :
      List.IsChain (k.unlink x).Edge l :=
    hl.imp_of_mem_imp fun c d hc hd he => hpa.unlink hnb he
      (fun heq => hxl (heq ▸ hc)) (fun heq => hxl (heq ▸ hd))
  refine ⟨?_, ?_⟩
  · have hjoin : h :: (l1 ++ l2) ++ [h] = (h :: l1) ++ (l2 ++ [h]) := by simp
    rw [hjoin, List.isChain_append]
    refine ⟨hgood _ hleft (by simp [hxh, hx1]), hgood _ hright (by simp [hxh, hx2]), ?_⟩
    intro c hc d hd
    obtain rfl : c = a := Option.mem_unique hc ha
    obtain rfl : d = b := Option.mem_unique hd hb
    exact hpa.join hnb hbx
  · exact hnd.sublist (by simp)

/-- The edges that do not leave `h` and do not touch `x` survive when `x` is put behind `h`. -/
theorem Links.Edge.pushFront (hh : k.Edge h b) {c d : α} (he : k.Edge c d) (hc : c ≠ h)
    (hcx : c ≠ x) (hdx : d ≠ x) (hxh : x ≠ h) : (k.pushFront h x).Edge c d := by
  obtain ⟨hh1, hh2⟩ := hh
  obtain ⟨he1, he2⟩ := he
  have hd : d ≠ k.next h := by
    intro heq
    exact hc (by rw [← he2, heq, hh1, hh2])
  refine ⟨?_, ?_⟩
  · simp only [Links.pushFront]
    rw [update_of_ne hc, update_of_ne hcx, he1]
  · simp only [Links.pushFront]
    rw [update_of_ne hxh.symm, update_of_ne hd, update_of_ne hdx, he2]

theorem Ring.pushFront (hr : Ring k h l) (hx : x ∉ h :: l) : Ring (k.pushFront h x) h (x :: l) := by
  obtain ⟨hchain, hnd⟩ := hr
  simp only [List.mem_cons, not_or] at hx
  obtain ⟨hxh, hxl⟩ := hx
  have hhl : h ∉ l := (List.nodup_cons.1 hnd).1
  have hrest : List.IsChain k.Edge (l ++ [h]) := hchain.tail
  rw [List.isChain_append] at hrest
  obtain ⟨hmid, -, hlast⟩ := hrest
  -- The old first node, or the sentinel itself.
  obtain ⟨b, hb⟩ : ∃ b, b ∈ (l ++ [h]).head? := by
    cases l <;> simp
  have hhb : k.Edge h b := (List.isChain_cons.1 hchain).1 b hb
  have hbx : b ≠ x := by
    have := List.mem_of_mem_head? hb
    rintro rfl
    simp_all
  have hkeep {c d : α} (he : k.Edge c d) (hc : c ∈ l) (hd : d ≠ x) : (k.pushFront h x).Edge c d :=
    hhb.pushFront he (fun heq => hhl (heq ▸ hc)) (fun heq => hxl (heq ▸ hc)) hd hxh
  refine ⟨?_, ?_⟩
  · show List.IsChain _ (h :: x :: (l ++ [h]))
    rw [List.isChain_cons_cons, List.isChain_cons, List.isChain_append]
    refine ⟨?_, ?_, ?_, .singleton _, ?_⟩
    · have hne : x ≠ k.next h := hhb.1 ▸ hbx.symm
      simp [Links.pushFront, Links.Edge, update_of_ne hne, update_of_ne (Ne.symm hxh)]
    · intro d hd
      obtain rfl : d = b := Option.mem_unique hd hb
      simp [Links.pushFront, Links.Edge, update_of_ne hxh, update_of_ne (Ne.symm hxh), hhb.1]
    · exact hmid.imp_of_mem_imp fun c d hc hd he => hkeep he hc fun heq => hxl (heq ▸ hd)
    · intro c hc d hd
      obtain rfl : d = h := by simpa using hd.symm
      exact hkeep (hlast c hc d rfl) (List.mem_of_mem_getLast? hc) (Ne.symm hxh)
  · simp_all [eq_comm]

theorem Ring.moveFront (hr : Ring k h (l1 ++ x :: l2)) :
    Ring ((k.unlink x).pushFront h x) h (x :: (l1 ++ l2)) :=
  hr.unlink.pushFront hr.notMem

/-- The loop `for (x = step(h); x != h; x = step(x)) if (p(x)) …`, from `x` on: the node at
which it stops. -/
def search (step : α → α) (h : α) (p : α → Bool) : Nat → α → Option α
  | 0, _ => none
  | n + 1, x => if x = h then none else if p x then some x else search step h p n (step x)

variable {p : α → Bool}

theorem search_sound {step : α → α} {x y : α} {n : Nat} (hs : search step h p n x = some y) :
    p y = true := by
  induction n generalizing x with
  | zero => cases hs
  | succ n ih =>
    simp only [search] at hs
    split at hs
    · cases hs
    · split at hs
      · rename_i hp
        cases hs
        exact hp
      · exact ih hs

/-- A walk along a chain that ends at `h` finds what is first on it. -/
theorem search_chain {step : α → α} {l : List α} {x : α} {n : Nat}
    (hl : List.IsChain (fun a b => step a = b) (x :: l ++ [h])) (hh : h ∉ x :: l)
    (hn : l.length + 1 < n) : search step h p n x = (x :: l).find? p := by
  induction l generalizing x n with
  | nil =>
    obtain ⟨m, rfl⟩ : ∃ m, n = m + 2 := ⟨n - 2, by simp at hn; omega⟩
    have hx : x ≠ h := by simpa [eq_comm] using hh
    have hstep : step x = h := by simpa using hl
    by_cases hp : p x <;> simp [search, hx, hp, hstep]
  | cons y l ih =>
    obtain ⟨m, rfl⟩ : ∃ m, n = m + 1 := ⟨n - 1, by omega⟩
    have hx : x ≠ h := by
      rintro rfl
      simp at hh
    simp only [List.cons_append, List.isChain_cons_cons] at hl
    obtain ⟨hstep, hrest⟩ := hl
    have hy := ih (x := y) (n := m) hrest (fun hm => hh (List.mem_cons_of_mem _ hm))
      (by simp at hn ⊢; omega)
    by_cases hp : p x
    · simp [search, hx, hp]
    · simp only [search, if_neg hx, if_neg hp, hstep, hy]
      simp [hp]

/-- The loop over `next` looks at the ring in its order. -/
theorem Ring.search_next {l : List α} {n : Nat} (hr : Ring k h l) (hn : l.length < n) :
    search k.next h p n (k.next h) = l.find? p := by
  obtain ⟨hchain, hnd⟩ := hr
  have hstep : List.IsChain (fun a b => k.next a = b) (h :: l ++ [h]) :=
    hchain.imp fun _ _ he => he.1
  cases l with
  | nil =>
    obtain ⟨m, rfl⟩ : ∃ m, n = m + 1 := ⟨n - 1, by omega⟩
    have hh : k.next h = h := by simpa using hstep
    simp [search, hh]
  | cons x l =>
    simp only [List.cons_append, List.isChain_cons_cons] at hstep
    rw [hstep.1]
    exact search_chain hstep.2 (List.nodup_cons.1 hnd).1 hn

end Rings
