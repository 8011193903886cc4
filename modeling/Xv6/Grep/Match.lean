import Xv6.Format.Dirents

/-! The matcher of `grep.c`. A string is the list of its characters before the NUL, so that
`re[0] == '\0'` is the empty list. The functions are structurally recursive: the text of
`matchstar` and of the loop of `match` gets shorter, and so does the expression of
`matchhere`.

The meaning of an expression is a sequence of items, and every item has a language. What an
item matches may depend on what follows it in the text: `$` stands for the empty word in
front of nothing. -/

namespace Xv6.Grep

open Format

/-- The characters of a string, without the NUL. -/
abbrev Str := List Byte

def star : Byte := 42
def dot : Byte := 46
def dollar : Byte := 36
def caret : Byte := 94

/-- `matchstar`; `here` is `matchhere` with the rest of the expression. -/
def matchstar (here : Str → Bool) (c : Byte) : Str → Bool
  | [] => here []
  | b :: text => here (b :: text) || ((b == c || c == dot) && matchstar here c text)

/-- The last test of `matchhere`: one character of the text. -/
def matchone (here : Str → Bool) (c : Byte) : Str → Bool
  | [] => false
  | b :: text => (c == dot || c == b) && here text

def matchhere : Str → Str → Bool
  | [], _ => true
  | [c], text => if c = dollar then text.isEmpty else matchone (fun t => matchhere [] t) c text
  | c :: d :: re, text =>
    if d = star then matchstar (fun t => matchhere re t) c text
    else matchone (fun t => matchhere (d :: re) t) c text

/-- The loop of `match`. -/
def matchany (re : Str) : Str → Bool
  | [] => matchhere re []
  | b :: text => matchhere re (b :: text) || matchany re text

/-- The function `match`. -/
def matchText (re text : Str) : Bool :=
  if re.head? = some caret then matchhere re.tail text else matchany re text

/-! ## The language of an expression -/

inductive Item
  | star (c : Byte)
  | any
  | lit (c : Byte)
  | eot
  deriving DecidableEq, Repr

def Item.single (c : Byte) : Item := if c = dot then .any else .lit c

/-- The items of an expression, read from left to right. -/
def items : Str → List Item
  | [] => []
  | [c] => [if c = dollar then .eot else .single c]
  | c :: d :: re =>
    if d = Grep.star then .star c :: items re else .single c :: items (d :: re)

/-- The words `w` an item stands for in front of the text `after`. -/
def Item.Lang (w after : Str) : Item → Prop
  | .star c => ∀ b ∈ w, c = dot ∨ b = c
  | .any => ∃ b, w = [b]
  | .lit c => w = [c]
  | .eot => w = [] ∧ after = []

/-- The words a sequence of items stands for in front of the text `after`. -/
def Lang (after : Str) : List Item → Str → Prop
  | [], w => w = []
  | i :: is, w => ∃ u v, w = u ++ v ∧ i.Lang u (v ++ after) ∧ Lang after is v

/-- Some beginning of the text is in the language. -/
def Begins (is : List Item) (text : Str) : Prop :=
  ∃ w after, text = w ++ after ∧ Lang after is w

theorem begins_nil (text : Str) : Begins [] text := ⟨[], text, rfl, rfl⟩

variable {text : Str}

theorem begins_cons {i : Item} {is : List Item} :
    Begins (i :: is) text ↔ ∃ u t, text = u ++ t ∧ i.Lang u t ∧ Begins is t := by
  constructor
  · rintro ⟨w, after, rfl, u, v, rfl, hi, his⟩
    exact ⟨u, v ++ after, List.append_assoc u v after, hi, v, after, rfl, his⟩
  · rintro ⟨u, t, rfl, hi, v, after, rfl, his⟩
    exact ⟨u ++ v, after, (List.append_assoc u v after).symm, u, v, rfl, hi, his⟩

theorem begins_eot : Begins [.eot] text ↔ text = [] := by
  rw [begins_cons]
  constructor
  · rintro ⟨u, t, rfl, ⟨rfl, rfl⟩, -⟩
    rfl
  · rintro rfl
    exact ⟨[], [], rfl, ⟨rfl, rfl⟩, begins_nil []⟩

/-! ## The functions against the language -/

variable {here : Str → Bool}

theorem matchstar_iff {c : Byte} : matchstar here c text = true ↔
      ∃ u t, text = u ++ t ∧ (Item.star c).Lang u t ∧ here t = true := by
  induction text with
  | nil =>
    rw [matchstar]
    constructor
    · intro h
      exact ⟨[], [], rfl, fun b hb => absurd hb List.not_mem_nil, h⟩
    · rintro ⟨u, t, htext, -, h⟩
      obtain ⟨rfl, rfl⟩ := List.append_eq_nil_iff.1 htext.symm
      exact h
  | cons b text ih =>
    simp only [matchstar, Bool.or_eq_true, Bool.and_eq_true, beq_iff_eq, ih]
    constructor
    · rintro (h | ⟨hb, u, t, rfl, hu, h⟩)
      · exact ⟨[], b :: text, rfl, fun b hb => absurd hb List.not_mem_nil, h⟩
      · exact ⟨b :: u, t, rfl, List.forall_mem_cons.2 ⟨hb.symm, hu⟩, h⟩
    · rintro ⟨u, t, htext, hu, h⟩
      -- the star takes nothing, or the first character of the text
      cases u with
      | nil =>
        rw [List.nil_append] at htext
        exact .inl (htext ▸ h)
      | cons a u =>
        obtain ⟨rfl, rfl⟩ := List.cons.inj htext
        obtain ⟨hb, hu⟩ := List.forall_mem_cons.1 hu
        exact .inr ⟨hb.symm, u, t, rfl, hu, h⟩

theorem matchone_iff {c : Byte} : matchone here c text = true ↔
      ∃ u t, text = u ++ t ∧ (Item.single c).Lang u t ∧ here t = true := by
  cases text with
  | nil =>
    simp only [matchone, Bool.false_eq_true, false_iff, not_exists, not_and]
    intro u t htext hu
    obtain ⟨rfl, rfl⟩ := List.append_eq_nil_iff.1 htext.symm
    rw [Item.single] at hu
    split at hu <;> simp [Item.Lang] at hu
  | cons b text =>
    simp only [matchone, Bool.and_eq_true, Bool.or_eq_true, beq_iff_eq, Item.single]
    by_cases hc : c = dot
    · simp only [hc, if_true, true_or, true_and, Item.Lang]
      constructor
      · intro h
        exact ⟨[b], text, rfl, ⟨b, rfl⟩, h⟩
      · rintro ⟨u, t, htext, ⟨a, rfl⟩, h⟩
        exact (List.cons.inj htext).2 ▸ h
    · simp only [hc, if_false, false_or, Item.Lang]
      constructor
      · rintro ⟨rfl, h⟩
        exact ⟨[c], text, rfl, rfl, h⟩
      · rintro ⟨u, t, htext, rfl, h⟩
        obtain ⟨rfl, rfl⟩ := List.cons.inj htext
        exact ⟨rfl, h⟩

theorem matchhere_iff (re text : Str) : matchhere re text = true ↔ Begins (items re) text := by
  induction re, text using matchhere.induct with
  | case1 text => simp [matchhere, items, begins_nil]
  | case2 text => simp [matchhere, items, begins_eot]
  | case3 c text hc ih =>
    simp only [matchhere, items, hc, if_false, matchone_iff, begins_cons, begins_nil]
  | case4 c re text ih => simp only [matchhere, items, if_true, matchstar_iff, begins_cons, ih]
  | case5 c d re text hd ih =>
    simp only [matchhere, items, hd, if_false, matchone_iff, begins_cons, ih]

theorem matchany_iff {re : Str} :
    matchany re text = true ↔ ∃ before t, text = before ++ t ∧ Begins (items re) t := by
  induction text with
  | nil =>
    rw [matchany, matchhere_iff]
    constructor
    · intro h
      exact ⟨[], [], rfl, h⟩
    · rintro ⟨before, t, htext, h⟩
      obtain ⟨rfl, rfl⟩ := List.append_eq_nil_iff.1 htext.symm
      exact h
  | cons b text ih =>
    rw [matchany, Bool.or_eq_true, matchhere_iff, ih]
    constructor
    · rintro (h | ⟨before, t, rfl, h⟩)
      · exact ⟨[], b :: text, rfl, h⟩
      · exact ⟨b :: before, t, rfl, h⟩
    · rintro ⟨before, t, htext, h⟩
      cases before with
      | nil =>
        rw [List.nil_append] at htext
        exact .inl (htext ▸ h)
      | cons a before =>
        obtain ⟨rfl, rfl⟩ := List.cons.inj htext
        exact .inr ⟨before, t, rfl, h⟩

/-- The expression without the `^` that binds it to the beginning of the text. -/
def body (re : Str) : Str := if re.head? = some caret then re.tail else re

/-- `match` finds a part of the text that is in the language of the expression, at the
beginning if the expression starts with `^`. -/
theorem matchText_iff (re text : Str) : matchText re text = true ↔
      ∃ before w after, text = before ++ (w ++ after) ∧ (re.head? = some caret → before = []) ∧
        Lang after (items (body re)) w := by
  by_cases hc : re.head? = some caret
  · rw [matchText, if_pos hc, matchhere_iff, body, if_pos hc]
    constructor
    · rintro ⟨w, after, rfl, hw⟩
      exact ⟨[], w, after, rfl, fun _ => rfl, hw⟩
    · rintro ⟨before, w, after, rfl, hbefore, hw⟩
      rw [hbefore hc]
      exact ⟨w, after, rfl, hw⟩
  · rw [matchText, if_neg hc, matchany_iff, body, if_neg hc]
    constructor
    · rintro ⟨before, t, rfl, w, after, rfl, hw⟩
      exact ⟨before, w, after, rfl, fun h => absurd h hc, hw⟩
    · rintro ⟨before, w, after, rfl, -, hw⟩
      exact ⟨before, w ++ after, rfl, w, after, rfl, hw⟩

-- a star after a dollar, and a star at the beginning
example : matchText [dollar, star, dollar] [dollar, dollar] = true := by decide
example : matchText [caret, star] [65, star] = false := by decide

end Xv6.Grep
