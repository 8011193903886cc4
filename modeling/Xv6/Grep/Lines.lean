import Xv6.Grep.Match

/-! The function `grep` of `grep.c`: it reads its input into a buffer of 1024 characters,
writes the complete lines of the buffer that match and moves the rest to the front. A list
of pieces says how much each call of `read` returns.

If a piece leaves no newline in the buffer, `grep` throws the buffer away (`m = 0`), so that
a line that arrives in several pieces loses its first ones. -/

namespace Xv6.Grep

open Format

def nl : Byte := 10

/-- The size of `buf`. -/
def BUFSIZE : Nat := 1024

/-- The position of the first `c` before the NUL (`ulib.c`). -/
def strchr (c : Byte) : Str → Option Nat
  | [] => none
  | b :: s => if b = 0 then none else if b = c then some 0 else (strchr c s).map (· + 1)

theorem strchr_none {c : Byte} {s : Str} (h : strchr c s = none) (hs : 0 ∉ s) : c ∉ s := by
  induction s with
  | nil => exact List.not_mem_nil
  | cons b s ih =>
    rw [List.mem_cons, not_or] at hs ⊢
    rw [strchr, if_neg (Ne.symm hs.1)] at h
    split_ifs at h with hb
    exact ⟨Ne.symm hb, ih (Option.map_eq_none_iff.1 h) hs.2⟩

/-- What `strchr` finds is the first `c` of the string. -/
theorem strchr_some {c : Byte} {s : Str} {q : Nat} (h : strchr c s = some q) :
    ∃ l t, s = l ++ c :: t ∧ c ∉ l ∧ q = l.length := by
  induction s generalizing q with
  | nil => cases h
  | cons b s ih =>
    rw [strchr] at h
    split_ifs at h with h0 hb
    · exact ⟨[], s, by rw [hb]; rfl, List.not_mem_nil, (Option.some.inj h).symm⟩
    · obtain ⟨q, hq, rfl⟩ := Option.map_eq_some_iff.1 h
      obtain ⟨l, t, rfl, hl, rfl⟩ := ih hq
      exact ⟨b :: l, t, rfl, List.not_mem_cons_of_ne_of_not_mem (Ne.symm hb) hl, rfl⟩

/-- The inner loop: what is written, and the rest of the buffer from `p` on. -/
def scan (re p : Str) : Str × Str :=
  match h : strchr nl p with
  | none => ([], p)
  | some q =>
    ((if matchText re (p.take q) then p.take (q + 1) else []) ++ (scan re (p.drop (q + 1))).1,
      (scan re (p.drop (q + 1))).2)
termination_by p.length
decreasing_by
  obtain ⟨l, t, rfl, -, rfl⟩ := strchr_some h
  simp
  omega

/-- The part of the buffer `p` that stays for the next turn. -/
def carry (re p : Str) : Str :=
  -- p == buf
  if (scan re p).2.length = p.length then [] else (scan re p).2

/-- The number of bytes the next `read` is asked for. -/
def request (buf : Str) : Nat := BUFSIZE - buf.length - 1

/-- The outer loop, with `buf` in the buffer: all it writes, if the pieces are still to be
read. A `read` of no bytes ends the loop. -/
def grep (re : Str) : Str → List Str → Str
  | _, [] => []
  | buf, r :: rs =>
    if request buf = 0 then []
    else (scan re (buf ++ r)).1 ++ grep re (carry re (buf ++ r)) rs

/-- The pieces are what the calls of `read` may return. What stays in the buffer is the same
for all expressions. -/
def Offered : Str → List Str → Prop
  | _, [] => True
  | buf, r :: rs => r ≠ [] ∧
      (request buf ≠ 0 → r.length ≤ request buf ∧ Offered (carry [] (buf ++ r)) rs)

instance : (buf : Str) → (rs : List Str) → Decidable (Offered buf rs)
  | _, [] => .isTrue trivial
  | buf, r :: rs =>
    have := instDecidableOffered (carry [] (buf ++ r)) rs
    inferInstanceAs (Decidable (_ ∧ (_ → _ ∧ _)))

/-! ## The lines of a text -/

/-- The complete lines, without their newline. -/
def lines (s : Str) : List Str := (s.splitOn nl).dropLast

/-- The lines that match, with their newline. -/
def matching (re s : Str) : Str := ((lines s).filter (matchText re)).flatMap (· ++ [nl])

variable {re s t : Str}

theorem lines_partial (h : nl ∉ s) : lines s = [] := by
  rw [lines, List.splitOn_eq_singleton h, List.dropLast_singleton]

theorem lines_cons (h : nl ∉ s) (t : Str) : lines (s ++ nl :: t) = s :: lines t := by
  rw [lines, List.splitOn_append_cons_self_of_not_mem h,
    List.dropLast_cons_of_ne_nil (List.splitOn_ne_nil nl t), lines]

theorem matching_cons (h : nl ∉ s) (t : Str) :
    matching re (s ++ nl :: t) = (if matchText re s then s ++ [nl] else []) ++ matching re t := by
  rw [matching, lines_cons h, List.filter_cons]
  split
  · rw [List.flatMap_cons, matching]
  · rw [matching, List.nil_append]

/-! ## The inner loop -/

/-- The inner loop writes the matching lines. `done` is what it went over: it consists of
complete lines, whatever comes behind it. -/
theorem scan_spec (re p : Str) (hp : 0 ∉ p) :
    ∃ done, p = done ++ (scan re p).2 ∧ nl ∉ (scan re p).2 ∧
      ∀ t, lines (done ++ t) = lines done ++ lines t ∧
        matching re (done ++ t) = (scan re p).1 ++ matching re t := by
  fun_induction scan re p with
  | case1 p h => exact ⟨[], rfl, strchr_none h hp, fun t => ⟨rfl, rfl⟩⟩
  | case2 p q h ih =>
    obtain ⟨l, rest, rfl, hl, rfl⟩ := strchr_some h
    have hdrop : (l ++ nl :: rest).drop (l.length + 1) = rest := by simp
    have htake : (l ++ nl :: rest).take (l.length + 1) = l ++ [nl] := List.take_length_add_append 1
    rw [hdrop] at ih
    obtain ⟨done, hdone, hrest, hlines⟩ := ih fun h0 => hp (List.mem_append_right l (.tail nl h0))
    refine ⟨l ++ nl :: done, ?_, ?_, fun t => ⟨?_, ?_⟩⟩
    · rw [List.append_assoc, List.cons_append, hdrop, ← hdone]
    · rwa [hdrop]
    · rw [List.append_assoc, List.cons_append, lines_cons hl, lines_cons hl, (hlines t).1]
      rfl
    · rw [List.append_assoc, List.cons_append, matching_cons hl, (hlines t).2, htake, hdrop,
        List.take_left, List.append_assoc]

theorem scan_some {p : Str} {q : Nat} (h : strchr nl p = some q) : scan re p =
    ((if matchText re (p.take q) then p.take (q + 1) else []) ++ (scan re (p.drop (q + 1))).1,
      (scan re (p.drop (q + 1))).2) := by
  rw [scan]
  split
  · rename_i hn
    rw [h] at hn
    cases hn
  · rename_i q' hq
    cases h.symm.trans hq
    rfl

theorem scan_none {p : Str} (h : strchr nl p = none) : scan re p = ([], p) := by
  rw [scan]
  split
  · rfl
  · rename_i q hq
    rw [h] at hq
    cases hq

theorem carry_eq (re p : Str) : carry re p = carry [] p := by
  have hrest : (scan re p).2 = (scan [] p).2 := by
    fun_induction scan re p with
    | case1 p h => rw [scan_none h]
    | case2 p q h ih => rw [scan_some h, ih]
  rw [carry, hrest, carry]

theorem matchText_nil (text : Str) : matchText [] text = true := by
  cases text with
  | nil | cons b text => rfl

/-- With the empty expression nothing is lost in the inner loop. -/
theorem scan_nil (p : Str) : (scan [] p).1 ++ (scan [] p).2 = p := by
  fun_induction scan [] p with
  | case1 p h => rfl
  | case2 p q h ih => rw [matchText_nil, if_pos rfl, List.append_assoc, ih, List.take_append_drop]

/-! ## The outer loop -/

/-- With `buf` in the buffer, a part of a line. -/
theorem grep_from (buf : Str) (rs : List Str) (hbuf : nl ∉ buf) (h0 : 0 ∉ buf ++ rs.flatten)
    (hlen : ∀ l ∈ lines (buf ++ rs.flatten), l.length + 1 < BUFSIZE)
    (hoff : Offered buf rs) (hnl : ∀ r ∈ rs, nl ∈ r) :
    grep re buf rs = matching re (buf ++ rs.flatten) := by
  induction rs generalizing buf with
  | nil =>
    rw [grep, List.flatten_nil, List.append_nil, matching, lines_partial hbuf]
    rfl
  | cons r rs ih =>
    rw [List.flatten_cons, ← List.append_assoc] at h0 hlen ⊢
    obtain ⟨hr, hrs⟩ := List.forall_mem_cons.1 hnl
    have hin : nl ∈ buf ++ r := List.mem_append_right buf hr
    have hreq : request buf ≠ 0 := by
      obtain ⟨a, b, rfl, ha⟩ := List.eq_append_cons_of_mem hr
      have hline := hlen (buf ++ a) (by
        rw [← List.append_assoc, List.append_assoc, List.cons_append,
          lines_cons (by rw [List.mem_append, not_or]; exact ⟨hbuf, ha⟩)]
        exact List.mem_cons_self)
      rw [List.length_append] at hline
      rw [request]
      omega
    obtain ⟨done, hdone, hrest, hlines⟩ :=
      scan_spec re (buf ++ r) fun h => h0 (List.mem_append_left _ h)
    have hcarry : carry re (buf ++ r) = (scan re (buf ++ r)).2 := by
      rw [carry, if_neg]
      intro h
      -- then nothing was gone over, and the newline is in the rest
      have hall : (scan re (buf ++ r)).2 <:+ buf ++ r := ⟨done, hdone.symm⟩
      rw [hall.eq_of_length h] at hrest
      exact hrest hin
    rw [grep, if_neg hreq, hcarry]
    have hall : buf ++ r ++ rs.flatten = done ++ ((scan re (buf ++ r)).2 ++ rs.flatten) := by
      rw [← List.append_assoc, ← hdone]
    rw [hall] at h0 hlen ⊢
    rw [(hlines _).1] at hlen
    rw [(hlines _).2, ih _ hrest (fun h => h0 (List.mem_append_right _ h))
      (fun l hl => hlen l (List.mem_append_right _ hl)) 
      (by rw [← hcarry, carry_eq]; exact (hoff.2 hreq).2) hrs]

/-- With the empty expression, a piece without a newline makes the output shorter than the
input. -/
theorem grep_nil_length (buf : Str) (rs : List Str) (hbuf : nl ∉ buf)
    (h0 : 0 ∉ buf ++ rs.flatten) (hoff : Offered buf rs) :
    (grep [] buf rs).length ≤ (buf ++ rs.flatten).length ∧
      ((∃ r ∈ rs, nl ∉ r) → (grep [] buf rs).length < (buf ++ rs.flatten).length) := by
  induction rs generalizing buf with
  | nil => simp [grep]
  | cons r rs ih =>
    have hpos : 0 < r.length := List.length_pos_iff.2 hoff.1
    rw [List.flatten_cons, ← List.append_assoc] at h0 ⊢
    simp only [grep, List.length_append] at ih ⊢
    split
    · exact ⟨Nat.zero_le _, fun _ => by simp only [List.length_nil]; omega⟩
    rename_i hreq
    obtain ⟨done, hdone, hrest, -⟩ := scan_spec [] (buf ++ r) fun h => h0 (List.mem_append_left _ h)
    have hscan := congrArg List.length (scan_nil (buf ++ r))
    rw [List.length_append, List.length_append] at hscan
    have hcarry : carry [] (buf ++ r) = [] ∨ carry [] (buf ++ r) = (scan [] (buf ++ r)).2 := by
      rw [carry]
      split <;> simp
    have hle : (carry [] (buf ++ r)).length ≤ (scan [] (buf ++ r)).2.length := by
      rcases hcarry with h | h <;> simp [h]
    obtain ⟨h1, h2⟩ := ih (carry [] (buf ++ r)) (by rcases hcarry with h | h <;> simp [h, hrest])
      (fun h => h0 (by
        rw [hdone, List.append_assoc]
        refine List.mem_append_right _ (List.mem_append.2 ((List.mem_append.1 h).imp_left ?_))
        rcases hcarry with h | h <;> simp [h]))
      (hoff.2 hreq).2
    rw [List.length_append]
    refine ⟨by omega, ?_⟩
    rintro ⟨r', hr', hno⟩
    rcases List.mem_cons.1 hr' with rfl | hmem
    · -- the buffer has no newline, and is thrown away
      have hnone : strchr nl (buf ++ r') = none := by
        cases hq : strchr nl (buf ++ r') with
        | none => rfl
        | some q =>
          obtain ⟨l, t, hl, -⟩ := strchr_some hq
          have hin : nl ∈ buf ++ r' := hl ▸ List.mem_append_right l List.mem_cons_self
          exact absurd ((List.mem_append.1 hin).resolve_left hbuf) hno
      have hall : (carry [] (buf ++ r')).length = 0 := by rw [carry, scan_none hnone]; simp
      rw [scan_none hnone] at hscan ⊢
      simp only [List.length_nil]
      omega
    · have := h2 ⟨r', hmem, hno⟩
      omega

theorem matching_nil {input : Str} (h0 : 0 ∉ input) (hend : input.getLast? = some nl) :
    matching [] input = input := by
  obtain ⟨done, hdone, hrest, hlines⟩ := scan_spec [] input h0
  have hall : (scan [] input).2 = [] := by
    by_contra hne
    rw [hdone, List.getLast?_append, List.getLast?_eq_some_getLast hne, Option.some_or] at hend
    exact hrest (Option.some.inj hend ▸ List.getLast_mem hne)
  have hscan := scan_nil input
  rw [hall, List.append_nil] at hscan hdone
  have hmatch := (hlines []).2
  rw [List.append_nil, ← hdone, hscan] at hmatch
  rw [hmatch]
  exact List.append_nil input

/-- For all expressions `grep` writes the matching lines of its input, if and only if every
read returns the end of a line. -/
theorem grep_lines (input : Str) (pieces : List Str) (hnul : 0 ∉ input)
    (hend : input.getLast? = some nl) (hlen : ∀ l ∈ lines input, l.length + 1 ≤ 1023)
    (hsplit : pieces.flatten = input) (hoff : Offered [] pieces) :
    (∀ re, grep re [] pieces = matching re input) ↔ ∀ r ∈ pieces, nl ∈ r := by
  subst hsplit
  refine ⟨fun h => ?_, fun hnl re => grep_from [] pieces List.not_mem_nil hnul
    (fun l hl => Nat.lt_succ_of_le (hlen l hl)) hoff hnl⟩
  by_contra hno
  obtain ⟨r, hr, hr'⟩ := not_forall₂.1 hno
  have hlt := (grep_nil_length [] pieces List.not_mem_nil hnul hoff).2 ⟨r, hr, hr'⟩
  rw [h [], matching_nil hnul hend] at hlt
  exact lt_irrefl _ hlt

theorem grep_lines_two :
    grep [97] [] [[97, nl, 98], [98, nl]] = matching [97] [97, nl, 98, 98, nl] :=
  (grep_lines _ _ (by decide) rfl (by decide +kernel) rfl (by decide +kernel)).2 (by decide) _

/-- The line `ab` in two pieces: the first piece is lost, and the line is not found. -/
theorem grep_loses_line : [[97], [98, nl]].flatten = [97, 98, nl] ∧
    Offered [] [[97], [98, nl]] ∧ lines [97, 98, nl] = [[97, 98]] ∧
    grep [97, 98] [] [[97], [98, nl]] = [] ∧ matching [97, 98] [97, 98, nl] = [97, 98, nl] := by
  decide +kernel

end Xv6.Grep
