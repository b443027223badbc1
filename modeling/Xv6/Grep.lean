import Mathlib.Data.List.Basic
import Mathlib.Tactic.Common

/-!
# The matcher of `grep`

`match`, `matchhere` and `matchstar` of `user/grep.c`. A pattern or a text is the list of the
characters before its NUL, a pointer into it is the list from there on, and the character after the
last one is the NUL.
-/

namespace Xv6.Grep

def charAt (s : List Char) (i : Nat) : Char := s.getD i '\x00'

attribute [local simp] charAt

theorem length_drop_lt {s : List Char} (h : charAt s 0 ≠ '\x00') {n : Nat} (hn : 0 < n) :
    (s.drop n).length < s.length := by
  cases s with
  | nil => exact absurd rfl h
  | cons => simp; omega

mutual

/-- `matchhere`: search for `re` at the beginning of `text`. -/
def matchhere (re text : List Char) : Bool :=
  if charAt re 0 = '\x00' then
    true
  else if charAt re 1 = '*' then
    matchstar (charAt re 0) (re.drop 2) text
  else if charAt re 0 = '$' ∧ charAt re 1 = '\x00' then
    charAt text 0 = '\x00'
  else if charAt text 0 ≠ '\x00' ∧ (charAt re 0 = '.' ∨ charAt re 0 = charAt text 0) then
    matchhere (re.drop 1) (text.drop 1)
  else
    false
termination_by (re.length, 0, text.length)
decreasing_by
  · exact .left _ _ (length_drop_lt ‹_› (by decide))
  · exact .left _ _ (length_drop_lt ‹_› (by decide))

/-- `matchstar`: search for `c*re` at the beginning of `text`. -/
def matchstar (c : Char) (re text : List Char) : Bool :=
  if matchhere re text then
    true
  else if charAt text 0 ≠ '\x00' ∧ (charAt text 0 = c ∨ c = '.') then
    matchstar c re (text.drop 1)
  else
    false
termination_by (re.length, 1, text.length)
decreasing_by
  · exact .right _ (.left _ _ (by decide))
  · next h => exact .right _ (.right _ (length_drop_lt h.1 (by decide)))

end

def matchLoop (re text : List Char) : Bool :=
  if matchhere re text then
    true
  else if charAt text 0 ≠ '\x00' then
    matchLoop re (text.drop 1)
  else
    false
termination_by text.length
decreasing_by exact length_drop_lt ‹_› (by decide)

def matchRe (re text : List Char) : Bool :=
  if charAt re 0 = '^' then matchhere (re.drop 1) text else matchLoop re text

/-! ## What a pattern means -/

inductive Item where
  | one (c : Char)
  | star (c : Char)
  | eol

/-- A pattern, after a leading `^`, as a sequence of items. -/
def items : List Char → List Item
  | [] => []
  | c :: '*' :: re => .star c :: items re
  | ['$'] => [.eol]
  | c :: re => .one c :: items re

/-- The character of an item stands for a character of the text. -/
def Covers (c x : Char) : Prop := c = '.' ∨ x = c

def Starts : List Item → List Char → Prop
  | [], _ => True
  | .one c :: is, text => ∃ x rest, text = x :: rest ∧ Covers c x ∧ Starts is rest
  | .star c :: is, text => ∃ xs rest, text = xs ++ rest ∧ (∀ x ∈ xs, Covers c x) ∧ Starts is rest
  | .eol :: is, text => text = [] ∧ Starts is []

/-- A pattern occurs in a text: at its beginning after `^`, else anywhere. -/
def Occurs (re text : List Char) : Prop :=
  match re with
  | '^' :: re => Starts (items re) text
  | re => ∃ before rest, text = before ++ rest ∧ Starts (items re) rest

/-! ## The matcher does that -/

variable {re text : List Char} {c : Char}

theorem charAt_cons (c : Char) (s : List Char) : charAt (c :: s) 0 = c := rfl

theorem charAt_cons_one (c : Char) (s : List Char) : charAt (c :: s) 1 = charAt s 0 := rfl

theorem noNul_cons {s : List Char} (h : '\x00' ∉ c :: s) : c ≠ '\x00' ∧ '\x00' ∉ s := by
  rw [List.mem_cons, not_or] at h
  exact ⟨Ne.symm h.1, h.2⟩

theorem exists_split_cons {x : Char} {text : List Char} {P : List Char → List Char → Prop} :
    (∃ xs rest, x :: text = xs ++ rest ∧ P xs rest) ↔
      P [] (x :: text) ∨ ∃ xs rest, text = xs ++ rest ∧ P (x :: xs) rest := by
  simp only [List.cons_eq_append_iff]
  constructor
  · rintro ⟨xs, rest, ⟨rfl, rfl⟩ | ⟨ys, rfl, h⟩, hp⟩
    · exact .inl hp
    · exact .inr ⟨ys, rest, h, hp⟩
  · rintro (hp | ⟨ys, rest, h, hp⟩)
    · exact ⟨[], _, .inl ⟨rfl, rfl⟩, hp⟩
    · exact ⟨x :: ys, rest, .inr ⟨ys, rfl, h⟩, hp⟩

theorem matchstar_iff (htext : '\x00' ∉ text) : matchstar c re text = true ↔
      ∃ xs rest, text = xs ++ rest ∧ (∀ x ∈ xs, Covers c x) ∧ matchhere re rest = true := by
  induction text with
  | nil =>
    rw [matchstar]
    simp
  | cons x text ih =>
    obtain ⟨hx, htext⟩ := noNul_cons htext
    have hcov : (x = c ∨ c = '.') ↔ Covers c x := or_comm
    rw [matchstar, exists_split_cons]
    by_cases hc : Covers c x <;> simp [hx, ih htext, hcov, hc]

theorem matchLoop_iff (htext : '\x00' ∉ text) :
    matchLoop re text = true ↔ ∃ xs rest, text = xs ++ rest ∧ matchhere re rest = true := by
  induction text with
  | nil =>
    rw [matchLoop]
    simp
  | cons x text ih =>
    obtain ⟨hx, htext⟩ := noNul_cons htext
    rw [matchLoop, exists_split_cons]
    simp [hx, ih htext]

theorem matchhere_iff (hre : '\x00' ∉ re) (htext : '\x00' ∉ text) :
    matchhere re text = true ↔ Starts (items re) text := by
  induction re using items.induct generalizing text with
  | case1 =>
    rw [matchhere]
    simp [items, Starts]
  | case2 c re ih =>
    obtain ⟨hc, hre⟩ := noNul_cons hre
    rw [matchhere, items, Starts, charAt_cons, charAt_cons_one, charAt_cons, if_neg hc, if_pos rfl,
      List.drop_succ_cons, List.drop_succ_cons, List.drop_zero, matchstar_iff htext]
    apply exists_congr
    intro xs
    apply exists_congr
    intro rest
    apply and_congr_right
    rintro rfl
    rw [ih (noNul_cons hre).2 fun h => htext (List.mem_append_right _ h)]
  | case3 =>
    rw [matchhere, items, Starts]
    cases text with
    | nil => simp [Starts]
    | cons x => simp [(noNul_cons htext).1]
  | case4 c re hstar hend ih =>
    obtain ⟨hc, hre'⟩ := noNul_cons hre
    have hstar' : charAt re 0 ≠ '*' := by
      cases re with
      | nil => decide
      | cons d re => exact fun e => hstar re (congrArg (· :: re) e)
    have hend' : ¬(c = '$' ∧ charAt re 0 = '\x00') := by
      rintro ⟨rfl, h⟩
      cases re with
      | nil => exact hend rfl rfl
      | cons d re => exact (noNul_cons hre').1 h
    rw [matchhere, items, Starts, charAt_cons, charAt_cons_one, if_neg hc, if_neg hstar',
      if_neg hend']
    · cases text with
      | nil => simp
      | cons x rest =>
        obtain ⟨hx, hrest⟩ := noNul_cons htext
        have hcov : (c = '.' ∨ c = x) ↔ Covers c x := or_congr_right eq_comm
        by_cases hc : Covers c x <;> simp [hx, hcov, hc, ih hre' hrest]
    · exact hstar
    · exact hend

/-- For every pattern and text, `match` terminates, and returns 1 iff the pattern occurs in the
text. -/
theorem match_iff_occurs (re text : List Char) (hre : '\x00' ∉ re) (htext : '\x00' ∉ text) :
    matchRe re text = true ↔ Occurs re text := by
  unfold Occurs
  split
  · exact matchhere_iff (noNul_cons hre).2 htext
  · next hne =>
    have hcaret : charAt re 0 ≠ '^' := by
      cases re with
      | nil => decide
      | cons c re => exact fun e => hne re (congrArg (· :: re) e)
    rw [matchRe, if_neg hcaret, matchLoop_iff htext]
    apply exists_congr
    intro before
    apply exists_congr
    intro rest
    apply and_congr_right
    rintro rfl
    exact matchhere_iff hre fun h => htext (List.mem_append_right _ h)

/-- `^*.*$` matches `*ab`: after `^`, the first `*` is a character. -/
theorem match_iff_occurs_star : matchRe ['^', '*', '.', '*', '$'] ['*', 'a', 'b'] = true :=
  (match_iff_occurs _ _ (by decide) (by decide)).mpr
    ⟨'*', _, rfl, .inr rfl, ['a', 'b'], [], rfl, fun _ _ => .inl rfl, rfl, trivial⟩

end Xv6.Grep
