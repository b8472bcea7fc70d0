/- Module: Amalgam/Parser/Characters
   digest: The character classes are disjoint, and texts of a class are read whole. -/

import Amalgam.Parser.Lexemes
import Mathlib.Data.List.TakeWhile
import Mathlib.Tactic.Common

set_option autoImplicit false
set_option relaxedAutoImplicit false

namespace Amalgam.Parser

open Amalgam.Pegtl
open Amalgam.Cxx (isSpace)

section Classes

private theorem opChars_plain : ∀ c ∈ Rules.operatorChars,
    isSpace c = false ∧ isIdentChar c = false ∧ c ≠ '(' ∧ c ≠ ')' := by decide

private theorem spaces_plain : ∀ c ∈ [' ', '\n', '\r', '\t', '\x0b', '\x0c'],
    isOpChar c = false ∧ isIdentChar c = false ∧ c ≠ '(' ∧ c ≠ ')' := by decide

private theorem spaces_no_word : ∀ c ∈ [' ', '\n', '\r', '\t', '\x0b', '\x0c'],
    isSign c = false ∧ isDigit c = false ∧ isAlpha c = false ∧ isIdentStart c = false := by decide

theorem opChar_plain {c : Char} (h : isOpChar c = true) :
    isSpace c = false ∧ isIdentChar c = false ∧ c ≠ '(' ∧ c ≠ ')' :=
  opChars_plain c (List.contains_iff_mem.mp h)

theorem space_plain {c : Char} (h : isSpace c = true) :
    isOpChar c = false ∧ isIdentChar c = false ∧ c ≠ '(' ∧ c ≠ ')' :=
  spaces_plain c (List.contains_iff_mem.mp h)

theorem space_no_word {c : Char} (h : isSpace c = true) :
    isSign c = false ∧ isDigit c = false ∧ isAlpha c = false ∧ isIdentStart c = false :=
  spaces_no_word c (List.contains_iff_mem.mp h)

theorem sign_opChar {c : Char} (h : isSign c = true) : isOpChar c = true := by
  have signs : ∀ c ∈ ['+', '-'], isOpChar c = true := by decide
  exact signs c (List.contains_iff_mem.mp h)

theorem digit_identChar {c : Char} (h : isDigit c = true) : isIdentChar c = true := by
  simp [isIdentChar, h]

private theorem alpha_identChar {c : Char} (h : isAlpha c = true) : isIdentChar c = true := by
  simp [isIdentChar, h]

theorem identChar_cases {c : Char} (h : isIdentChar c = true) :
    isDigit c = true ∨ isIdentStart c = true := by
  simp only [isIdentChar, isIdentStart, Bool.or_eq_true] at h ⊢
  tauto

theorem identChar_plain {c : Char} (h : isIdentChar c = true) :
    isOpChar c = false ∧ isSpace c = false ∧ isSign c = false ∧ c ≠ '(' ∧ c ≠ ')' := by
  have notOp : isOpChar c = false := by
    by_contra op
    have := (opChar_plain (by simpa using op)).2.1
    simp [h] at this
  refine ⟨notOp, ?_, ?_, ?_, ?_⟩
  · by_contra sp
    have := (space_plain (by simpa using sp)).2.1
    simp [h] at this
  · by_contra sg
    have := sign_opChar (by simpa using sg)
    simp [notOp] at this
  · rintro rfl
    revert h
    decide
  · rintro rfl
    revert h
    decide

theorem digit_not_alpha {c : Char} (h : isDigit c = true) : isAlpha c = false := by
  have e9 : '9'.val.toNat = 57 := rfl
  have ea : 'a'.val.toNat = 97 := rfl
  have eA : 'A'.val.toNat = 65 := rfl
  simp only [isDigit, isAlpha, Bool.and_eq_true, decide_eq_true_eq, Bool.or_eq_false_iff,
    Bool.and_eq_false_iff, decide_eq_false_iff_not, Char.le_def, UInt32.le_iff_toNat_le] at *
  omega

private theorem identStart_not_digit {c : Char} (h : isIdentStart c = true) :
    isDigit c = false := by
  by_contra digit
  have digit : isDigit c = true := by simpa using digit
  simp only [isIdentStart, digit_not_alpha digit, Bool.false_or, List.contains_iff_mem,
    List.mem_singleton] at h
  subst h
  revert digit
  decide

end Classes

section Texts

def Spaces (w : Str) : Prop := ∀ c ∈ w, isSpace c = true

instance (w : Str) : Decidable (Spaces w) := inferInstanceAs (Decidable (∀ c ∈ w, isSpace c = true))

/-- An optional sign, digits and letters: the texts of `literal_integer`. -/
def IntegerText (w : Str) : Prop :=
  ∃ sign ds suffix : Str, w = sign ++ ds ++ suffix ∧
    (sign = [] ∨ ∃ c, isSign c = true ∧ sign = [c]) ∧
    ds ≠ [] ∧ (∀ c ∈ ds, isDigit c = true) ∧ (∀ c ∈ suffix, isAlpha c = true)

/-- Letters and underscores, then letters, digits and underscores: the texts of
`identifier`. -/
def IdentifierText (w : Str) : Prop :=
  ∃ front back : Str, w = front ++ back ∧ front ≠ [] ∧
    (∀ c ∈ front, isIdentStart c = true) ∧ (∀ c ∈ back, isIdentChar c = true)

/-- The texts of `literal_op`. -/
def OperatorText (w : Str) : Prop := w ≠ [] ∧ ∀ c ∈ w, isOpChar c = true

theorem skip_spaces {w : Str} (h : Spaces w) (s : Input) : skip (w ++ s) = skip s :=
  List.dropWhile_append_of_pos h

theorem skip_eq_nil_iff (s : Input) : skip s = [] ↔ Spaces s := List.dropWhile_eq_nil_iff

theorem skip_cons {c : Char} (h : isSpace c = false) (s : Input) : skip (c :: s) = c :: s := by
  simp [skip, h]

theorem skip_eq_cons {s rest : Input} {c : Char} (h : skip s = c :: rest) : isSpace c = false := by
  have first := List.head?_dropWhile_not isSpace s
  rw [show s.dropWhile isSpace = c :: rest from h] at first
  exact first

theorem skip_prefix (s : Input) : ∃ w, Spaces w ∧ s = w ++ skip s :=
  ⟨s.takeWhile isSpace, fun _ hc => List.mem_takeWhile_imp hc,
    List.takeWhile_append_dropWhile.symm⟩

theorem takeSign_cons {c : Char} (h : isSign c = false) (s : Input) :
    takeSign (c :: s) = ([], c :: s) := by
  simp [takeSign, h]

theorem lexInteger_cons_none {c : Char} (sign : isSign c = false) (digit : isDigit c = false)
    (s : Input) : lexInteger (c :: s) = none := by
  simp [lexInteger, takeSign_cons sign, digit]

theorem lexIdentifier_cons_none {c : Char} (h : isIdentStart c = false) (s : Input) :
    lexIdentifier (c :: s) = none := by
  simp [lexIdentifier, h]

theorem lexOp_cons_none {c : Char} (h : isOpChar c = false) (s : Input) :
    lexOp (c :: s) = none := by
  simp [lexOp, h]

theorem lexInteger_head {c : Char} {s rest : Input} {tok : Str}
    (h : lexInteger (c :: s) = some (tok, rest)) : isSign c = true ∨ isDigit c = true := by
  by_contra other
  simp only [not_or, Bool.not_eq_true] at other
  rw [lexInteger_cons_none other.1 other.2] at h
  simp at h

theorem lexInteger_sign {c : Char} {s rest : Input} {tok : Str} (hc : isSign c = true)
    (h : lexInteger (c :: s) = some (tok, rest)) :
    ∃ d u t, s = d :: u ∧ isDigit d = true ∧ lexInteger s = some (t, rest) := by
  simp only [lexInteger, takeSign, hc, if_true] at h
  split at h
  · simp at h
  · rename_i digits
    obtain ⟨-, rfl⟩ := Prod.mk.inj (Option.some.inj h)
    cases s with
    | nil => simp at digits
    | cons d u =>
        have digit : isDigit d = true := by
          by_contra other
          simp [other] at digits
        have noSign := takeSign_cons (identChar_plain (digit_identChar digit)).2.2.1 u
        refine ⟨d, u, (d :: u).takeWhile isDigit ++ ((d :: u).dropWhile isDigit).takeWhile isAlpha,
          rfl, digit, ?_⟩
        simp only [lexInteger, noSign, digits, Bool.false_eq_true, if_false, List.nil_append]

private theorem read_digits_alphas {ds suffix : Str} (digits : ∀ c ∈ ds, isDigit c = true)
    (alphas : ∀ c ∈ suffix, isAlpha c = true) (u : Input) :
    ∃ x rest, u = x ++ rest ∧ (∀ c ∈ x, isIdentChar c = true) ∧
      (ds ++ suffix ++ u).takeWhile isDigit ++
          ((ds ++ suffix ++ u).dropWhile isDigit).takeWhile isAlpha = ds ++ suffix ++ x ∧
        ((ds ++ suffix ++ u).dropWhile isDigit).dropWhile isAlpha = rest := by
  rw [List.append_assoc, List.takeWhile_append_of_pos digits, List.dropWhile_append_of_pos digits]
  cases suffix with
  | nil =>
      refine ⟨u.takeWhile isDigit ++ (u.dropWhile isDigit).takeWhile isAlpha, _, ?_, ?_,
        by simp, rfl⟩
      · simp [List.takeWhile_append_dropWhile]
      · intro c hc
        rcases List.mem_append.mp hc with hc | hc
        · exact digit_identChar (List.mem_takeWhile_imp hc)
        · exact alpha_identChar (List.mem_takeWhile_imp hc)
  | cons a suffix =>
      have first : isDigit a = false := by
        by_contra digit
        have := digit_not_alpha (by simpa using digit)
        simp [alphas a List.mem_cons_self] at this
      have none : (a :: suffix ++ u).takeWhile isDigit = [] := by simp [first]
      have all : (a :: suffix ++ u).dropWhile isDigit = a :: suffix ++ u := by simp [first]
      refine ⟨u.takeWhile isAlpha, u.dropWhile isAlpha,
        List.takeWhile_append_dropWhile.symm, ?_, ?_, ?_⟩
      · exact fun c hc => alpha_identChar (List.mem_takeWhile_imp hc)
      · rw [none, all, List.takeWhile_append_of_pos alphas]
        simp
      · rw [all, List.dropWhile_append_of_pos alphas]

theorem IntegerText.lex {w : Str} (h : IntegerText w) (u : Input) :
    ∃ x rest, u = x ++ rest ∧ (∀ c ∈ x, isIdentChar c = true) ∧
      lexInteger (w ++ u) = some (w ++ x, rest) := by
  obtain ⟨sign, ds, suffix, rfl, signs, nonempty, digits, alphas⟩ := h
  obtain ⟨x, rest, split, word, read, left⟩ := read_digits_alphas digits alphas u
  have afterSign : takeSign (sign ++ (ds ++ suffix ++ u)) = (sign, ds ++ suffix ++ u) := by
    rcases signs with rfl | ⟨c, hc, rfl⟩
    · cases ds with
      | nil => exact absurd rfl nonempty
      | cons d ds =>
          have plain := identChar_plain (digit_identChar (digits d List.mem_cons_self))
          exact takeSign_cons plain.2.2.1 _
    · simp [takeSign, hc]
  have hasDigits : ((ds ++ suffix ++ u).takeWhile isDigit).isEmpty = false := by
    cases ds with
    | nil => exact absurd rfl nonempty
    | cons d ds => simp [digits d List.mem_cons_self]
  refine ⟨x, rest, split, word, ?_⟩
  have assoc : sign ++ ds ++ suffix ++ u = sign ++ (ds ++ suffix ++ u) := by simp
  rw [assoc, lexInteger, afterSign]
  simp only [hasDigits, Bool.false_eq_true, if_false, left]
  rw [List.append_assoc sign, read]
  simp

theorem IdentifierText.head {w : Str} (h : IdentifierText w) :
    ∃ c s, w = c :: s ∧ isIdentStart c = true ∧ ∀ d ∈ s, isIdentChar d = true := by
  obtain ⟨front, back, rfl, nonempty, starts, chars⟩ := h
  cases front with
  | nil => exact absurd rfl nonempty
  | cons c front =>
      refine ⟨c, front ++ back, rfl, starts c List.mem_cons_self, fun d hd => ?_⟩
      rcases List.mem_append.mp hd with hd | hd
      · exact isIdentChar_of_start (starts d (List.mem_cons_of_mem _ hd))
      · exact chars d hd

private theorem lexInteger_identStart {c : Char} (h : isIdentStart c = true) (s : Input) :
    lexInteger (c :: s) = none :=
  lexInteger_cons_none (identChar_plain (isIdentChar_of_start h)).2.2.1 (identStart_not_digit h) s

theorem IdentifierText.lex {w : Str} (h : IdentifierText w) (u : Input) :
    lexInteger (w ++ u) = none ∧
      lexIdentifier (w ++ u) = some (w ++ u.takeWhile isIdentChar, u.dropWhile isIdentChar) := by
  obtain ⟨c, s, rfl, start, chars⟩ := h.head
  refine ⟨lexInteger_identStart start _, ?_⟩
  have all : ∀ d ∈ c :: s, isIdentChar d = true := by
    intro d hd
    rcases List.mem_cons.mp hd with rfl | hd
    · exact isIdentChar_of_start start
    · exact chars d hd
  have taken : (c :: (s ++ u)).takeWhile isIdentChar = c :: (s ++ u.takeWhile isIdentChar) :=
    List.takeWhile_append_of_pos all
  have dropped : (c :: (s ++ u)).dropWhile isIdentChar = u.dropWhile isIdentChar :=
    List.dropWhile_append_of_pos all
  simp only [List.cons_append, lexIdentifier, start, if_true, taken, dropped]

theorem OperatorText.lex {w : Str} (h : OperatorText w) (u : Input) :
    lexOp (w ++ u) = some (w ++ u.takeWhile isOpChar, u.dropWhile isOpChar) := by
  simp [lexOp, List.takeWhile_append_of_pos h.2, List.dropWhile_append_of_pos h.2, h.1]

theorem IntegerText.head {w : Str} (h : IntegerText w) :
    ∃ c s, w = c :: s ∧ (isSign c = true ∨ isDigit c = true) := by
  obtain ⟨sign, ds, suffix, rfl, signs, nonempty, digits, -⟩ := h
  rcases signs with rfl | ⟨c, hc, rfl⟩
  · cases ds with
    | nil => exact absurd rfl nonempty
    | cons d ds => exact ⟨d, ds ++ suffix, rfl, .inr (digits d List.mem_cons_self)⟩
  · exact ⟨c, ds ++ suffix, rfl, .inl hc⟩

theorem IntegerText.skip {w : Str} (h : IntegerText w) (u : Input) : skip (w ++ u) = w ++ u := by
  obtain ⟨c, s, rfl, sign | digit⟩ := h.head
  · exact skip_cons (opChar_plain (sign_opChar sign)).1 _
  · exact skip_cons (identChar_plain (digit_identChar digit)).2.1 _

theorem IdentifierText.skip {w : Str} (h : IdentifierText w) (u : Input) :
    skip (w ++ u) = w ++ u := by
  obtain ⟨c, s, rfl, start, -⟩ := h.head
  exact skip_cons (identChar_plain (isIdentChar_of_start start)).2.1 _

theorem OperatorText.skip {w : Str} (h : OperatorText w) (u : Input) : skip (w ++ u) = w ++ u := by
  obtain ⟨nonempty, chars⟩ := h
  cases w with
  | nil => exact absurd rfl nonempty
  | cons c s => exact skip_cons (opChar_plain (chars c List.mem_cons_self)).1 _

theorem IntegerText.of_lex {s rest : Input} {tok : Str} (h : lexInteger s = some (tok, rest)) :
    IntegerText tok := by
  simp only [lexInteger] at h
  split at h
  · simp at h
  · rename_i digits
    obtain ⟨rfl, -⟩ := Prod.mk.inj (Option.some.inj h)
    refine ⟨_, _, _, rfl, ?_, by simpa using digits,
      fun c hc => List.mem_takeWhile_imp hc, fun c hc => List.mem_takeWhile_imp hc⟩
    cases s with
    | nil => exact .inl rfl
    | cons c s =>
        cases sign : isSign c with
        | false => exact .inl (by simp [takeSign, sign])
        | true => exact .inr ⟨c, sign, by simp [takeSign, sign]⟩

theorem IdentifierText.of_lex {s rest : Input} {tok : Str}
    (h : lexIdentifier s = some (tok, rest)) : IdentifierText tok := by
  cases s with
  | nil => simp [lexIdentifier] at h
  | cons c s =>
      simp only [lexIdentifier] at h
      split at h
      · rename_i start
        obtain ⟨rfl, -⟩ := Prod.mk.inj (Option.some.inj h)
        refine ⟨[c], s.takeWhile isIdentChar, ?_, by simp, by simpa using start,
          fun d hd => List.mem_takeWhile_imp hd⟩
        simp [isIdentChar_of_start start]
      · simp at h

theorem OperatorText.of_lex {s rest : Input} {tok : Str} (h : lexOp s = some (tok, rest)) :
    OperatorText tok := by
  simp only [lexOp] at h
  split at h
  · simp at h
  · rename_i chars
    obtain ⟨rfl, -⟩ := Prod.mk.inj (Option.some.inj h)
    exact ⟨by simpa using chars, fun c hc => List.mem_takeWhile_imp hc⟩

end Texts

end Amalgam.Parser
