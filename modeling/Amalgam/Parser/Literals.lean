/- Module: Amalgam/Parser/Literals
   digest: The parts of an integer literal, what they denote, and which literals convert. -/

import Amalgam.Cxx.Digits
import Amalgam.Parser.Characters
import Amalgam.Parser.Typing

set_option autoImplicit false
set_option relaxedAutoImplicit false

namespace Amalgam.Parser

open Amalgam.Cxx
open Verifier (specifierFormat literalValue getIntType getMostSignificantBit shiftLoop sizeInBits)

structure IntegerLexeme where
  sign : Str
  digits : Str
  specifier : Str
  signs : sign = [] ∨ ∃ c, isSign c = true ∧ sign = [c]
  nonempty : digits ≠ []
  decimal : ∀ c ∈ digits, isDecimal c = true
  letters : ∀ c ∈ specifier, isAlpha c = true

namespace IntegerLexeme

variable (x : IntegerLexeme)

def text : Str := x.sign ++ x.digits ++ x.specifier

def base : Nat := (specifierFormat x.specifier).1

def isSigned : Bool := (specifierFormat x.specifier).2

/-- The number denoted: sign and digits, read in the base. -/
def value : Int := signedValue (x.sign = ['-']) (magnitude x.base x.digits)

def Valid : Prop := ∀ c ∈ x.digits, digitValue c < x.base

def InRange : Prop :=
  if x.isSigned then -(2 ^ 63 : Int) ≤ x.value ∧ x.value < 2 ^ 63
  else 0 ≤ x.value ∧ x.value < 2 ^ 64

/-- The number that the verifier takes the size of: the digits up to the first one
beyond the base. -/
def sized : Nat := magnitude x.base (validDigits x.base x.digits)

/-- The literals on which the conversion of the verifier does not throw. -/
def Converts : Prop :=
  x.sign = [] ∧ validDigits x.base x.digits ≠ [] ∧
    x.sized < if x.isSigned then 2 ^ 63 else 2 ^ 64

end IntegerLexeme

theorem integerText_iff (w : Str) : IntegerText w ↔ ∃ x : IntegerLexeme, x.text = w := by
  constructor
  · rintro ⟨sign, ds, suffix, rfl, signs, nonempty, digits, letters⟩
    exact ⟨⟨sign, ds, suffix, signs, nonempty, digits, letters⟩, rfl⟩
  · rintro ⟨x, rfl⟩
    exact ⟨x.sign, x.digits, x.specifier, rfl, x.signs, x.nonempty, x.decimal, x.letters⟩

section Decimal

variable {n : Str}

def IntegerLexeme.ofDigits (n : Str) (nonempty : n ≠ [])
    (digits : ∀ c ∈ n, isDecimal c = true) : IntegerLexeme :=
  ⟨[], n, [], .inl rfl, nonempty, digits, by simp⟩

theorem ofDigits_text (nonempty : n ≠ []) (digits : ∀ c ∈ n, isDecimal c = true) :
    (IntegerLexeme.ofDigits n nonempty digits).text = n := by
  simp [IntegerLexeme.text, IntegerLexeme.ofDigits]

theorem decimal_integerText (nonempty : n ≠ []) (digits : ∀ c ∈ n, isDecimal c = true) :
    IntegerText n :=
  (integerText_iff n).mpr ⟨_, ofDigits_text nonempty digits⟩

private theorem ofDigits_sized (nonempty : n ≠ []) (digits : ∀ c ∈ n, isDecimal c = true) :
    (IntegerLexeme.ofDigits n nonempty digits).sized = magnitude 10 n := by
  have whole : validDigits 10 n = n := validDigits_decimal digits
  show magnitude 10 (validDigits 10 n) = magnitude 10 n
  rw [whole]

theorem ofDigits_converts (nonempty : n ≠ []) (digits : ∀ c ∈ n, isDecimal c = true)
    (small : magnitude 10 n < 2 ^ 63) :
    (IntegerLexeme.ofDigits n nonempty digits).Converts := by
  have whole : validDigits 10 n = n := validDigits_decimal digits
  refine ⟨rfl, ?_, ?_⟩
  · show validDigits 10 n ≠ []
    rw [whole]
    exact nonempty
  · rw [ofDigits_sized]
    exact small

theorem ofDigits_good (nonempty : n ≠ []) (digits : ∀ c ∈ n, isDecimal c = true)
    (small : magnitude 10 n < 2 ^ 63) :
    (IntegerLexeme.ofDigits n nonempty digits).Valid ∧
      (IntegerLexeme.ofDigits n nonempty digits).InRange := by
  constructor
  · intro c hc
    exact digitValue_decimal (digits c hc)
  · have value : (IntegerLexeme.ofDigits n nonempty digits).value = magnitude 10 n := rfl
    have signed : (IntegerLexeme.ofDigits n nonempty digits).isSigned = true := rfl
    rw [IntegerLexeme.InRange, if_pos signed, value]
    omega

end Decimal

section Split

private theorem decimal_contains (c : Char) : "0123456789".toList.contains c = isDecimal c := by
  have members : ∀ d ∈ "0123456789".toList, isDecimal d = true := by decide
  cases h : isDecimal c with
  | true =>
      obtain ⟨lower, upper⟩ := decimal_toNat h
      have same : c = Char.ofNat c.toNat := (Char.ofNat_toNat c).symm
      have cases : c.toNat = 48 ∨ c.toNat = 49 ∨ c.toNat = 50 ∨ c.toNat = 51 ∨ c.toNat = 52 ∨
          c.toNat = 53 ∨ c.toNat = 54 ∨ c.toNat = 55 ∨ c.toNat = 56 ∨ c.toNat = 57 := by omega
      rcases cases with n | n | n | n | n | n | n | n | n | n <;>
        (rw [n] at same; rw [same]; decide)
  | false =>
      rw [Bool.eq_false_iff]
      intro contained
      have digit := members c (List.contains_iff_mem.mp contained)
      simp [h] at digit

theorem letter_not_decimal {c : Char} (h : isAlpha c = true) : isDecimal c = false := by
  rw [Bool.eq_false_iff]
  intro digit
  have noLetter : isAlpha c = false := digit_not_alpha digit
  simp [noLetter] at h

theorem sign_not_decimal {c : Char} (h : isSign c = true) : isDecimal c = false := by
  have signs : ∀ d ∈ ['+', '-'], isDecimal d = false := by decide
  exact signs c (List.contains_iff_mem.mp h)

/-- The splitter cuts behind the longest run of digits in front. -/
theorem splitLiteralInt_eq (token : Str) :
    splitLiteralInt token = (token.takeWhile isDecimal, token.dropWhile isDecimal) := by
  have test : (fun c => !"0123456789".toList.contains c) = fun c => !isDecimal c := by
    funext c
    rw [decimal_contains]
  rw [splitLiteralInt, findFirstNotOf, test]
  cases found : token.findIdx? fun c => !isDecimal c with
  | none =>
      have digits : ∀ c ∈ token, isDecimal c = true := by
        simpa using List.findIdx?_eq_none_iff.mp found
      rw [List.takeWhile_eq_self_iff.mpr digits, List.dropWhile_eq_nil_iff.mpr digits]
  | some sep =>
      have index := (List.findIdx?_eq_some_iff_findIdx_eq.mp found).2
      rw [List.takeWhile_eq_take_findIdx_not, List.dropWhile_eq_drop_findIdx_not, index]

private theorem splitLiteralInt_unsigned {ds suffix : Str} (digits : ∀ c ∈ ds, isDecimal c = true)
    (letters : ∀ c ∈ suffix, isAlpha c = true) :
    splitLiteralInt (ds ++ suffix) = (ds, suffix) := by
  rw [splitLiteralInt_eq, List.takeWhile_append_of_pos digits, List.dropWhile_append_of_pos digits]
  cases suffix with
  | nil => simp
  | cons c suffix =>
      have stop : isDecimal c = false := letter_not_decimal (letters c List.mem_cons_self)
      simp [stop]

theorem splitLiteralInt_signed {c : Char} (h : isSign c = true) (s : Str) :
    splitLiteralInt (c :: s) = ([], c :: s) := by
  have stop : isDecimal c = false := sign_not_decimal h
  rw [splitLiteralInt_eq]
  simp [stop]

private theorem specifierFormat_signed {c : Char} (h : isSign c = true) (s : Str) :
    specifierFormat (c :: s) = (10, true) := by
  have other : ∀ d ∈ ['h', 'b', 'o', 'U'], c ≠ d := by
    intro d hd same
    have letters : ∀ d ∈ ['h', 'b', 'o', 'U'], isSign d = false := by decide
    rw [same, letters d hd] at h
    simp at h
  have h₁ := other 'h' (by simp)
  have h₂ := other 'b' (by simp)
  have h₃ := other 'o' (by simp)
  have h₄ := other 'U' (by simp)
  simp [specifierFormat, h₁, h₂, h₃, h₄]

theorem specifierFormat_base (s : Str) :
    (specifierFormat s).1 = 2 ∨ (specifierFormat s).1 = 8 ∨ (specifierFormat s).1 = 10 ∨
      (specifierFormat s).1 = 16 := by
  unfold specifierFormat
  repeat' split
  all_goals simp

end Split

section Uniqueness

theorem text_unsigned {x : IntegerLexeme} (h : x.sign = []) :
    splitLiteralInt x.text = (x.digits, x.specifier) := by
  rw [IntegerLexeme.text, h, List.nil_append]
  exact splitLiteralInt_unsigned x.decimal x.letters

theorem text_signed {x : IntegerLexeme} (h : x.sign ≠ []) :
    ∃ c, isSign c = true ∧ x.sign = [c] ∧ x.text = c :: (x.digits ++ x.specifier) := by
  rcases x.signs with none | ⟨c, hc, sign⟩
  · exact absurd none h
  · refine ⟨c, hc, sign, ?_⟩
    rw [IntegerLexeme.text, sign, List.append_assoc, List.singleton_append]

theorem IntegerLexeme.text_inj {x y : IntegerLexeme} (same : x.text = y.text) :
    x.sign = y.sign ∧ x.digits = y.digits ∧ x.specifier = y.specifier := by
  by_cases hx : x.sign = []
  · by_cases hy : y.sign = []
    · have parts := congrArg splitLiteralInt same
      rw [text_unsigned hx, text_unsigned hy] at parts
      exact ⟨hx.trans hy.symm, Prod.mk.inj parts⟩
    · obtain ⟨c, hc, -, text⟩ := text_signed hy
      have parts := congrArg splitLiteralInt same
      rw [text_unsigned hx, text, splitLiteralInt_signed hc] at parts
      exact absurd (Prod.mk.inj parts).1 x.nonempty
  · obtain ⟨c, hc, signX, textX⟩ := text_signed hx
    by_cases hy : y.sign = []
    · have parts := congrArg splitLiteralInt same
      rw [text_unsigned hy, textX, splitLiteralInt_signed hc] at parts
      exact absurd (Prod.mk.inj parts).1.symm y.nonempty
    · obtain ⟨d, -, signY, textY⟩ := text_signed hy
      rw [textX, textY] at same
      obtain ⟨rfl, tails⟩ := List.cons.inj same
      have parts := congrArg splitLiteralInt tails
      rw [splitLiteralInt_unsigned x.decimal x.letters,
        splitLiteralInt_unsigned y.decimal y.letters] at parts
      exact ⟨signX.trans signY.symm, Prod.mk.inj parts⟩

end Uniqueness

section Conversion

theorem stoll_nil (base : Nat) : stoll [] base = .error (.invalidArgument "stoll".toList) := by
  unfold stoll stoSigned strto
  cases base <;> rfl

theorem stoll_decimal {ds : Str} (nonempty : ds ≠ []) (digits : ∀ c ∈ ds, isDecimal c = true)
    (base : Nat) (v : Int) :
    stoll ds base = .ok v ↔ validDigits base ds ≠ [] ∧
      magnitude base (validDigits base ds) < 2 ^ 63 ∧ v = magnitude base (validDigits base ds) := by
  rw [stoll, stoSigned, strto_decimal base nonempty digits]
  by_cases empty : validDigits base ds = []
  · simp [empty]
  · have isEmpty : (validDigits base ds).isEmpty = false := by simpa using empty
    have lower : -(2 ^ (64 - 1) : Int) ≤ (magnitude base (validDigits base ds) : Int) := by omega
    simp only [isEmpty, Bool.false_eq_true, if_false, signedValue]
    by_cases small : magnitude base (validDigits base ds) < 2 ^ 63
    · have upper : (magnitude base (validDigits base ds) : Int) < 2 ^ (64 - 1) := by omega
      rw [if_pos ⟨lower, upper⟩]
      exact ⟨fun same => ⟨empty, small, (Except.ok.inj same).symm⟩, fun h => by rw [h.2.2]⟩
    · have upper : ¬ (magnitude base (validDigits base ds) : Int) < 2 ^ (64 - 1) := by omega
      rw [if_neg fun range => upper range.2]
      exact ⟨fun failed => by simp at failed, fun h => absurd h.2.1 small⟩

theorem stoull_decimal {ds : Str} (nonempty : ds ≠ []) (digits : ∀ c ∈ ds, isDecimal c = true)
    (base : Nat) (v : Int) :
    stoull ds base = .ok v ↔ validDigits base ds ≠ [] ∧
      magnitude base (validDigits base ds) < 2 ^ 64 ∧ v = magnitude base (validDigits base ds) := by
  rw [stoull, strto_decimal base nonempty digits]
  by_cases empty : validDigits base ds = []
  · simp [empty]
  · have isEmpty : (validDigits base ds).isEmpty = false := by simpa using empty
    simp only [isEmpty, Bool.false_eq_true, if_false, signedValue]
    by_cases small : magnitude base (validDigits base ds) < 2 ^ 64
    · have same : (magnitude base (validDigits base ds) : Int) % 2 ^ 64 =
          magnitude base (validDigits base ds) := by omega
      rw [if_pos small, same]
      exact ⟨fun same => ⟨empty, small, (Except.ok.inj same).symm⟩, fun h => by rw [h.2.2]⟩
    · rw [if_neg small]
      exact ⟨fun failed => by simp at failed, fun h => absurd h.2.1 small⟩

theorem literalValue_ok_iff (x : IntegerLexeme) (v : Int) :
    literalValue x.text = .ok v ↔ x.Converts ∧ v = x.sized := by
  by_cases h : x.sign = []
  · have conversion : literalValue x.text =
        if x.isSigned then stoll x.digits x.base else stoull x.digits x.base := by
      simp only [literalValue, text_unsigned h]
      rfl
    rw [conversion]
    unfold IntegerLexeme.Converts IntegerLexeme.sized
    by_cases signed : x.isSigned = true
    · simp only [if_pos signed, stoll_decimal x.nonempty x.decimal, h, true_and, and_assoc]
    · simp only [if_neg signed, stoull_decimal x.nonempty x.decimal, h, true_and, and_assoc]
  · obtain ⟨c, hc, -, text⟩ := text_signed h
    have failed : literalValue x.text = .error (.invalidArgument "stoll".toList) := by
      simp only [literalValue, text, splitLiteralInt_signed hc, specifierFormat_signed hc, if_true]
      exact stoll_nil 10
    rw [failed]
    simp [IntegerLexeme.Converts, h]

private theorem shift_half (v : Nat) : (v : Int) >>> (1 : Nat) = ((v / 2 : Nat) : Int) := by
  rw [Int.shiftRight_eq_div_pow]
  omega

private theorem shiftLoop_eq (n v r : Nat) (bound : v < 2 ^ (n + 1)) :
    shiftLoop (n + 1) (v : Int) r = some (r + v.log2) := by
  induction n generalizing v r with
  | zero =>
      have small : v / 2 = 0 := by omega
      have low : ¬ 2 ≤ v := by omega
      rw [shiftLoop, Nat.log2_def, if_neg low]
      simp [shift_half, small]
  | succ n ih =>
      rw [shiftLoop, Nat.log2_def]
      simp only [shift_half]
      by_cases low : 2 ≤ v
      · have power : 2 ^ (n + 1 + 1) = 2 ^ (n + 1) * 2 := pow_succ 2 (n + 1)
        have more : ((v / 2 : Nat) : Int) ≠ 0 := by omega
        rw [if_neg more, if_pos low, ih (v / 2) (r + 1) (by omega)]
        congr 1
        omega
      · have small : ((v / 2 : Nat) : Int) = 0 := by omega
        rw [if_pos small, if_neg low]
        rfl

/-- The index of the top bit, which is one less than the number of bits. -/
theorem getMostSignificantBit_eq {v : Nat} (bound : v < 2 ^ 64) :
    getMostSignificantBit (v : Int) = .ok v.log2 := by
  rw [getMostSignificantBit, shiftLoop_eq 63 v 0 bound, Nat.zero_add]

theorem validDigits_valid {x : IntegerLexeme} (valid : x.Valid) :
    validDigits x.base x.digits = x.digits := validDigits_eq_self valid

theorem signedValue_unsigned {x : IntegerLexeme} (h : x.sign = []) (n : Nat) :
    signedValue (x.sign = ['-']) n = n := by
  have positive : decide (x.sign = ['-']) = false := by rw [h]; rfl
  rw [positive]
  rfl

theorem value_unsigned {x : IntegerLexeme} (h : x.sign = []) :
    x.value = magnitude x.base x.digits := signedValue_unsigned h _

theorem converts_unsigned {x : IntegerLexeme} (h : x.sign = []) (valid : x.Valid)
    (range : x.InRange) : x.Converts := by
  refine ⟨h, ?_, ?_⟩
  · rw [validDigits_valid valid]
    exact x.nonempty
  · rw [IntegerLexeme.sized, validDigits_valid valid]
    rw [IntegerLexeme.InRange, value_unsigned h] at range
    by_cases signed : x.isSigned = true
    · rw [if_pos signed] at range ⊢
      omega
    · rw [if_neg signed] at range ⊢
      omega

theorem sized_lt {x : IntegerLexeme} (converts : x.Converts) : x.sized < 2 ^ 64 := by
  have limit := converts.2.2
  split at limit
  · omega
  · exact limit

/-- The type of a literal that converts. -/
theorem getIntType_eq {x : IntegerLexeme} (converts : x.Converts) :
    getIntType x.text =
      .ok { id := .integer
            isSigned := x.isSigned
            sizeInBits := sizeInBits x.sized.log2
            specifier := x.specifier } := by
  have value := (literalValue_ok_iff x x.sized).mpr ⟨converts, rfl⟩
  simp only [getIntType, value, bind, Except.bind, getMostSignificantBit_eq (sized_lt converts),
    text_unsigned converts.1]
  rfl

theorem getIntType_decimal {n : Str} (nonempty : n ≠ []) (digits : ∀ c ∈ n, isDecimal c = true)
    (small : magnitude 10 n < 2 ^ 63) :
    getIntType n =
      .ok { id := .integer, isSigned := true, sizeInBits := sizeInBits (magnitude 10 n).log2 } := by
  have typed := getIntType_eq (ofDigits_converts nonempty digits small)
  rw [ofDigits_text, ofDigits_sized] at typed
  exact typed

theorem getIntType_ok_iff (x : IntegerLexeme) :
    (∃ t, getIntType x.text = .ok t) ↔ x.Converts := by
  constructor
  · rintro ⟨t, typed⟩
    obtain ⟨v, value, -⟩ := bind_ok_iff.mp typed
    exact ((literalValue_ok_iff x v).mp value).1
  · intro converts
    exact ⟨_, getIntType_eq converts⟩

end Conversion

end Amalgam.Parser
