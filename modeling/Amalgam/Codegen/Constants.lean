/- Module: Amalgam/Codegen/Constants
   digest: The constant built for a literal, beside the number whose size the verifier takes. -/

import Amalgam.Codegen.Generator
import Amalgam.Parser.Literals

set_option autoImplicit false
set_option relaxedAutoImplicit false

namespace Amalgam.Codegen

open Amalgam.Cxx
open Amalgam.Parser
open Verifier (literalValue getIntType)

/-- Sign and digits read in base ten, whatever the specifier. -/
def decimalValue (x : IntegerLexeme) : Int :=
  signedValue (x.sign = ['-']) (magnitude 10 x.digits)

section Conversion

private theorem letter_value {c : Char} (h : isAlpha c = true) : 10 ≤ digitValue c :=
  digitValue_other (letter_not_decimal h)

private theorem validDigits_text (x : IntegerLexeme) : validDigits 10
    (x.digits ++ x.specifier) = x.digits :=
  validDigits_append (fun c hc => digitValue_decimal (x.decimal c hc))
    (fun c hc => letter_value (x.letters c hc))

private theorem strto_text (x : IntegerLexeme) :
    strto 10 x.text = some (decide (x.sign = ['-']), magnitude 10 x.digits) := by
  have someDigits : (x.digits : Str).isEmpty = false := by simpa using x.nonempty
  rcases x.signs with none | ⟨c, hc, sign⟩
  · obtain ⟨c, ds, digits⟩ := List.exists_cons_of_ne_nil x.nonempty
    have first : isDecimal c = true := x.decimal c (by rw [digits]; simp)
    have text : x.text = c :: (ds ++ x.specifier) := by
      rw [IntegerLexeme.text, none, digits]
      rfl
    have noSpace : (c :: (ds ++ x.specifier)).dropWhile isSpace = c :: (ds ++ x.specifier) := by
      simp [decimal_ne_space first]
    have valid : validDigits 10 (c :: (ds ++ x.specifier)) = x.digits := by
      have := validDigits_text x
      rwa [digits, List.cons_append, ← digits] at this
    simp only [strto, text, noSpace, readSign_decimal first,
      dropHexPrefix_other (by decide : (10 : Nat) ≠ 16), valid, someDigits, Bool.false_eq_true,
      if_false, none]
    rfl
  · have text : x.text = c :: (x.digits ++ x.specifier) := by
      rw [IntegerLexeme.text, sign, List.append_assoc, List.singleton_append]
    have space : isSpace c = false := by
      have signs : ∀ d ∈ ['+', '-'], isSpace d = false := by decide
      exact signs c (List.contains_iff_mem.mp hc)
    have noSpace : (c :: (x.digits ++ x.specifier)).dropWhile isSpace =
        c :: (x.digits ++ x.specifier) := by simp [space]
    have read : readSign (c :: (x.digits ++ x.specifier)) =
        (decide (c = '-'), x.digits ++ x.specifier) := by
      have signs : c = '+' ∨ c = '-' := by
        simpa using List.contains_iff_mem.mp hc
      rcases signs with rfl | rfl <;> rfl
    simp only [strto, text, noSpace, read, dropHexPrefix_other (by decide : (10 : Nat) ≠ 16),
      validDigits_text, someDigits, Bool.false_eq_true, if_false, sign]
    simp

/-- The generator reads every literal as a signed 32-bit decimal number. -/
theorem constantInt_text (x : IntegerLexeme) :
    constantInt x.text =
      if -(2 ^ 31 : Int) ≤ decimalValue x ∧ decimalValue x < 2 ^ 31 then
        .ok (.constantInt (BitVec.ofInt 64 (decimalValue x)))
      else .error (.outOfRange "stoi".toList) := by
  have same : stoi x.text =
      if -(2 ^ 31 : Int) ≤ decimalValue x ∧ decimalValue x < 2 ^ 31 then .ok (decimalValue x)
      else .error (.outOfRange "stoi".toList) := by
    rw [stoi, stoSigned, strto_text]
    rfl
  rw [constantInt, same]
  split <;> rfl

end Conversion

section Agreement

theorem unsigned_values {x : IntegerLexeme} (h : x.sign = []) :
    x.value = magnitude x.base x.digits ∧ decimalValue x = magnitude 10 x.digits :=
  ⟨value_unsigned h, signedValue_unsigned h _⟩

private theorem ofInt_inj {v w : Nat} (hv : v < 2 ^ 64) (hw : w < 2 ^ 64) :
    BitVec.ofInt 64 (v : Int) = BitVec.ofInt 64 (w : Int) ↔ v = w := by
  constructor
  · intro same
    have := congrArg BitVec.toNat same
    rw [BitVec.toNat_ofInt, BitVec.toNat_ofInt] at this
    omega
  · rintro rfl
    rfl

private theorem base_cases (x : IntegerLexeme) :
    x.base = 2 ∨ x.base = 8 ∨ x.base = 10 ∨ x.base = 16 :=
  specifierFormat_base x.specifier

private theorem digits_lt_ten (x : IntegerLexeme) : ∀ c ∈ x.digits, digitValue c < 10 :=
  fun c hc => digitValue_decimal (x.decimal c hc)

private theorem sized_eq_iff_valid {x : IntegerLexeme} (other : x.base ≠ 10) (valid : x.Valid) :
    x.sized = magnitude 10 x.digits ↔ magnitude 10 x.digits < 10 := by
  have bases := base_cases x
  obtain ⟨xs, c, split⟩ := (List.eq_nil_or_concat x.digits).resolve_left x.nonempty
  rw [List.concat_eq_append] at split
  have last : digitValue c < 10 := digits_lt_ten x c (by rw [split]; simp)
  rw [IntegerLexeme.sized, validDigits_valid valid, split, magnitude_concat_lt last]
  rcases Nat.lt_or_gt_of_ne other with below | above
  · rw [magnitude_eq_iff (by omega) below]
    exact ⟨magnitude_eq_zero (by omega), magnitude_eq_zero (by omega)⟩
  · rw [eq_comm, magnitude_eq_iff (by omega) above]

private theorem sized_lt_of_not_valid {x : IntegerLexeme} (invalid : ¬ x.Valid) :
    x.sized < magnitude 10 x.digits := by
  have bases := base_cases x
  have below : x.base ≤ 10 := by
    by_contra large
    apply invalid
    intro c hc
    have := digits_lt_ten x c hc
    omega
  have cut : validDigits x.base x.digits ≠ x.digits := by
    intro whole
    apply invalid
    intro c hc
    simpa using List.takeWhile_eq_self_iff.mp whole c hc
  exact magnitude_cut_lt (by omega) below cut

private theorem valid_of_magnitude_lt {x : IntegerLexeme} (small : magnitude 10 x.digits < x.base) :
    x.Valid := by
  intro c hc
  have bound : digitValue c ≤ magnitude 10 x.digits := digitValue_le_magnitude (by omega) hc
  omega

private theorem sized_eq_iff (x : IntegerLexeme) :
    x.sized = magnitude 10 x.digits ↔
      x.base = 10 ∨ x.base ≠ 10 ∧ magnitude 10 x.digits < 10 ∧ magnitude 10 x.digits < x.base := by
  by_cases ten : x.base = 10
  · have valid : x.Valid := by
      rw [IntegerLexeme.Valid, ten]
      exact digits_lt_ten x
    have same : x.sized = magnitude 10 x.digits := by
      rw [IntegerLexeme.sized, validDigits_valid valid, ten]
    exact ⟨fun _ => .inl ten, fun _ => same⟩
  · constructor
    · intro same
      have valid : x.Valid := by
        by_contra invalid
        have := sized_lt_of_not_valid invalid
        omega
      have single := (sized_eq_iff_valid ten valid).mp same
      refine .inr ⟨ten, single, ?_⟩
      -- The number is its last digit.
      obtain ⟨xs, c, split⟩ := (List.eq_nil_or_concat x.digits).resolve_left x.nonempty
      rw [List.concat_eq_append] at split
      have member : c ∈ x.digits := by rw [split]; simp
      have last := valid c member
      rw [split, magnitude_concat_lt (digits_lt_ten x c member)] at single
      rw [split, magnitude_concat, single]
      omega
    · rintro (isTen | ⟨-, single, small⟩)
      · exact absurd isTen ten
      · exact (sized_eq_iff_valid ten (valid_of_magnitude_lt small)).mpr single

/-- On a literal that the verifier types, the generator builds the number denoted, which
is the number sized, exactly when the base is ten and the number has at most 31 bits, or
the digits denote a single digit of another base. -/
theorem constant_agrees_iff (x : IntegerLexeme) (typed : ∃ t, getIntType x.text = .ok t) :
    (∃ v, literalValue x.text = .ok v ∧ v = x.value ∧
      constantInt x.text = .ok (.constantInt (BitVec.ofInt 64 v))) ↔
    x.base = 10 ∧ magnitude 10 x.digits ≤ 2147483647 ∨
      x.base ≠ 10 ∧ magnitude 10 x.digits < 10 ∧ magnitude 10 x.digits < x.base := by
  have converts := (getIntType_ok_iff x).mp typed
  obtain ⟨value, decimal⟩ := unsigned_values converts.1
  have sizedBound := sized_lt converts
  constructor
  · rintro ⟨v, sized, -, built⟩
    have same := ((literalValue_ok_iff x v).mp sized).2
    rw [constantInt_text, decimal] at built
    by_cases range : -(2 ^ 31 : Int) ≤ (magnitude 10 x.digits : Int) ∧
        (magnitude 10 x.digits : Int) < 2 ^ 31
    · rw [if_pos range, same] at built
      have bits := Value.constantInt.inj (Except.ok.inj built)
      have equal := (ofInt_inj (by omega) sizedBound).mp bits
      rcases (sized_eq_iff x).mp equal.symm with ten | single
      · exact .inl ⟨ten, by omega⟩
      · exact .inr single
    · rw [if_neg range] at built
      simp at built
  · intro condition
    have equal : x.sized = magnitude 10 x.digits := by
      apply (sized_eq_iff x).mpr
      rcases condition with ⟨ten, -⟩ | single
      · exact .inl ten
      · exact .inr single
    have bound : magnitude 10 x.digits ≤ 2147483647 := by
      rcases condition with ⟨-, bound⟩ | ⟨-, single, -⟩
      · exact bound
      · omega
    have valid : x.Valid := by
      rcases condition with ⟨ten, -⟩ | ⟨-, -, small⟩
      · rw [IntegerLexeme.Valid, ten]
        exact digits_lt_ten x
      · exact valid_of_magnitude_lt small
    refine ⟨x.sized, (literalValue_ok_iff x _).mpr ⟨converts, rfl⟩, ?_, ?_⟩
    · rw [value, IntegerLexeme.sized, validDigits_valid valid]
    · have range : -(2 ^ 31 : Int) ≤ (magnitude 10 x.digits : Int) ∧
          (magnitude 10 x.digits : Int) < 2 ^ 31 := by omega
      rw [constantInt_text, decimal, if_pos range, equal]

theorem constant_agrees_single_digit : constantInt "7h".toList = .ok (.constantInt 7) := by
  let x : IntegerLexeme := ⟨[], ['7'], ['h'], .inl rfl, by decide, by decide, by decide⟩
  have typed : ∃ t, getIntType x.text = .ok t :=
    (getIntType_ok_iff x).mpr ⟨rfl, by decide, by decide⟩
  obtain ⟨v, sized, -, built⟩ := (constant_agrees_iff x typed).mpr (.inr (by decide))
  have same : v = 7 := ((literalValue_ok_iff x v).mp sized).2
  rw [same] at built
  exact built

/-- The verifier takes the size of 16 for `10h`, and the generator builds 10. -/
theorem constant_differs_hexadecimal :
    ∃ x : IntegerLexeme, x.text = "10h".toList ∧ (∃ t, getIntType x.text = .ok t) ∧
      literalValue x.text = .ok 16 ∧ x.value = 16 ∧
      constantInt x.text = .ok (.constantInt 10) := by
  let x : IntegerLexeme := ⟨[], ['1', '0'], ['h'], .inl rfl, by decide, by decide, by decide⟩
  have converts : x.Converts := ⟨rfl, by decide, by decide⟩
  have built : constantInt x.text = .ok (.constantInt 10) := by
    rw [constantInt_text]
    exact if_pos (by decide)
  exact ⟨x, rfl, (getIntType_ok_iff x).mpr converts, (literalValue_ok_iff x 16).mpr ⟨converts, rfl⟩,
    rfl, built⟩

end Agreement

end Amalgam.Codegen
