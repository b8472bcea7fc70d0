/- Module: Amalgam/Parser/Sizes
   digest: When the size inferred for a literal is the smallest that holds it. -/

import Amalgam.Parser.Literals

set_option autoImplicit false
set_option relaxedAutoImplicit false

namespace Amalgam.Parser

open Amalgam.Cxx
open Verifier (getIntType sizeInBits)

def Fits (signed : Bool) (size v : Nat) : Prop := v < 2 ^ (if signed then size - 1 else size)

/-- The smallest of the four sizes in which the number is representable. -/
def SmallestSize (signed : Bool) (v size : Nat) : Prop :=
  size ∈ [8, 16, 32, 64] ∧ Fits signed size v ∧ ∀ s ∈ [8, 16, 32, 64], Fits signed s v → size ≤ s

section Threshold

theorem log2_le_iff (v k : Nat) : v.log2 ≤ k ↔ v < 2 ^ (k + 1) := by
  by_cases zero : v = 0
  · have positive : 0 < 2 ^ (k + 1) := Nat.two_pow_pos (k + 1)
    rw [zero, Nat.log2_zero]
    omega
  · rw [← Nat.lt_succ_iff]
    exact Nat.log2_lt zero

private theorem sizeInBits_cases {v : Nat} (bound : v < 2 ^ 64) :
    sizeInBits v.log2 = 8 ∧ v < 2 ^ 9 ∨ sizeInBits v.log2 = 16 ∧ 2 ^ 9 ≤ v ∧ v < 2 ^ 17 ∨
      sizeInBits v.log2 = 32 ∧ 2 ^ 17 ≤ v ∧ v < 2 ^ 33 ∨ sizeInBits v.log2 = 64 ∧ 2 ^ 33 ≤ v := by
  simp only [sizeInBits, log2_le_iff]
  by_cases h₈ : v < 2 ^ 9
  · rw [if_pos h₈]
    omega
  · by_cases h₁₆ : v < 2 ^ 17
    · rw [if_neg h₈, if_pos h₁₆]
      omega
    · by_cases h₃₂ : v < 2 ^ 33
      · rw [if_neg h₈, if_neg h₁₆, if_pos h₃₂]
        omega
      · rw [if_neg h₈, if_neg h₁₆, if_neg h₃₂, if_pos (by omega)]
        omega

private theorem smallestSize_iff (signed : Bool) {v : Nat} (range : Fits signed 64 v) :
    SmallestSize signed v (sizeInBits v.log2) ↔
      ∀ s ∈ [8, 16, 32], Fits signed s v ∨ 2 ^ (s + 1) ≤ v := by
  have bound : v < 2 ^ 64 := by
    unfold Fits at range
    cases signed with
    | false => exact range
    | true => exact range.trans (by norm_num)
  unfold SmallestSize
  rcases sizeInBits_cases bound with ⟨size, upper⟩ | ⟨size, lower, upper⟩ | ⟨size, lower, upper⟩ |
    ⟨size, lower⟩
  all_goals
    rw [size]
    cases signed <;> simp [Fits] at range ⊢ <;> omega

end Threshold

section Sizes

/-- On a literal without a sign, of valid digits and in range, the size of the inferred
type is the smallest for the number exactly when the number lies in none of three bands:
from the first number that needs a size larger than `s` up to `2 ^ (s + 1)`. -/
theorem getIntType_size_iff (x : IntegerLexeme) (unsigned : x.sign = []) (valid : x.Valid)
    (range : x.InRange) :
    (∃ t, getIntType x.text = .ok t ∧
      SmallestSize t.isSigned (magnitude x.base x.digits) t.sizeInBits) ↔
    ∀ s ∈ [8, 16, 32], Fits x.isSigned s (magnitude x.base x.digits) ∨
      2 ^ (s + 1) ≤ magnitude x.base x.digits := by
  have typed := getIntType_eq (converts_unsigned unsigned valid range)
  have sized : x.sized = magnitude x.base x.digits := by
    rw [IntegerLexeme.sized, validDigits_valid valid]
  have fits : Fits x.isSigned 64 (magnitude x.base x.digits) := by
    rw [IntegerLexeme.InRange, value_unsigned unsigned] at range
    by_cases signed : x.isSigned = true
    · rw [if_pos signed] at range
      rw [Fits, if_pos signed]
      omega
    · rw [if_neg signed] at range
      rw [Fits, if_neg signed]
      omega
  rw [sized] at typed
  rw [← smallestSize_iff x.isSigned fits]
  constructor
  · rintro ⟨t, run, smallest⟩
    rw [typed] at run
    rw [← Except.ok.inj run] at smallest
    exact smallest
  · intro smallest
    exact ⟨_, typed, smallest⟩

theorem getIntType_size_hundred :
    ∃ t, getIntType "100".toList = .ok t ∧ SmallestSize t.isSigned 100 t.sizeInBits := by
  have digits : ∀ c ∈ "100".toList, isDecimal c = true := by decide
  have nonempty : "100".toList ≠ [] := by decide
  have number : magnitude 10 "100".toList = 100 := by decide
  obtain ⟨valid, range⟩ := ofDigits_good nonempty digits (by rw [number]; decide)
  have base : (IntegerLexeme.ofDigits "100".toList nonempty digits).base = 10 := rfl
  have denotes : magnitude (IntegerLexeme.ofDigits "100".toList nonempty digits).base
      (IntegerLexeme.ofDigits "100".toList nonempty digits).digits = 100 := by
    rw [base]
    exact number
  have sized := getIntType_size_iff _ rfl valid range
  rw [denotes, ofDigits_text] at sized
  apply sized.mpr
  show ∀ s ∈ [8, 16, 32], Fits true s 100 ∨ 2 ^ (s + 1) ≤ 100
  unfold Fits
  decide

/-- The number 200 is given 8 bits with a sign, which hold numbers up to 127. -/
theorem getIntType_size_two_hundred :
    ∃ t, getIntType "200".toList = .ok t ∧ t.isSigned = true ∧ t.sizeInBits = 8 ∧
      magnitude 10 "200".toList = 200 ∧ ¬ SmallestSize t.isSigned 200 t.sizeInBits := by
  have digits : ∀ c ∈ "200".toList, isDecimal c = true := by decide
  have number : magnitude 10 "200".toList = 200 := rfl
  have size : sizeInBits (Nat.log2 200) = 8 := by decide
  have typed := getIntType_decimal (by simp) digits (by decide)
  rw [number, size] at typed
  refine ⟨_, typed, rfl, rfl, number, ?_⟩
  intro smallest
  have fits : 200 < 2 ^ (8 - 1) := smallest.2.1
  omega

end Sizes

end Amalgam.Parser
