/- Module: Amalgam/Parser/Splitting
   digest: Where the splitter cuts the literals of the grammar, and what it hands to the loop
   that counts bits. -/

import Amalgam.Parser.Sizes

set_option autoImplicit false
set_option relaxedAutoImplicit false

namespace Amalgam.Parser

open Amalgam.Cxx
open Amalgam.Pegtl (Matcher Outcome)
open Verifier (specifierFormat literalValue getMostSignificantBit shiftLoop sizeInBits)

section Grammar

/-- The token is what `literal_integer` reads in front of some rest of the input. -/
def LiteralMatched (token : Str) : Prop :=
  ∃ rest, (Rules.literalInteger : Matcher Unit Unit) false (token ++ rest) () = .ok rest ()

private theorem literalInteger_scan (inp : Pegtl.Input) :
    (Rules.literalInteger : Matcher Unit Unit) false inp () =
      Pegtl.scanned inp () ((lexInteger inp).map Prod.snd) := literalInteger_lexes.scans inp ()

private theorem literalMatched_iff (token : Str) :
    LiteralMatched token ↔ ∃ x : IntegerLexeme, x.text = token := by
  rw [← integerText_iff]
  constructor
  · rintro ⟨rest, read⟩
    rw [literalInteger_scan] at read
    cases found : lexInteger (token ++ rest) with
    | none =>
        rw [found] at read
        simp [Pegtl.scanned] at read
    | some lexeme =>
        obtain ⟨text, rest'⟩ := lexeme
        rw [found] at read
        have same : rest' = rest := (Outcome.ok.inj read).1
        have split := lexInteger_split _ _ _ found
        rw [same] at split
        rw [List.append_cancel_right split]
        exact IntegerText.of_lex found
  · intro text
    obtain ⟨more, rest, split, -, found⟩ := text.lex []
    obtain ⟨rfl, rfl⟩ := List.append_eq_nil_iff.mp split.symm
    use []
    rw [literalInteger_scan, found]
    rfl

end Grammar

section Agreement

/-- The splitter cuts the literal between its digits and its letters, and what is in front
of the cut denotes the signed number. -/
structure SplitAgrees (x : IntegerLexeme) : Prop where
  whole : (splitLiteralInt x.text).1 ++ (splitLiteralInt x.text).2 = x.text
  number : (splitLiteralInt x.text).1 = x.sign ++ x.digits
  nonempty : (splitLiteralInt x.text).1 ≠ []
  convertible : ∀ v, v = signedValue (x.sign = ['-']) (magnitude 10 x.digits) →
    -(2 ^ 63 : Int) ≤ v → v < 2 ^ 63 → stoll (splitLiteralInt x.text).1 10 = .ok v
  specifier : (splitLiteralInt x.text).2 = x.specifier

private theorem splitAgrees_iff (x : IntegerLexeme) : SplitAgrees x ↔ x.sign = [] := by
  constructor
  · intro agrees
    by_contra signed
    obtain ⟨c, sign, -, text⟩ := text_signed signed
    have nonempty := agrees.nonempty
    rw [text, splitLiteralInt_signed sign] at nonempty
    exact nonempty rfl
  · intro unsigned
    have cut := text_unsigned unsigned
    refine ⟨?_, ?_, ?_, ?_, ?_⟩
    · rw [cut, IntegerLexeme.text, unsigned, List.nil_append]
    · rw [cut, unsigned, List.nil_append]
    · rw [cut]
      exact x.nonempty
    · intro v value lower upper
      rw [signedValue_unsigned unsigned] at value
      rw [cut, stoll_decimal x.nonempty x.decimal, validDigits_decimal x.decimal]
      refine ⟨x.nonempty, ?_, value⟩
      omega
    · rw [cut]

/-- On the literals of the grammar the splitter agrees with it exactly when there is no
sign in front. -/
theorem splitLiteralInt_agrees_iff {token : Str} (matched : LiteralMatched token) :
    (∃ x : IntegerLexeme, x.text = token ∧ SplitAgrees x) ↔
      ∀ c ∈ token.head?, isSign c = false := by
  constructor
  · rintro ⟨x, rfl, agrees⟩ c first
    have unsigned := (splitAgrees_iff x).mp agrees
    obtain ⟨d, ds, digits⟩ := List.exists_cons_of_ne_nil x.nonempty
    rw [IntegerLexeme.text, unsigned, digits] at first
    obtain rfl : d = c := Option.some.inj first
    have decimal : isDecimal d = true := by
      apply x.decimal
      rw [digits]
      exact List.mem_cons_self
    by_contra sign
    rw [Bool.not_eq_false] at sign
    rw [sign_not_decimal sign] at decimal
    exact Bool.false_ne_true decimal
  · intro unsigned
    obtain ⟨x, rfl⟩ := (literalMatched_iff token).mp matched
    use x, rfl
    rw [splitAgrees_iff]
    by_contra signed
    obtain ⟨c, sign, -, text⟩ := text_signed signed
    have first := unsigned c (by rw [text]; rfl)
    rw [sign] at first
    simp at first

theorem splitLiteralInt_agrees_hex :
    ∃ x : IntegerLexeme, x.text = "15h".toList ∧ SplitAgrees x := by
  have text : IntegerText "15h".toList :=
    ⟨[], ['1', '5'], ['h'], rfl, .inl rfl, by simp, by decide, by decide⟩
  have matched := (literalMatched_iff "15h".toList).mpr ((integerText_iff _).mp text)
  apply (splitLiteralInt_agrees_iff matched).mpr
  intro c first
  obtain rfl : '1' = c := Option.some.inj first
  decide

/-- Of the literal -5 the number is empty, and all of it is taken for a specifier. -/
theorem splitLiteralInt_minus_five :
    LiteralMatched "-5".toList ∧ splitLiteralInt "-5".toList = ([], "-5".toList) ∧
      ¬ ∃ x : IntegerLexeme, x.text = "-5".toList ∧ SplitAgrees x := by
  have text : IntegerText "-5".toList :=
    ⟨['-'], ['5'], [], rfl, .inr ⟨'-', by decide, rfl⟩, by simp, by decide, by simp⟩
  have cut : splitLiteralInt "-5".toList = ([], "-5".toList) := splitLiteralInt_signed (by decide) _
  refine ⟨(literalMatched_iff _).mpr ((integerText_iff _).mp text), cut, ?_⟩
  rintro ⟨x, same, agrees⟩
  have nonempty := agrees.nonempty
  rw [same, cut] at nonempty
  exact nonempty rfl

end Agreement

section Counting

private theorem stoull_nil (base : Nat) : stoull [] base = .error
    (.invalidArgument "stoull".toList) := by
  unfold stoull strto
  cases base <;> rfl

private theorem literalValue_natural {token : Str} {v : Int}
    (converted : literalValue token = .ok v) :
    ∃ n : Nat, v = n ∧
      n < 2 ^ if (specifierFormat (splitLiteralInt token).2).2 then 63 else 64 := by
  have digits : ∀ c ∈ (splitLiteralInt token).1, isDecimal c = true := by
    intro c hc
    rw [splitLiteralInt_eq] at hc
    exact List.mem_takeWhile_imp hc
  by_cases signed : (specifierFormat (splitLiteralInt token).2).2 = true
  · have run : stoll (splitLiteralInt token).1 (specifierFormat (splitLiteralInt token).2).1 =
        .ok v := by simpa only [literalValue, if_pos signed] using converted
    have nonempty : (splitLiteralInt token).1 ≠ [] := by
      intro empty
      rw [empty, stoll_nil] at run
      cases run
    obtain ⟨-, range, value⟩ := (stoll_decimal nonempty digits _ v).mp run
    rw [if_pos signed]
    exact ⟨_, value, range⟩
  · have run : stoull (splitLiteralInt token).1 (specifierFormat (splitLiteralInt token).2).1 =
        .ok v := by simpa only [literalValue, if_neg signed] using converted
    have nonempty : (splitLiteralInt token).1 ≠ [] := by
      intro empty
      rw [empty, stoull_nil] at run
      cases run
    obtain ⟨-, range, value⟩ := (stoull_decimal nonempty digits _ v).mp run
    rw [if_neg signed]
    exact ⟨_, value, range⟩

private theorem shiftLoop_negative (n : Nat) {v : Int} (negative : v < 0) (r : Nat) :
    shiftLoop n v r = none := by
  induction n generalizing v r with
  | zero => rfl
  | succ n ih =>
      have shifted : v >>> (1 : Nat) < 0 := by
        rw [Int.shiftRight_eq_div_pow]
        omega
      have nonzero : v >>> (1 : Nat) ≠ 0 := by omega
      rw [shiftLoop]
      simp only [if_neg nonzero]
      exact ih shifted (r + 1)

private theorem sizeInBits_mem {r : Nat} (bound : r ≤ 64) : sizeInBits r ∈ [8, 16, 32, 64] := by
  unfold sizeInBits
  repeat' split
  all_goals simp

/-- Of every converted value the loop finds the top bit, which one of the four sizes covers;
on a negative value, which is never converted, it would not end. -/
theorem getMostSignificantBit_exact :
    (∀ (token : Str) (v : Int), literalValue token = .ok v →
      0 ≤ v ∧ ∃ r, getMostSignificantBit v = .ok r ∧ (v = 0 → r = 0) ∧
        (1 ≤ v → 2 ^ r ≤ v ∧ v < 2 ^ (r + 1)) ∧
        r ≤ (if (specifierFormat (splitLiteralInt token).2).2 then 62 else 63) ∧
        sizeInBits r ∈ [8, 16, 32, 64]) ∧
      ∀ v < 0, ∀ n r, shiftLoop n v r = none := by
  constructor
  · intro token v converted
    obtain ⟨n, rfl, range⟩ := literalValue_natural converted
    have bound : n < 2 ^ 64 := by
      split at range
      · omega
      · exact range
    have small : n.log2 ≤ if (specifierFormat (splitLiteralInt token).2).2 then 62 else 63 := by
      split
      · rename_i signed
        rw [if_pos signed] at range
        exact (log2_le_iff n 62).mpr range
      · exact (log2_le_iff n 63).mpr bound
    have sized : n.log2 ≤ 64 := by
      split at small
      · omega
      · omega
    refine ⟨Int.natCast_nonneg n, n.log2, getMostSignificantBit_eq bound, ?_, ?_, small,
      sizeInBits_mem sized⟩
    · intro zero
      obtain rfl : n = 0 := by omega
      exact Nat.log2_zero
    · intro positive
      have lower : 2 ^ n.log2 ≤ n := Nat.log2_self_le (by omega)
      have upper : n < 2 ^ (n.log2 + 1) := Nat.lt_log2_self
      constructor
      · exact_mod_cast lower
      · exact_mod_cast upper
  · intro v negative n r
    exact shiftLoop_negative n negative r

theorem getMostSignificantBit_two_hundred :
    (∃ r, getMostSignificantBit 200 = .ok r ∧ 2 ^ r ≤ (200 : Int) ∧ (200 : Int) < 2 ^ (r + 1)) ∧
      shiftLoop 64 (-1) 0 = none := by
  have converted : literalValue "200".toList = .ok 200 := rfl
  obtain ⟨-, r, run, -, range, -⟩ := getMostSignificantBit_exact.1 "200".toList 200 converted
  exact ⟨⟨r, run, range (by omega)⟩, getMostSignificantBit_exact.2 (-1) (by omega) 64 0⟩

end Counting

end Amalgam.Parser
