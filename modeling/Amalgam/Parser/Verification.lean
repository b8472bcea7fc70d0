/- Module: Amalgam/Parser/Verification
   digest: When checking an expression tree returns, and when it rejects a bad literal. -/

import Amalgam.Parser.Literals

set_option autoImplicit false
set_option relaxedAutoImplicit false

namespace Amalgam.Parser

open Amalgam.Cxx (Fault Str isDecimal)
open Verifier (Checked getType getIntType expressionTree isLvalue inferenceError)

def Converts (tok : Str) : Prop := ∃ x : IntegerLexeme, x.text = tok ∧ x.Converts

/-- Some digit is not one of the base, or the number is out of range. -/
def Bad (tok : Str) : Prop := ∃ x : IntegerLexeme, x.text = tok ∧ ¬ (x.Valid ∧ x.InRange)

private theorem bad_text_iff (x : IntegerLexeme) : Bad x.text ↔ ¬ (x.Valid ∧ x.InRange) := by
  constructor
  · rintro ⟨y, same, bad⟩
    obtain ⟨sign, digits, specifier⟩ := IntegerLexeme.text_inj same
    have base : y.base = x.base := by rw [IntegerLexeme.base, specifier, IntegerLexeme.base]
    have signed : y.isSigned = x.isSigned := by
      rw [IntegerLexeme.isSigned, specifier, IntegerLexeme.isSigned]
    have value : y.value = x.value := by
      simp only [IntegerLexeme.value, sign, digits, base]
    simpa only [IntegerLexeme.Valid, IntegerLexeme.InRange, digits, base, signed, value] using bad
  · intro bad
    exact ⟨x, rfl, bad⟩

namespace Ast

mutual

/-- The literals that have yet to be typed: those not below a node with a type. -/
def pending : Ast → List (List Char)
  | .mk _ type data children semanticType =>
      match semanticType with
      | some _ => []
      | none =>
          match type with
          | .literalInt => [data]
          | .op => pendingAll children
          | .identifier => []
          | .group => []

def pendingAll : List Ast → List (List Char)
  | [] => []
  | c :: cs => c.pending ++ pendingAll cs

end

theorem pending_op (address : Nat) (data : List Char) (l r : Ast) :
    (Ast.mk address .op data [l, r] none).pending = l.pending ++ r.pending := by
  simp [pending, pendingAll]

theorem literals_op (address : Nat) (data : List Char) (l r : Ast)
    (semanticType : Option NumericTypeAnnotation) :
    (Ast.mk address .op data [l, r] semanticType).literals = l.literals ++ r.literals := by
  simp [literals, nodes, type]

private theorem pending_typed (address : Nat) (type : NodeType) (data : List Char)
    (children : List Ast)
    (s : NumericTypeAnnotation) : (Ast.mk address type data children (some s)).pending = [] := by
  simp [pending]

private theorem pending_other (address : Nat) {type : NodeType} (data : List Char)
    (notOp : type ≠ .op)
    (notLiteral : type ≠ .literalInt) : (Ast.mk address type data [] none).pending = [] := by
  cases type with
  | op => exact absurd rfl notOp
  | literalInt => exact absurd rfl notLiteral
  | identifier => simp [pending]
  | group => simp [pending]

private theorem pending_subset {t : Ast} (strict : t.Strict) :
    ∀ tok ∈ t.pending, tok ∈ t.literals := by
  induction strict using Verifier.typing_induct with
  | typed address type data children s => simp [pending_typed]
  | op address data l r _ _ ihl ihr =>
      intro tok h
      rw [pending_op] at h
      rw [literals_op]
      rcases List.mem_append.mp h with left | right
      · exact List.mem_append_left _ (ihl tok left)
      · exact List.mem_append_right _ (ihr tok right)
  | literal address data =>
      intro tok h
      exact h
  | other address type data _ notOp notLiteral => simp [pending_other, notOp, notLiteral]

private theorem pending_texts {t : Ast} (strict : t.Strict)
    (texts : ∀ tok ∈ t.literals, IntegerText tok) :
    ∀ tok ∈ t.pending, IntegerText tok :=
  fun tok h => texts tok (pending_subset strict tok h)

end Ast

section Typing

private theorem getIntType_converts {tok : Str} (text : IntegerText tok) :
    (∃ t, getIntType tok = .ok t) ↔ Converts tok := by
  obtain ⟨x, rfl⟩ := (integerText_iff tok).mp text
  constructor
  · intro typed
    exact ⟨x, rfl, (getIntType_ok_iff x).mp typed⟩
  · rintro ⟨y, same, converts⟩
    rw [← same]
    exact (getIntType_ok_iff y).mpr converts

private theorem operands_ok_iff {l r : Ast} {α : Type}
    {f : Option NumericTypeAnnotation × Ast → Option NumericTypeAnnotation × Ast → α}
    (left : (∃ a, getType l = .ok a) ↔ ∀ tok ∈ l.pending, Converts tok)
    (right : (∃ a, getType r = .ok a) ↔ ∀ tok ∈ r.pending, Converts tok) :
    (∃ b, (do
      let tl ← getType l
      let tr ← getType r
      Except.ok (f tl tr)) = .ok b) ↔ ∀ tok ∈ l.pending ++ r.pending, Converts tok := by
  rw [List.forall_mem_append, ← left, ← right]
  constructor
  · rintro ⟨b, run⟩
    obtain ⟨tl, runLeft, run⟩ := bind_ok_iff.mp run
    obtain ⟨tr, runRight, -⟩ := bind_ok_iff.mp run
    exact ⟨⟨tl, runLeft⟩, ⟨tr, runRight⟩⟩
  · rintro ⟨⟨tl, runLeft⟩, ⟨tr, runRight⟩⟩
    exact ⟨_, bind_ok_iff.mpr ⟨tl, runLeft, bind_ok_iff.mpr ⟨tr, runRight, rfl⟩⟩⟩

private theorem getType_ok_iff {t : Ast} (strict : t.Strict)
    (texts : ∀ tok ∈ t.pending, IntegerText tok) :
    (∃ r, getType t = .ok r) ↔ ∀ tok ∈ t.pending, Converts tok := by
  induction strict using Verifier.typing_induct with
  | typed address type data children s =>
      rw [Ast.pending_typed, Verifier.getType_typed]
      simp
  | op address data l r _ _ ihl ihr =>
      rw [Ast.pending_op] at texts ⊢
      obtain ⟨textsLeft, textsRight⟩ := List.forall_mem_append.mp texts
      rw [Verifier.getType_op]
      exact operands_ok_iff (ihl textsLeft) (ihr textsRight)
  | literal address data =>
      have only : (Ast.mk address .literalInt data [] none).pending = [data] := rfl
      rw [only, List.forall_mem_singleton] at texts ⊢
      rw [Verifier.getType_literal, ← getIntType_converts texts]
      constructor
      · rintro ⟨r, run⟩
        obtain ⟨s, typed, -⟩ := bind_ok_iff.mp run
        exact ⟨s, typed⟩
      · rintro ⟨s, typed⟩
        exact ⟨_, bind_ok_iff.mpr ⟨s, typed, rfl⟩⟩
  | other address type data _ notOp notLiteral =>
      rw [Ast.pending_other address data notOp notLiteral,
        Verifier.getType_other address data notOp notLiteral]
      simp

/-- Only literals, and nodes that have a type already, get a type: an operator does not
even when both of its operands have the same. -/
theorem getType_isSome {t t' : Ast} {a : Option NumericTypeAnnotation} (strict : t.Strict)
    (run : getType t = .ok (a, t')) :
    a.isSome = true ↔ t.type = .literalInt ∨ t.semanticType.isSome = true := by
  cases strict using Verifier.typing_induct with
  | typed address type data children s =>
      rw [Verifier.getType_typed] at run
      obtain ⟨rfl, -⟩ := Prod.mk.inj (Except.ok.inj run)
      simp [Ast.semanticType]
  | op address data l r =>
      rw [Verifier.getType_op] at run
      obtain ⟨tl, -, run⟩ := bind_ok_iff.mp run
      obtain ⟨tr, -, run⟩ := bind_ok_iff.mp run
      obtain ⟨rfl, -⟩ := Prod.mk.inj (Except.ok.inj run)
      simp [Ast.semanticType, Ast.type]
  | literal address data =>
      rw [Verifier.getType_literal] at run
      obtain ⟨s, -, run⟩ := bind_ok_iff.mp run
      obtain ⟨rfl, -⟩ := Prod.mk.inj (Except.ok.inj run)
      simp [Ast.type]
  | other address type data _ notOp notLiteral =>
      rw [Verifier.getType_other address data notOp notLiteral] at run
      obtain ⟨rfl, -⟩ := Prod.mk.inj (Except.ok.inj run)
      simp [Ast.semanticType, Ast.type, notLiteral]

end Typing

section Checking

theorem isLvalue_iff (e : Ast) : isLvalue e = true ↔ e.type = .identifier := by
  simp [isLvalue]

theorem check_initializer_rejected (m : Method) (address : Nat) {l : Ast} (r : Ast)
    (semanticType : Option NumericTypeAnnotation) (h : l.type ≠ .identifier) :
    ∃ c, expressionTree m (.mk address .op ":=".toList [l, r] semanticType) = .ok c ∧
      c.passed = false := by
  have noLvalue : isLvalue l = false := by
    rw [Bool.eq_false_iff, Ne, isLvalue_iff]
    exact h
  rw [Verifier.expressionTree_initializer, if_pos noLvalue]
  exact ⟨_, rfl, rfl⟩

private theorem check_initializer (m : Method) (address : Nat) {l r : Ast}
    (semanticType : Option NumericTypeAnnotation) (h : l.type = .identifier) (strict : r.Strict)
    (texts : ∀ tok ∈ r.pending, IntegerText tok) (p : Bool) :
    (∃ c, expressionTree m (.mk address .op ":=".toList [l, r] semanticType) = .ok c ∧
      c.passed = p) ↔
    (∀ tok ∈ r.pending, Converts tok) ∧
      (p = true ↔ r.type = .literalInt ∨ r.semanticType.isSome = true) := by
  have lvalue : ¬ isLvalue l = false := by
    rw [Bool.not_eq_false, isLvalue_iff]
    exact h
  rw [Verifier.expressionTree_initializer, if_neg lvalue, ← getType_ok_iff strict texts]
  constructor
  · rintro ⟨c, run, rfl⟩
    obtain ⟨⟨a, r'⟩, typed, run⟩ := bind_ok_iff.mp run
    refine ⟨⟨_, typed⟩, ?_⟩
    rw [← getType_isSome strict typed]
    cases a with
    | none =>
        rw [← Except.ok.inj run]
        simp
    | some s =>
        rw [← Except.ok.inj run]
        simp
  · rintro ⟨⟨⟨a, r'⟩, typed⟩, passes⟩
    rw [← getType_isSome strict typed] at passes
    cases a with
    | none =>
        have fails : p = false := by simpa using passes
        exact ⟨_, bind_ok_iff.mpr ⟨_, typed, rfl⟩, fails.symm⟩
    | some s =>
        have holds : p = true := by simpa using passes
        exact ⟨_, bind_ok_iff.mpr ⟨_, typed, rfl⟩, holds.symm⟩

theorem check_operands (m : Method) (address : Nat) {data : Str} (h : data ≠ ":=".toList)
    {l r : Ast} (semanticType : Option NumericTypeAnnotation) (strictLeft : l.Strict)
    (strictRight : r.Strict) (texts : ∀ tok ∈ l.pending ++ r.pending, IntegerText tok) (p : Bool) :
    (∃ c, expressionTree m (.mk address .op data [l, r] semanticType) = .ok c ∧ c.passed = p) ↔
      (∀ tok ∈ l.pending ++ r.pending, Converts tok) ∧ p = true := by
  obtain ⟨textsLeft, textsRight⟩ := List.forall_mem_append.mp texts
  have returns := operands_ok_iff (f := fun left right =>
      (⟨true, m, .mk address .op data [left.2, right.2] semanticType, []⟩ : Checked Ast))
    (getType_ok_iff strictLeft textsLeft) (getType_ok_iff strictRight textsRight)
  rw [Verifier.expressionTree_operands m address h, ← returns]
  constructor
  · rintro ⟨c, run, rfl⟩
    refine ⟨⟨c, run⟩, ?_⟩
    obtain ⟨tl, -, run⟩ := bind_ok_iff.mp run
    obtain ⟨tr, -, run⟩ := bind_ok_iff.mp run
    rw [← Except.ok.inj run]
  · rintro ⟨⟨c, run⟩, rfl⟩
    refine ⟨c, run, ?_⟩
    obtain ⟨tl, -, run⟩ := bind_ok_iff.mp run
    obtain ⟨tr, -, run⟩ := bind_ok_iff.mp run
    rw [← Except.ok.inj run]

private theorem rejects_iff {run : Except Fault (Checked Ast)} {returns passes : Prop}
    (check : ∀ p, (∃ c, run = .ok c ∧ c.passed = p) ↔ returns ∧ (p = true ↔ passes)) (bad : Prop) :
    (∃ c, run = .ok c ∧ (bad → c.passed = false)) ↔ returns ∧ (passes → ¬ bad) := by
  constructor
  · rintro ⟨c, checked, rejects⟩
    obtain ⟨done, verdict⟩ := (check c.passed).mp ⟨c, checked, rfl⟩
    refine ⟨done, ?_⟩
    intro holds isBad
    have failed := rejects isBad
    rw [verdict.mpr holds] at failed
    exact Bool.noConfusion failed
  · rintro ⟨done, clean⟩
    by_cases holds : passes
    · obtain ⟨c, checked, -⟩ := (check true).mpr ⟨done, by simpa using holds⟩
      exact ⟨c, checked, fun isBad => absurd isBad (clean holds)⟩
    · obtain ⟨c, checked, failed⟩ := (check false).mpr ⟨done, by simpa using holds⟩
      exact ⟨c, checked, fun _ => failed⟩

/-- Checking an operator with two operands returns, and rejects every bad literal below,
exactly in these cases: an initialiser without a target; an initialiser whose right
operand can be typed and, where that passes, has no bad literal; and any other operator
whose operands can be typed and have no bad literal. -/
theorem expressionTree_rejects_iff (m : Method) (address : Nat) (data : Str) {l r : Ast}
    (semanticType : Option NumericTypeAnnotation) (strictLeft : l.Strict) (strictRight : r.Strict)
    (texts : ∀ tok ∈ l.literals ++ r.literals, IntegerText tok) :
    (∃ c, expressionTree m (.mk address .op data [l, r] semanticType) = .ok c ∧
      ((∃ tok ∈ l.literals ++ r.literals, Bad tok) → c.passed = false)) ↔
    data = ":=".toList ∧ l.type ≠ .identifier ∨
    data = ":=".toList ∧ l.type = .identifier ∧ (∀ tok ∈ r.pending, Converts tok) ∧
      (r.type = .literalInt ∨ r.semanticType.isSome = true →
        ∀ tok ∈ l.literals ++ r.literals, ¬ Bad tok) ∨
    data ≠ ":=".toList ∧ (∀ tok ∈ l.pending ++ r.pending, Converts tok) ∧
      ∀ tok ∈ l.literals ++ r.literals, ¬ Bad tok := by
  obtain ⟨left, right⟩ := List.forall_mem_append.mp texts
  have textsRight := Ast.pending_texts strictRight right
  have textsBoth : ∀ tok ∈ l.pending ++ r.pending, IntegerText tok :=
    List.forall_mem_append.mpr ⟨Ast.pending_texts strictLeft left, textsRight⟩
  have clean_iff : (¬ ∃ tok ∈ l.literals ++ r.literals, Bad tok) ↔
      ∀ tok ∈ l.literals ++ r.literals, ¬ Bad tok := by
    simp only [not_exists, not_and]
  by_cases isInit : data = ":=".toList
  · subst isInit
    by_cases target : l.type = .identifier
    · rw [rejects_iff (check_initializer m address semanticType target strictRight textsRight),
        clean_iff]
      constructor
      · rintro ⟨converts, clean⟩
        exact .inr (.inl ⟨rfl, target, converts, clean⟩)
      · rintro (⟨-, other⟩ | ⟨-, -, converts, clean⟩ | ⟨other, -⟩)
        · exact absurd target other
        · exact ⟨converts, clean⟩
        · exact absurd rfl other
    · constructor
      · intro _
        exact .inl ⟨rfl, target⟩
      · intro _
        obtain ⟨c, run, failed⟩ := check_initializer_rejected m address r semanticType target
        exact ⟨c, run, fun _ => failed⟩
  · have check : ∀ p, (∃ c, expressionTree m (.mk address .op data [l, r] semanticType) = .ok c ∧
        c.passed = p) ↔ (∀ tok ∈ l.pending ++ r.pending, Converts tok) ∧ (p = true ↔ True) := by
      intro p
      rw [check_operands m address isInit semanticType strictLeft strictRight textsBoth, iff_true]
    rw [rejects_iff check, clean_iff]
    constructor
    · rintro ⟨converts, clean⟩
      exact .inr (.inr ⟨isInit, converts, clean trivial⟩)
    · rintro (⟨init, -⟩ | ⟨init, -⟩ | ⟨-, converts, clean⟩)
      · exact absurd init isInit
      · exact absurd init isInit
      · exact ⟨converts, fun _ => clean⟩

theorem expressionTree_rejects_sum :
    ∃ c, expressionTree { name := "__default__".toList }
      (.mk 1 .op ['+'] [.fresh 0 .literalInt ['1'], .fresh 2 .literalInt ['1']] none) = .ok c := by
  have digits : ∀ c ∈ ['1'], isDecimal c = true := by decide
  have small : Cxx.magnitude 10 ['1'] < 2 ^ 63 := by decide
  have strict : ∀ k, (Ast.fresh k .literalInt ['1']).Strict := fun k => .leaf (by simp)
  have text : IntegerText ['1'] := decimal_integerText (by simp) digits
  have converts : Converts ['1'] := ⟨_, rfl, ofDigits_converts (by simp) digits small⟩
  have good : ¬ Bad ['1'] := by
    rw [← ofDigits_text (by simp) digits, bad_text_iff, not_not]
    exact ofDigits_good (by simp) digits small
  have each : ∀ {P : Str → Prop}, P ['1'] → ∀ tok ∈ [['1'], ['1']], P tok := by
    intro P h tok ht
    have same : tok = ['1'] := by simpa using ht
    rw [same]
    exact h
  obtain ⟨c, run, -⟩ := (expressionTree_rejects_iff { name := "__default__".toList } 1 ['+'] none
    (strict 0) (strict 2) (each text)).mpr
      (.inr (.inr ⟨by decide, each converts, each good⟩))
  exact ⟨c, run⟩

/-- On `1 + -1` an exception escapes, and `1 + 12b` passes although 2 is no binary digit. -/
theorem expressionTree_throws_or_truncates :
    expressionTree { name := "__default__".toList }
      (.mk 1 .op ['+'] [.fresh 0 .literalInt ['1'], .fresh 2 .literalInt ['-', '1']] none) =
        .error (.invalidArgument "stoll".toList) ∧
    IntegerText ['-', '1'] ∧
    (∃ c, expressionTree { name := "__default__".toList }
      (.mk 1 .op ['+'] [.fresh 0 .literalInt ['1'], .fresh 2 .literalInt ['1', '2', 'b']] none) =
        .ok c ∧ c.passed = true) ∧
    Bad ['1', '2', 'b'] := by
  let minus : IntegerLexeme :=
    ⟨['-'], ['1'], [], .inr ⟨'-', rfl, rfl⟩, by decide, by decide, by decide⟩
  let cut : IntegerLexeme := ⟨[], ['1', '2'], ['b'], .inl rfl, by decide, by decide, by decide⟩
  obtain ⟨t, first⟩ := (getIntType_ok_iff _).mpr
    (ofDigits_converts (n := ['1']) (by simp) (by decide) (by decide))
  have first : getIntType ['1'] = .ok t := first
  have second : getIntType ['-', '1'] = .error (.invalidArgument "stoll".toList) := rfl
  obtain ⟨u, third⟩ := (getIntType_ok_iff cut).mpr ⟨rfl, by decide, by decide⟩
  have third : getIntType ['1', '2', 'b'] = .ok u := third
  refine ⟨?_, (integerText_iff _).mpr ⟨minus, rfl⟩, ?_, ⟨cut, rfl, ?_⟩⟩
  · rw [Verifier.expressionTree_operands _ _ (by decide)]
    simp only [Ast.fresh, Verifier.getType_literal, first, second]
    rfl
  · rw [Verifier.expressionTree_operands _ _ (by decide)]
    simp only [Ast.fresh, Verifier.getType_literal, first, third]
    exact ⟨_, rfl, rfl⟩
  · rintro ⟨valid, -⟩
    have := valid '2' (by decide)
    exact absurd this (by decide)

end Checking

end Amalgam.Parser
