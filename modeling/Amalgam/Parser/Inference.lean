/- Module: Amalgam/Parser/Inference
   digest: Operators get no type, even when all literals below them have the same one. -/

import Amalgam.Parser.Verification

set_option autoImplicit false
set_option relaxedAutoImplicit false

namespace Amalgam.Parser

open Amalgam.Cxx (isDecimal)
open Verifier (getType getIntType expressionTree)

/-- Operators over literals that can all be typed with one type. Nodes that have a type
already have that one. -/
structure Ast.Uniform (t : Ast) (τ : NumericTypeAnnotation) : Prop where
  strict : t.Strict
  kinds : ∀ n ∈ t.nodes, n.type = .op ∨
    n.type = .literalInt ∧ ∃ u, getIntType n.data = .ok u ∧ u.equal τ = true
  given : ∀ n ∈ t.nodes, ∀ s, n.semanticType = some s → s.equal τ = true

def Ast.Typed (t : Ast) : Prop := ∀ n ∈ t.nodes, n.semanticType.isSome = true

/-- Typing returns the type and leaves all nodes typed, and the tree is accepted as the
right operand of an initialiser, whose target becomes a variable of the type. -/
def Ast.Inferred (t : Ast) (τ : NumericTypeAnnotation) : Prop :=
  (∃ s t', getType t = .ok (some s, t') ∧ s.equal τ = true ∧ t'.Typed) ∧
    ∀ (m : Method) (address : Nat) (target : Ast) (semanticType : Option NumericTypeAnnotation),
      target.type = .identifier → ∃ c s,
        expressionTree m (.mk address .op ":=".toList [target, t] semanticType) = .ok c ∧
          c.passed = true ∧ c.method.vars[target.data]? = some s ∧ s.equal τ = true

section Inference

private theorem check_typed (m : Method) (address : Nat) {target t t' : Ast}
    {s : NumericTypeAnnotation} (semanticType : Option NumericTypeAnnotation)
    (h : target.type = .identifier) (run : getType t = .ok (some s, t')) :
    ∃ c, expressionTree m (.mk address .op ":=".toList [target, t] semanticType) = .ok c ∧
      c.passed = true ∧ c.method.vars[target.data]? = some s := by
  have lvalue : ¬ Verifier.isLvalue target = false := by
    rw [Bool.not_eq_false, isLvalue_iff]
    exact h
  rw [Verifier.expressionTree_initializer, if_neg lvalue]
  refine ⟨_, bind_ok_iff.mpr ⟨_, run, rfl⟩, rfl, ?_⟩
  exact Std.TreeMap.getElem?_insert_self

private theorem literal_nodes {t : Ast} (strict : t.Strict) (literal : t.type = .literalInt) :
    t.nodes = [t] := by
  cases strict with
  | op => exact NodeType.noConfusion literal
  | leaf => rfl

private theorem typed_literal {t : Ast} (strict : t.Strict) (literal : t.type = .literalInt)
    (given : t.semanticType.isSome = true) : t.Typed := by
  intro n hn
  rw [literal_nodes strict literal, List.mem_singleton] at hn
  rw [hn]
  exact given

private theorem inferred_of_typed {t : Ast} {τ : NumericTypeAnnotation}
    (typing : ∃ s t', getType t = .ok (some s, t') ∧ s.equal τ = true ∧ t'.Typed) :
    t.Inferred τ := by
  refine ⟨typing, ?_⟩
  obtain ⟨s, t', run, same, -⟩ := typing
  intro m address target semanticType h
  obtain ⟨c, checked, passed, stored⟩ := check_typed m address semanticType h run
  exact ⟨c, s, checked, passed, stored, same⟩

private theorem typed_of_inferred {t : Ast} {τ : NumericTypeAnnotation} (strict : t.Strict)
    (inferred : t.Inferred τ) : t.type = .literalInt ∨ t.Typed := by
  obtain ⟨⟨s, t', run, -, typed⟩, -⟩ := inferred
  rcases (getType_isSome strict run).mp rfl with literal | hasType
  · exact .inl literal
  · right
    obtain ⟨address, type, data, children, semanticType⟩ := t
    obtain ⟨u, rfl⟩ := Option.isSome_iff_exists.mp hasType
    rw [Verifier.getType_typed] at run
    obtain ⟨-, rfl⟩ := Prod.mk.inj (Except.ok.inj run)
    exact typed

/-- Over literals of one type, the type is inferred exactly when the root is a literal, or
when every node has been given a type before: an operator never gets one. -/
theorem inferred_iff {t : Ast} {τ : NumericTypeAnnotation} (uniform : t.Uniform τ) :
    t.Inferred τ ↔ t.type = .literalInt ∨ t.Typed := by
  obtain ⟨strict, kinds, given⟩ := uniform
  have self := Ast.mem_nodes_self t
  refine ⟨typed_of_inferred strict, ?_⟩
  intro condition
  apply inferred_of_typed
  cases strict using Verifier.typing_induct with
  | typed address type data children s strict =>
      refine ⟨s, _, Verifier.getType_typed _ _ _ _ s, given _ self s rfl, ?_⟩
      rcases condition with literal | typed
      · exact typed_literal strict literal rfl
      · exact typed
  | op address data l r =>
      rcases condition with literal | typed
      · exact NodeType.noConfusion literal
      · exact absurd (typed _ self) (by simp [Ast.semanticType])
  | literal address data =>
      rcases kinds _ self with op | ⟨-, u, typed, same⟩
      · exact NodeType.noConfusion op
      · have run : getType (.mk address .literalInt data [] none) =
            .ok (some u, .mk address .literalInt data [] (some u)) := by
          rw [Verifier.getType_literal]
          exact bind_ok_iff.mpr ⟨u, typed, rfl⟩
        exact ⟨u, _, run, same, typed_literal (.leaf (by simp)) rfl rfl⟩
  | other address type data _ notOp notLiteral =>
      rcases kinds _ self with op | ⟨literal, -⟩
      · exact absurd op notOp
      · exact absurd literal notLiteral

def byteType : NumericTypeAnnotation := { id := .integer, isSigned := true, sizeInBits := 8 }

theorem getIntType_one : getIntType ['1'] = .ok byteType := by
  have digits : ∀ c ∈ ['1'], isDecimal c = true := by decide
  exact getIntType_decimal (by simp) digits (by decide)

theorem inferred_one : (Ast.fresh 0 .literalInt ['1']).Inferred byteType := by
  have uniform : (Ast.fresh 0 .literalInt ['1']).Uniform byteType := by
    refine ⟨.leaf (by simp), ?_, ?_⟩
    · intro n hn
      rw [List.mem_singleton.mp hn]
      exact .inr ⟨rfl, _, getIntType_one, rfl⟩
    · intro n hn s given
      rw [List.mem_singleton.mp hn] at given
      simp [Ast.semanticType] at given
  exact (inferred_iff uniform).mpr (.inl rfl)

/-- The operator of `1 + 1` gets no type, so the sum is no value for a variable. -/
theorem not_inferred_sum :
    ∃ t : Ast, t.type = .op ∧ t.data = ['+'] ∧ t.Uniform byteType ∧
      (∀ n ∈ t.nodes, n.semanticType = none) ∧ ¬ t.Inferred byteType := by
  let one (k : Nat) : Ast := .fresh k .literalInt ['1']
  let sum : Ast := .mk 1 .op ['+'] [one 0, one 2] none
  have nodes : sum.nodes = [sum, one 0, one 2] := rfl
  have untyped : ∀ n ∈ sum.nodes, n.semanticType = none := by
    intro n hn
    simp only [nodes, List.mem_cons, List.not_mem_nil, or_false] at hn
    rcases hn with rfl | rfl | rfl <;> rfl
  have uniform : sum.Uniform byteType := by
    refine ⟨.op (.leaf (by simp)) (.leaf (by simp)), ?_, ?_⟩
    · intro n hn
      simp only [nodes, List.mem_cons, List.not_mem_nil, or_false] at hn
      rcases hn with rfl | rfl | rfl
      · exact .inl rfl
      · exact .inr ⟨rfl, _, getIntType_one, rfl⟩
      · exact .inr ⟨rfl, _, getIntType_one, rfl⟩
    · intro n hn s given
      rw [untyped n hn] at given
      simp at given
  refine ⟨sum, rfl, rfl, uniform, untyped, ?_⟩
  rw [inferred_iff uniform]
  intro condition
  rcases condition with literal | typed
  · exact NodeType.noConfusion literal
  · exact absurd (typed _ (Ast.mem_nodes_self _)) (by simp [sum, Ast.semanticType])

end Inference

end Amalgam.Parser
