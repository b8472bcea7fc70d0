/- Module: Amalgam/Parser/Verdicts
   digest: When a parse returns a module, and what becomes of initialisers in it. -/

import Amalgam.Parser.SweptTrees
import Amalgam.Parser.Verification

set_option autoImplicit false
set_option relaxedAutoImplicit false

namespace Amalgam.Parser

open Amalgam.Cxx (isDecimal magnitude)
open Amalgam.Pegtl (Str Input)
open Verifier (expressionTree)

section Literals

private theorem Derives.literal_texts {nt : Nonterminal} {s rest : Input} {e : Expr}
    (h : Derives nt s e rest) : ∀ t ∈ e.tokens, t.type = .literalInt → IntegerText t.text := by
  induction h with
  | integer lexed =>
      intro t ht _
      rw [List.mem_singleton.mp ht]
      exact .of_lex lexed
  | identifier _ _ =>
      intro t ht literal
      rw [List.mem_singleton.mp ht] at literal
      simp [Operand.token] at literal
  | group _ _ ih => exact ih
  | single _ _ ih => exact ih
  | binary _ _ _ ihAtom ihExpr =>
      intro t ht literal
      rcases List.mem_append.mp ht with first | second
      · exact ihAtom t first literal
      · rcases List.mem_cons.mp second with rfl | second
        · simp at literal
        · exact ihExpr t second literal

private theorem pending_chainTree (k : Nat) (c : Flat) :
    (chainTree k c).pending = (chainTree k c).literals := by
  have operand : ∀ (k : Nat) (a : Operand), (a.node k).pending = (a.node k).literals := by
    intro k a
    cases a <;> rfl
  induction c generalizing k with
  | last a => exact operand k a
  | link a o c ih =>
      simp only [chainTree]
      split
      · rw [Ast.pending_op, Ast.literals_op, operand, ih]
      · exact operand k a

private theorem literals_chainTree {k : Nat} {c : Flat} :
    ∀ tok ∈ (chainTree k c).literals, ⟨.literalInt, tok⟩ ∈ Flat.tokens c := by
  have operand : ∀ (k : Nat) (a : Operand), ∀ tok ∈ (a.node k).literals,
      a.token = ⟨.literalInt, tok⟩ := by
    intro k a tok h
    cases a with
    | literal text =>
        have only : (Operand.node k (.literal text)).literals = [text] := rfl
        rw [only] at h
        rw [List.mem_singleton.mp h]
        rfl
    | identifier text => exact absurd h (List.not_mem_nil)
  induction c generalizing k with
  | last a =>
      intro tok h
      rw [← operand k a tok h]
      exact List.mem_singleton_self _
  | link a o c ih =>
      intro tok h
      simp only [chainTree] at h
      rw [Flat.tokens_link]
      split at h
      · rw [Ast.literals_op] at h
        rcases List.mem_append.mp h with left | right
        · rw [operand k a tok left]
          exact List.mem_cons_self
        · exact List.mem_cons_of_mem _ (List.mem_cons_of_mem _ (ih tok right))
      · rw [operand k a tok h]
        exact List.mem_cons_self

end Literals

section Verdict

private theorem DerivesAll.parse_verdict {s : Str} {e : Expr} {es : List Expr}
    (h : DerivesAll s (e :: es)) :
    (∃ m, parse s = .ok (some m)) ↔
      ∃ c, expressionTree (defaultMethod [chainTree 0 e.flat]) (chainTree 0 e.flat) = .ok c ∧
        c.passed = true := by
  rw [h.parse_cons]
  constructor
  · rintro ⟨m, run⟩
    obtain ⟨c, checked, run⟩ := bind_ok_iff.mp run
    refine ⟨c, checked, ?_⟩
    by_contra failed
    rw [if_neg failed] at run
    simp at run
  · rintro ⟨c, checked, passed⟩
    exact ⟨_, bind_ok_iff.mpr ⟨c, checked, if_pos passed⟩⟩

private theorem check_operand (m : Method) (k : Nat) (a : Operand) :
    ∃ c, expressionTree m (a.node k) = .ok c ∧ c.passed = true := by
  cases a <;> exact ⟨_, rfl, rfl⟩

private theorem check_chainTree (m : Method) (k : Nat) {a : Operand} (ha : a.isLiteral = true)
    (o : Str) (c : Flat) (texts : ∀ tok ∈ (chainTree k (.link a o c)).literals, IntegerText tok) :
    (∃ r, expressionTree m (chainTree k (.link a o c)) = .ok r ∧ r.passed = true) ↔
      o ≠ ":=".toList ∧ ∀ tok ∈ (chainTree k (.link a o c)).literals, Converts tok := by
  have pending := pending_chainTree k (.link a o c)
  rw [chainTree_literal k ha, Ast.pending_op] at pending
  rw [chainTree_literal k ha] at texts ⊢
  rw [← pending] at texts ⊢
  by_cases isInit : o = ":=".toList
  · have noTarget : (a.node k).type ≠ .identifier := by simp [ha]
    rw [isInit]
    obtain ⟨r, run, failed⟩ :=
      check_initializer_rejected m (k + 1) (chainTree (k + 2) c) none noTarget
    constructor
    · rintro ⟨r', run', passed⟩
      rw [run] at run'
      rw [← Except.ok.inj run', failed] at passed
      exact Bool.noConfusion passed
    · rintro ⟨other, -⟩
      exact absurd rfl other
  · have check := check_operands m (k + 1) isInit none (operand_strict k a)
      (chainTree_strict (k + 2) c) texts true
    rw [check]
    constructor
    · rintro ⟨converts, -⟩
      exact ⟨isInit, converts⟩
    · rintro ⟨-, converts⟩
      exact ⟨converts, rfl⟩

/-- A parse returns a module exactly when the first expression of the text is a single
operand or begins with an identifier, or its first operator is not `:=` and the verifier
can convert every literal before the first identifier. -/
theorem DerivesAll.parse_some_iff {s : Str} {e : Expr} {es : List Expr}
    (h : DerivesAll s (e :: es)) :
    (∃ m, parse s = .ok (some m)) ↔
      ∀ a o c, e.flat = .link (.literal a) o c →
        o ≠ ":=".toList ∧ ∀ tok ∈ (chainTree 0 e.flat).literals, Converts tok := by
  have texts : ∀ tok ∈ (chainTree 0 e.flat).literals, IntegerText tok := by
    intro tok ht
    cases h with
    | cons _ first _ =>
        refine first.literal_texts ⟨.literalInt, tok⟩ ?_ rfl
        rw [Expr.tokens_eq]
        exact literals_chainTree tok ht
  rw [h.parse_verdict]
  cases flat : e.flat with
  | last a =>
      constructor
      · intro _ a' o c same
        simp at same
      · intro _
        exact check_operand _ 0 a
  | link a o c =>
      cases a with
      | identifier name =>
          constructor
          · intro _ a' o' c' same
            simp at same
          · intro _
            exact check_operand _ 0 (.identifier name)
      | literal text =>
          rw [flat] at texts
          rw [check_chainTree _ 0 rfl o c texts]
          constructor
          · intro condition a' o' c' same
            obtain ⟨-, rfl, -⟩ := Chain.link.inj same
            exact condition
          · intro condition
            exact condition text o c rfl

theorem DerivesAll.parse_decimal {s : Str} {e : Expr} {es : List Expr} {a o : Str} {c : Flat}
    (h : DerivesAll s (e :: es)) (flat : e.flat = .link (.literal a) o c) (other : o ≠ ":=".toList)
    (decimal : ∀ tok ∈ (chainTree 0 e.flat).literals,
      tok ≠ [] ∧ (∀ c ∈ tok, isDecimal c = true) ∧ magnitude 10 tok < 2 ^ 63) :
    ∃ m, parse s = .ok (some m) := by
  apply h.parse_some_iff.mpr
  intro a' o' c' same
  rw [flat] at same
  obtain ⟨-, rfl, -⟩ := Chain.link.inj same
  refine ⟨other, ?_⟩
  intro tok ht
  obtain ⟨nonempty, digits, small⟩ := decimal tok ht
  exact ⟨_, ofDigits_text nonempty digits, ofDigits_converts nonempty digits small⟩

theorem derives_one_two : DerivesAll "1 + 2".toList
    [.binary (.operand (.literal ['1'])) ['+'] (.operand (.literal ['2']))] :=
  .cons rfl (.binary (.integer rfl) rfl (.single (.integer rfl) rfl)) (.nil rfl)

theorem parse_one_two : ∃ m, parse "1 + 2".toList = .ok (some m) :=
  derives_one_two.parse_decimal rfl (by decide) (by decide)

end Verdict

end Amalgam.Parser
