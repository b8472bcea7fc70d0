/- Module: Amalgam/Codegen/Generation
   digest: Which parsed texts the generator has a value for. -/

import Amalgam.Codegen.Constants
import Amalgam.Parser.Verdicts

set_option autoImplicit false
set_option relaxedAutoImplicit false

namespace Amalgam.Codegen

open Amalgam.Pegtl (Str)
open Amalgam.Parser

/-- A literal without a specifier, in the signed 32-bit range. -/
def ShortLiteral (tok : Str) : Prop :=
  ∃ x : IntegerLexeme, x.text = tok ∧ x.specifier = [] ∧
    -(2 ^ 31 : Int) ≤ decimalValue x ∧ decimalValue x < 2 ^ 31

def ShortLiterals (ts : List Token) : Prop :=
  ∀ t ∈ ts, t.type ≠ .op → t.type = .literalInt ∧ ShortLiteral t.text

def BuiltIn (ts : List Token) : Prop :=
  ∀ t ∈ ts, t.type = .op → (opMap.lookup t.text).isSome = true

section Values

theorem constantInt_short {tok : Str} (h : ShortLiteral tok) : ∃ v, constantInt tok = .ok v := by
  obtain ⟨x, rfl, -, range⟩ := h
  exact ⟨_, by rw [constantInt_text, if_pos range]⟩

private theorem combine_isSome (data : Str) (left right : Emitted) :
    (combine data left right).value.isSome = true ↔
      left.value.isSome = true ∧ right.value.isSome = true ∧
        (opMap.lookup data).isSome = true := by
  unfold combine
  cases left.value with
  | none => simp
  | some l =>
      cases right.value with
      | none => simp
      | some r =>
          cases opMap.lookup data with
          | none => simp
          | some op => simp

private theorem getValue_operand (k : Nat) {a : Operand} (short : ShortLiterals [a.token]) :
    ∃ r, getValue (a.node k) = .ok r ∧ r.value.isSome = true := by
  cases a with
  | literal text =>
      obtain ⟨v, built⟩ := constantInt_short
        (short _ (List.mem_singleton_self _) (by simp [Operand.token])).2
      refine ⟨⟨some v, []⟩, ?_, rfl⟩
      have value := getValue_literal k text none
      rw [show constantInt text = .ok v from built] at value
      exact value
  | identifier text =>
      have literal := (short _ (List.mem_singleton_self _) (by simp [Operand.token])).1
      simp [Operand.token] at literal

private theorem shortLiterals_link {a : Operand} {o : Str} {c : Flat}
    (short : ShortLiterals (Flat.tokens (.link a o c))) :
    a.isLiteral = true ∧ ShortLiterals [a.token] ∧ ShortLiterals (Flat.tokens c) := by
  rw [Flat.tokens_link] at short
  have first : a.token.type = .literalInt :=
    (short a.token List.mem_cons_self a.token_type_ne_op).1
  refine ⟨a.token_type_literal.mp first, ?_, ?_⟩
  · intro t ht
    rw [List.mem_singleton.mp ht]
    exact short _ List.mem_cons_self
  · intro t ht
    exact short t (List.mem_cons_of_mem _ (List.mem_cons_of_mem _ ht))

private theorem builtIn_link (a : Operand) (o : Str) (c : Flat) :
    BuiltIn (Flat.tokens (.link a o c)) ↔
      (opMap.lookup o).isSome = true ∧ BuiltIn (Flat.tokens c) := by
  simp [Flat.tokens_link, BuiltIn, opToken]

private theorem getValue_chainTree (k : Nat) {c : Flat} (short : ShortLiterals (Flat.tokens c)) :
    ∃ r, getValue (chainTree k c) = .ok r ∧
      (r.value.isSome = true ↔ BuiltIn (Flat.tokens c)) := by
  induction c generalizing k with
  | last a =>
      obtain ⟨r, value, isSome⟩ := getValue_operand k short
      refine ⟨r, value, ⟨fun _ => ?_, fun _ => isSome⟩⟩
      intro t ht op
      rw [List.mem_singleton.mp ht] at op
      exact absurd op a.token_type_ne_op
  | link a o c ih =>
      obtain ⟨ha, first, others⟩ := shortLiterals_link short
      obtain ⟨l, valueLeft, someLeft⟩ := getValue_operand k first
      obtain ⟨r, valueRight, someRight⟩ := ih (k + 2) others
      refine ⟨combine o l r, ?_, ?_⟩
      · rw [chainTree_literal k ha, getValue_op, valueLeft, valueRight]
        rfl
      · rw [combine_isSome, builtIn_link, someRight]
        constructor
        · rintro ⟨-, builtIn, known⟩
          exact ⟨known, builtIn⟩
        · rintro ⟨known, builtIn⟩
          exact ⟨someLeft, builtIn, known⟩

end Values

section Modules

/-- When a text over short literals is parsed to a module, the generator has a value for
every tree of it exactly when the operators of its first expression are all built in. -/
theorem parse_generates_iff {s : Str} {es : List Expr} {m : Module} (derived : DerivesAll s es)
    (parsed : parse s = .ok (some m)) (short : ShortLiterals (allTokens es)) :
    (∀ t ∈ m.expressionTrees, ∃ v out, getValue t = .ok ⟨some v, out⟩) ↔
      ∀ e ∈ es.head?, BuiltIn e.tokens := by
  have trees := derived.parse_trees parsed
  cases es with
  | nil =>
      have none : m.expressionTrees = [] := List.map_eq_nil_iff.mp trees
      simp [none]
  | cons e es =>
      obtain ⟨t, ts, single, same, rest⟩ := List.map_eq_cons_iff.mp trees
      have none : ts = [] := List.map_eq_nil_iff.mp rest
      have first : ShortLiterals (Flat.tokens e.flat) := by
        intro u hu
        apply short u
        rw [← Expr.tokens_eq] at hu
        exact List.mem_append_left _ hu
      obtain ⟨r, value, isSome⟩ := getValue_chainTree 0 first
      have swept : t.Strict := strict_of_erase same (chainTree_strict 0 e.flat)
      have generated : getValue t = .ok r := by
        rw [← getValue_erase swept, same, value]
      simp only [single, none, List.mem_singleton, forall_eq, List.head?_cons, Option.mem_def,
        Option.some.injEq, forall_eq']
      rw [generated, Expr.tokens_eq, ← isSome]
      obtain ⟨v, out⟩ := r
      cases v with
      | none => simp
      | some v => simp

theorem shortLiteral_decimal {n : Str} (nonempty : n ≠ [])
    (digits : ∀ c ∈ n, Cxx.isDecimal c = true) (small : Cxx.magnitude 10 n < 2 ^ 31) :
    ShortLiteral n := by
  have value : decimalValue (.ofDigits n nonempty digits) = Cxx.magnitude 10 n :=
    (unsigned_values rfl).2
  refine ⟨_, ofDigits_text nonempty digits, rfl, ?_, ?_⟩
  · rw [value]
    omega
  · rw [value]
    omega

private theorem shortLiterals_one_two (o : Str) :
    ShortLiterals [⟨.literalInt, ['1']⟩, ⟨.op, o⟩, ⟨.literalInt, ['2']⟩] := by
  have one : ShortLiteral ['1'] := shortLiteral_decimal (by simp) (by decide) (by decide)
  have two : ShortLiteral ['2'] := shortLiteral_decimal (by simp) (by decide) (by decide)
  simp [ShortLiterals, one, two]

theorem parse_generates_sum :
    ∃ m, parse "1 + 2".toList = .ok (some m) ∧
      ∀ t ∈ m.expressionTrees, ∃ v out, getValue t = .ok ⟨some v, out⟩ := by
  obtain ⟨m, parsed⟩ := parse_one_two
  have short := shortLiterals_one_two ['+']
  refine ⟨m, parsed, (parse_generates_iff derives_one_two parsed short).mpr ?_⟩
  intro e he
  rw [← Option.some.inj he]
  unfold BuiltIn
  decide

/-- `1 ++ 2` is parsed to a module, and its tree has no value. -/
theorem doubled_plus_has_no_value :
    ∃ m, parse "1 ++ 2".toList = .ok (some m) ∧
      ∃ t ∈ m.expressionTrees, ∃ out, getValue t = .ok ⟨none, out⟩ := by
  have derived : DerivesAll "1 ++ 2".toList
      [.binary (.operand (.literal ['1'])) ['+', '+'] (.operand (.literal ['2']))] :=
    .cons rfl (.binary (.integer rfl) rfl (.single (.integer rfl) rfl)) (.nil rfl)
  obtain ⟨m, parsed⟩ := derived.parse_decimal rfl (by decide) (by decide)
  obtain ⟨t, ts, single, same, -⟩ := List.map_eq_cons_iff.mp (derived.parse_trees parsed)
  obtain ⟨r, value, isSome⟩ :=
    getValue_chainTree 0 (c := .link (.literal ['1']) ['+', '+'] (.last (.literal ['2'])))
      (shortLiterals_one_two ['+', '+'])
  have swept : t.Strict := strict_of_erase same (chainTree_strict 0 _)
  have missing : r.value = none := by
    rw [← Option.not_isSome_iff_eq_none, isSome]
    unfold BuiltIn
    decide
  refine ⟨m, parsed, t, by rw [single]; exact List.mem_cons_self, r.printed, ?_⟩
  rw [← getValue_erase swept, same]
  exact value.trans (by rw [← missing])

end Modules

end Amalgam.Codegen
