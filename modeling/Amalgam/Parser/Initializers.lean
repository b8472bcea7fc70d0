/- Module: Amalgam/Parser/Initializers
   digest: Initialisers never reach the verifier whole, and nested ones escape it. -/

import Amalgam.Parser.Verdicts

set_option autoImplicit false
set_option relaxedAutoImplicit false

namespace Amalgam.Parser

open Amalgam.Cxx (isDecimal isSpace)
open Amalgam.Pegtl (Str Input)
open Verifier (expressionTree getIntType)

def Module.DeclaresOnly (m : Module) (x : Str) (t : NumericTypeAnnotation) : Prop :=
  ∃ d, m.deref (m.getMethod "__default__".toList).2 = .ok d ∧ d.hasVariable x = true ∧
    d.vars.toList = [(x, t)]

/-- Every `:=` in a tree has an identifier as its first child. -/
def Ast.TargetsIdentifiers (t : Ast) : Prop :=
  ∀ n ∈ t.nodes, n.type = .op → n.data = ":=".toList →
    ∃ c cs, n.children = c :: cs ∧ c.type = .identifier

section Declaration

private theorem run_ends {p : Char → Bool} (hp : ∀ c, isSpace c = true → p c = false) {w : Str}
    (hw : Spaces w) {c : Char} (hc : p c = false) (s : Str) :
    (w ++ c :: s).takeWhile p = [] ∧ (w ++ c :: s).dropWhile p = w ++ c :: s := by
  cases w with
  | nil => simp [hc]
  | cons d w => simp [hp d (hw d List.mem_cons_self)]

private theorem derives_initializer {x n w₁ w₂ : Str} (name : IdentifierText x) (nonempty : n ≠ [])
    (digits : ∀ c ∈ n, isDecimal c = true) (before : Spaces w₁) (after : Spaces w₂) :
    DerivesAll (x ++ (w₁ ++ (":=".toList ++ (w₂ ++ n))))
      [.binary (.operand (.identifier x)) ":=".toList (.operand (.literal n))] := by
  have number := decimal_integerText nonempty digits
  have assign : OperatorText ":=".toList := ⟨by decide, by decide⟩
  obtain ⟨d, ds, rfl⟩ := List.exists_cons_of_ne_nil nonempty
  have digit : isDigit d = true := digits d List.mem_cons_self
  have notOp : isOpChar d = false := (identChar_plain (digit_identChar digit)).1
  -- The identifier ends at the white space or at the colon.
  have nameEnds : (w₁ ++ (":=".toList ++ (w₂ ++ d :: ds))).takeWhile isIdentChar = [] ∧
      (w₁ ++ (":=".toList ++ (w₂ ++ d :: ds))).dropWhile isIdentChar =
        w₁ ++ (":=".toList ++ (w₂ ++ d :: ds)) :=
    run_ends (fun c h => (space_plain h).2.1) before (by decide) _
  have readName := name.lex (w₁ ++ (":=".toList ++ (w₂ ++ d :: ds)))
  rw [nameEnds.1, nameEnds.2, List.append_nil] at readName
  -- The operator ends at the white space or at the first digit.
  obtain ⟨opEnds, opRest⟩ := run_ends (fun c h => (space_plain h).1) after notOp ds
  have readOp := assign.lex (w₂ ++ d :: ds)
  rw [opEnds, opRest, List.append_nil] at readOp
  -- Nothing follows the literal.
  obtain ⟨more, rest, nothing, -, readNumber⟩ := number.lex []
  obtain ⟨rfl, rfl⟩ := List.append_eq_nil_iff.mp nothing.symm
  rw [List.append_nil] at readNumber
  have start : atEol (x ++ (w₁ ++ (":=".toList ++ (w₂ ++ d :: ds)))) = false := by
    obtain ⟨c, s, rfl, first, -⟩ := name.head
    exact atEol_of_not_space (identChar_plain (isIdentChar_of_start first)).2.1
  have skipOp : skip (skip (w₁ ++ (":=".toList ++ (w₂ ++ d :: ds)))) =
      ":=".toList ++ (w₂ ++ d :: ds) := by
    rw [skip_skip, skip_spaces before]
    exact assign.skip _
  have skipNumber : skip (skip (w₂ ++ d :: ds)) = d :: ds := by
    have same := number.skip []
    rw [List.append_nil] at same
    rw [skip_skip, skip_spaces after]
    exact same
  have target : Derives .atom (x ++ (w₁ ++ (":=".toList ++ (w₂ ++ d :: ds))))
      (.operand (.identifier x)) (skip (w₁ ++ (":=".toList ++ (w₂ ++ d :: ds)))) :=
    .identifier (by rw [name.skip]; exact readName.1) (by rw [name.skip]; exact readName.2)
  have value : Derives .expr (skip (w₂ ++ d :: ds)) (.operand (.literal (d :: ds))) (skip []) :=
    .single (.integer (by rw [skipNumber]; exact readNumber)) rfl
  exact .cons start (.binary target (by rw [skipOp]; exact readOp) value) (.nil rfl)

private theorem defaultMethod_declares (trees : List Ast) (x : Str) :
    (defaultMethod trees).hasVariable x = false := rfl

/-- Whatever the variable, the number and the white space, the parse of an initialiser
returns a module whose only tree is the bare variable, and declares nothing. -/
theorem initializer_declares_nothing {x n w₁ w₂ : Str} (name : IdentifierText x)
    (nonempty : n ≠ []) (digits : ∀ c ∈ n, isDecimal c = true) (before : Spaces w₁)
    (after : Spaces w₂) :
    parse (x ++ (w₁ ++ (":=".toList ++ (w₂ ++ n)))) =
      .ok (some (mainModule (defaultMethod [.fresh 0 .identifier x]))) ∧
    ¬ ∃ m t, parse (x ++ (w₁ ++ (":=".toList ++ (w₂ ++ n)))) = .ok (some m) ∧
      getIntType n = .ok t ∧ m.DeclaresOnly x t := by
  have derived := derives_initializer name nonempty digits before after
  have parsed : parse (x ++ (w₁ ++ (":=".toList ++ (w₂ ++ n)))) =
      .ok (some (mainModule (defaultMethod [.fresh 0 .identifier x]))) := by
    rw [derived.parse_cons]
    rfl
  refine ⟨parsed, ?_⟩
  rintro ⟨m, t, run, -, d, stored, declared, -⟩
  rw [parsed] at run
  rw [← Option.some.inj (Except.ok.inj run), mainModule_default] at stored
  rw [← Except.ok.inj stored, defaultMethod_declares] at declared
  exact Bool.noConfusion declared

theorem initializer_declares_nothing_five :
    parse ("n".toList ++ (" ".toList ++ (":=".toList ++ (" ".toList ++ "5".toList)))) =
      .ok (some (mainModule (defaultMethod [.fresh 0 .identifier "n".toList]))) := by
  have name : IdentifierText "n".toList := ⟨['n'], [], rfl, by decide, by decide, by decide⟩
  have space : Spaces " ".toList := by decide
  exact (initializer_declares_nothing (n := "5".toList) name (by decide) (by decide) space space).1

/-- After `an_ident := 5`, the variable is missing although the module is returned. -/
theorem initializer_lost_five :
    ∃ m d, parse "an_ident := 5".toList = .ok (some m) ∧
      m.deref (m.getMethod "__default__".toList).2 = .ok d ∧
      d.hasVariable "an_ident".toList = false ∧ ∃ t, getIntType "5".toList = .ok t := by
  have digits : ∀ c ∈ "5".toList, isDecimal c = true := by decide
  have typed : ∃ t, getIntType "5".toList = .ok t :=
    (getIntType_ok_iff _).mpr (ofDigits_converts (by simp) digits (by decide))
  have name : IdentifierText "an_ident".toList :=
    ⟨"an_ident".toList, [], rfl, by decide, by decide, by decide⟩
  have space : Spaces " ".toList := by decide
  have derived := derives_initializer name (by simp) digits space space
  have parsed : parse "an_ident := 5".toList =
      .ok (some (mainModule (defaultMethod [.fresh 0 .identifier "an_ident".toList]))) := by
    apply Eq.trans derived.parse_cons
    rfl
  exact ⟨_, _, parsed, mainModule_default _, rfl, typed⟩

end Declaration

section Targets

private theorem operators_chainTree (k : Nat) (c : Flat) (d : Str) :
    (∃ n ∈ (chainTree k c).nodes, n.type = .op ∧ n.data = d) ↔
      opToken d ∈ (Flat.tokens c).takeWhile (fun t => t.type ≠ .identifier) := by
  have other : ∀ a : Operand, opToken d ≠ a.token := by
    intro a same
    exact a.token_type_ne_op (congrArg Token.type same).symm
  have alone : ∀ (k : Nat) (a : Operand), ¬ ∃ n ∈ (a.node k).nodes, n.type = .op ∧ n.data = d := by
    rintro k a ⟨n, hn, op, -⟩
    rw [operand_nodes, List.mem_singleton] at hn
    rw [hn] at op
    exact a.token_type_ne_op op
  induction c generalizing k with
  | last a =>
      constructor
      · intro found
        exact absurd found (alone k a)
      · intro ht
        have only : opToken d ∈ [a.token] := (List.takeWhile_sublist _).subset ht
        exact absurd (List.mem_singleton.mp only) (other a)
  | link a o c ih =>
      rw [Flat.tokens_link]
      cases ha : a.isLiteral with
      | false =>
          have stopped : (a.token :: opToken o :: Flat.tokens c).takeWhile
              (fun t => t.type ≠ .identifier) = [] := by simp [ha]
          rw [chainTree_identifier k ha, stopped]
          constructor
          · intro found
            exact absurd found (alone k a)
          · intro ht
            exact absurd ht List.not_mem_nil
      | true =>
          have taken : (a.token :: opToken o :: Flat.tokens c).takeWhile
              (fun t => t.type ≠ .identifier) = a.token :: opToken o ::
                (Flat.tokens c).takeWhile (fun t => t.type ≠ .identifier) := by
            simp [ha, opToken]
          rw [taken, nodes_chainTree k ha, chainTree_literal k ha]
          constructor
          · rintro ⟨n, hn, op, rfl⟩
            rcases List.mem_cons.mp hn with rfl | hn
            · exact List.mem_cons_of_mem _ List.mem_cons_self
            · rcases List.mem_cons.mp hn with rfl | hn
              · exact absurd op a.token_type_ne_op
              · have later := (ih (k + 2)).mp ⟨n, hn, op, rfl⟩
                exact List.mem_cons_of_mem _ (List.mem_cons_of_mem _ later)
          · intro ht
            rcases List.mem_cons.mp ht with same | ht
            · exact absurd same (other a)
            · rcases List.mem_cons.mp ht with same | ht
              · have text : d = o := congrArg Token.text same
                exact ⟨_, List.mem_cons_self, rfl, text.symm⟩
              · obtain ⟨n, hn, op, data⟩ := (ih (k + 2)).mpr ht
                exact ⟨n, List.mem_cons_of_mem _ (List.mem_cons_of_mem _ hn), op, data⟩

private theorem op_children {k : Nat} {c : Flat} {n : Ast} (hn : n ∈ (chainTree k c).nodes)
    (op : n.type = .op) : ∃ l cs, n.children = l :: cs ∧ l.type = .literalInt := by
  rcases chainTree_node hn with ⟨j, a, rfl⟩ | ⟨j, a, o, d, ha, rfl⟩
  · exact absurd op a.token_type_ne_op
  · exact ⟨a.node j, [d], rfl, a.token_type_literal.mpr ha⟩

private theorem targets_erase (t : Ast) : t.erase.TargetsIdentifiers ↔ t.TargetsIdentifiers := by
  unfold Ast.TargetsIdentifiers
  rw [Ast.nodes_erase]
  constructor
  · intro targets n hn op data
    have erased := targets n.erase (List.mem_map_of_mem hn)
    rw [Ast.erase_type, Ast.erase_data, Ast.erase_children] at erased
    obtain ⟨c, cs, children, type⟩ := erased op data
    obtain ⟨c', cs', children', rfl, -⟩ := List.map_eq_cons_iff.mp children
    rw [Ast.erase_type] at type
    exact ⟨c', cs', children', type⟩
  · intro targets n hn
    obtain ⟨n', hn', rfl⟩ := List.mem_map.mp hn
    rw [Ast.erase_type, Ast.erase_data, Ast.erase_children]
    intro op data
    obtain ⟨c, cs, children, type⟩ := targets n' hn' op data
    refine ⟨c.erase, cs.map Ast.erase, ?_, ?_⟩
    · rw [children, List.map_cons]
    · rw [Ast.erase_type]
      exact type

private theorem targets_chainTree (k : Nat) (c : Flat) :
    (chainTree k c).TargetsIdentifiers ↔
      opToken ":=".toList ∉ (Flat.tokens c).takeWhile (fun t => t.type ≠ .identifier) := by
  rw [← operators_chainTree k c]
  constructor
  · rintro targets ⟨n, hn, op, data⟩
    obtain ⟨l, cs, children, literal⟩ := op_children hn op
    obtain ⟨l', cs', children', identifier⟩ := targets n hn op data
    rw [children] at children'
    obtain ⟨rfl, -⟩ := List.cons.inj children'
    rw [literal] at identifier
    exact NodeType.noConfusion identifier
  · intro none n hn op data
    exact absurd ⟨n, hn, op, data⟩ none

/-- In the trees of a returned module every `:=` has an identifier as its first child
exactly when no `:=` stands before the first identifier of the first expression. -/
theorem parse_targets_iff {s : Str} {es : List Expr} {m : Module} (derived : DerivesAll s es)
    (parsed : parse s = .ok (some m)) :
    (∀ t ∈ m.expressionTrees, t.TargetsIdentifiers) ↔
      ∀ e ∈ es.head?, opToken ":=".toList ∉
        e.tokens.takeWhile (fun t => t.type ≠ .identifier) := by
  have trees := derived.parse_trees parsed
  cases es with
  | nil =>
      have none : m.expressionTrees = [] := List.map_eq_nil_iff.mp trees
      simp [none]
  | cons e es =>
      obtain ⟨t, ts, single, same, rest⟩ := List.map_eq_cons_iff.mp trees
      have none : ts = [] := List.map_eq_nil_iff.mp rest
      simp only [single, none, List.mem_singleton, forall_eq, List.head?_cons, Option.mem_def,
        Option.some.injEq, forall_eq']
      rw [← targets_erase, same, targets_chainTree, Expr.tokens_eq]

theorem parse_targets_sum :
    ∃ m, parse "1 + 2".toList = .ok (some m) ∧ ∀ t ∈ m.expressionTrees, t.TargetsIdentifiers := by
  obtain ⟨m, parsed⟩ := parse_one_two
  refine ⟨m, parsed, (parse_targets_iff derives_one_two parsed).mpr ?_⟩
  intro e he
  rw [← Option.some.inj he]
  decide

/-- The module of `1 + 2 := 3` holds a `:=` whose first child is a literal. -/
theorem nested_initializer_accepted :
    ∃ m, parse "1 + 2 := 3".toList = .ok (some m) ∧
      ¬ ∀ t ∈ m.expressionTrees, t.TargetsIdentifiers := by
  have derived : DerivesAll "1 + 2 := 3".toList
      [.binary (.operand (.literal ['1'])) ['+']
        (.binary (.operand (.literal ['2'])) [':', '='] (.operand (.literal ['3'])))] :=
    .cons rfl (.binary (.integer rfl) rfl (.binary (.integer rfl) rfl
      (.single (.integer rfl) rfl))) (.nil rfl)
  obtain ⟨m, parsed⟩ := derived.parse_decimal rfl (by decide) (by decide)
  refine ⟨m, parsed, ?_⟩
  intro targets
  obtain ⟨t, ts, single, same, -⟩ := List.map_eq_cons_iff.mp (derived.parse_trees parsed)
  have target := targets t (by rw [single]; exact List.mem_cons_self)
  rw [← targets_erase, same, targets_chainTree] at target
  exact target (by decide)

end Targets

end Amalgam.Parser
