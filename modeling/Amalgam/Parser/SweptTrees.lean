/- Module: Amalgam/Parser/SweptTrees
   digest: The swept tree is strict, is read within the stack, and keeps some of the tokens. -/

import Amalgam.Codegen.Values
import Amalgam.Parser.Acceptance

set_option autoImplicit false
set_option relaxedAutoImplicit false

namespace Amalgam.Parser

open Amalgam.Cxx (Fault)
open Amalgam.Pegtl (Str Outcome)
open Amalgam.Codegen (getValue)
open ParseState (toTree)

section Shape

theorem operand_strict (k : Nat) (a : Operand) : (a.node k).Strict :=
  .leaf a.token_type_ne_op

theorem chainTree_strict (k : Nat) (c : Flat) : (chainTree k c).Strict := by
  induction c generalizing k with
  | last a => exact operand_strict k a
  | link a o c ih =>
      simp only [chainTree]
      split
      · exact .op (operand_strict k a) (ih (k + 2))
      · exact operand_strict k a

theorem chainTree_erase (k : Nat) (c : Flat) : (chainTree k c).erase = chainTree k c := by
  induction c generalizing k with
  | last a => rfl
  | link a o c ih =>
      simp only [chainTree]
      split
      · have left : (a.node k).erase = a.node k := rfl
        simp only [Ast.erase, Ast.eraseAll_cons, Ast.eraseAll_nil, ih, left]
      · rfl

theorem operand_nodes (k : Nat) (a : Operand) : (a.node k).nodes = [a.node k] := rfl

theorem nodes_chainTree (k : Nat) {a : Operand} (ha : a.isLiteral = true) (o : Str) (c : Flat) :
    (chainTree k (.link a o c)).nodes =
      chainTree k (.link a o c) :: a.node k :: (chainTree (k + 2) c).nodes := by
  rw [chainTree_literal k ha]
  simp [Ast.nodes, operand_nodes]

theorem chainTree_node {k : Nat} {c : Flat} {n : Ast} (hn : n ∈ (chainTree k c).nodes) :
    (∃ j a, n = Operand.node j a) ∨
      ∃ j a o d, a.isLiteral = true ∧ n = .mk (j + 1) .op o [Operand.node j a, d] none := by
  induction c generalizing k with
  | last a => exact .inl ⟨k, a, List.mem_singleton.mp hn⟩
  | link a o c ih =>
      cases ha : a.isLiteral with
      | true =>
          rw [nodes_chainTree k ha] at hn
          rcases List.mem_cons.mp hn with root | hn
          · exact .inr ⟨k, a, o, _, ha, root.trans (chainTree_literal k ha o c)⟩
          · rcases List.mem_cons.mp hn with left | right
            · exact .inl ⟨k, a, left⟩
            · exact ih right
      | false =>
          rw [chainTree_identifier k ha] at hn
          exact .inl ⟨k, a, List.mem_singleton.mp hn⟩

private theorem chainTree_plain (k : Nat) (c : Flat) : ∀ n ∈
    (chainTree k c).nodes, n.type ≠ .group := by
  intro n hn
  rcases chainTree_node hn with ⟨j, a, rfl⟩ | ⟨j, a, o, d, -, rfl⟩
  · exact a.token_type_ne_group
  · simp [Ast.type]

theorem strict_of_erase {t t' : Ast} (same : t'.erase = t) (strict : t.Strict) : t'.Strict := by
  rw [← same] at strict
  exact (Ast.strict_erase t').mp strict

private theorem forall_nodes_erase {P : NodeType → Str → Prop} (t : Ast) :
    (∀ n ∈ t.erase.nodes, P n.type n.data) ↔ ∀ n ∈ t.nodes, P n.type n.data := by
  rw [Ast.nodes_erase, List.forall_mem_map]
  simp only [Ast.erase_type, Ast.erase_data]

theorem forall_chainTree {P : NodeType → Str → Prop} (identifier : ∀ text, ¬ P .identifier text)
    (k : Nat) (c : Flat) :
    (∀ n ∈ (chainTree k c).nodes, P n.type n.data) ↔ ∀ t ∈ Flat.tokens c, P t.type t.text := by
  induction c generalizing k with
  | last a =>
      rw [chainTree, operand_nodes, List.forall_mem_singleton, Flat.tokens_last,
        List.forall_mem_singleton]
      rfl
  | link a o c ih =>
      rw [Flat.tokens_link, List.forall_mem_cons, List.forall_mem_cons]
      cases ha : a.isLiteral with
      | true =>
          have root : (chainTree k (.link a o c)).type = .op ∧
              (chainTree k (.link a o c)).data = o := by
            rw [chainTree_literal k ha]
            exact ⟨rfl, rfl⟩
          rw [nodes_chainTree k ha, List.forall_mem_cons, List.forall_mem_cons, root.1, root.2,
            ih (k + 2)]
          exact and_left_comm
      | false =>
          have fails : ¬ P a.token.type a.token.text := by
            rw [a.token_type_identifier.mpr ha]
            exact identifier a.token.text
          rw [chainTree_identifier k ha, operand_nodes, List.forall_mem_singleton]
          exact ⟨fun h => absurd h fails, fun h => absurd h.1 fails⟩

theorem forall_nodes_tokens {Q : NodeType → Str → Prop} {t : Ast} {k : Nat} {c : Flat}
    (same : t.erase = chainTree k c) (literal : ∀ u ∈ Flat.tokens c, u.type ≠ .identifier) :
    (∀ n ∈ t.nodes, Q n.type n.data) ↔ ∀ u ∈ Flat.tokens c, Q u.type u.text := by
  have plain := (forall_chainTree (P := fun type _ => type ≠ .identifier) (by simp) k c).mpr literal
  have both := forall_chainTree (P := fun type data => type ≠ .identifier ∧ Q type data)
    (by simp) k c
  rw [← forall_nodes_erase, same]
  constructor
  · intro h u hu
    exact (both.mp (fun n hn => ⟨plain n hn, h n hn⟩) u hu).2
  · intro h n hn
    exact (both.mpr (fun u hu => ⟨literal u hu, h u hu⟩) n hn).2

end Shape

section Modules

/-- A returned module holds one method, `__default__`, with the swept trees but for
their types. -/
theorem DerivesAll.parse_module {s : Str} {es : List Expr} {m : Module} (h : DerivesAll s es)
    (run : parse s = .ok (some m)) :
    ∃ x, m = mainModule x ∧ x.name = "__default__".toList ∧
      x.expressionList.map Ast.erase = treesOf (flats es) := by
  cases es with
  | nil =>
      rw [h.parse_nil] at run
      exact ⟨defaultMethod [], (Option.some.inj (Except.ok.inj run)).symm, rfl, rfl⟩
  | cons e es =>
      rw [h.parse_cons] at run
      obtain ⟨r, checked, run⟩ := bind_ok_iff.mp run
      obtain ⟨same, name⟩ := Verifier.expressionTree_keeps (chainTree_strict 0 e.flat) checked
      by_cases passed : r.passed = true
      · rw [if_pos passed] at run
        refine ⟨_, (Option.some.inj (Except.ok.inj run)).symm, name, ?_⟩
        simp only [List.map_cons, List.map_nil, same, chainTree_erase]
        rfl
      · rw [if_neg passed] at run
        simp at run

theorem DerivesAll.parse_trees {s : Str} {es : List Expr} {m : Module} (h : DerivesAll s es)
    (run : parse s = .ok (some m)) : m.expressionTrees.map Ast.erase = treesOf (flats es) := by
  obtain ⟨x, rfl, -, trees⟩ := h.parse_module run
  rw [mainModule_expressionTrees, trees]

/-- A tree that is, but for its types, one that the sweep returns. -/
def Swept (t : Ast) : Prop := ∃ c, t.erase = chainTree 0 c

private theorem treesOf_swept {cs : List Flat} {t : Ast} (h : t ∈ treesOf cs) : Swept t := by
  cases cs with
  | nil => simp [treesOf] at h
  | cons c cs =>
      simp only [treesOf, List.mem_singleton] at h
      exact ⟨c, by rw [h, chainTree_erase]⟩

private theorem parse_swept {s : Str} {m : Module} (run : parse s = .ok (some m)) {t : Ast}
    (ht : t ∈ m.expressionTrees) : Swept t := by
  obtain ⟨es, derived⟩ := parse_derives run
  have erased : t.erase ∈ treesOf (flats es) := by
    rw [← derived.parse_trees run]
    exact List.mem_map_of_mem ht
  cases es with
  | nil => simp [flats, treesOf] at erased
  | cons e es =>
      simp only [flats, List.map_cons, treesOf, List.mem_singleton] at erased
      exact ⟨e.flat, erased⟩

theorem Swept.strict {t : Ast} (h : Swept t) : t.Strict := by
  obtain ⟨c, same⟩ := h
  exact strict_of_erase same (chainTree_strict 0 c)

theorem Swept.getValue_inBounds {t : Ast} (h : Swept t) (out : List Str) :
    getValue t ≠ .error ⟨.outOfBounds, out⟩ := by
  have strict := h.strict
  obtain ⟨c, same⟩ := h
  have plain := chainTree_plain 0 c
  rw [← same] at plain
  exact Codegen.getValue_inBounds strict
    ((forall_nodes_erase (P := fun type _ => type ≠ .group) t).mp plain) out

/-- Whenever the match ends without a parse error it completes; the sweep then reads one
strict tree from the stack within its bounds, or finds the stack empty and does not
start. The verifier and the generator stay within the children of every such tree, also
once the tree has been verified. -/
theorem sweep_inBounds (s : Str) (accepted : ∀ l, matchGrammar s ≠ .parseError l) :
    ∃ rest st trees, matchGrammar s = .ok rest st ∧
      st.module = mainModule (defaultMethod trees) ∧
      (st.stack = [] ∧ trees = [] ∨
        ∃ t it, (∀ n, st.stack.length ≤ n → toTree n st.stack = .ok (t, it)) ∧ trees = [t]) ∧
      (∀ t ∈ trees, t.Strict ∧ Verifier.getType t ≠ .error .outOfBounds ∧
        (∀ m, Verifier.expressionTree m t ≠ .error .outOfBounds) ∧
        ∀ out, getValue t ≠ .error ⟨.outOfBounds, out⟩) ∧
      ∀ m, parse s = .ok (some m) → ∀ t ∈ m.expressionTrees,
        t.Strict ∧ ∀ out, getValue t ≠ .error ⟨.outOfBounds, out⟩ := by
  rcases matchGrammar_total s with ⟨es, _, _, derived, -⟩ | ⟨-, l, failed⟩
  · obtain ⟨rest, run⟩ := derived.matchGrammar
    refine ⟨rest, _, treesOf (flats es), run, rfl, ?_, ?_, ?_⟩
    · cases es with
      | nil => exact .inl ⟨rfl, rfl⟩
      | cons e es =>
          right
          refine ⟨chainTree 0 e.flat, leftover 0 e.flat ++ layouts (0 + e.flat.size) (flats es),
            ?_, rfl⟩
          intro n hn
          have stack : (finalState (flats (e :: es))).stack =
              layout 0 e.flat ++ layouts (0 + e.flat.size) (flats es) := rfl
          have bound : e.flat.size ≤ n := by
            rw [stack, List.length_append, length_layout] at hn
            omega
          rw [stack]
          exact toTree_layout 0 e.flat _ n bound
    · intro t ht
      have swept := treesOf_swept ht
      exact ⟨swept.strict, Verifier.getType_inBounds swept.strict,
        Verifier.expressionTree_inBounds swept.strict, swept.getValue_inBounds⟩
    · intro m parsed t ht
      have swept := parse_swept parsed ht
      exact ⟨swept.strict, swept.getValue_inBounds⟩
  · exact absurd failed (accepted l)

private theorem derives_sum : DerivesAll "1 + x".toList
    [.binary (.operand (.literal ['1'])) ['+'] (.operand (.identifier ['x']))] :=
  .cons rfl (.binary (.integer rfl) rfl (.single (.identifier rfl rfl) rfl)) (.nil rfl)

theorem sweep_inBounds_sum :
    (∀ l, matchGrammar "1 + x".toList ≠ .parseError l) ∧
      ∃ rest st trees, matchGrammar "1 + x".toList = .ok rest st ∧
        st.module = mainModule (defaultMethod trees) ∧ ∀ t ∈ trees, t.Strict := by
  obtain ⟨rest, run⟩ := derives_sum.matchGrammar
  have accepted : ∀ l, matchGrammar "1 + x".toList ≠ .parseError l := by
    intro l failed
    rw [run] at failed
    simp at failed
  obtain ⟨rest, st, trees, run, module, -, strict, -⟩ := sweep_inBounds _ accepted
  exact ⟨accepted, rest, st, trees, run, module, fun t ht => (strict t ht).1⟩

end Modules

section Tokens

private theorem inorder_chainTree (k : Nat) (c : Flat) :
    (chainTree k c).inorder = Flat.tokens (c.front Operand.isLiteral) := by
  have operand : ∀ (k : Nat) (a : Operand), (a.node k).inorder = [a.token] := by
    intro k a
    cases a <;> rfl
  induction c generalizing k with
  | last a => exact operand k a
  | link a o c ih =>
      simp only [chainTree, Chain.front]
      split
      · simp only [Ast.inorder, Ast.inorderAll, operand, ih, List.append_nil]
        rfl
      · exact operand k a

def Expr.IdentifierLast (e : Expr) : Prop := ∀ t ∈ e.tokens.dropLast, t.type ≠ .identifier

theorem tokens_ne_nil (c : Flat) : Flat.tokens c ≠ [] := by
  cases c <;> simp [Flat.tokens, Chain.toList]

private theorem identifierLast_iff (e : Expr) :
    e.IdentifierLast ↔ e.flat.front Operand.isLiteral = e.flat := by
  rw [Expr.IdentifierLast, Expr.tokens_eq]
  generalize e.flat = c
  induction c with
  | last a => simp [Flat.tokens, Chain.toList, Chain.front]
  | link a o c ih =>
      have split : (Flat.tokens (.link a o c)).dropLast =
          a.token :: opToken o :: (Flat.tokens c).dropLast := by
        rw [Flat.tokens_link, List.dropLast_cons_of_ne_nil (by simp),
          List.dropLast_cons_of_ne_nil (tokens_ne_nil c)]
      have opType : (opToken o).type ≠ .identifier := by simp [opToken]
      simp only [split, List.forall_mem_cons, ih, Chain.front]
      cases a with
      | literal text => simp [Operand.isLiteral, opType]
      | identifier text => simp [Operand.isLiteral]

theorem length_allTokens (es : List Expr) : (allTokens es).length = totalSize (flats es) := by
  induction es with
  | nil => rfl
  | cons e es ih =>
      rw [allTokens_cons, List.length_append, ih, Flat.tokens, Chain.length_toList]
      simp [totalSize, flats]

/-- The trees in `__default__` show all tokens of the text, in order, exactly when the
text is one expression without an identifier before its last token. -/
theorem tokens_kept_iff {s : Str} {es : List Expr} (derived : DerivesAll s es) (some : es ≠ []) :
    ∃ rest st trees, matchGrammar s = .ok rest st ∧
      st.module = mainModule (defaultMethod trees) ∧
      (trees.flatMap Ast.inorder = allTokens es ↔ ∃ e, es = [e] ∧ e.IdentifierLast) := by
  obtain ⟨rest, run⟩ := derived.matchGrammar
  refine ⟨rest, _, treesOf (flats es), run, rfl, ?_⟩
  obtain ⟨e, es, rfl⟩ := List.exists_cons_of_ne_nil some
  have shown : (treesOf (flats (e :: es))).flatMap Ast.inorder =
      Flat.tokens (e.flat.front Operand.isLiteral) := by
    simp only [flats, List.map_cons, treesOf, List.flatMap_cons, List.flatMap_nil,
      List.append_nil, inorder_chainTree]
  rw [shown]
  constructor
  · intro same
    have lengths := congrArg List.length same
    rw [length_allTokens, Flat.tokens, Chain.length_toList] at lengths
    have total : totalSize (flats (e :: es)) = e.flat.size + totalSize (flats es) := by
      simp [totalSize, flats]
    have shorter := e.flat.size_front_le Operand.isLiteral
    have whole : e.flat.front Operand.isLiteral = e.flat := by
      apply Chain.front_eq_of_size
      omega
    cases es with
    | nil => exact ⟨e, rfl, (identifierLast_iff e).mpr whole⟩
    | cons e' es =>
        have more : totalSize (flats (e' :: es)) = e'.flat.size + totalSize (flats es) := by
          simp [totalSize, flats]
        have pos := e'.flat.size_pos
        omega
  · rintro ⟨e', only, last⟩
    obtain ⟨rfl, rfl⟩ := List.cons.inj only
    rw [(identifierLast_iff e).mp last, ← Expr.tokens_eq]
    simp [allTokens]

theorem tokens_kept_sum :
    ∃ rest st trees, matchGrammar "1 + x".toList = .ok rest st ∧
      st.module = mainModule (defaultMethod trees) ∧
      trees.flatMap Ast.inorder = [⟨.literalInt, ['1']⟩, ⟨.op, ['+']⟩, ⟨.identifier, ['x']⟩] := by
  obtain ⟨rest, st, trees, run, module, kept⟩ := tokens_kept_iff derives_sum (by simp)
  exact ⟨rest, st, trees, run, module, kept.mpr ⟨_, rfl, by unfold Expr.IdentifierLast; decide⟩⟩

/-- In `a + b` the operator and the second identifier are lost. -/
theorem tokens_lost_after_identifier :
    ∃ es rest st trees, DerivesAll "a + b".toList es ∧ es ≠ [] ∧
      matchGrammar "a + b".toList = .ok rest st ∧
      st.module = mainModule (defaultMethod trees) ∧
      trees.flatMap Ast.inorder = [⟨.identifier, ['a']⟩] ∧
      trees.flatMap Ast.inorder ≠ allTokens es := by
  have derived : DerivesAll "a + b".toList
      [.binary (.operand (.identifier ['a'])) ['+'] (.operand (.identifier ['b']))] :=
    .cons rfl (.binary (.identifier rfl rfl) rfl (.single (.identifier rfl rfl) rfl)) (.nil rfl)
  obtain ⟨rest, run⟩ := derived.matchGrammar
  exact ⟨_, rest, _, _, derived, by simp, run, rfl, rfl, by decide⟩

end Tokens

end Amalgam.Parser
