/- Module: Amalgam/Parser/FlatTrees
   digest: A flat chain of literals becomes its right-nested tree, of all nodes of the stack. -/

import Amalgam.Parser.Groups

set_option autoImplicit false
set_option relaxedAutoImplicit false

namespace Amalgam.Parser

open Amalgam.Pegtl (Str Outcome)
open ParseState (toTree)

/-- Every operator over the operand before it and the tree of all that follows. The node
of a token has the index of the token as its address. -/
def rightNested : Nat → Flat → Ast
  | k, .last a => a.node k
  | k, .link a o c => .mk (k + 1) .op o [a.node k, rightNested (k + 2) c] none

def Ast.entry (t : Ast) : Nat × NodeType × Str := (t.address, t.type, t.data)

section Lexed

private theorem operand_token_inj : Function.Injective Operand.token := by
  intro a b same
  cases a <;> cases b <;> simp_all [Operand.token]

private theorem opToken_inj : Function.Injective opToken := by
  intro o q same
  exact congrArg Token.text same

private theorem allTokens_head (es : List Expr) : ∀ t ∈ (allTokens es).head?, ¬ t.type = .op := by
  intro t first
  cases es with
  | nil => simp [allTokens] at first
  | cons e es =>
      rw [allTokens_cons] at first
      generalize e.flat = c at first
      cases c with
      | last a =>
          obtain rfl : a.token = t := Option.some.inj first
          exact a.token_type_ne_op
      | link a o c =>
          obtain rfl : a.token = t := Option.some.inj first
          exact a.token_type_ne_op

private theorem flats_of_tokens {es : List Expr} {c : Flat} (lexed : allTokens es = Flat.tokens c) :
    flats es = [c] := by
  cases es with
  | nil => exact absurd lexed.symm (tokens_ne_nil c)
  | cons e es =>
      rw [allTokens_cons] at lexed
      obtain ⟨whole, none⟩ := Chain.toList_append_inj (p := fun t => t.type = .op) (fun _ => rfl)
        operand_token_inj opToken_inj (allTokens_head es) lexed
      cases es with
      | nil => rw [← whole]; rfl
      | cons e' es =>
          rw [allTokens_cons, List.append_eq_nil_iff] at none
          exact absurd none.1 (tokens_ne_nil e'.flat)

end Lexed

section Tree

variable {c : Flat}

private theorem chainTree_rightNested (k : Nat) (literals : Flat.Literal c) :
    chainTree k c = rightNested k c := by
  induction c generalizing k with
  | last a => rfl
  | link a o c ih =>
      obtain ⟨ha, hc⟩ := literal_link a o c literals
      rw [chainTree_literal k ha, ih (k + 2) hc, rightNested]

private theorem leftover_literal (k : Nat) (literals : Flat.Literal c) : leftover k c = [] := by
  induction c generalizing k with
  | last a => rfl
  | link a o c ih =>
      obtain ⟨ha, hc⟩ := literal_link a o c literals
      rw [leftover, if_pos ha]
      exact ih (k + 2) hc

private theorem rightNested_nodes (k : Nat) (literals : Flat.Literal c) :
    (rightNested k c).nodes.map Ast.entry = (layout k c).map Ast.entry := by
  induction c generalizing k with
  | last a => rfl
  | link a o c ih =>
      obtain ⟨ha, hc⟩ := literal_link a o c literals
      rw [rightNested, Ast.nodes_op, operand_nodes, layout, if_pos ha]
      simp only [List.singleton_append, List.map_cons, ih (k + 2) hc]
      rfl

private theorem layout_addresses (k : Nat) (c : Flat) :
    ((layout k c).map Ast.address).Perm (List.range' k c.size) := by
  induction c generalizing k with
  | last a => exact List.Perm.refl _
  | link a o c ih =>
      have range : List.range' k (c.size + 2) = k :: (k + 1) :: List.range' (k + 2) c.size := rfl
      have tail := ih (k + 2)
      rw [Chain.size, range, layout]
      split
      · exact (List.Perm.swap _ _ _).trans ((tail.cons _).cons _)
      · exact (tail.cons _).cons _

end Tree

/-- A text whose tokens are a chain of literals and operators leaves one tree in
`__default__`, the right-nested one. Reading it passes the whole stack, and its nodes are the
nodes on the stack, each used once. -/
theorem flat_tree {s : Str} {es : List Expr} {c : Flat} (derived : DerivesAll s es)
    (lexed : allTokens es = Flat.tokens c) (literals : Flat.Literal c) :
    ∃ rest st, matchGrammar s = .ok rest st ∧
      st.module = mainModule (defaultMethod [rightNested 0 c]) ∧
      (∀ n, st.stack.length ≤ n → toTree n st.stack = .ok (rightNested 0 c, [])) ∧
      (rightNested 0 c).nodes.map Ast.entry = st.stack.map Ast.entry ∧
      (st.stack.map Ast.address).Nodup := by
  obtain ⟨rest, run⟩ := derived.matchGrammar
  rw [flats_of_tokens lexed] at run
  have stack : (finalState [c]).stack = layout 0 c := List.append_nil _
  have swept : (finalState [c]).module = mainModule (defaultMethod [chainTree 0 c]) := rfl
  rw [chainTree_rightNested 0 literals] at swept
  refine ⟨rest, _, run, swept, ?_, ?_, ?_⟩
  · intro n bound
    rw [stack, length_layout] at bound
    have read := toTree_layout 0 c [] n bound
    rw [List.append_nil, leftover_literal 0 literals, chainTree_rightNested 0 literals] at read
    rw [stack]
    exact read
  · rw [stack]
    exact rightNested_nodes 0 literals
  · rw [stack]
    exact (layout_addresses 0 c).nodup_iff.mpr List.nodup_range'

theorem flat_tree_product :
    ∃ rest st, matchGrammar "1+2*3".toList = .ok rest st ∧
      st.module = mainModule (defaultMethod
        [.mk 1 .op ['+'] [.fresh 0 .literalInt ['1'],
          .mk 3 .op ['*'] [.fresh 2 .literalInt ['2'], .fresh 4 .literalInt ['3']]
          none] none]) := by
  have derived : DerivesAll "1+2*3".toList
      [.binary (.operand (.literal ['1'])) ['+']
        (.binary (.operand (.literal ['2'])) ['*'] (.operand (.literal ['3'])))] :=
    .cons rfl (.binary (.integer rfl) rfl (.binary (.integer rfl) rfl (.single (.integer rfl) rfl)))
      (.nil rfl)
  let c : Flat := .link (.literal ['1']) ['+']
    (.link (.literal ['2']) ['*'] (.last (.literal ['3'])))
  have literals : c.Literal := by decide
  obtain ⟨rest, st, run, tree, -⟩ := flat_tree derived (c := c) rfl literals
  exact ⟨rest, st, run, tree⟩

end Amalgam.Parser
