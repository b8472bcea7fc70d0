/- Module: Amalgam/Parser/Groups
   digest: Which pairs of parentheses the swept tree respects. -/

import Amalgam.Parser.SweptTrees

set_option autoImplicit false
set_option relaxedAutoImplicit false

namespace Amalgam.Parser

open Amalgam.Pegtl (Str Outcome)

/-- The groups of an expression, from the outside in and from left to right: for each
pair of parentheses the index of the first token inside it, and what it encloses. The
first token of the expression has index `k`. -/
def Expr.groups : Expr → Nat → List (Nat × Expr)
  | .operand _, _ => []
  | .group e, k => (k, e) :: e.groups k
  | .binary a _ e, k => a.groups k ++ e.groups (k + a.tokens.length + 1)

/-- The nodes whose addresses lie from `i` up to `j` are the nodes of one subtree. -/
def Ast.Spans (t : Ast) (i j : Nat) : Prop :=
  ∃ u ∈ t.nodes, ∀ a, a ∈ u.addresses ↔ i ≤ a ∧ a < j

def Flat.Literal (c : Flat) : Prop := ∀ t ∈ c.tokens, t.type ≠ .identifier

instance (c : Flat) : Decidable c.Literal :=
  inferInstanceAs (Decidable (∀ t ∈ c.tokens, t.type ≠ .identifier))

section Positions

theorem length_tokens (e : Expr) : e.tokens.length = e.flat.size := by
  rw [Expr.tokens_eq, Flat.tokens, Chain.length_toList]

private theorem groups_position {e g : Expr} {i k : Nat} (h : (i, g) ∈ e.groups k) :
    k ≤ i ∧ (i - k) % 2 = 0 ∧ i + g.flat.size ≤ k + e.flat.size := by
  induction e generalizing k with
  | operand a => simp [Expr.groups] at h
  | group e ih =>
      rcases List.mem_cons.mp h with same | inside
      · obtain ⟨rfl, rfl⟩ := Prod.mk.inj same
        simp only [Expr.flat]
        omega
      · exact ih inside
  | binary a op e ihAtom ihExpr =>
      have sizes : (Expr.binary a op e).flat.size = a.flat.size + 1 + e.flat.size :=
        Chain.size_append _ _ _
      rcases List.mem_append.mp h with first | second
      · obtain ⟨lower, parity, upper⟩ := ihAtom first
        omega
      · obtain ⟨lower, parity, upper⟩ := ihExpr second
        have odd := a.flat.size_odd
        rw [length_tokens] at lower parity upper
        omega

theorem literal_link (a : Operand) (o : Str) (c : Flat) (h : Flat.Literal (.link a o c)) :
    a.isLiteral = true ∧ Flat.Literal c := by
  rw [Flat.Literal, Flat.tokens_link] at h
  constructor
  · have first : a.token.type ≠ .identifier := h a.token List.mem_cons_self
    simpa using first
  · intro t ht
    exact h t (List.mem_cons_of_mem _ (List.mem_cons_of_mem _ ht))

private theorem addresses_operand (k : Nat) (a : Operand) : (a.node k).addresses = [k] := rfl

private theorem addresses_chainTree (k : Nat) {c : Flat} (h : Flat.Literal c) (a : Nat) :
    a ∈ (chainTree k c).addresses ↔ k ≤ a ∧ a < k + c.size := by
  induction c generalizing k with
  | last b =>
      rw [chainTree, addresses_operand, List.mem_singleton, Chain.size]
      omega
  | link b o c ih =>
      obtain ⟨hb, hc⟩ := literal_link b o c h
      have root : (chainTree k (.link b o c)).address = k + 1 := by
        rw [chainTree_literal k hb]
        rfl
      have split : a ∈ (chainTree k (.link b o c)).addresses ↔
          a = k + 1 ∨ a = k ∨ a ∈ (chainTree (k + 2) c).addresses := by
        simp only [Ast.addresses, nodes_chainTree k hb, List.map_cons, List.mem_cons, root,
          node_address]
      rw [split, ih (k + 2) hc, Chain.size]
      omega

private theorem subtree_addresses {k : Nat} {c : Flat} (h : Flat.Literal c) {u : Ast}
    (hu : u ∈ (chainTree k c).nodes) :
    ∃ i, (∀ a, a ∈ u.addresses ↔ i ≤ a ∧ a < i + 1) ∨
      (∀ a, a ∈ u.addresses ↔ i ≤ a ∧ a < k + c.size) := by
  have operand : ∀ (j : Nat) (b : Operand), ∀ a, a ∈ (b.node j).addresses ↔ j ≤ a ∧ a < j + 1 := by
    intro j b a
    rw [addresses_operand, List.mem_singleton]
    omega
  induction c generalizing k with
  | last b =>
      rw [chainTree, operand_nodes, List.mem_singleton] at hu
      rw [hu]
      exact ⟨k, .inl (operand k b)⟩
  | link b o c ih =>
      obtain ⟨hb, hc⟩ := literal_link b o c h
      rw [nodes_chainTree k hb] at hu
      rcases List.mem_cons.mp hu with rfl | hu
      · exact ⟨k, .inr (addresses_chainTree k h)⟩
      · rcases List.mem_cons.mp hu with rfl | hu
        · exact ⟨k, .inl (operand k b)⟩
        · obtain ⟨i, single | suffix⟩ := ih hc hu
          · exact ⟨i, .inl single⟩
          · refine ⟨i, .inr ?_⟩
            intro a
            rw [suffix a, Chain.size]
            omega

private theorem spans_operand {k i : Nat} {c : Flat} (h : Flat.Literal c) (lower : k ≤ i)
    (even : (i - k) % 2 = 0) (upper : i < k + c.size) :
    (chainTree k c).Spans i (i + 1) ∧ (chainTree k c).Spans i (k + c.size) := by
  induction c generalizing k with
  | last b =>
      simp only [Chain.size] at upper ⊢
      have first : i = k := by omega
      have spans : (chainTree k (.last b)).Spans k (k + 1) := by
        refine ⟨b.node k, Ast.mem_nodes_self _, ?_⟩
        intro a
        rw [addresses_operand, List.mem_singleton]
        omega
      rw [first]
      exact ⟨spans, spans⟩
  | link b o c ih =>
      obtain ⟨hb, hc⟩ := literal_link b o c h
      by_cases first : i = k
      · rw [first]
        constructor
        · refine ⟨b.node k, ?_, ?_⟩
          · rw [nodes_chainTree k hb]
            exact List.mem_cons_of_mem _ List.mem_cons_self
          · intro a
            rw [addresses_operand, List.mem_singleton]
            omega
        · exact ⟨_, Ast.mem_nodes_self _, addresses_chainTree k h⟩
      · have below : ∀ {j}, (chainTree (k + 2) c).Spans i j →
            (chainTree k (.link b o c)).Spans i j := by
          rintro j ⟨u, hu, addresses⟩
          refine ⟨u, ?_, addresses⟩
          rw [nodes_chainTree k hb]
          exact List.mem_cons_of_mem _ (List.mem_cons_of_mem _ hu)
        simp only [Chain.size] at upper ⊢
        obtain ⟨single, suffix⟩ := ih (k := k + 2) hc (by omega) (by omega) (by omega)
        have last : k + (c.size + 2) = k + 2 + c.size := by omega
        rw [last]
        exact ⟨below single, below suffix⟩

private theorem spans_iff {i j : Nat} {c : Flat} (h : Flat.Literal c) (even : i % 2 = 0)
    (hij : i < j) (hj : j ≤ c.size) : (chainTree 0 c).Spans i j ↔ j = i + 1 ∨ j = c.size := by
  constructor
  · rintro ⟨u, hu, addresses⟩
    obtain ⟨l, single | suffix⟩ := subtree_addresses h hu
    · have first := (single i).mp ((addresses i).mpr ⟨Nat.le_refl i, hij⟩)
      have last := (single (j - 1)).mp ((addresses (j - 1)).mpr ⟨by omega, by omega⟩)
      left
      omega
    · have first := (suffix i).mp ((addresses i).mpr ⟨Nat.le_refl i, hij⟩)
      have last := (addresses (c.size - 1)).mp ((suffix (c.size - 1)).mpr ⟨by omega, by omega⟩)
      right
      omega
  · obtain ⟨operand, suffix⟩ := spans_operand h (Nat.zero_le i) even (by omega)
    intro condition
    rcases condition with rfl | rfl
    · exact operand
    · rwa [Nat.zero_add] at suffix

private theorem chainTree_token {k : Nat} {c : Flat} (h : Flat.Literal c) {n : Ast}
    (hn : n ∈ (chainTree k c).nodes) :
    k ≤ n.address ∧ (Flat.tokens c)[n.address - k]? = some ⟨n.type, n.data⟩ := by
  induction c generalizing k with
  | last b =>
      rw [chainTree, operand_nodes, List.mem_singleton] at hn
      rw [hn, node_address, Nat.sub_self]
      exact ⟨Nat.le_refl k, rfl⟩
  | link b o c ih =>
      obtain ⟨hb, hc⟩ := literal_link b o c h
      rw [nodes_chainTree k hb] at hn
      rw [Flat.tokens_link]
      rcases List.mem_cons.mp hn with rfl | hn
      · have offset : k + 1 - k = 1 := by omega
        rw [chainTree_literal k hb]
        simp only [Ast.address, Ast.type, Ast.data, offset]
        exact ⟨Nat.le_succ k, rfl⟩
      · rcases List.mem_cons.mp hn with rfl | hn
        · rw [node_address, Nat.sub_self]
          exact ⟨Nat.le_refl k, rfl⟩
        · obtain ⟨lower, token⟩ := ih hc hn
          have offset : n.address - k = n.address - (k + 2) + 1 + 1 := by omega
          rw [offset, List.getElem?_cons_succ, List.getElem?_cons_succ]
          exact ⟨by omega, token⟩

end Positions

section Respect

/-- In a text that is one expression over literals, the nodes of every group form a
subtree exactly when every group encloses a single literal or extends to the last token.
The address of a node is the index of its token in the text. -/
theorem groups_respected_iff {s : Str} {e : Expr} (derived : DerivesAll s [e])
    (literals : ∀ t ∈ e.tokens, t.type ≠ .identifier) :
    ∃ rest st tree, matchGrammar s = .ok rest st ∧
      st.module = mainModule (defaultMethod [tree]) ∧
      (∀ n ∈ tree.nodes, e.tokens[n.address]? = some ⟨n.type, n.data⟩) ∧
      ((∀ g ∈ e.groups 0, tree.Spans g.1 (g.1 + g.2.tokens.length)) ↔
        ∀ g ∈ e.groups 0, g.2.tokens.length = 1 ∨
          g.1 + g.2.tokens.length = e.tokens.length) := by
  obtain ⟨rest, run⟩ := derived.matchGrammar
  have flat : Flat.Literal e.flat := by
    rw [Flat.Literal, ← Expr.tokens_eq]
    exact literals
  refine ⟨rest, _, chainTree 0 e.flat, run, rfl, ?_, ?_⟩
  · intro n hn
    rw [Expr.tokens_eq]
    exact (chainTree_token flat hn).2
  · apply forall₂_congr
    rintro ⟨i, g⟩ hg
    obtain ⟨-, even, bound⟩ := groups_position hg
    have pos := g.flat.size_pos
    simp only [length_tokens]
    rw [spans_iff flat (by omega) (by omega) (by omega)]
    omega

theorem groups_respected_suffix :
    ∃ rest st tree, matchGrammar "1*(2+3)".toList = .ok rest st ∧
      st.module = mainModule (defaultMethod [tree]) ∧ tree.Spans 2 5 := by
  have three : Derives .atom "3)".toList (.operand (.literal ['3'])) (skip ")".toList) :=
    .integer rfl
  have sum : Derives .expr "2+3)".toList
      (.binary (.operand (.literal ['2'])) ['+'] (.operand (.literal ['3']))) ")".toList :=
    .binary (.integer rfl) rfl (.single three rfl)
  have group : Derives .expr "(2+3)".toList
      (.group (.binary (.operand (.literal ['2'])) ['+'] (.operand (.literal ['3'])))) (skip []) :=
    .single (.group rfl sum) rfl
  have derived : DerivesAll "1*(2+3)".toList
      [.binary (.operand (.literal ['1'])) ['*']
        (.group (.binary (.operand (.literal ['2'])) ['+'] (.operand (.literal ['3']))))] :=
    .cons rfl (.binary (.integer rfl) rfl group) (.nil rfl)
  obtain ⟨rest, st, tree, run, module, -, respected⟩ := groups_respected_iff derived (by decide)
  exact ⟨rest, st, tree, run, module, respected.mpr (by decide) (2, _) (List.mem_singleton_self _)⟩

/-- In `(1+2)*3` no subtree consists of the three nodes inside the parentheses. -/
theorem groups_broken_prefix :
    ∃ e g rest st tree, DerivesAll "(1+2)*3".toList [e] ∧
      (∀ t ∈ e.tokens, t.type ≠ .identifier) ∧ matchGrammar "(1+2)*3".toList = .ok rest st ∧
      st.module = mainModule (defaultMethod [tree]) ∧ (0, g) ∈ e.groups 0 ∧
      g.tokens.length = 3 ∧ ¬ tree.Spans 0 3 := by
  have two : Derives .atom "2)*3".toList (.operand (.literal ['2'])) (skip ")*3".toList) :=
    .integer rfl
  have sum : Derives .expr "1+2)*3".toList
      (.binary (.operand (.literal ['1'])) ['+'] (.operand (.literal ['2']))) ")*3".toList :=
    .binary (.integer rfl) rfl (.single two rfl)
  have three : Derives .expr "3".toList (.operand (.literal ['3'])) (skip []) :=
    .single (.integer rfl) rfl
  have derived : DerivesAll "(1+2)*3".toList
      [.binary (.group (.binary (.operand (.literal ['1'])) ['+'] (.operand (.literal ['2']))))
        ['*'] (.operand (.literal ['3']))] :=
    .cons rfl (.binary (.group rfl sum) rfl three) (.nil rfl)
  obtain ⟨rest, run⟩ := derived.matchGrammar
  refine ⟨_, _, rest, _, _, derived, by decide, run, rfl, List.mem_singleton_self _, rfl, ?_⟩
  rw [spans_iff (by decide) rfl (by decide) (by decide)]
  decide

end Respect

end Amalgam.Parser
