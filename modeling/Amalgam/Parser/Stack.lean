/- Module: Amalgam/Parser/Stack
   digest: What the pushes of an expression leave on the stack, and the tree swept from it. -/

import Amalgam.Chain.Basic
import Amalgam.Parser.Actions
import Amalgam.Parser.Runs

set_option autoImplicit false
set_option relaxedAutoImplicit false

namespace Amalgam.Parser

open Amalgam.Cxx (Fault)
open Amalgam.Pegtl (Str Outcome)
open ParseState (toTree)

/-- Operands and operator texts in alternation: an expression without its parentheses. -/
abbrev Flat := Chain Operand Str

def Operand.isLiteral : Operand → Bool
  | .literal _ => true
  | .identifier _ => false

def opToken (op : Str) : Token := ⟨.op, op⟩

def Flat.tokens (c : Flat) : List Token := c.toList Operand.token opToken

theorem Flat.tokens_last (a : Operand) : Flat.tokens (.last a) = [a.token] := rfl

theorem Flat.tokens_link (a : Operand) (o : Str) (c : Flat) :
    Flat.tokens (.link a o c) = a.token :: opToken o :: Flat.tokens c := rfl

@[simp] theorem Operand.token_type_literal (a : Operand) :
    a.token.type = .literalInt ↔ a.isLiteral = true := by
  cases a <;> simp [token, isLiteral]

@[simp] theorem Operand.token_type_identifier (a : Operand) :
    a.token.type = .identifier ↔ a.isLiteral = false := by
  cases a <;> simp [token, isLiteral]

@[simp] theorem Operand.token_type_ne_op (a : Operand) : a.token.type ≠ .op := by
  cases a <;> simp [token]

@[simp] theorem Operand.token_type_ne_group (a : Operand) : a.token.type ≠ .group := by
  cases a <;> simp [token]

def Expr.flat : Expr → Flat
  | .operand a => .last a
  | .group e => e.flat
  | .binary a op e => a.flat.append op e.flat

theorem Expr.tokens_eq (e : Expr) : e.tokens = Flat.tokens e.flat := by
  induction e with
  | operand a => rfl
  | group e ih => exact ih
  | binary a op e ihAtom ihExpr =>
      simp only [tokens, flat, Flat.tokens, Chain.toList_append, ihAtom, ihExpr]
      rfl

def Operand.node (k : Nat) (a : Operand) : Ast := .fresh k a.token.type a.token.text

def opNode (k : Nat) (op : Str) : Ast := .fresh k .op op

/-- What the pushes of a chain add to the stack, the first node having address `k`. -/
def layout : Nat → Flat → List Ast
  | k, .last a => [a.node k]
  | k, .link a o c =>
      if a.isLiteral then opNode (k + 1) o :: a.node k :: layout (k + 2) c
      else a.node k :: opNode (k + 1) o :: layout (k + 2) c

/-- The tree that the sweep reads from the stack of a chain: it branches at every
operator up to the first one that follows an identifier. -/
def chainTree : Nat → Flat → Ast
  | k, .last a => a.node k
  | k, .link a o c =>
      if a.isLiteral then .mk (k + 1) .op o [a.node k, chainTree (k + 2) c] none
      else a.node k

/-- The part of the stack that the sweep leaves unread. -/
def leftover : Nat → Flat → List Ast
  | _, .last _ => []
  | k, .link a o c =>
      if a.isLiteral then leftover (k + 2) c else opNode (k + 1) o :: layout (k + 2) c

def layouts : Nat → List Flat → List Ast
  | _, [] => []
  | k, c :: cs => layout k c ++ layouts (k + c.size) cs

section Nodes

@[simp] theorem node_address (k : Nat) (a : Operand) : (a.node k).address = k := rfl

@[simp] theorem node_type (k : Nat) (a : Operand) : (a.node k).type = a.token.type := rfl

@[simp] theorem node_data (k : Nat) (a : Operand) : (a.node k).data = a.token.text := rfl

theorem chainTree_literal (k : Nat) {a : Operand} (ha : a.isLiteral = true) (o : Str) (c : Flat) :
    chainTree k (.link a o c) = .mk (k + 1) .op o [a.node k, chainTree (k + 2) c] none := by
  rw [chainTree, if_pos ha]

theorem chainTree_identifier (k : Nat) {a : Operand} (ha : a.isLiteral = false) (o : Str)
    (c : Flat) : chainTree k (.link a o c) = a.node k := by
  rw [chainTree, if_neg (by simp [ha])]

end Nodes

section Push

private theorem push_operand (st : ParseState) (a : Operand) :
    ParseState.pushNode a.token.type a.token.text st =
      { st with stack := st.stack ++ [a.node st.allocated], allocated := st.allocated + 1 } := by
  cases a <;> rfl

private theorem push_op (st : ParseState) (t : List Ast) (top : Ast) (ht : st.stack = t ++ [top])
    (op : Str) :
    ParseState.pushNode .op op st =
      { st with
        stack := if top.type = .literalInt then t ++ [opNode st.allocated op, top]
          else t ++ [top, opNode st.allocated op]
        allocated := st.allocated + 1 } := by
  simp only [ParseState.pushNode, ParseState.makeAst, ht, List.getLast?_concat,
    List.dropLast_concat]
  split <;> simp [opNode]

/-- The pushes of a chain: every operator ends up below the literal before it. -/
theorem push_flat (st : ParseState) (c : Flat) :
    pushAll actions st (Flat.tokens c) =
      { st with
        stack := st.stack ++ layout st.allocated c
        allocated := st.allocated + c.size } := by
  induction c generalizing st with
  | last a => exact push_operand st a
  | link a o c ih =>
      have first := push_operand st a
      have second := push_op (ParseState.pushNode a.token.type a.token.text st) st.stack
        (a.node st.allocated) (by rw [first]) o
      have tail : pushAll actions st (Flat.tokens (.link a o c)) =
          pushAll actions (ParseState.pushNode .op o
            (ParseState.pushNode a.token.type a.token.text st)) (Flat.tokens c) := rfl
      rw [tail, second, ih, first]
      cases ha : a.isLiteral with
      | true => simp [layout, Chain.size, ha]; omega
      | false => simp [layout, Chain.size, ha]; omega

end Push

section Sweep

private theorem toTree_operand (n k : Nat) (a : Operand) (it : List Ast) :
    toTree (n + 1) (a.node k :: it) = .ok (a.node k, it) := by
  cases a <;> rfl

/-- Reading the stack of a chain in prefix order ends inside it, with its tree. -/
theorem toTree_layout (k : Nat) (c : Flat) (more : List Ast) (n : Nat) (hn : c.size ≤ n) :
    toTree n (layout k c ++ more) = .ok (chainTree k c, leftover k c ++ more) := by
  induction c generalizing k n with
  | last a =>
      obtain ⟨n, rfl⟩ : ∃ m, n = m + 1 := ⟨n - 1, by simp only [Chain.size] at hn; omega⟩
      exact toTree_operand n k a more
  | link a o c ih =>
      obtain ⟨n, rfl⟩ : ∃ m, n = m + 2 := ⟨n - 2, by simp only [Chain.size] at hn; omega⟩
      have bound : c.size ≤ n + 1 := by simp only [Chain.size] at hn; omega
      cases ha : a.isLiteral with
      | true =>
          simp only [layout, chainTree, leftover, ha, if_true, List.cons_append]
          rw [toTree]
          simp only [opNode, Ast.fresh, Ast.type]
          rw [toTree_operand]
          simp only [bind, Except.bind, ih (k + 2) (n + 1) bound]
          rfl
      | false =>
          simp only [layout, chainTree, leftover, ha, Bool.false_eq_true, if_false,
            List.cons_append]
          exact toTree_operand (n + 1) k a _

end Sweep

end Amalgam.Parser
