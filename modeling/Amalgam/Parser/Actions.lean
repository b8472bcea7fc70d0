/- Module: Amalgam/Parser/Actions
   digest: The node stack, its sweep into expression trees, and the run of the grammar. -/

import Amalgam.Parser.Module
import Amalgam.Parser.Rules

set_option autoImplicit false
set_option relaxedAutoImplicit false

namespace Amalgam.Parser

open Amalgam.Cxx (Fault)
open Amalgam.Pegtl (Str Outcome)

/-- The states of a run: the node stack with its top last, and the module. The
number of nodes made so far is the address of the next one. -/
structure ParseState where
  stack : List Ast := []
  allocated : Nat := 0
  module : Module

namespace ParseState

def makeAst (st : ParseState) (nt : NodeType) (s : Str) : ParseState × Ast :=
  ({ st with allocated := st.allocated + 1 }, Ast.fresh st.allocated nt s)

/-- `push_node<nt>::apply`: an operator goes below a literal on top of the stack. -/
def pushNode (nt : NodeType) (s : Str) (st : ParseState) : ParseState :=
  let made := st.makeAst nt s
  let n := made.2
  let t := made.1.stack
  match nt with
  | .op =>
      match t.getLast? with
      | some top =>
          if top.type = .literalInt then { made.1 with stack := t.dropLast ++ [n] ++ [top] }
          else { made.1 with stack := t ++ [n] }
      | none => { made.1 with stack := t ++ [n] }
  | _ => { made.1 with stack := t ++ [n] }

/-- `to_tree`: the list is what the iterator has not passed yet, and reading it when
it is empty dereferences the end iterator. -/
def toTree : Nat → List Ast → Except Fault (Ast × List Ast)
  | 0, _ => .error .divergence
  | _ + 1, [] => .error .outOfBounds
  | n + 1, node :: it =>
      match node.type with
      | .op => do
          let left ← toTree n it
          let node := node.addChild left.1
          let right ← toTree n left.2
          let node := node.addChild right.1
          .ok (node, right.2)
      | _ => .ok (node, it)

/-- `sweep_expression_tree::apply`: one tree, read from the bottom of the stack, goes
to the current method. -/
def sweepExpressionTree (_ : Str) (st : ParseState) : Except Fault ParseState :=
  if 0 < st.stack.length then do
    let tree ← toTree (st.stack.length + 1) st.stack
    let current := st.module.getCurrentMethod
    let m ← st.module.deref current
    .ok { st with module := st.module.store current (m.addExpressionTree tree.1) }
  else .ok st

end ParseState

def actions : Actions ParseState Fault where
  push := ParseState.pushNode
  sweep := ParseState.sweepExpressionTree

def ParseState.initial : ParseState := { module := Module.new "__main__".toList }

/-- `basic_parse_string<grammar>(s, t, m)`. -/
def matchGrammar (s : Str) : Outcome ParseState Fault :=
  Pegtl.parse (Rules.grammar actions) s ParseState.initial

end Amalgam.Parser
