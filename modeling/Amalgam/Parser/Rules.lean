/- Module: Amalgam/Parser/Rules
   digest: The grammar, over arbitrary states and the two actions it calls. -/

import Amalgam.Pegtl.Matcher
import Amalgam.Parser.Ast

set_option autoImplicit false
set_option relaxedAutoImplicit false

namespace Amalgam.Parser

open Amalgam.Pegtl

/-- What the grammar does to the states: `push_node<nt>` on each lexeme, and
`sweep_expression_tree` once at the end. -/
structure Actions (σ ε : Type) where
  push : NodeType → Str → σ → σ
  sweep : Str → σ → Except ε σ

namespace Rules

section Lexical

variable {σ ε : Type}

def literalInteger : Matcher σ ε := seq [opt [one ['+', '-']], plus [digit], opt [plus [alpha]]]

def identifier : Matcher σ ε :=
  seq [plus [sor [alpha, one ['_']]], star [sor [alnum, one ['_']]]]

def operatorChars : Str :=
  ['+', '-', '*', '/', '&', '|', '^', '=', '<', '>', ':', ';', '[', ']', '{', '}', ',', '.', '?',
    '\\', '~', '!', '@', '#', '$', '%']

def literalOp : Matcher σ ε := plus [one operatorChars]

end Lexical

variable {σ ε : Type} (A : Actions σ ε)

def pushNode (nt : NodeType) (s : Str) (st : σ) : Except ε σ := .ok (A.push nt s st)

def pushInteger : Matcher σ ε := pad (ifapply literalInteger (pushNode A .literalInt)) space

def pushIdentifier : Matcher σ ε := pad (ifapply identifier (pushNode A .identifier)) space

def pushOp : Matcher σ ε := pad (ifapply literalOp (pushNode A .op)) space

/-- The rule `expr` is a parameter here and in `exprAtom`: the three are recursive. -/
def pushGroup (expr : Matcher σ ε) : Matcher σ ε :=
  pad (seq [one ['('], expr, one [')']]) space

def exprAtom (expr : Matcher σ ε) : Matcher σ ε :=
  sor [pushInteger A, pushIdentifier A, pushGroup expr]

/-- The recursion through `push_group`, cut off at a nesting depth. -/
def expr : Nat → Matcher σ ε
  | 0 => fun _ _ _ => .diverged
  | n + 1 => list (exprAtom A (expr n)) (pushOp A)

/-- Every nesting of groups consumes a parenthesis, so the input length bounds it. -/
def exprList : Matcher σ ε := fun must inp st =>
  ifapply (untilRule eol [expr A (inp.length + 1)]) A.sweep must inp st

def grammar : Matcher σ ε := exprList A

end Rules

end Amalgam.Parser
