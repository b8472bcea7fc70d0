/- Module: Amalgam/Parser/Grammar
   digest: The grammar as rule templates, which compute what the model's parser does. -/

import Amalgam.Pegtl.Bound
import Amalgam.Pegtl.Reading
import Amalgam.Parser.Acceptance

set_option autoImplicit false
set_option relaxedAutoImplicit false

namespace Amalgam.Parser

open Amalgam.Pegtl

namespace Grammar

section Syntax

/-- The rules that are called by name: `expr` is declared before it is defined. -/
inductive RuleName where
  | expr
  deriving DecidableEq

inductive Action where
  | pushNode (nt : NodeType)
  | sweepExpressionTree
  deriving DecidableEq

abbrev Template := Rule RuleName Action

def one (chars : Str) : Template := .character fun c => chars.contains c

def range (lo hi : Char) : Template := .character fun c => lo ≤ c && c ≤ hi

def pad (r padding : Template) : Template := .seq [.star [padding], r, .star [padding]]

def list (r glue : Template) : Template := .seq [r, .star [.cond2impl true glue [r]]]

def digit : Template := range '0' '9'

def alpha : Template := .sor [range 'a' 'z', range 'A' 'Z']

def alnum : Template := .sor [alpha, digit]

def space : Template := one [' ', '\n', '\r', '\t', '\x0b', '\x0c']

def eol : Template := .sor [.eof, .seq [one ['\r'], one ['\n']], one ['\n'], one ['\r']]

def literalInteger : Template := .seq [.opt [one ['+', '-']], .plus [digit], .opt [.plus [alpha]]]

def pushInteger : Template := pad (.ifapply literalInteger [.pushNode .literalInt]) space

def identifier : Template :=
  .seq [.plus [.sor [alpha, one ['_']]], .star [.sor [alnum, one ['_']]]]

def pushIdentifier : Template := pad (.ifapply identifier [.pushNode .identifier]) space

def pushGroup : Template := pad (.seq [one ['('], .call .expr, one [')']]) space

def exprAtom : Template := .sor [pushInteger, pushIdentifier, pushGroup]

def literalOp : Template := .plus [one Rules.operatorChars]

def pushOp : Template := pad (.ifapply literalOp [.pushNode .op]) space

def expr : Template := list exprAtom pushOp

def exprList : Template := .ifapply (.untilRule eol [.call .expr]) [.sweepExpressionTree]

def grammar : Template := exprList

def rules : RuleName → Template
  | .expr => expr

end Syntax

section Meaning

variable {σ ε : Type} (A : Actions σ ε)

def act : Action → Str → σ → Except ε σ
  | .pushNode nt => Rules.pushNode A nt
  | .sweepExpressionTree => A.sweep

variable {A} {calls : Nat → RuleName → Matcher σ ε} {e m q : Matcher σ ε} {r p : Template}

private theorem pad_reaches (hr : Reaches (r.bounded (act A) calls) m)
    (hp : Reaches (p.bounded (act A) calls) q) :
    Reaches ((pad r p).bounded (act A) calls) (Pegtl.pad m q) := by
  have padding := (EachReaches.one hp).star
  exact EachReaches.seq (.cons padding (.two hr padding))

private theorem list_reaches (hr : Reaches (r.bounded (act A) calls) m)
    (hp : Reaches (p.bounded (act A) calls) q) :
    Reaches ((list r p).bounded (act A) calls) (Pegtl.list m q) := by
  have further := bounded_cond2impl true hp (.one hr)
  exact EachReaches.seq (.two hr (EachReaches.one further).star)

private theorem one_reaches (chars : Str) :
    Reaches ((one chars).bounded (act A) calls) (Pegtl.one chars) :=
  bounded_character _

private theorem range_reaches (lo hi : Char) :
    Reaches ((range lo hi).bounded (act A) calls) (Pegtl.range lo hi) :=
  bounded_character _

private theorem alpha_reaches : Reaches (alpha.bounded (act A) calls) Pegtl.alpha :=
  EachReaches.sor (.two (range_reaches 'a' 'z') (range_reaches 'A' 'Z'))

private theorem alnum_reaches : Reaches (alnum.bounded (act A) calls) Pegtl.alnum :=
  EachReaches.sor (.two alpha_reaches (range_reaches '0' '9'))

private theorem space_reaches : Reaches (space.bounded (act A) calls) Pegtl.space := one_reaches _

private theorem literalInteger_reaches :
    Reaches (literalInteger.bounded (act A) calls) Rules.literalInteger := by
  have sign := (EachReaches.one (@one_reaches σ ε A calls ['+', '-'])).opt
  have digits := (EachReaches.one (@range_reaches σ ε A calls '0' '9')).plus
  have letters := (EachReaches.one (@alpha_reaches σ ε A calls)).plus
  exact EachReaches.seq (.cons sign (.two digits (EachReaches.one letters).opt))

private theorem identifier_reaches : Reaches
    (identifier.bounded (act A) calls) Rules.identifier := by
  have first := (EachReaches.two (@alpha_reaches σ ε A calls) (one_reaches ['_'])).sor
  have further := (EachReaches.two (@alnum_reaches σ ε A calls) (one_reaches ['_'])).sor
  exact EachReaches.seq (.two (EachReaches.one first).plus (EachReaches.one further).star)

private theorem pushInteger_reaches :
    Reaches (pushInteger.bounded (act A) calls) (Rules.pushInteger A) :=
  pad_reaches (bounded_ifapply (.pushNode .literalInt) literalInteger_reaches) space_reaches

private theorem pushIdentifier_reaches :
    Reaches (pushIdentifier.bounded (act A) calls) (Rules.pushIdentifier A) :=
  pad_reaches (bounded_ifapply (.pushNode .identifier) identifier_reaches) space_reaches

private theorem pushOp_reaches : Reaches (pushOp.bounded (act A) calls) (Rules.pushOp A) := by
  have text : Reaches (literalOp.bounded (act A) calls) Rules.literalOp :=
    (EachReaches.one (one_reaches Rules.operatorChars)).plus
  exact pad_reaches (bounded_ifapply (.pushNode .op) text) space_reaches

private theorem pushGroup_reaches (h : Reaches ((Rule.call .expr).bounded (act A) calls) e) :
    Reaches (pushGroup.bounded (act A) calls) (Rules.pushGroup e) := by
  have group := EachReaches.seq (.cons (one_reaches ['(']) (.two h (one_reaches [')'])))
  exact pad_reaches group space_reaches

private theorem exprAtom_reaches (h : Reaches ((Rule.call .expr).bounded (act A) calls) e) :
    Reaches (exprAtom.bounded (act A) calls) (Rules.exprAtom A e) :=
  EachReaches.sor (.cons pushInteger_reaches (.two pushIdentifier_reaches (pushGroup_reaches h)))

private theorem eol_reaches : Reaches (eol.bounded (act A) calls) Pegtl.eol := by
  have both := (EachReaches.two (@one_reaches σ ε A calls ['\r']) (one_reaches ['\n'])).seq
  exact EachReaches.sor (.cons bounded_eof (.cons both (.two (one_reaches _) (one_reaches _))))

private theorem expr_reaches (k : Nat) :
    Reaches ((Rule.call .expr).bounded (act A) (Rule.calls (act A) rules)) (Rules.expr A k) := by
  induction k with
  | zero => exact fun _ _ _ => .inl rfl
  | succ k ih =>
      have body := list_reaches (exprAtom_reaches ih) pushOp_reaches
      intro must inp st
      rcases body must inp st with none | ⟨N, body⟩
      · exact .inl none
      · refine .inr ⟨N + 1, ?_⟩
        intro n hn
        obtain ⟨n, rfl⟩ : ∃ m, n = m + 1 := ⟨n - 1, by omega⟩
        exact body n (by omega)

private theorem grammar_reaches (A : Actions σ ε) (k : Nat) :
    Reaches (fun n => Rule.run (act A) rules n grammar)
      (Pegtl.ifapply (Pegtl.untilRule Pegtl.eol [Rules.expr A k]) A.sweep) := by
  have lines := bounded_untilRule eol_reaches (.one (@expr_reaches σ ε A k))
  exact @bounded_ifapply RuleName Action σ ε (act A) _ _ _ .sweepExpressionTree lines

end Meaning

section Refinement

variable {σ ε : Type} (A : Actions σ ε)

private theorem grammar_ne_diverged (s : Str) (st : σ) :
    Pegtl.parse (Rules.grammar A) s st ≠ .diverged := by
  rw [grammar_eq]
  rcases listLoop_total A (Nat.lt_succ_self s.length) (Nat.lt_succ_self s.length) st with
    ⟨rest, st', run⟩ | ⟨l, run⟩
  · rw [run]
    cases swept : A.sweep (consumed s rest) st' with
    | ok st'' => simp [swept]
    | error x => simp [swept]
  · rw [run]
    exact nofun

private theorem parse_grammar_tends (s : Str) (st : σ) :
    Tends (fun n => Pegtl.parse (Rule.run (act A) rules n grammar) s st)
      (Pegtl.parse (Rules.grammar A) s st) := by
  have model : Pegtl.parse (Rules.grammar A) s st =
      guarded (Pegtl.ifapply (Pegtl.untilRule Pegtl.eol [Rules.expr A (s.length + 1)]) A.sweep)
        true s st := by
    simp only [Pegtl.parse, guarded_resume, Rules.grammar, Rules.exprList]
  rw [model]
  exact (grammar_reaches A (s.length + 1)).guarded true s st

/-- The rules as they are written do, with every bound from some one on, what the model's
parser does, on any text and with any actions and states. -/
theorem grammar_parses (s : Str) (st : σ) :
    ∃ N, ∀ n, N ≤ n →
      Pegtl.parse (Rule.run (act A) rules n grammar) s st = Pegtl.parse (Rules.grammar A) s st :=
  (parse_grammar_tends A s st).resolve_left (grammar_ne_diverged A s st)

end Refinement

section Language

open Amalgam.Peg (Expression Parses)

/-- The rules as parsing expressions. -/
def expressions (i : RuleName) : Expression RuleName Char := (rules i).expression

private theorem rules_upright (i : RuleName) : (rules i).upright = true := by
  cases i with
  | expr => rfl

private theorem matchGrammar_reads (s : Str) :
    Reads expressions (.commit grammar.expression) s (matchGrammar s) := by
  obtain ⟨N, parses⟩ := (parse_grammar_tends actions s ParseState.initial).resolve_left
    (grammar_ne_diverged actions s ParseState.initial)
  have meets : Meets expressions (Rule.run (act actions) rules N grammar) grammar.expression :=
    run_meets (act actions) rules_upright (show grammar.upright = true from rfl) N
  have same : matchGrammar s = guarded (Rule.run (act actions) rules N grammar) true s
      ParseState.initial := (parses N (Nat.le_refl N)).symm
  rw [same]
  exact meets.guarded_true s ParseState.initial

/-- Ordered choice, repetition that takes all it can and commitment lose nothing: read as a
parsing expression the grammar succeeds on the texts of its context-free reading, and on no
others; on these it ends everything. -/
theorem grammar_language (s : Str) :
    ((∃ rest, Parses expressions (.commit grammar.expression) s (.ok rest)) ↔
      s = [] ∨ (∃ t, s = '\r' :: t ∨ s = '\n' :: t) ∨ Expressions s) ∧
    (Parses expressions (.commit grammar.expression) s .abort ↔
      ¬ (s = [] ∨ (∃ t, s = '\r' :: t ∨ s = '\n' :: t) ∨ Expressions s)) := by
  obtain ⟨accepts, rejects⟩ := matchGrammar_accepts s
  have reads := matchGrammar_reads s
  by_cases accepted : s = [] ∨ (∃ t, s = '\r' :: t ∨ s = '\n' :: t) ∨ Expressions s
  · obtain ⟨rest, st, run⟩ := accepts.mpr accepted
    rw [run] at reads
    refine ⟨⟨fun _ => accepted, fun _ => ⟨rest, reads⟩⟩, ?_⟩
    refine ⟨fun aborted => ?_, fun other => absurd accepted other⟩
    cases Parses.unique reads aborted
  · obtain ⟨l, run⟩ := rejects.mpr accepted
    rw [run] at reads
    refine ⟨⟨?_, fun other => absurd other accepted⟩, ⟨fun _ => accepted, fun _ => reads⟩⟩
    rintro ⟨rest, parsed⟩
    cases Parses.unique reads parsed

end Language

end Grammar

end Amalgam.Parser
