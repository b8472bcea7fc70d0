/- Module: Amalgam/Parser/Parsed
   digest: The states after a match, and the module after a parse, from a derivation. -/

import Amalgam.Parser.Parse
import Amalgam.Parser.Stack
import Amalgam.Parser.Trees

set_option autoImplicit false
set_option relaxedAutoImplicit false

namespace Amalgam.Parser

open Amalgam.Cxx (Fault)
open Amalgam.Pegtl (Str Outcome)
open ParseState (toTree)

def mainModule (x : Method) : Module := { Module.new "__main__".toList with objects := [x] }

def defaultMethod (trees : List Ast) : Method :=
  { name := "__default__".toList, expressionList := trees }

def flats (es : List Expr) : List Flat := es.map Expr.flat

/-- Only the first expression of a text is swept into a tree. -/
def treesOf : List Flat → List Ast
  | [] => []
  | c :: _ => [chainTree 0 c]

def totalSize : List Flat → Nat
  | [] => 0
  | c :: cs => c.size + totalSize cs

def pushedState (cs : List Flat) : ParseState :=
  { stack := layouts 0 cs, allocated := totalSize cs, module := mainModule (defaultMethod []) }

def finalState (cs : List Flat) : ParseState :=
  { pushedState cs with module := mainModule (defaultMethod (treesOf cs)) }

def Module.expressionTrees (m : Module) : List Ast :=
  m.methods.toList.flatMap fun me =>
    match m.deref me.2 with
    | .ok x => x.expressionList
    | .error _ => []

section Match

theorem mainModule_methods (x : Method) :
    (mainModule x).methods.toList = [("__default__".toList, some 0)] := rfl

theorem mainModule_expressionTrees (x : Method) :
    (mainModule x).expressionTrees = x.expressionList := by
  have entry : (mainModule x).deref (some 0) = .ok x := rfl
  rw [Module.expressionTrees, mainModule_methods]
  simp only [List.flatMap_cons, List.flatMap_nil, entry, List.append_nil]

theorem mainModule_default (x : Method) :
    (mainModule x).deref ((mainModule x).getMethod "__default__".toList).2 = .ok x := rfl

theorem allTokens_cons (e : Expr) (es : List Expr) :
    allTokens (e :: es) = Flat.tokens e.flat ++ allTokens es := by
  simp [allTokens, Expr.tokens_eq]

private theorem push_flats (st : ParseState) (es : List Expr) :
    pushAll actions st (allTokens es) =
      { st with
        stack := st.stack ++ layouts st.allocated (flats es)
        allocated := st.allocated + totalSize (flats es) } := by
  induction es generalizing st with
  | nil => simp [allTokens, flats, layouts, totalSize]
  | cons e es ih =>
      rw [allTokens_cons, pushAll_append, push_flat, ih]
      simp [flats, layouts, totalSize, Nat.add_assoc]

theorem length_layout (k : Nat) (c : Flat) : (layout k c).length = c.size := by
  induction c generalizing k with
  | last a => rfl
  | link a o c ih =>
      simp only [layout]
      split <;> simp [ih, Chain.size]

theorem sweep_pushed (text : Str) (cs : List Flat) :
    ParseState.sweepExpressionTree text (pushedState cs) = .ok (finalState cs) := by
  cases cs with
  | nil => rfl
  | cons c cs =>
      have nonempty : 0 < (pushedState (c :: cs)).stack.length := by
        have := c.size_pos
        simp only [pushedState, layouts, List.length_append, length_layout]
        omega
      have bound : c.size ≤ (pushedState (c :: cs)).stack.length + 1 := by
        simp only [pushedState, layouts, List.length_append, length_layout]
        omega
      have tree := toTree_layout 0 c (layouts (0 + c.size) cs) _ bound
      simp only [ParseState.sweepExpressionTree, if_pos nonempty]
      show (toTree _ (layout 0 c ++ layouts (0 + c.size) cs) >>= _) = _
      rw [tree]
      rfl

theorem push_initial (es : List Expr) :
    pushAll actions ParseState.initial (allTokens es) = pushedState (flats es) := by
  rw [push_flats]
  simp only [pushedState, ParseState.initial, List.nil_append, Nat.zero_add]
  rfl

/-- A derivable text is matched, and this is what the match leaves. -/
theorem DerivesAll.matchGrammar {s : Str} {es : List Expr} (h : DerivesAll s es) :
    ∃ rest, Parser.matchGrammar s = .ok rest (finalState (flats es)) := by
  obtain ⟨rest, run⟩ := h.grammar
  have run := run actions ParseState.initial
  have swept : actions.sweep (Pegtl.consumed s rest) (pushedState (flats es)) =
      .ok (finalState (flats es)) := sweep_pushed (Pegtl.consumed s rest) _
  rw [push_initial, swept] at run
  exact ⟨rest, run⟩

theorem matchGrammar_derives {s : Str} {rest : Pegtl.Input} {st : ParseState}
    (run : matchGrammar s = .ok rest st) :
    ∃ es, DerivesAll s es ∧ st = finalState (flats es) := by
  by_cases derived : ∃ es, DerivesAll s es
  · obtain ⟨es, derived⟩ := derived
    obtain ⟨rest', run'⟩ := derived.matchGrammar
    rw [run] at run'
    exact ⟨es, derived, (Outcome.ok.inj run').2⟩
  · obtain ⟨l, failed⟩ := grammar_parseError actions (fun es h => derived ⟨es, h⟩)
      ParseState.initial
    exact absurd (run.symm.trans failed) (by simp)

end Match

section Verify

private theorem verify_mainModule (x : Method) :
    Verifier.verify (mainModule x) = (do
      let r ← Verifier.method x
      .ok (r.passed, mainModule r.method, r.printed)) := by
  have entry : (mainModule x).deref (some 0) = .ok x := rfl
  rw [Verifier.verify, mainModule_methods]
  simp only [Verifier.methods, entry, bind, Except.bind, Cxx.silently_ok, Cxx.after_ok]
  cases Verifier.method x with
  | error e => rfl
  | ok r =>
      simp only [Bool.and_true, List.append_nil]
      rfl

private theorem method_singleton (m : Method) (t : Ast) (h : m.expressionList = [t]) :
    Verifier.method m = (do
      let r ← Cxx.silently (Verifier.expressionTree m t)
      .ok ⟨r.passed, { r.method with expressionList := [r.checked] }, (), r.printed⟩) := by
  simp only [Verifier.method, h, Verifier.expressionTrees, bind, Except.bind]
  cases Verifier.expressionTree m t with
  | error e => rfl
  | ok r => simp only [Bool.and_true, List.append_nil, Cxx.silently_ok, Cxx.after_ok]

theorem DerivesAll.matched {s : Str} {es : List Expr} (h : DerivesAll s es) :
    Parser.matched s = .ok (finalState (flats es)) := by
  obtain ⟨rest, run⟩ := h.matchGrammar
  rw [Parser.matched, run]

/-- The result of a parse in terms of the check of the one tree. -/
theorem DerivesAll.parse_cons {s : Str} {e : Expr} {es : List Expr} (h : DerivesAll s (e :: es)) :
    parse s = (do
      let r ← Verifier.expressionTree (defaultMethod [chainTree 0 e.flat]) (chainTree 0 e.flat)
      if r.passed then
        .ok (some (mainModule { r.method with expressionList := [r.checked] }))
      else .ok none) := by
  have trees : (finalState (flats (e :: es))).module =
      mainModule (defaultMethod [chainTree 0 e.flat]) := rfl
  rw [parse, h.matched]
  simp only [bind, Except.bind, trees, verify_mainModule]
  rw [method_singleton _ _ rfl]
  simp only [bind, Except.bind]
  cases Verifier.expressionTree (defaultMethod [chainTree 0 e.flat]) (chainTree 0 e.flat) with
  | error e => rfl
  | ok r => rfl

theorem DerivesAll.parse_nil {s : Str} (h : DerivesAll s []) :
    parse s = .ok (some (mainModule (defaultMethod []))) := by
  rw [parse, h.matched]
  rfl

theorem parse_derives {s : Str} {m : Option Module} (h : parse s = .ok m) :
    ∃ es, DerivesAll s es := by
  have run : ∃ st, matched s = .ok st := by
    cases hm : matched s with
    | error e => simp [parse, hm, bind, Except.bind] at h
    | ok st => exact ⟨st, rfl⟩
  obtain ⟨st, run⟩ := run
  cases hg : matchGrammar s with
  | ok rest st' =>
      obtain ⟨es, derived, -⟩ := matchGrammar_derives hg
      exact ⟨es, derived⟩
  | _ => simp [matched, hg] at run

end Verify

end Amalgam.Parser
