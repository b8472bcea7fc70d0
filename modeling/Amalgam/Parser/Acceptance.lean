/- Module: Amalgam/Parser/Acceptance
   digest: Which texts are matched, and which pushes their runs execute. -/

import Amalgam.Parser.Language
import Amalgam.Parser.Parsed
import Mathlib.Logic.Relation

set_option autoImplicit false
set_option relaxedAutoImplicit false

namespace Amalgam.Parser

open Amalgam.Pegtl
open Relation (ReflTransGen)

section Language

private theorem atEol_iff (s : Input) :
    atEol s = true ↔ s = [] ∨ ∃ t, s = '\r' :: t ∨ s = '\n' :: t := by
  cases s with
  | nil => simp [atEol]
  | cons c t =>
      have head : atEol (c :: t) = true ↔ c = '\r' ∨ c = '\n' := by simp [atEol]
      rw [head]
      constructor
      · rintro (rfl | rfl)
        · exact .inr ⟨t, .inl rfl⟩
        · exact .inr ⟨t, .inr rfl⟩
      · rintro (nil | ⟨u, same | same⟩)
        · simp at nil
        · exact .inl (List.cons.inj same).1
        · exact .inr (List.cons.inj same).1

theorem atEol_of_head {s : Input} (some : s ≠ []) (start : ∀ c ∈ s.head?, c ≠ '\r' ∧ c ≠ '\n') :
    atEol s = false := by
  obtain ⟨c, s, rfl⟩ := List.exists_cons_of_ne_nil some
  obtain ⟨notCr, notLf⟩ := start c rfl
  simp [atEol, notCr, notLf]

/-- A match either completes or ends in a parse error, by whether a derivation exists. -/
theorem matchGrammar_total (s : Str) :
    (∃ es rest st, DerivesAll s es ∧ matchGrammar s = .ok rest st) ∨
      (¬ ∃ es, DerivesAll s es) ∧ ∃ l, matchGrammar s = .parseError l := by
  by_cases derived : ∃ es, DerivesAll s es
  · obtain ⟨es, derived⟩ := derived
    obtain ⟨rest, run⟩ := derived.matchGrammar
    exact .inl ⟨es, rest, _, derived, run⟩
  · have failed := grammar_parseError actions (fun es h => derived ⟨es, h⟩) ParseState.initial
    exact .inr ⟨derived, failed⟩

/-- The match completes on the empty text, on texts that begin with an end of line, and
on the concatenations of expressions of the context-free grammar; on every other text
it ends in a parse error. -/
theorem matchGrammar_accepts (s : Str) :
    ((∃ rest st, matchGrammar s = .ok rest st) ↔
      s = [] ∨ (∃ t, s = '\r' :: t ∨ s = '\n' :: t) ∨ Expressions s) ∧
    ((∃ l, matchGrammar s = .parseError l) ↔
      ¬ (s = [] ∨ (∃ t, s = '\r' :: t ∨ s = '\n' :: t) ∨ Expressions s)) := by
  have language : (∃ es, DerivesAll s es) ↔
      s = [] ∨ (∃ t, s = '\r' :: t ∨ s = '\n' :: t) ∨ Expressions s := by
    rw [derivesAll_iff, atEol_iff, or_assoc]
  rw [← language]
  rcases matchGrammar_total s with ⟨es, rest, st, derived, run⟩ | ⟨none, l, run⟩
  · constructor
    · exact ⟨fun _ => ⟨es, derived⟩, fun _ => ⟨rest, st, run⟩⟩
    · constructor
      · rintro ⟨l, failed⟩
        rw [run] at failed
        simp at failed
      · intro none
        exact absurd ⟨es, derived⟩ none
  · constructor
    · constructor
      · rintro ⟨rest, st, completed⟩
        rw [run] at completed
        simp at completed
      · intro derived
        exact absurd derived none
    · exact ⟨fun _ => none, fun _ => ⟨l, run⟩⟩

end Language

section Pushes

variable {σ ε : Type}

/-- The actions with a record of the pushes executed. Like the rest of the states it is
never rolled back. -/
def Actions.traced (A : Actions σ ε) : Actions (List Token × σ) ε where
  push nt s st := (st.1 ++ [⟨nt, s⟩], A.push nt s st.2)
  sweep s st := do
    let st' ← A.sweep s st.2
    .ok (st.1, st')

private theorem pushAll_traced (A : Actions σ ε) (log : List Token) (st : σ) (ts : List Token) :
    pushAll A.traced (log, st) ts = (log ++ ts, pushAll A st ts) := by
  induction ts generalizing log st with
  | nil => simp
  | cons t ts ih =>
      have step : A.traced.push t.type t.text (log, st) =
          (log ++ [t], A.push t.type t.text st) := rfl
      rw [pushAll_cons, step, ih, List.append_assoc, pushAll_cons]
      rfl

/-- A derivable text is matched with the pushes of its tokens, in source order. -/
theorem DerivesAll.traced {s : Str} {es : List Expr} (h : DerivesAll s es) :
    ∃ rest, Parser.matchGrammar s = .ok rest (finalState (flats es)) ∧
      Pegtl.parse (Rules.grammar actions.traced) s ([], ParseState.initial) =
        .ok rest (allTokens es, finalState (flats es)) := by
  obtain ⟨rest, reads⟩ := h.grammar
  have plain := reads actions ParseState.initial
  have recorded := reads actions.traced ([], ParseState.initial)
  have swept : actions.sweep (consumed s rest) (pushedState (flats es)) =
      .ok (finalState (flats es)) := sweep_pushed (consumed s rest) (flats es)
  have sweptToo : actions.traced.sweep (consumed s rest) (allTokens es, pushedState (flats es)) =
      .ok (allTokens es, finalState (flats es)) := by
    simp only [Actions.traced, swept, bind, Except.bind]
  rw [push_initial, swept] at plain
  rw [pushAll_traced, push_initial, List.nil_append, sweptToo] at recorded
  exact ⟨rest, plain, recorded⟩

/-- The calls of a run that can execute pushes: the repetition of `expr_list`, `expr`,
its repetition, and `expr_atom`. -/
inductive Call (σ : Type) where
  | list (n m : Nat) (inp : Input) (st : σ)
  | expr (n : Nat) (must : Bool) (inp : Input) (st : σ)
  | tail (n k : Nat) (inp : Input) (st : σ)
  | atom (n : Nat) (must : Bool) (inp : Input) (st : σ)

namespace Call

def entry : Call σ → σ
  | list _ _ _ st => st
  | expr _ _ _ st => st
  | tail _ _ _ st => st
  | atom _ _ _ st => st

def outcome (A : Actions σ ε) : Call σ → Outcome σ ε
  | list n m inp st => listLoop A n m inp st
  | expr n must inp st => Rules.expr A n must inp st
  | tail n k inp st => starLoop (tailBody A n) k inp st
  | atom n must inp st => Rules.exprAtom A (Rules.expr A n) must inp st

/-- What a call tries and may abandon: the alternatives of `expr_atom`, and one more
iteration of a repetition. -/
def attempts (A : Actions σ ε) : Call σ → List (Outcome σ ε)
  | list _ m inp st => [Rules.expr A m true inp st]
  | expr _ _ _ _ => []
  | tail n _ inp st => [tailBody A n false inp st]
  | atom n _ inp st =>
      [Rules.pushInteger A false inp st, Rules.pushIdentifier A false inp st,
        Rules.pushGroup (Rules.expr A n) false inp st]

/-- Something the call tried has failed after a push. -/
def FailsAfterPush (A : Actions σ ε) (c : Call (List Token × σ)) : Prop :=
  ∃ rest log st, .fail rest (log, st) ∈ c.attempts A.traced ∧ log ≠ c.entry.1

end Call

inductive Calls (A : Actions σ ε) : Call σ → Call σ → Prop
  | expression {n m : Nat} {inp : Input} {st : σ} : atEol inp = false →
      Calls A (.list (n + 1) m inp st) (.expr m true inp st)
  | more {n m : Nat} {inp rest : Input} {st st' : σ} : atEol inp = false →
      Rules.expr A m true inp st = .ok rest st' →
      Calls A (.list (n + 1) m inp st) (.list n m rest st')
  | first {n : Nat} {must : Bool} {inp : Input} {st : σ} :
      Calls A (.expr (n + 1) must inp st) (.atom n must inp st)
  | repetition {n : Nat} {must : Bool} {inp rest : Input} {st st' : σ} :
      Rules.exprAtom A (Rules.expr A n) must inp st = .ok rest st' →
      Calls A (.expr (n + 1) must inp st) (.tail n (rest.length + 1) rest st')
  | operand {n k : Nat} {inp rest : Input} {st st' : σ} :
      Rules.pushOp A false inp st = .ok rest st' →
      Calls A (.tail n (k + 1) inp st) (.atom n true rest st')
  | again {n k : Nat} {inp mid rest : Input} {st st' st'' : σ} :
      Rules.pushOp A false inp st = .ok mid st' →
      Rules.exprAtom A (Rules.expr A n) true mid st' = .ok rest st'' →
      Calls A (.tail n (k + 1) inp st) (.tail n k rest st'')
  | inner {n : Nat} {must : Bool} {inp inp₁ inp₂ inside : Input} {st st₁ st₂ : σ} :
      Rules.pushInteger A false inp st = .fail inp₁ st₁ →
      Rules.pushIdentifier A false inp₁ st₁ = .fail inp₂ st₂ → skip inp₂ = '(' :: inside →
      Calls A (.atom n must inp st) (.expr n false inside st₂)

def Completes : Outcome σ ε → Prop
  | .ok _ _ => True
  | _ => False

private theorem pushOp_ok {A : Actions σ ε} {inp rest : Input} {st st' : σ}
    (run : Rules.pushOp A false inp st = .ok rest st') :
    ∃ op tail, lexOp (skip inp) = some (op, tail) ∧ rest = skip tail ∧ st' = A.push .op op st := by
  rw [pushOp_eq] at run
  cases lexed : lexOp (skip inp) with
  | none => simp [lexed] at run
  | some found =>
      simp only [lexed, Outcome.ok.injEq] at run
      obtain ⟨rfl, rfl⟩ := run
      exact ⟨found.1, found.2, rfl, rfl, rfl⟩

private theorem lexes_fail {r : Matcher σ ε} {lex : Input → Option (Str × Input)}
    {act : Str → σ → σ}
    (reads : ∀ inp st, r false inp st =
      match lex (skip inp) with
      | some (tok, rest) => .ok (skip rest) (act tok st)
      | none => .fail inp st)
    {inp rest : Input} {st st' : σ} (run : r false inp st = .fail rest st') :
    lex (skip inp) = none ∧ rest = inp ∧ st' = st := by
  rw [reads] at run
  cases lexed : lex (skip inp) with
  | some found => simp [lexed] at run
  | none =>
      simp only [lexed, Outcome.fail.injEq] at run
      obtain ⟨rfl, rfl⟩ := run
      exact ⟨rfl, rfl, rfl⟩

private theorem pushInteger_fail {A : Actions σ ε} {inp rest : Input} {st st' : σ}
    (run : Rules.pushInteger A false inp st = .fail rest st') :
    lexInteger (skip inp) = none ∧ rest = inp ∧ st' = st :=
  lexes_fail (pushInteger_eq A) run

private theorem pushIdentifier_fail {A : Actions σ ε} {inp rest : Input} {st st' : σ}
    (run : Rules.pushIdentifier A false inp st = .fail rest st') :
    lexIdentifier (skip inp) = none ∧ rest = inp ∧ st' = st :=
  lexes_fail (pushIdentifier_eq A) run

private theorem exprAtom_open (A : Actions σ ε) (e : Matcher σ ε) (must : Bool) {inp inside : Input}
    (opened : skip inp = '(' :: inside) (st : σ) :
    Rules.exprAtom A e must inp st = closeGroup inp (e false inside st) := by
  rw [exprAtom_eq, opened, (lexemes_opened inside).1, (lexemes_opened inside).2]
  exact pushGroup_open e opened st

private theorem expr_true_ne_fail (A : Actions σ ε) (n : Nat) (inp rest : Input) (st st' : σ) :
    Rules.expr A n true inp st ≠ .fail rest st' := by
  cases n with
  | zero => simp [Rules.expr]
  | succ n =>
      rw [expr_succ]
      cases Rules.exprAtom A (Rules.expr A n) true inp st with
      | ok mid st'' => exact starLoop_ne_fail _ _ _ _ _ _
      | _ => simp

/-- A call completes only if the calls it makes do: under `must` a failure becomes a
parse error, and the group is the last alternative of `expr_atom`. -/
theorem Calls.completes {A : Actions σ ε} {c d : Call σ} (h : Calls A c d)
    (done : Completes (c.outcome A)) : Completes (d.outcome A) := by
  cases h with
  | @expression n m inp st go =>
      simp only [Call.outcome, listLoop_succ, go, Bool.false_eq_true, if_false, guarded] at done ⊢
      cases run : Rules.expr A m true inp st with
      | ok rest st' => trivial
      | _ => simp [run, Completes] at done
  | @more n m inp rest st st' go run =>
      simpa only [Call.outcome, listLoop_succ, go, Bool.false_eq_true, if_false, guarded, run]
        using done
  | @first n must inp st =>
      simp only [Call.outcome, expr_succ] at done ⊢
      cases run : Rules.exprAtom A (Rules.expr A n) must inp st with
      | ok rest st' => trivial
      | fail rest st' =>
          rw [run] at done
          cases must <;> simp [Completes] at done
      | _ => simp [run, Completes] at done
  | @repetition n must inp rest st st' run =>
      simpa only [Call.outcome, expr_succ, run] using done
  | @operand n k inp rest st st' run =>
      obtain ⟨op, tail, lexed, rfl, rfl⟩ := pushOp_ok run
      simp only [Call.outcome, tailLoop_succ, lexed, guarded] at done ⊢
      cases next : Rules.exprAtom A (Rules.expr A n) true (skip tail) (A.push .op op st) with
      | ok rest' st'' => trivial
      | _ => simp [next, Completes] at done
  | @again n k inp mid rest st st' st'' run next =>
      obtain ⟨op, tail, lexed, rfl, rfl⟩ := pushOp_ok run
      simpa only [Call.outcome, tailLoop_succ, lexed, guarded, next] using done
  | @inner n must inp inp₁ inp₂ inside st st₁ st₂ notInteger notIdentifier opened =>
      obtain ⟨-, rfl, rfl⟩ := pushInteger_fail notInteger
      obtain ⟨-, rfl, rfl⟩ := pushIdentifier_fail notIdentifier
      simp only [Call.outcome, exprAtom_open A _ must opened] at done ⊢
      cases run : Rules.expr A n false inside st₂ with
      | ok rest st' => trivial
      | _ => simp [run, closeGroup, Completes] at done

private theorem Calls.completes_of_run {A : Actions σ ε} {c d : Call σ}
    (h : ReflTransGen (Calls A) c d)
    (done : Completes (c.outcome A)) : Completes (d.outcome A) := by
  induction h with
  | refl => exact done
  | tail _ call ih => exact call.completes ih

theorem Call.FailsAfterPush.stops {A : Actions σ ε} {c : Call (List Token × σ)}
    (h : c.FailsAfterPush A) : ¬ Completes (c.outcome A.traced) := by
  obtain ⟨rest, log, st, tried, pushed⟩ := h
  cases c with
  | list n m inp entry =>
      simp only [Call.attempts, List.mem_singleton] at tried
      exact absurd tried.symm (expr_true_ne_fail _ _ _ _ _ _)
  | expr n must inp entry => simp [Call.attempts] at tried
  | tail n k inp entry =>
      simp only [Call.attempts, List.mem_singleton, tailBody_eq] at tried
      cases lexed : lexOp (skip inp) with
      | none =>
          simp only [lexed, Outcome.fail.injEq] at tried
          exact absurd (congrArg Prod.fst tried.2) pushed
      | some found =>
          simp only [lexed, guarded] at tried
          cases run : Rules.exprAtom A.traced (Rules.expr A.traced n) true (skip found.2)
              (A.traced.push .op found.1 entry) with
          | _ => simp [run] at tried
  | atom n must inp entry =>
      simp only [Call.attempts, List.mem_cons, List.not_mem_nil, or_false] at tried
      rcases tried with failed | failed | failed
      · obtain ⟨-, -, rfl⟩ := pushInteger_fail failed.symm
        exact absurd rfl pushed
      · obtain ⟨-, -, rfl⟩ := pushIdentifier_fail failed.symm
        exact absurd rfl pushed
      · by_cases opened : ∃ inside, skip inp = '(' :: inside
        · obtain ⟨inside, opened⟩ := opened
          rw [pushGroup_open _ opened] at failed
          rw [Call.outcome, exprAtom_open _ _ _ opened, ← failed]
          exact id
        · rw [pushGroup_closed _ fun inside h => opened ⟨inside, h⟩] at failed
          obtain ⟨-, rfl⟩ := Outcome.fail.inj failed
          exact absurd rfl pushed

def topCall (s : Str) : Call (List Token × ParseState) :=
  .list (s.length + 1) (s.length + 1) s ([], ParseState.initial)

/-- A completed run has executed exactly the pushes of its one derivation, in source
order; and as soon as anything it tries fails after a push, it ends in a parse error. -/
theorem matchGrammar_pushes (s : Str) :
    (∀ rest st, matchGrammar s = .ok rest st →
      ∃ es, DerivesAll s es ∧ (∀ es', DerivesAll s es' → es' = es) ∧
        Pegtl.parse (Rules.grammar actions.traced) s ([], ParseState.initial) =
          .ok rest (allTokens es, st)) ∧
    (∀ c, ReflTransGen (Calls actions.traced) (topCall s) c → c.FailsAfterPush actions →
      ∃ l, matchGrammar s = .parseError l) := by
  constructor
  · intro rest st run
    rcases matchGrammar_total s with ⟨es, _, _, derived, -⟩ | ⟨-, l, failed⟩
    · refine ⟨es, derived, fun es' derived' => derived'.unique derived, ?_⟩
      obtain ⟨rest', plain, recorded⟩ := derived.traced
      obtain ⟨rfl, rfl⟩ := Outcome.ok.inj (run.symm.trans plain)
      exact recorded
    · rw [run] at failed
      simp at failed
  · intro c reached failing
    rcases matchGrammar_total s with ⟨es, _, _, derived, -⟩ | ⟨-, failed⟩
    · obtain ⟨rest, run⟩ := derived.run
      have done : Completes ((topCall s).outcome actions.traced) := by
        rw [topCall, Call.outcome, run _ _ _ _ (Nat.lt_succ_self _) (Nat.lt_succ_self _)]
        trivial
      exact absurd (Calls.completes_of_run reached done) failing.stops
    · exact failed

end Pushes

end Amalgam.Parser
