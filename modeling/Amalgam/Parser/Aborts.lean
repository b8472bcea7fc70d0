/- Module: Amalgam/Parser/Aborts
   digest: What is known of the place where a text that is not accepted is said to be wrong. -/

import Amalgam.Parser.Language
import Amalgam.Parser.Parsed
import Amalgam.Pegtl.Location

set_option autoImplicit false
set_option relaxedAutoImplicit false

namespace Amalgam.Parser

open Amalgam.Cxx (Fault)
open Amalgam.Pegtl

/-- The text up to a place can be completed to one of the language. -/
def Viable (nt : Nonterminal) (s l : Input) : Prop :=
  ∃ w u, s = w ++ l ∧ Language nt (w ++ u)

def NoOperand (l : Input) : Prop := ∀ e rest, ¬ Derives .atom l e rest

/-- A place with a parse error: the text in front is all right, and no operand follows. -/
def Wrong (nt : Nonterminal) (s l : Input) : Prop := Viable nt s l ∧ NoOperand l

section Places

private theorem language_one : Language .atom ['1'] := by
  have digit : IntegerText ['1'] :=
    ⟨[], ['1'], [], rfl, .inl rfl, by simp, by decide, by simp⟩
  exact @Language.integer [] [] ['1'] (by simp [Spaces]) digit (by simp [Spaces])

private theorem viable_here (s : Input) : Viable .atom s s :=
  ⟨[], ['1'], rfl, language_one⟩

theorem Viable.single {s l : Input} (viable : Viable .atom s l) : Viable .expr s l := by
  obtain ⟨w, u, split, text⟩ := viable
  exact ⟨w, u, split, .single text⟩

theorem Viable.group {s inner l : Input} (opened : skip s = '(' :: inner)
    (viable : Viable .expr inner l) : Viable .atom s l := by
  obtain ⟨w, u, rfl, text⟩ := viable
  obtain ⟨w₁, before, split⟩ := skip_prefix s
  refine ⟨w₁ ++ '(' :: w, u ++ [')'], ?_, ?_⟩
  · rw [split, opened]
    simp
  · have closed : Language .atom (w₁ ++ ('(' :: (w ++ u) ++ [')']) ++ []) :=
      .group before text (by simp [Spaces])
    simpa using closed

theorem Viable.binary {a : Str} {s tail l : Input} {op : Str} (atom : Language .atom a)
    (lexed : lexOp (skip s) = some (op, tail)) (viable : Viable .expr (skip tail) l) :
    ∃ w u, s = w ++ l ∧ Language .expr (a ++ w ++ u) := by
  obtain ⟨w, u, rest, text⟩ := viable
  obtain ⟨w₁, w₂, before, after, split⟩ := lexeme_between (lexOp_split _ _ _ lexed)
  refine ⟨w₁ ++ op ++ w₂ ++ w, u, ?_, ?_⟩
  · rw [split, rest]
    simp only [List.append_assoc]
  · have whole := Language.binary atom before (.of_lex lexed) after text
    simpa only [List.append_assoc] using whole

end Places

section Runs

variable {σ ε : Type} (A : Actions σ ε)

private theorem noOperand_of_fail {n : Nat} {must : Bool} {s rest : Input} {st st' : σ}
    (hn : s.length ≤ n) (failed : Rules.exprAtom A (Rules.expr A n) must s st = .fail rest st') :
    NoOperand s := by
  intro e rest' derived
  have run : Rules.exprAtom A (Rules.expr A n) must s st = .ok rest' (pushAll A st e.tokens) :=
    derived.runs A n hn must st
  rw [failed] at run
  simp at run

private theorem exprAtom_aborts {e : Matcher σ ε} {must : Bool} {inp l : Input} {st : σ}
    (he : ∀ inner st, inner.length < inp.length → e false inner st = .parseError l →
      Wrong .expr inner l)
    (run : Rules.exprAtom A e must inp st = .parseError l) : Wrong .atom inp l := by
  rw [exprAtom_eq] at run
  cases hi : lexInteger (skip inp) with
  | some found => simp [hi] at run
  | none =>
      cases hd : lexIdentifier (skip inp) with
      | some found => simp [hi, hd] at run
      | none =>
          simp only [hi, hd] at run
          by_cases opened : ∃ inner, skip inp = '(' :: inner
          · obtain ⟨inner, opened⟩ := opened
            have shorter : inner.length < inp.length := by
              have := length_skip_le inp
              simp only [opened, List.length_cons] at this
              omega
            rw [pushGroup_open e opened] at run
            cases inside : e false inner st with
            | parseError l' =>
                rw [inside] at run
                obtain rfl := Outcome.parseError.inj run
                obtain ⟨viable, missing⟩ := he inner st shorter inside
                exact ⟨viable.group opened, missing⟩
            | ok rest st' =>
                rw [inside] at run
                unfold closeGroup at run
                split at run <;> simp_all
            | fail rest st' =>
                rw [inside] at run
                exact absurd run (by simp [closeGroup])
            | raised x =>
                rw [inside] at run
                exact absurd run (by simp [closeGroup])
            | diverged =>
                rw [inside] at run
                exact absurd run (by simp [closeGroup])
          · rw [pushGroup_closed e (fun inner h => opened ⟨inner, h⟩)] at run
            simp at run

private theorem tailLoop_aborts {n : Nat} {l : Input}
    (hatom : ∀ s must st, s.length ≤ n →
      Rules.exprAtom A (Rules.expr A n) must s st = .parseError l → Wrong .atom s l)
    {k : Nat} {inp : Input} {st : σ} (hn : inp.length ≤ n) {a : Str} (atom : Language .atom a)
    (run : starLoop (tailBody A n) k inp st = .parseError l) :
    (∃ w u, inp = w ++ l ∧ Language .expr (a ++ w ++ u)) ∧ NoOperand l := by
  induction k generalizing inp st a with
  | zero => simp [starLoop] at run
  | succ k ih =>
      rw [tailLoop_succ] at run
      cases ho : lexOp (skip inp) with
      | none => simp [ho] at run
      | some found =>
          obtain ⟨op, tail⟩ := found
          have shorter : (skip tail).length < inp.length := by
            have := lexOp_length ho
            have := length_skip_le inp
            have := length_skip_le tail
            omega
          simp only [ho, guarded] at run
          cases ha : Rules.exprAtom A (Rules.expr A n) true (skip tail) (A.push .op op st) with
          | ok r s =>
              rw [ha] at run
              obtain ⟨x, derived, -⟩ := exprAtom_sound A (fun _ _ _ _ h => expr_sound A n h) ha
              have := derived.length_lt
              obtain ⟨b, split, next⟩ := derived.language
              obtain ⟨⟨w, u, rest, text⟩, missing⟩ := ih (by omega) next run
              have viable : Viable .expr (skip tail) l := by
                refine ⟨b ++ w, u, ?_, text⟩
                rw [split, rest, List.append_assoc]
              exact ⟨viable.binary atom ho, missing⟩
          | fail r s =>
              rw [ha] at run
              obtain rfl := Outcome.parseError.inj run
              exact ⟨(viable_here _).single.binary atom ho,
                noOperand_of_fail A (by omega) ha⟩
          | parseError l' =>
              rw [ha] at run
              obtain rfl := Outcome.parseError.inj run
              obtain ⟨viable, missing⟩ := hatom (skip tail) true _ (by omega) ha
              exact ⟨viable.single.binary atom ho, missing⟩
          | raised x => simp [ha] at run
          | diverged => simp [ha] at run

private theorem expr_aborts {n : Nat} {must : Bool} {inp l : Input} {st : σ} (hn : inp.length < n)
    (run : Rules.expr A n must inp st = .parseError l) : Wrong .expr inp l := by
  induction n generalizing must inp l st with
  | zero => omega
  | succ n ih =>
      have hatom : ∀ s must st, s.length ≤ n →
          Rules.exprAtom A (Rules.expr A n) must s st = .parseError l → Wrong .atom s l :=
        fun s must st hs => exprAtom_aborts A fun inner st shorter => ih (by omega)
      rw [expr_succ] at run
      cases ha : Rules.exprAtom A (Rules.expr A n) must inp st with
      | ok r s =>
          rw [ha] at run
          obtain ⟨x, derived, -⟩ := exprAtom_sound A (fun _ _ _ _ h => expr_sound A n h) ha
          have := derived.length_lt
          obtain ⟨a, split, atom⟩ := derived.language
          obtain ⟨⟨w, u, rest, text⟩, missing⟩ := tailLoop_aborts A hatom (by omega) atom run
          refine ⟨⟨a ++ w, u, ?_, text⟩, missing⟩
          rw [split, rest, List.append_assoc]
      | fail r s =>
          rw [ha] at run
          cases must with
          | false => exact absurd run (by simp)
          | true =>
              obtain rfl := Outcome.parseError.inj run
              exact ⟨(viable_here inp).single, noOperand_of_fail A (by omega) ha⟩
      | parseError l' =>
          rw [ha] at run
          obtain rfl := Outcome.parseError.inj run
          obtain ⟨viable, missing⟩ := hatom inp must st (by omega) ha
          exact ⟨viable.single, missing⟩
      | raised x => simp [ha] at run
      | diverged => simp [ha] at run

private theorem listLoop_aborts {n m : Nat} {inp l : Input} {st : σ} (hm : inp.length < m)
    (run : listLoop A n m inp st = .parseError l) :
    (∃ w u, inp = w ++ l ∧ Expressions (w ++ u)) ∧ NoOperand l := by
  induction n generalizing inp st with
  | zero => simp [listLoop, untilLoop] at run
  | succ n ih =>
      rw [listLoop_succ] at run
      cases stop : atEol inp with
      | true => simp [stop] at run
      | false =>
          simp only [stop, Bool.false_eq_true, if_false, guarded] at run
          cases he : Rules.expr A m true inp st with
          | ok r s =>
              rw [he] at run
              obtain ⟨x, derived, -⟩ := expr_sound A m he
              have := derived.length_lt
              obtain ⟨e, split, text⟩ := derived.language
              obtain ⟨⟨w, u, rest, texts⟩, missing⟩ := ih (by omega) run
              refine ⟨⟨e ++ w, u, ?_, ?_⟩, missing⟩
              · rw [split, rest, List.append_assoc]
              · rw [List.append_assoc]
                exact Expressions.cons text (.inr texts)
          | fail r s =>
              obtain ⟨n', rfl⟩ : ∃ k, m = k + 1 := ⟨m - 1, by omega⟩
              rw [expr_succ] at he
              cases ha : Rules.exprAtom A (Rules.expr A n') true inp st with
              | ok r s =>
                  rw [ha] at he
                  exact absurd he (starLoop_ne_fail _ _ _ _ _ _)
              | _ => simp [ha] at he
          | parseError l' =>
              rw [he] at run
              obtain rfl := Outcome.parseError.inj run
              obtain ⟨⟨w, u, split, text⟩, missing⟩ := expr_aborts A hm he
              refine ⟨⟨w, u, split, ?_⟩, missing⟩
              have single := Expressions.cons text (.inl rfl)
              rwa [List.append_nil] at single
          | raised x => simp [he] at run
          | diverged => simp [he] at run

end Runs

section Texts

private theorem split_unique {w l w' l' : Str} (same : w ++ l = w' ++ l')
    (line : w.count '\n' = w'.count '\n') (column : (lastLine w).length = (lastLine w').length) :
    w = w' := by
  have apart : ∀ {w v r : Str}, v ≠ [] → w.count '\n' = (w ++ v).count '\n' →
      (lastLine w).length = (lastLine (w ++ v)).length → False := by
    intro w v r some line column
    have before := @locate_before w v r some
    rw [locate_eq, ← List.append_assoc, locate_eq, ← line, ← column] at before
    simp [Location.Before] at before
  rcases List.append_eq_append_iff.mp same with ⟨v, rfl, -⟩ | ⟨v, rfl, -⟩
  · by_cases none : v = []
    · rw [none, List.append_nil]
    · exact (apart (r := []) none line column).elim
  · by_cases none : v = []
    · rw [none, List.append_nil]
    · exact (apart (r := []) none line.symm column.symm).elim

/-- A text that is not accepted is split where the exception says: the text in front of the
line and column given can be completed to an accepted one, and no operand can be read
behind it. Line and column determine the place. -/
theorem parse_aborts {s : Str} (rejected : ¬ (atEol s = true ∨ Expressions s)) :
    ∃ w l, s = w ++ l ∧ parse s = .error (.runtimeError
        ("parsing aborted at ".toList ++ (toString (1 + w.count '\n')).toList ++ ",".toList ++
          (toString (1 + (lastLine w).length)).toList)) ∧
      (∃ u, Expressions (w ++ u)) ∧ NoOperand l ∧
      ∀ w' l', s = w' ++ l' → w'.count '\n' = w.count '\n' →
        (lastLine w').length = (lastLine w).length → w' = w := by
  have underivable : ∀ es, ¬ DerivesAll s es := fun es derived =>
    rejected ((derivesAll_iff s).mp ⟨es, derived⟩)
  have aborted : ∃ l, listLoop actions (s.length + 1) (s.length + 1) s ParseState.initial =
      .parseError l := by
    rcases listLoop_total actions (Nat.lt_succ_self s.length) (Nat.lt_succ_self s.length)
      ParseState.initial with ⟨rest, st, run⟩ | aborted
    · obtain ⟨es, derived, -⟩ := listLoop_sound actions run
      exact absurd derived (underivable es)
    · exact aborted
  obtain ⟨l, run⟩ := aborted
  obtain ⟨⟨w, u, split, text⟩, missing⟩ := listLoop_aborts actions (Nat.lt_succ_self s.length) run
  have failed : matchGrammar s = .parseError l := by
    rw [matchGrammar, grammar_eq, run]
  refine ⟨w, l, split, ?_, ⟨u, text⟩, missing, fun w' l' other => split_unique (other ▸ split)⟩
  have thrown : matched s = .error (.runtimeError (parseErrorMessage (locate s l))) := by
    rw [matched, failed]
  rw [parse, thrown, split, locate_eq]
  rfl

theorem parse_aborts_opened :
    ∃ w l, "(1".toList = w ++ l ∧ (∃ u, Expressions (w ++ u)) ∧ NoOperand l := by
  have failed : matchGrammar "(1".toList = .parseError "(1".toList := rfl
  have rejected : ¬ (atEol "(1".toList = true ∨ Expressions "(1".toList) := by
    intro accepted
    obtain ⟨es, derived⟩ := (derivesAll_iff _).mpr accepted
    obtain ⟨rest, run⟩ := derived.matchGrammar
    rw [failed] at run
    simp at run
  obtain ⟨w, l, split, -, viable, missing, -⟩ := parse_aborts rejected
  exact ⟨w, l, split, viable, missing⟩

end Texts

end Amalgam.Parser
