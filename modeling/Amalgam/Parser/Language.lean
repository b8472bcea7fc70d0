/- Module: Amalgam/Parser/Language
   digest: The context-free language of the grammar is what its greedy runs accept. -/

import Amalgam.Parser.Characters
import Amalgam.Parser.Runs

set_option autoImplicit false
set_option relaxedAutoImplicit false

namespace Amalgam.Parser

open Amalgam.Pegtl
open Amalgam.Cxx (isSpace)

/-- The language read as an ordinary context-free grammar: no order between the
alternatives and no greed in the lexemes. -/
inductive Language : Nonterminal → Str → Prop
  | integer {w₁ w₂ t : Str} : Spaces w₁ → IntegerText t → Spaces w₂ →
      Language .atom (w₁ ++ t ++ w₂)
  | identifier {w₁ w₂ t : Str} : Spaces w₁ → IdentifierText t → Spaces w₂ →
      Language .atom (w₁ ++ t ++ w₂)
  | group {w₁ w₂ e : Str} : Spaces w₁ → Language .expr e → Spaces w₂ →
      Language .atom (w₁ ++ ('(' :: e ++ [')']) ++ w₂)
  | single {a : Str} : Language .atom a → Language .expr a
  | binary {a w₁ op w₂ e : Str} : Language .atom a → Spaces w₁ → OperatorText op → Spaces w₂ →
      Language .expr e → Language .expr (a ++ w₁ ++ op ++ w₂ ++ e)

def Expressions (s : Str) : Prop :=
  ∃ es : List Str, es ≠ [] ∧ (∀ e ∈ es, Language .expr e) ∧ s = es.flatten

inductive Place where
  | operand | operator

/-- A left-to-right recogniser that keeps only the place and the number of open groups.
After an operand at depth zero a new expression may begin. -/
inductive Accepts : Place → Nat → Input → Prop
  | integer {k : Nat} {s rest : Input} {tok : Str} : lexInteger (skip s) = some (tok, rest) →
      Accepts .operator k rest → Accepts .operand k s
  | identifier {k : Nat} {s rest : Input} {tok : Str} : lexInteger (skip s) = none →
      lexIdentifier (skip s) = some (tok, rest) →
      Accepts .operator k rest → Accepts .operand k s
  | opened {k : Nat} {s rest : Input} : skip s = '(' :: rest →
      Accepts .operand (k + 1) rest → Accepts .operand k s
  | closed {k : Nat} {s rest : Input} : skip s = ')' :: rest →
      Accepts .operator k rest → Accepts .operator (k + 1) s
  | op {k : Nat} {s rest : Input} {tok : Str} : lexOp (skip s) = some (tok, rest) →
      Accepts .operand k rest → Accepts .operator k s
  | stop {s : Input} : skip s = [] → Accepts .operator 0 s
  | next {s : Input} : lexOp (skip s) = none → Accepts .operand 0 (skip s) →
      Accepts .operator 0 s

section Recogniser

theorem Accepts.of_skip {p : Place} {k : Nat} {s s' : Input} (h : Accepts p k s)
    (same : skip s = skip s') : Accepts p k s' := by
  cases h with
  | integer lexed rest => exact .integer (same ▸ lexed) rest
  | identifier none lexed rest => exact .identifier (same ▸ none) (same ▸ lexed) rest
  | opened head rest => exact .opened (same ▸ head) rest
  | closed head rest => exact .closed (same ▸ head) rest
  | op lexed rest => exact .op (same ▸ lexed) rest
  | stop done => exact .stop (same ▸ done)
  | next none rest => exact .next (same ▸ none) (same ▸ rest)

private theorem accepts_spaces {w : Str} (hw : Spaces w) (p : Place) (k : Nat) (s : Input) :
    Accepts p k (w ++ s) ↔ Accepts p k s :=
  ⟨fun h => h.of_skip (skip_spaces hw s), fun h => h.of_skip (skip_spaces hw s).symm⟩

private theorem operand_integer {k : Nat} {s rest : Input} {tok : Str}
    (lexed : lexInteger (skip s) = some (tok, rest)) :
    Accepts .operand k s ↔ Accepts .operator k rest := by
  constructor
  · intro h
    cases h with
    | integer lexed' accepted =>
        obtain ⟨-, rfl⟩ := Prod.mk.inj (Option.some.inj (lexed.symm.trans lexed'))
        exact accepted
    | identifier none _ _ => simp [lexed] at none
    | opened head _ =>
        rw [head] at lexed
        exact absurd lexed (by simp [lexInteger_cons_none (c := '(') rfl rfl])
  · exact .integer lexed

private theorem operand_identifier {k : Nat} {s rest : Input} {tok : Str}
    (none : lexInteger (skip s) = none) (lexed : lexIdentifier (skip s) = some (tok, rest)) :
    Accepts .operand k s ↔ Accepts .operator k rest := by
  constructor
  · intro h
    cases h with
    | integer lexed' _ => simp [none] at lexed'
    | identifier _ lexed' accepted =>
        obtain ⟨-, rfl⟩ := Prod.mk.inj (Option.some.inj (lexed.symm.trans lexed'))
        exact accepted
    | opened head _ =>
        rw [head] at lexed
        exact absurd lexed (by simp [lexIdentifier_cons_none (c := '(') rfl])
  · exact .identifier none lexed

private theorem operator_op {k : Nat} {s rest : Input} {tok : Str}
    (lexed : lexOp (skip s) = some (tok, rest)) :
    Accepts .operator k s ↔ Accepts .operand k rest := by
  constructor
  · intro h
    cases h with
    | closed head _ =>
        rw [head] at lexed
        exact absurd lexed (by simp [lexOp_cons_none (c := ')') rfl])
    | op lexed' accepted =>
        obtain ⟨-, rfl⟩ := Prod.mk.inj (Option.some.inj (lexed.symm.trans lexed'))
        exact accepted
    | stop done =>
        rw [done] at lexed
        exact absurd lexed (by simp [lexOp])
    | next none _ => simp [none] at lexed
  · exact .op lexed

private theorem operator_word {c : Char} {s : Input} (hc : isIdentChar c = true) :
    Accepts .operator 0 (c :: s) ↔ Accepts .operand 0 (c :: s) := by
  obtain ⟨notOp, notSpace, -, -, notClose⟩ := identChar_plain hc
  have same := skip_cons notSpace s
  constructor
  · intro h
    cases h with
    | op lexed _ => simp [same, lexOp_cons_none notOp] at lexed
    | stop done => simp [same] at done
    | next _ accepted => rwa [same] at accepted
  · intro h
    exact .next (by rw [same, lexOp_cons_none notOp]) (by rwa [same])

private theorem not_operator_word {k : Nat} {c : Char} {s : Input} (hc : isIdentChar c = true) :
    ¬ Accepts .operator (k + 1) (c :: s) := by
  obtain ⟨notOp, notSpace, -, -, notClose⟩ := identChar_plain hc
  have same := skip_cons notSpace s
  intro h
  cases h with
  | closed head _ =>
      rw [same] at head
      exact notClose (List.cons.inj head).1
  | op lexed _ => simp [same, lexOp_cons_none notOp] at lexed

private theorem word_lexeme {c : Char} (hc : isIdentChar c = true) (s : Input) :
    ∃ x rest, s = x ++ rest ∧ (∀ d ∈ x, isIdentChar d = true) ∧
      ∀ k, Accepts .operand k (c :: s) ↔ Accepts .operator k rest := by
  have same := skip_cons (identChar_plain hc).2.1 s
  rcases identChar_cases hc with digit | start
  · have text : IntegerText [c] :=
      ⟨[], [c], [], rfl, .inl rfl, by simp, by simpa using digit, by simp⟩
    obtain ⟨x, rest, split, word, lexed⟩ := text.lex s
    exact ⟨x, rest, split, word, fun k => operand_integer (by rw [same]; exact lexed)⟩
  · have text : IdentifierText [c] := ⟨[c], [], rfl, by simp, by simpa using start, by simp⟩
    obtain ⟨none, lexed⟩ := text.lex s
    exact ⟨s.takeWhile isIdentChar, s.dropWhile isIdentChar,
      List.takeWhile_append_dropWhile.symm, fun d hd => List.mem_takeWhile_imp hd,
      fun k => operand_identifier (by rw [same]; exact none) (by rw [same]; exact lexed)⟩

private theorem accepts_dropWord (n : Nat) (s : Input) (hn : s.length ≤ n) :
    Accepts .operator 0 s ↔ Accepts .operator 0 (s.dropWhile isIdentChar) := by
  induction n generalizing s with
  | zero =>
      have : s = [] := List.length_eq_zero_iff.mp (by omega)
      subst this
      rfl
  | succ n ih =>
      cases s with
      | nil => rfl
      | cons c s =>
          cases hc : isIdentChar c with
          | false => simp [hc]
          | true =>
              obtain ⟨x, rest, rfl, word, reads⟩ := word_lexeme hc s
              have dropped : (c :: (x ++ rest)).dropWhile isIdentChar =
                  rest.dropWhile isIdentChar := by
                simp [hc, List.dropWhile_append_of_pos word]
              rw [operator_word hc, reads, dropped]
              refine ih rest ?_
              simp only [List.length_cons, List.length_append] at hn
              omega

private theorem Accepts.drop_word {k : Nat} {x rest : Input} (word : ∀ c ∈ x, isIdentChar c = true)
    (h : Accepts .operator k (x ++ rest)) : Accepts .operator k rest := by
  cases x with
  | nil => exact h
  | cons c x =>
      cases k with
      | succ k => exact absurd h (not_operator_word (word c List.mem_cons_self))
      | zero =>
          rw [accepts_dropWord _ _ le_rfl, List.dropWhile_append_of_pos word] at h
          exact (accepts_dropWord _ _ le_rfl).mpr h

private theorem Accepts.drop_op {k : Nat} {s : Input} (h : Accepts .operand k s) :
    Accepts .operand k (s.dropWhile isOpChar) := by
  cases s with
  | nil => exact h
  | cons c s =>
      cases hc : isOpChar c with
      | false => simpa [hc] using h
      | true =>
          obtain ⟨notSpace, notIdent, notOpen, -⟩ := opChar_plain hc
          have same := skip_cons notSpace s
          cases h with
          | integer lexed accepted =>
              rw [same] at lexed
              have sign : isSign c = true := by
                rcases lexInteger_head lexed with sign | digit
                · exact sign
                · simp [digit_identChar digit] at notIdent
              obtain ⟨d, u, t, rfl, digit, unsigned⟩ := lexInteger_sign sign lexed
              obtain ⟨notOp, notSpace', -⟩ := identChar_plain (digit_identChar digit)
              have dropped : (c :: d :: u).dropWhile isOpChar = d :: u := by simp [hc, notOp]
              rw [dropped]
              exact .integer (by rw [skip_cons notSpace', unsigned]) accepted
          | identifier none lexed _ =>
              have notStart : isIdentStart c = false := by
                by_contra start
                have := isIdentChar_of_start (by simpa using start : isIdentStart c = true)
                simp [notIdent] at this
              rw [same, lexIdentifier_cons_none notStart] at lexed
              simp at lexed
          | opened head _ =>
              rw [same] at head
              exact absurd (List.cons.inj head).1 notOpen

/-- A text of the language followed by an accepted rest is accepted. -/
theorem Language.accepts {nt : Nonterminal} {w : Str} (h : Language nt w) (k : Nat) (u : Input)
    (hu : Accepts .operator k u) : Accepts .operand k (w ++ u) := by
  induction h generalizing k u with
  | @integer w₁ w₂ t before text after =>
      obtain ⟨x, rest, split, word, lexed⟩ := text.lex (w₂ ++ u)
      have more : Accepts .operator k (x ++ rest) := split ▸ (accepts_spaces after _ k u).mpr hu
      have here := text.skip (w₂ ++ u)
      simp only [List.append_assoc]
      rw [accepts_spaces before]
      exact .integer (by rw [here, lexed]) (more.drop_word word)
  | @identifier w₁ w₂ t before text after =>
      obtain ⟨none, lexed⟩ := text.lex (w₂ ++ u)
      have more : Accepts .operator k (w₂ ++ u) := (accepts_spaces after _ k u).mpr hu
      rw [← List.takeWhile_append_dropWhile (p := isIdentChar) (l := w₂ ++ u)] at more
      have here := text.skip (w₂ ++ u)
      simp only [List.append_assoc]
      rw [accepts_spaces before]
      exact .identifier (by rw [here, none]) (by rw [here, lexed])
        (more.drop_word fun c hc => List.mem_takeWhile_imp hc)
  | @group w₁ w₂ e before _ after ih =>
      have close : Accepts .operator (k + 1) (')' :: (w₂ ++ u)) :=
        .closed (skip_cons rfl _) ((accepts_spaces after _ k u).mpr hu)
      simp only [List.append_assoc, List.cons_append, List.nil_append]
      rw [accepts_spaces before]
      exact .opened (skip_cons rfl _) (ih (k + 1) _ close)
  | single _ ih => exact ih k u hu
  | @binary a w₁ op w₂ e _ before text after _ ihAtom ihExpr =>
      have operand : Accepts .operand k (w₂ ++ (e ++ u)) :=
        (accepts_spaces after _ k _).mpr (ihExpr k u hu)
      have here := text.skip (w₂ ++ (e ++ u))
      have operator : Accepts .operator k (op ++ (w₂ ++ (e ++ u))) :=
        .op (by rw [here, text.lex]) operand.drop_op
      simp only [List.append_assoc]
      exact ihAtom k _ ((accepts_spaces before _ k _).mpr operator)

theorem Accepts.after {s : Input} (h : Accepts .operand 0 s) : Accepts .operator 0 s := by
  cases lexed : lexOp (skip s) with
  | none => exact .next lexed (h.of_skip (skip_skip s).symm)
  | some found =>
      obtain ⟨tok, rest⟩ := found
      refine .op lexed ?_
      have left : rest = (skip s).dropWhile isOpChar := by
        simp only [lexOp] at lexed
        split at lexed
        · simp at lexed
        · exact (Prod.mk.inj (Option.some.inj lexed)).2.symm
      exact left ▸ (h.of_skip (skip_skip s).symm).drop_op

theorem Expressions.accepts {s : Str} (h : Expressions s) : Accepts .operand 0 s := by
  obtain ⟨es, nonempty, derived, rfl⟩ := h
  induction es with
  | nil => exact absurd rfl nonempty
  | cons e es ih =>
      rw [List.flatten_cons]
      refine (derived e List.mem_cons_self).accepts 0 _ ?_
      cases es with
      | nil => exact .stop rfl
      | cons e' es =>
          exact (ih (by simp) fun x hx => derived x (List.mem_cons_of_mem _ hx)).after

/-- An accepted operand place has a greedy derivation up to the end of an expression. -/
theorem Accepts.derives (n : Nat) {k : Nat} {s : Input} (hn : s.length ≤ n)
    (h : Accepts .operand k s) :
    ∃ e rest, Derives .expr s e rest ∧ lexOp rest = none ∧ Accepts .operator k rest := by
  induction n generalizing k s with
  | zero =>
      have : s = [] := List.length_eq_zero_iff.mp (by omega)
      subst this
      cases h with
      | integer lexed _ => simp [skip, lexInteger, takeSign] at lexed
      | identifier _ lexed _ => simp [skip, lexIdentifier] at lexed
      | opened head _ => simp [skip] at head
  | succ n ih =>
      -- an atom that leaves an accepted rest extends to an expression
      have extend : ∀ {a rest}, Derives .atom s a rest → Accepts .operator k rest →
          ∃ e rest, Derives .expr s e rest ∧ lexOp rest = none ∧ Accepts .operator k rest := by
        intro a rest atom accepted
        have plain := atom.skip_rest
        have shorter := atom.length_lt
        cases lexed : lexOp (skip rest) with
        | none => exact ⟨a, rest, .single atom lexed, by rwa [plain] at lexed, accepted⟩
        | some found =>
            obtain ⟨op, tail⟩ := found
            have bound : (skip tail).length ≤ n := by
              have := lexOp_length lexed
              have := length_skip_le rest
              have := length_skip_le tail
              omega
            have operand := ((operator_op lexed).mp accepted).of_skip (skip_skip tail).symm
            obtain ⟨e, rest', derived, stop, more⟩ := ih bound operand
            exact ⟨_, rest', .binary atom lexed derived, stop, more⟩
      cases h with
      | integer lexed accepted =>
          exact extend (.integer lexed) (accepted.of_skip (skip_skip _).symm)
      | identifier none lexed accepted =>
          exact extend (.identifier none lexed) (accepted.of_skip (skip_skip _).symm)
      | @opened _ _ inner head accepted =>
          have bound : inner.length ≤ n := by
            have := length_skip_le s
            simp only [head, List.length_cons] at this
            omega
          obtain ⟨e, rest, derived, stop, more⟩ := ih bound accepted
          have plain := derived.skip_rest
          cases more with
          | closed close accepted =>
              rw [plain] at close
              subst close
              exact extend (.group head derived) (accepted.of_skip (skip_skip _).symm)
          | op lexed _ =>
              rw [plain, stop] at lexed
              simp at lexed

theorem atEol_of_not_space {c : Char} {s : Input} (h : isSpace c = false) : atEol
    (c :: s) = false := by
  by_contra eol
  simp only [atEol, Bool.not_eq_false, Bool.or_eq_true, beq_iff_eq] at eol
  rcases eol with rfl | rfl
  · exact absurd h (by decide)
  · exact absurd h (by decide)

theorem Accepts.derivesAll (n : Nat) {s : Input} (hn : s.length ≤ n) (start : atEol s = false)
    (h : Accepts .operand 0 s) : ∃ es, DerivesAll s es := by
  induction n generalizing s with
  | zero =>
      have : s = [] := List.length_eq_zero_iff.mp (by omega)
      subst this
      simp [atEol] at start
  | succ n ih =>
      obtain ⟨e, rest, derived, stop, more⟩ := h.derives _ le_rfl
      have plain := derived.skip_rest
      have shorter := derived.length_lt
      cases more with
      | op lexed _ =>
          rw [plain, stop] at lexed
          simp at lexed
      | stop done =>
          rw [plain] at done
          exact ⟨[e], .cons start derived (.nil (by rw [done]; rfl))⟩
      | next _ accepted =>
          rw [plain] at accepted
          cases rest with
          | nil => exact ⟨[e], .cons start derived (.nil rfl)⟩
          | cons c rest =>
              have again := atEol_of_not_space (s := rest) (skip_eq_cons plain)
              obtain ⟨es, others⟩ := ih (by omega) again accepted
              exact ⟨e :: es, .cons start derived others⟩

end Recogniser

section Derivations

theorem lexeme_between {s tok rest : Str} (split : skip s = tok ++ rest) :
    ∃ w₁ w₂, Spaces w₁ ∧ Spaces w₂ ∧ s = w₁ ++ tok ++ w₂ ++ skip rest := by
  obtain ⟨w₁, before, hs⟩ := skip_prefix s
  obtain ⟨w₂, after, hr⟩ := skip_prefix rest
  refine ⟨w₁, w₂, before, after, ?_⟩
  calc s = w₁ ++ skip s := hs
    _ = w₁ ++ (tok ++ rest) := by rw [split]
    _ = w₁ ++ (tok ++ (w₂ ++ skip rest)) := by rw [← hr]
    _ = w₁ ++ tok ++ w₂ ++ skip rest := by simp only [List.append_assoc]

/-- What a greedy derivation reads is a text of the language. -/
theorem Derives.language {nt : Nonterminal} {s rest : Input} {e : Expr}
    (h : Derives nt s e rest) : ∃ w, s = w ++ rest ∧ Language nt w := by
  induction h with
  | @integer s rest tok lexed =>
      obtain ⟨w₁, w₂, before, after, split⟩ := lexeme_between (lexInteger_split _ _ _ lexed)
      exact ⟨_, split, .integer before (.of_lex lexed) after⟩
  | @identifier s rest tok _ lexed =>
      obtain ⟨w₁, w₂, before, after, split⟩ := lexeme_between (lexIdentifier_split _ _ _ lexed)
      exact ⟨_, split, .identifier before (.of_lex lexed) after⟩
  | @group s inner rest e opened _ ih =>
      obtain ⟨w, hw, text⟩ := ih
      have inside : skip s = ('(' :: w ++ [')']) ++ rest := by simp [opened, hw]
      obtain ⟨w₁, w₂, before, after, split⟩ := lexeme_between inside
      exact ⟨_, split, .group before text after⟩
  | single _ _ ih =>
      obtain ⟨w, hw, text⟩ := ih
      exact ⟨w, hw, .single text⟩
  | @binary s mid tail rest a e op _ lexed _ ihAtom ihExpr =>
      obtain ⟨u, hu, atom⟩ := ihAtom
      obtain ⟨v, hv, expr⟩ := ihExpr
      obtain ⟨w₁, w₂, before, after, split⟩ := lexeme_between (lexOp_split _ _ _ lexed)
      refine ⟨u ++ w₁ ++ op ++ w₂ ++ v, ?_, .binary atom before (.of_lex lexed) after expr⟩
      calc s = u ++ mid := hu
        _ = u ++ (w₁ ++ op ++ w₂ ++ (v ++ rest)) := by rw [split, hv]
        _ = u ++ w₁ ++ op ++ w₂ ++ v ++ rest := by simp only [List.append_assoc]

theorem Expressions.cons {w s : Str} (text : Language .expr w) (h : s = [] ∨ Expressions s) :
    Expressions (w ++ s) := by
  rcases h with rfl | ⟨ws, nonempty, texts, rfl⟩
  · exact ⟨[w], by simp, by simpa using text, by simp⟩
  · refine ⟨w :: ws, by simp, fun x hx => ?_, by simp⟩
    rcases List.mem_cons.mp hx with rfl | hx
    · exact text
    · exact texts x hx

theorem DerivesAll.language {s : Input} {es : List Expr} (h : DerivesAll s es)
    (plain : skip s = s) : s = [] ∨ Expressions s := by
  induction h with
  | @nil s stop =>
      cases s with
      | nil => exact .inl rfl
      | cons c s =>
          rw [atEol_of_not_space (skip_eq_cons plain)] at stop
          simp at stop
  | @cons s rest e es _ derived _ ih =>
      obtain ⟨w, rfl, text⟩ := derived.language
      exact .inr (.cons text (ih derived.skip_rest))

/-- The texts with a greedy derivation: the empty text, the texts that begin with an
end of line, and the concatenations of expressions. -/
theorem derivesAll_iff (s : Str) :
    (∃ es, DerivesAll s es) ↔ atEol s = true ∨ Expressions s := by
  constructor
  · rintro ⟨es, derived⟩
    cases derived with
    | nil stop => exact .inl stop
    | cons _ first others =>
        obtain ⟨w, rfl, text⟩ := first.language
        exact .inr (.cons text (others.language first.skip_rest))
  · rintro (stop | texts)
    · exact ⟨[], .nil stop⟩
    · cases stop : atEol s with
      | true => exact ⟨[], .nil stop⟩
      | false => exact texts.accepts.derivesAll _ le_rfl stop

end Derivations

end Amalgam.Parser
