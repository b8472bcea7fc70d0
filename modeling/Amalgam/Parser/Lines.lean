/- Module: Amalgam/Parser/Lines
   digest: Which texts after an end of line are read on with the line before it. -/

import Amalgam.Parser.Groups
import Amalgam.Parser.Rendering

set_option autoImplicit false
set_option relaxedAutoImplicit false

namespace Amalgam.Parser

open Amalgam.Cxx (isSpace)
open Amalgam.Pegtl (Str Input Outcome)

/-- What is left of `s ++ u` where `rest` is left of `s`. -/
def rejoin : Input → Input → Input
  | [], u => skip u
  | c :: rest, u => c :: rest ++ u

section Append

variable {u : Input}

private theorem rejoin_of_ne_nil {rest : Input} (some : rest ≠ []) (u : Input) :
    rejoin rest u = rest ++ u := by
  cases rest with
  | nil => exact absurd rfl some
  | cons c rest => rfl

private theorem skip_append (s u : Input) : skip (s ++ u) = rejoin (skip s) u := by
  induction s with
  | nil => rfl
  | cons c s ih =>
      cases hc : isSpace c with
      | true =>
          have first : ∀ v, skip (c :: v) = skip v := fun v => List.dropWhile_cons_of_pos hc
          rw [List.cons_append, first, first, ih]
      | false =>
          rw [List.cons_append, skip_cons hc, skip_cons hc]
          rfl

private theorem skip_append_of_ne_nil {s : Input} (some : skip s ≠ []) (u : Input) :
    skip (s ++ u) = skip s ++ u := by
  rw [skip_append, rejoin_of_ne_nil some]

private theorem lex_skip_append {lex : Input → Option (Str × Input)} (nothing : lex [] = none)
    (append : ∀ s, lex (s ++ u) = (lex s).map (Prod.map id (· ++ u))) {s rest : Input} {tok : Str}
    (lexed : lex (skip s) = some (tok, rest)) :
    skip (s ++ u) = skip s ++ u ∧ lex (skip (s ++ u)) = some (tok, rest ++ u) := by
  have some : skip s ≠ [] := by
    intro empty
    rw [empty, nothing] at lexed
    simp at lexed
  have same := skip_append_of_ne_nil some u
  refine ⟨same, ?_⟩
  rw [same, append, lexed]
  rfl

private theorem ne_nil_of_lexOp {rest tail : Input} {op : Str}
    (lexed : lexOp (skip rest) = some (op, tail)) : rest ≠ [] := by
  rintro rfl
  exact absurd (lexOp_length lexed) (Nat.not_lt_zero _)

/-- A derivation goes through unchanged before what begins with white space, if it ends with
an atom or stops before the end of the text, or if only white space is added. -/
theorem Derives.append {nt : Nonterminal} {s rest : Input} {e : Expr} (h : Derives nt s e rest)
    (parted : Parted u) (ends : nt = .atom ∨ rest ≠ [] ∨ skip u = []) :
    Derives nt (s ++ u) e (rejoin rest u) := by
  induction h with
  | integer lexed =>
      rw [← skip_append]
      exact .integer (lex_skip_append rfl (lexInteger_append parted) lexed).2
  | @identifier s rest tok noInteger lexed =>
      obtain ⟨same, longer⟩ := lex_skip_append rfl (lexIdentifier_append parted) lexed
      have stillNone : lexInteger (skip (s ++ u)) = none := by
        rw [same, lexInteger_append parted, noInteger]
        rfl
      rw [← skip_append]
      exact .identifier stillNone longer
  | @group s inner rest e opened _ ih =>
      have longer : skip (s ++ u) = '(' :: (inner ++ u) := by
        rw [skip_append, opened]
        rfl
      rw [← skip_append]
      exact .group longer (ih (.inr (.inl (by simp))))
  | @single s rest a atom stop ih =>
      have ends : rest ≠ [] ∨ skip u = [] := ends.resolve_left (by simp)
      refine .single (ih (.inl rfl)) ?_
      by_cases some : rest = []
      · have done : rejoin rest u = [] := by
          rw [some]
          exact ends.resolve_left (by simp [some])
        rw [done]
        rfl
      · rw [rejoin_of_ne_nil some, skip_append, rejoin_of_ne_nil (by rwa [atom.skip_rest]),
          lexOp_append parted, stop]
        rfl
  | @binary s mid tail rest a e op atom lexed derived ihAtom ihExpr =>
      have longer := (lex_skip_append rfl (lexOp_append parted) lexed).2
      have first := ihAtom (.inl rfl)
      rw [rejoin_of_ne_nil (ne_nil_of_lexOp lexed)] at first
      have second := ihExpr (.inr (ends.resolve_left (by simp)))
      rw [← skip_append_of_ne_nil derived.ne_nil] at second
      exact .binary first longer second

private theorem Derives.tokens_continued {nt : Nonterminal} {s rest rest' : Input} {e e' : Expr}
    (h : Derives nt s e rest) (isExpr : nt = .expr) (last : rest = []) (parted : Parted u)
    (h' : Derives .expr (s ++ u) e' rest') :
    ∃ ts, e'.tokens = e.tokens ++ ts ∧ (ts = [] → rest' = skip u) := by
  induction h generalizing e' rest' with
  | integer _ => simp at isExpr
  | identifier _ _ => simp at isExpr
  | group _ _ _ => simp at isExpr
  | @single s rest a atom _ _ =>
      have first := atom.append parted (.inl rfl)
      rw [last] at first
      cases h' with
      | single atom' _ =>
          obtain ⟨rfl, rfl⟩ := first.unique atom'
          exact ⟨[], (List.append_nil _).symm, fun _ => rfl⟩
      | binary atom' _ _ =>
          obtain ⟨rfl, -⟩ := first.unique atom'
          exact ⟨_ :: _, rfl, by simp⟩
  | @binary s mid tail rest a e op atom lexed derived _ ihExpr =>
      have longer := (lex_skip_append rfl (lexOp_append parted) lexed).2
      have first := atom.append parted (.inl rfl)
      rw [rejoin_of_ne_nil (ne_nil_of_lexOp lexed)] at first
      cases h' with
      | single atom' stop =>
          obtain ⟨-, rfl⟩ := first.unique atom'
          rw [longer] at stop
          simp at stop
      | binary atom' lexed' derived' =>
          obtain ⟨rfl, rfl⟩ := first.unique atom'
          obtain ⟨rfl, rfl⟩ := Prod.mk.inj (Option.some.inj (longer.symm.trans lexed'))
          rw [skip_append_of_ne_nil derived.ne_nil] at derived'
          obtain ⟨ts, tokens, stops⟩ := ihExpr rfl last derived'
          refine ⟨ts, ?_, stops⟩
          simp [Expr.tokens, tokens]

private theorem Derives.rest_cases {nt : Nonterminal} {s rest : Input} {e : Expr}
    (h : Derives nt s e rest) : rest = [] ∨ rest ≠ [] ∧ atEol rest = false := by
  have plain := h.skip_rest
  cases rest with
  | nil => exact .inl rfl
  | cons c rest => exact .inr ⟨List.cons_ne_nil c rest, atEol_of_not_space (skip_eq_cons plain)⟩

private theorem derivesAll_empty {es : List Expr} (h : DerivesAll [] es) : es = [] := by
  cases h with
  | nil _ => rfl
  | cons go _ _ => simp [atEol] at go

private theorem atEol_append {s : Input} (go : atEol s = false) (u : Input) : atEol
    (s ++ u) = false := by
  cases s with
  | nil => simp [atEol] at go
  | cons c s => exact go

private theorem tokens_pos (e : Expr) : 0 < e.tokens.length := by
  rw [length_tokens]
  exact e.flat.size_pos

theorem DerivesAll.append {s : Input} {es : List Expr} (h : DerivesAll s es)
    (go : atEol s = false) (blank : Spaces u) : DerivesAll (s ++ u) es := by
  have done : skip u = [] := (skip_eq_nil_iff u).mpr blank
  induction h with
  | nil stop => simp [go] at stop
  | @cons s rest e es _ first others ih =>
      have longer := first.append (.of_spaces blank) (.inr (.inr done))
      refine .cons (atEol_append go u) longer ?_
      rcases first.rest_cases with ended | ⟨some, goes⟩
      · rw [ended] at others ⊢
        obtain rfl := derivesAll_empty others
        rw [rejoin, done]
        exact .nil rfl
      · rw [rejoin_of_ne_nil some]
        exact ih goes

private theorem DerivesAll.tokens_lt {s : Input} {es es' : List Expr} (h : DerivesAll s es)
    (go : atEol s = false) (parted : Parted u) (more : skip u ≠ []) (h' : DerivesAll (s ++ u) es') :
    (allTokens es).length < (allTokens es').length := by
  induction h generalizing es' with
  | nil stop => simp [go] at stop
  | @cons s rest e es _ first others ih =>
      cases h' with
      | nil stop => simp [atEol_append go u] at stop
      | @cons _ rest' e' es' _ first' others' =>
          simp only [allTokens, List.flatMap_cons, List.length_append]
          rcases first.rest_cases with ended | ⟨some, goes⟩
          · rw [ended] at others
            obtain rfl := derivesAll_empty others
            obtain ⟨ts, tokens, stops⟩ := first.tokens_continued rfl ended parted first'
            rw [tokens, List.length_append, List.flatMap_nil, List.length_nil]
            cases ts with
            | cons t ts =>
                rw [List.length_cons]
                omega
            | nil =>
                rw [stops rfl] at others'
                cases others' with
                | nil stop =>
                    rcases first'.rest_cases with none | ⟨-, goes'⟩
                    · exact absurd ((stops rfl).symm.trans none) more
                    · rw [stops rfl, stop] at goes'
                      exact Bool.noConfusion goes'
                | @cons _ _ e'' es'' _ _ _ =>
                    have pos := tokens_pos e''
                    simp only [List.flatMap_cons, List.length_append]
                    omega
          · have longer := first.append parted (.inr (.inl some))
            rw [rejoin_of_ne_nil some] at longer
            obtain ⟨rfl, rfl⟩ := longer.unique first'
            have tail := ih goes others'
            simp only [allTokens] at tail
            omega

end Append

section Lines

private theorem length_layouts (k : Nat) (cs : List Flat) :
    (layouts k cs).length = totalSize cs := by
  induction cs generalizing k with
  | nil => rfl
  | cons c cs ih => rw [layouts, List.length_append, length_layout, ih, totalSize]

private theorem finalState_stack (es : List Expr) :
    (finalState (flats es)).stack.length = (allTokens es).length := by
  rw [length_allTokens]
  exact length_layouts 0 (flats es)

/-- Let a line be accepted, and an end of line and more text follow it. The match of the
whole completes with the stack and the trees that the line has alone exactly when the text
that follows is white space. -/
theorem line_ends_iff {L nl : Str} (r : Str) (nonempty : L ≠ [])
    (oneLine : ∀ c ∈ L, c ≠ '\r' ∧ c ≠ '\n') (ending : nl = ['\n'] ∨ nl = ['\r', '\n'])
    {rest : Input} {st : ParseState} (accepted : matchGrammar L = .ok rest st) :
    (∃ rest' st' trees, matchGrammar (L ++ (nl ++ r)) = .ok rest' st' ∧ st'.stack = st.stack ∧
      st.module = mainModule (defaultMethod trees) ∧
      st'.module = mainModule (defaultMethod trees)) ↔ Spaces r := by
  obtain ⟨es, derived, rfl⟩ := matchGrammar_derives accepted
  have go : atEol L = false :=
    atEol_of_head nonempty fun c first => oneLine c (List.mem_of_mem_head? first)
  have blank : Spaces nl ∧ nl ≠ [] := by
    rcases ending with rfl | rfl
    · exact ⟨by decide, by simp⟩
    · exact ⟨by decide, by simp⟩
  constructor
  · rintro ⟨rest', st', trees, run, stack, -⟩
    obtain ⟨es', derived', rfl⟩ := matchGrammar_derives run
    have lengths := congrArg List.length stack
    rw [finalState_stack, finalState_stack] at lengths
    by_contra other
    have more : skip (nl ++ r) ≠ [] := by
      intro done
      rw [skip_spaces blank.1, skip_eq_nil_iff] at done
      exact other done
    have longer := derived.tokens_lt go (.gap blank.1 blank.2 r) more derived'
    omega
  · intro following
    have all : Spaces (nl ++ r) := List.forall_mem_append.mpr ⟨blank.1, following⟩
    obtain ⟨rest', run⟩ := (derived.append go all).matchGrammar
    exact ⟨rest', _, _, run, rfl, rfl, rfl⟩

theorem line_ends_blank :
    ∃ rest st trees, matchGrammar "1\n ".toList = .ok rest st ∧
      st.module = mainModule (defaultMethod trees) := by
  have derived : DerivesAll ['1'] [.operand (.literal ['1'])] :=
    .cons rfl (.single (.integer rfl) rfl) (.nil rfl)
  obtain ⟨rest, accepted⟩ := derived.matchGrammar
  have blank : Spaces [' '] := by decide
  obtain ⟨rest', st', trees, run, -, -, module⟩ :=
    (line_ends_iff [' '] (by simp) (by decide) (.inl rfl) accepted).mpr blank
  exact ⟨rest', st', trees, run, module⟩

/-- The number on a second line goes on the stack of the first. -/
theorem line_continues :
    ∃ rest st rest' st', matchGrammar "1".toList = .ok rest st ∧
      matchGrammar "1\n2".toList = .ok rest' st' ∧ st.stack = [.fresh 0 .literalInt ['1']] ∧
      st'.stack = [.fresh 0 .literalInt ['1'], .fresh 1 .literalInt ['2']] := by
  have one : DerivesAll "1".toList [.operand (.literal ['1'])] :=
    .cons rfl (.single (.integer rfl) rfl) (.nil rfl)
  have two : DerivesAll "1\n2".toList [.operand (.literal ['1']), .operand (.literal ['2'])] :=
    .cons rfl (.single (.integer rfl) rfl) (.cons rfl (.single (.integer rfl) rfl) (.nil rfl))
  obtain ⟨rest, run⟩ := one.matchGrammar
  obtain ⟨rest', run'⟩ := two.matchGrammar
  exact ⟨rest, _, rest', _, run, run', rfl, rfl⟩

end Lines

end Amalgam.Parser
