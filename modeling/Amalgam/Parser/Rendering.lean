/- Module: Amalgam/Parser/Rendering
   digest: Tokens with white space between them are read back, whatever the white space. -/

import Amalgam.Parser.Acceptance

set_option autoImplicit false
set_option relaxedAutoImplicit false

namespace Amalgam.Parser

open Amalgam.Cxx (isSpace)
open Amalgam.Pegtl (Str Input)

def Parted (u : Input) : Prop := ∀ c ∈ u.head?, isSpace c = true

def Expr.lexemes : Expr → List Str
  | .operand a => [a.token.text]
  | .group e => ['('] :: (e.lexemes ++ [[')']])
  | .binary a op e => a.lexemes ++ op :: e.lexemes

/-- Atoms and operators in alternation, every token having a text of its kind. -/
inductive Written : Nonterminal → Expr → Prop
  | integer {t : Str} : IntegerText t → Written .atom (.operand (.literal t))
  | identifier {t : Str} : IdentifierText t → Written .atom (.operand (.identifier t))
  | group {e : Expr} : Written .expr e → Written .atom (.group e)
  | single {a : Expr} : Written .atom a → Written .expr a
  | binary {a e : Expr} {op : Str} : Written .atom a → OperatorText op → Written .expr e →
      Written .expr (.binary a op e)

/-- The texts in order, with white space between every two, perhaps before the first one,
and perhaps after the last one. -/
inductive Rendering : List Str → Str → Prop
  | nil {w : Str} : Spaces w → Rendering [] w
  | last {w t u : Str} : Spaces w → Spaces u → Rendering [t] (w ++ (t ++ u))
  | more {w t gap t' s : Str} {ts : List Str} : Spaces w → Spaces gap → gap ≠ [] →
      Rendering (t' :: ts) s → Rendering (t :: t' :: ts) (w ++ (t ++ (gap ++ s)))

section Lexing

variable {u : Input}

theorem Parted.of_spaces (h : Spaces u) : Parted u := by
  intro c first
  exact h c (List.mem_of_mem_head? first)

theorem Parted.gap {gap : Str} (h : Spaces gap) (nonempty : gap ≠ []) (s : Str) :
    Parted (gap ++ s) := by
  obtain ⟨c, gap, rfl⟩ := List.exists_cons_of_ne_nil nonempty
  intro d first
  obtain rfl : c = d := Option.some.inj first
  exact h c List.mem_cons_self

theorem Parted.run_append (h : Parted u) {p : Char → Bool}
    (plain : ∀ c, isSpace c = true → p c = false) (s : Input) :
    (s ++ u).takeWhile p = s.takeWhile p ∧ (s ++ u).dropWhile p = s.dropWhile p ++ u := by
  induction s with
  | nil =>
      cases u with
      | nil => exact ⟨rfl, rfl⟩
      | cons c u =>
          have stop : p c = false := plain c (h c rfl)
          simp [stop]
  | cons c s ih =>
      cases hc : p c with
      | true => simp [hc, ih.1, ih.2]
      | false => simp [hc]

theorem lexOp_append (h : Parted u) (s : Input) :
    lexOp (s ++ u) = (lexOp s).map (Prod.map id (· ++ u)) := by
  obtain ⟨taken, left⟩ := h.run_append (fun c hc => (space_plain hc).1) s
  unfold lexOp
  rw [taken, left]
  split <;> rfl

theorem lexIdentifier_append (h : Parted u) (s : Input) :
    lexIdentifier (s ++ u) = (lexIdentifier s).map (Prod.map id (· ++ u)) := by
  cases s with
  | nil =>
      cases u with
      | nil => rfl
      | cons c u => exact lexIdentifier_cons_none (space_no_word (h c rfl)).2.2.2 u
  | cons c s =>
      obtain ⟨taken, left⟩ := h.run_append (fun c hc => (space_plain hc).2.1) (c :: s)
      rw [List.cons_append] at taken left
      simp only [List.cons_append, lexIdentifier, taken, left]
      split <;> rfl

private theorem takeSign_append_parted (h : Parted u) (s : Input) :
    takeSign (s ++ u) = ((takeSign s).1, (takeSign s).2 ++ u) := by
  cases s with
  | nil =>
      cases u with
      | nil => rfl
      | cons c u => exact takeSign_cons (space_no_word (h c rfl)).1 u
  | cons c s =>
      simp only [List.cons_append, takeSign]
      split <;> rfl

theorem lexInteger_append (h : Parted u) (s : Input) :
    lexInteger (s ++ u) = (lexInteger s).map (Prod.map id (· ++ u)) := by
  obtain ⟨digits, afterDigits⟩ := h.run_append (fun c hc => (space_no_word hc).2.1) (takeSign s).2
  obtain ⟨letters, left⟩ := h.run_append (fun c hc => (space_no_word hc).2.2.1)
    ((takeSign s).2.dropWhile isDigit)
  simp only [lexInteger, takeSign_append_parted h, digits, afterDigits, letters, left]
  split <;> rfl

theorem IntegerText.lex_parted {t : Str} (text : IntegerText t) (h : Parted u) :
    lexInteger (t ++ u) = some (t, u) := by
  obtain ⟨x, rest, none, -, lexed⟩ := text.lex []
  obtain ⟨rfl, rfl⟩ := List.append_eq_nil_iff.mp none.symm
  rw [List.append_nil] at lexed
  rw [lexInteger_append h, lexed]
  rfl

theorem IdentifierText.lex_parted {t : Str} (text : IdentifierText t) (h : Parted u) :
    lexInteger (t ++ u) = none ∧ lexIdentifier (t ++ u) = some (t, u) := by
  obtain ⟨noInteger, lexed⟩ := text.lex []
  rw [List.append_nil] at noInteger lexed
  rw [lexInteger_append h, lexIdentifier_append h, noInteger, lexed]
  simp

theorem OperatorText.lex_parted {t : Str} (text : OperatorText t) (h : Parted u) :
    lexOp (t ++ u) = some (t, u) := by
  have lexed := text.lex []
  rw [List.append_nil] at lexed
  rw [lexOp_append h, lexed]
  simp

end Lexing

section Reading

variable {s : Str} {ts : List Str}

theorem Rendering.spaces {v : Str} (before : Spaces v) (h : Rendering ts s) :
    Rendering ts (v ++ s) := by
  have longer : ∀ {w}, Spaces w → Spaces (v ++ w) :=
    fun hw => List.forall_mem_append.mpr ⟨before, hw⟩
  cases h with
  | nil hw => exact .nil (longer hw)
  | last hw hu =>
      rw [← List.append_assoc]
      exact .last (longer hw) hu
  | more hw hgap nonempty rest =>
      rw [← List.append_assoc]
      exact .more (longer hw) hgap nonempty rest

private theorem Rendering.uncons {t : Str} (h : Rendering (t :: ts) s) :
    ∃ w u, Spaces w ∧ s = w ++ (t ++ u) ∧ Parted u ∧ Rendering ts u := by
  cases h with
  | last hw hu => exact ⟨_, _, hw, rfl, .of_spaces hu, .nil hu⟩
  | more hw hgap nonempty rest =>
      exact ⟨_, _, hw, rfl, .gap hgap nonempty _, rest.spaces hgap⟩

/-- What may follow a nonterminal: anything after an atom, a closing parenthesis or
nothing after an expression. -/
def Follows : Nonterminal → List Str → Prop
  | .atom, _ => True
  | .expr, ts => ∀ t ∈ ts.head?, t = [')']

private theorem Rendering.no_operator (follows : Follows .expr ts) (h : Rendering ts s) :
    lexOp (skip (skip s)) = none := by
  rw [skip_skip]
  cases ts with
  | nil =>
      cases h with
      | nil blank =>
          rw [(skip_eq_nil_iff s).mpr blank]
          rfl
  | cons t ts =>
      obtain rfl : t = [')'] := follows t rfl
      obtain ⟨w, u, hw, rfl, -, -⟩ := h.uncons
      rw [skip_spaces hw]
      rfl

theorem Derives.of_skip {nt : Nonterminal} {s s' rest : Input} {e : Expr}
    (h : Derives nt s e rest) (same : skip s = skip s') : Derives nt s' e rest := by
  induction h with
  | integer lexed => exact .integer (same ▸ lexed)
  | identifier none lexed => exact .identifier (same ▸ none) (same ▸ lexed)
  | group opened inside _ => exact .group (same ▸ opened) inside
  | single _ stop ih => exact .single (ih same) stop
  | binary _ lexed tail ihAtom _ => exact .binary (ihAtom same) lexed tail

/-- A rendering of what is written is read, up to where the rendering of the rest begins. -/
theorem Written.derives {nt : Nonterminal} {e : Expr} (written : Written nt e)
    (follows : Follows nt ts) (rendered : Rendering (e.lexemes ++ ts) s) :
    ∃ u, Derives nt s e (skip u) ∧ Rendering ts u := by
  induction written generalizing s ts with
  | @integer t text =>
      obtain ⟨w, u, hw, rfl, parted, rest⟩ := Rendering.uncons rendered
      have here : skip (w ++ (t ++ u)) = t ++ u := (skip_spaces hw _).trans (text.skip u)
      have lexed : lexInteger (skip (w ++ (t ++ u))) = some (t, u) := by
        rw [here]
        exact text.lex_parted parted
      exact ⟨u, .integer lexed, rest⟩
  | @identifier t text =>
      obtain ⟨w, u, hw, rfl, parted, rest⟩ := Rendering.uncons rendered
      have here : skip (w ++ (t ++ u)) = t ++ u := (skip_spaces hw _).trans (text.skip u)
      obtain ⟨noInteger, lexed⟩ := text.lex_parted parted
      rw [← here] at noInteger lexed
      exact ⟨u, .identifier noInteger lexed, rest⟩
  | @group e _ ih =>
      have opened : Rendering (['('] :: (e.lexemes ++ [')'] :: ts)) s := by
        simpa [Expr.lexemes] using rendered
      obtain ⟨w, u, hw, rfl, -, inside⟩ := opened.uncons
      have here : skip (w ++ (['('] ++ u)) = '(' :: u := skip_spaces hw _
      have closing : Follows .expr ([')'] :: ts) := by
        intro t first
        exact (Option.some.inj first).symm
      obtain ⟨v, derived, closed⟩ := ih closing inside
      obtain ⟨w', v', hw', rfl, -, rest⟩ := closed.uncons
      have close : skip (w' ++ ([')'] ++ v')) = ')' :: v' := skip_spaces hw' _
      rw [close] at derived
      exact ⟨v', .group here derived, rest⟩
  | single _ ih =>
      obtain ⟨u, derived, rest⟩ := ih trivial rendered
      exact ⟨u, .single derived (rest.no_operator follows), rest⟩
  | @binary a e op _ text _ ihAtom ihExpr =>
      have operands : Rendering (a.lexemes ++ (op :: (e.lexemes ++ ts))) s := by
        simpa [Expr.lexemes] using rendered
      obtain ⟨u, atom, operator⟩ := ihAtom trivial operands
      obtain ⟨w, v, hw, rfl, parted, tail⟩ := operator.uncons
      have here : skip (skip (w ++ (op ++ v))) = op ++ v := by
        rw [skip_skip, skip_spaces hw, text.skip]
      have lexed : lexOp (skip (skip (w ++ (op ++ v)))) = some (op, v) := by
        rw [here]
        exact text.lex_parted parted
      obtain ⟨v', derived, rest⟩ := ihExpr follows tail
      exact ⟨v', .binary atom lexed (derived.of_skip (skip_skip v).symm), rest⟩

theorem Written.derivesAll {e : Expr} (written : Written .expr e) (rendered : Rendering e.lexemes s)
    (start : ∀ c ∈ s.head?, c ≠ '\r' ∧ c ≠ '\n') : DerivesAll s [e] := by
  have follows : Follows .expr [] := by simp [Follows]
  rw [← List.append_nil e.lexemes] at rendered
  obtain ⟨u, derived, rest⟩ := written.derives follows rendered
  have go : atEol s = false := atEol_of_head derived.ne_nil start
  cases rest with
  | nil blank =>
      rw [(skip_eq_nil_iff u).mpr blank] at derived
      exact .cons go derived (.nil rfl)

/-- The match of any rendering of an expression that does not begin with an end of line
completes, and pushes the tokens other than parentheses in order, each with its type and its
exact text. What it leaves does not depend on the rendering. -/
theorem rendering_pushes {e : Expr} (written : Written .expr e) :
    ∃ st, ∀ s, Rendering e.lexemes s → (∀ c ∈ s.head?, c ≠ '\r' ∧ c ≠ '\n') →
      ∃ rest, matchGrammar s = .ok rest st ∧
        Pegtl.parse (Rules.grammar actions.traced) s ([], ParseState.initial) =
          .ok rest (e.tokens, st) := by
  refine ⟨finalState (flats [e]), ?_⟩
  intro s rendered start
  obtain ⟨rest, run, recorded⟩ := (written.derivesAll rendered start).traced
  have tokens : allTokens [e] = e.tokens := by simp [allTokens]
  rw [tokens] at recorded
  exact ⟨rest, run, recorded⟩

theorem rendering_pushes_signed :
    ∃ st rest, matchGrammar "( a ) +\n-1".toList = .ok rest st ∧
      Pegtl.parse (Rules.grammar actions.traced) "( a ) +\n-1".toList ([], ParseState.initial) =
        .ok rest ([⟨.identifier, ['a']⟩, ⟨.op, ['+']⟩, ⟨.literalInt, ['-', '1']⟩], st) := by
  have name : IdentifierText ['a'] := ⟨['a'], [], rfl, by simp, by decide, by simp⟩
  have plus : OperatorText ['+'] := ⟨by simp, by decide⟩
  have number : IntegerText ['-', '1'] :=
    ⟨['-'], ['1'], [], rfl, .inr ⟨'-', rfl, rfl⟩, by simp, by decide, by simp⟩
  have written : Written .expr (.binary (.group (.operand (.identifier ['a']))) ['+']
      (.operand (.literal ['-', '1']))) :=
    .binary (.group (.single (.identifier name))) plus (.single (.integer number))
  have none : Spaces [] := by simp [Spaces]
  have blank : Spaces [' '] := by decide
  have line : Spaces ['\n'] := by decide
  have rendered : Rendering [['('], ['a'], [')'], ['+'], ['-', '1']] "( a ) +\n-1".toList :=
    .more none blank (by simp) (.more none blank (by simp)
      (.more none blank (by simp) (.more none line (by simp) (.last none none))))
  have start : ∀ c ∈ "( a ) +\n-1".toList.head?, c ≠ '\r' ∧ c ≠ '\n' := by
    intro c first
    obtain rfl : '(' = c := Option.some.inj first
    decide
  obtain ⟨st, reads⟩ := rendering_pushes written
  obtain ⟨rest, run, recorded⟩ := reads _ rendered start
  exact ⟨st, rest, run, recorded⟩

end Reading

end Amalgam.Parser
