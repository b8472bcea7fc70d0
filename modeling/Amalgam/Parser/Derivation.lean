/- Module: Amalgam/Parser/Derivation
   digest: Greedy derivations of the grammar over concrete syntax. -/

import Amalgam.Parser.Lexemes
import Mathlib.Tactic.Common

set_option autoImplicit false
set_option relaxedAutoImplicit false

namespace Amalgam.Parser

open Amalgam.Pegtl
open Amalgam.Cxx (isSpace)

structure Token where
  type : NodeType
  text : Str
  deriving DecidableEq

inductive Operand where
  | literal (text : Str)
  | identifier (text : Str)
  deriving DecidableEq

def Operand.token : Operand → Token
  | .literal text => ⟨.literalInt, text⟩
  | .identifier text => ⟨.identifier, text⟩

/-- The concrete syntax: an atom is an operand or a group, and an expression is an
atom, or an atom, an operator and an expression. -/
inductive Expr where
  | operand (a : Operand)
  | group (e : Expr)
  | binary (atom : Expr) (op : Str) (tail : Expr)
  deriving DecidableEq

def Expr.tokens : Expr → List Token
  | .operand a => [a.token]
  | .group e => e.tokens
  | .binary a op e => a.tokens ++ ⟨.op, op⟩ :: e.tokens

inductive Nonterminal where
  | atom | expr

/-- `Derives nt s e rest`: the nonterminal reads `e` from the front of `s` and leaves
`rest`. Every lexeme is the longest one at its place, the first alternative that
applies is taken, and white space after an atom belongs to the atom. -/
inductive Derives : Nonterminal → Input → Expr → Input → Prop
  | integer {s rest : Input} {tok : Str} : lexInteger (skip s) = some (tok, rest) →
      Derives .atom s (.operand (.literal tok)) (skip rest)
  | identifier {s rest : Input} {tok : Str} : lexInteger (skip s) = none →
      lexIdentifier (skip s) = some (tok, rest) →
      Derives .atom s (.operand (.identifier tok)) (skip rest)
  | group {s inner rest : Input} {e : Expr} : skip s = '(' :: inner →
      Derives .expr inner e (')' :: rest) → Derives .atom s (.group e) (skip rest)
  | single {s rest : Input} {a : Expr} : Derives .atom s a rest → lexOp (skip rest) = none →
      Derives .expr s a rest
  | binary {s mid tail rest : Input} {a e : Expr} {op : Str} : Derives .atom s a mid →
      lexOp (skip mid) = some (op, tail) → Derives .expr (skip tail) e rest →
      Derives .expr s (.binary a op e) rest

def atEol : Input → Bool
  | [] => true
  | c :: _ => c == '\r' || c == '\n'

/-- The expressions of a text, up to an end of line at a place where one may start. -/
inductive DerivesAll : Input → List Expr → Prop
  | nil {s : Input} : atEol s = true → DerivesAll s []
  | cons {s rest : Input} {e : Expr} {es : List Expr} : atEol s = false →
      Derives .expr s e rest → DerivesAll rest es → DerivesAll s (e :: es)

def allTokens (es : List Expr) : List Token := es.flatMap Expr.tokens

section Lengths

theorem length_skip_le (s : Input) : (skip s).length ≤ s.length :=
  (List.dropWhile_sublist _).length_le

theorem skip_skip (s : Input) : skip (skip s) = skip s :=
  dropWhile_dropWhile_of_imp (fun _ h => h) s

private theorem length_of_split {s tok rest : Str} (split : s = tok ++ rest) (nonempty : tok ≠ []) :
    rest.length < s.length := by
  have pos := List.length_pos_iff.mpr nonempty
  rw [split, List.length_append]
  omega

private theorem lexInteger_length {s rest : Input} {tok : Str}
    (h : lexInteger s = some (tok, rest)) :
    rest.length < s.length := by
  have nonempty : tok ≠ [] := by
    simp only [lexInteger] at h
    split at h
    · simp at h
    · rename_i digits
      obtain ⟨rfl, -⟩ := Prod.mk.inj (Option.some.inj h)
      simp only [List.isEmpty_iff] at digits
      simp [digits]
  exact length_of_split (lexInteger_split s tok rest h) nonempty

private theorem lexIdentifier_length {s rest : Input} {tok : Str}
    (h : lexIdentifier s = some (tok, rest)) : rest.length < s.length := by
  cases s with
  | nil => simp [lexIdentifier] at h
  | cons c s =>
      simp only [lexIdentifier] at h
      split at h
      · rename_i start
        obtain ⟨-, rfl⟩ := Prod.mk.inj (Option.some.inj h)
        have shorter : (s.dropWhile isIdentChar).length ≤ s.length :=
          (List.dropWhile_sublist _).length_le
        simp only [List.dropWhile_cons, isIdentChar_of_start start, if_true, List.length_cons]
        omega
      · simp at h

theorem lexOp_length {s rest : Input} {tok : Str} (h : lexOp s = some (tok, rest)) :
    rest.length < s.length := by
  have nonempty : tok ≠ [] := by
    simp only [lexOp] at h
    split at h
    · simp at h
    · rename_i chars
      obtain ⟨rfl, -⟩ := Prod.mk.inj (Option.some.inj h)
      simpa using chars
  exact length_of_split (lexOp_split s tok rest h) nonempty

theorem Derives.length_lt {nt : Nonterminal} {s rest : Input} {e : Expr}
    (h : Derives nt s e rest) : rest.length < s.length := by
  induction h with
  | @integer s rest tok lexed =>
      have := lexInteger_length lexed
      have := length_skip_le s
      have := length_skip_le rest
      omega
  | @identifier s rest tok _ lexed =>
      have := lexIdentifier_length lexed
      have := length_skip_le s
      have := length_skip_le rest
      omega
  | @group s inner rest e opened _ ih =>
      have := length_skip_le s
      have := length_skip_le rest
      simp only [opened, List.length_cons] at *
      omega
  | single _ _ ih => exact ih
  | @binary s mid tail rest a e op _ lexed _ ihAtom ihExpr =>
      have := lexOp_length lexed
      have := length_skip_le mid
      have := length_skip_le tail
      omega

theorem Derives.ne_nil {nt : Nonterminal} {s rest : Input} {e : Expr} (h : Derives nt s e rest) :
    s ≠ [] := by
  rintro rfl
  exact absurd h.length_lt (Nat.not_lt_zero _)

theorem Derives.skip_rest {nt : Nonterminal} {s rest : Input} {e : Expr}
    (h : Derives nt s e rest) : skip rest = rest := by
  induction h with
  | integer _ => exact skip_skip _
  | identifier _ _ => exact skip_skip _
  | group _ _ _ => exact skip_skip _
  | single _ _ ih => exact ih
  | binary _ _ _ _ ih => exact ih

end Lengths

section Uniqueness

theorem lexemes_opened (s : Input) : lexInteger
    ('(' :: s) = none ∧ lexIdentifier ('(' :: s) = none :=
  ⟨rfl, rfl⟩

/-- A text has at most one greedy derivation. -/
theorem Derives.unique {nt : Nonterminal} {s rest rest' : Input} {e e' : Expr}
    (h : Derives nt s e rest) (h' : Derives nt s e' rest') : e = e' ∧ rest = rest' := by
  induction h generalizing e' rest' with
  | integer lexed =>
      cases h' with
      | integer lexed' =>
          obtain ⟨rfl, rfl⟩ := Prod.mk.inj (Option.some.inj (lexed.symm.trans lexed'))
          exact ⟨rfl, rfl⟩
      | identifier other _ => simp [lexed] at other
      | group opened _ => simp [opened, (lexemes_opened _).1] at lexed
  | identifier other lexed =>
      cases h' with
      | integer lexed' => simp [other] at lexed'
      | identifier _ lexed' =>
          obtain ⟨rfl, rfl⟩ := Prod.mk.inj (Option.some.inj (lexed.symm.trans lexed'))
          exact ⟨rfl, rfl⟩
      | group opened _ => simp [opened, (lexemes_opened _).2] at lexed
  | group opened _ ih =>
      cases h' with
      | integer lexed' => simp [opened, (lexemes_opened _).1] at lexed'
      | identifier _ lexed' => simp [opened, (lexemes_opened _).2] at lexed'
      | group opened' inside =>
          obtain ⟨-, rfl⟩ := List.cons.inj (opened.symm.trans opened')
          obtain ⟨rfl, closed⟩ := ih inside
          obtain ⟨-, rfl⟩ := List.cons.inj closed
          exact ⟨rfl, rfl⟩
  | single _ stop ih =>
      cases h' with
      | single atom _ => exact ih atom
      | binary atom lexed _ =>
          obtain ⟨-, rfl⟩ := ih atom
          simp [stop] at lexed
  | binary _ lexed _ ihAtom ihExpr =>
      cases h' with
      | single atom stop =>
          obtain ⟨-, rfl⟩ := ihAtom atom
          simp [lexed] at stop
      | binary atom lexed' tail =>
          obtain ⟨rfl, rfl⟩ := ihAtom atom
          obtain ⟨rfl, rfl⟩ := Prod.mk.inj (Option.some.inj (lexed.symm.trans lexed'))
          obtain ⟨rfl, rfl⟩ := ihExpr tail
          exact ⟨rfl, rfl⟩

theorem DerivesAll.unique {s : Input} {es es' : List Expr} (h : DerivesAll s es)
    (h' : DerivesAll s es') : es = es' := by
  induction h generalizing es' with
  | nil stop =>
      cases h' with
      | nil _ => rfl
      | cons go _ _ => simp [stop] at go
  | cons go first _ ih =>
      cases h' with
      | nil stop => simp [stop] at go
      | cons _ first' others =>
          obtain ⟨rfl, rfl⟩ := first.unique first'
          rw [ih others]

end Uniqueness

end Amalgam.Parser
