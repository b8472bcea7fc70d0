/- Module: Amalgam/Parser/Lexemes
   digest: The greedy lexemes of the grammar, and the token rules as reading one lexeme. -/

import Amalgam.Pegtl.Scan
import Amalgam.Parser.Rules

set_option autoImplicit false
set_option relaxedAutoImplicit false

namespace Amalgam.Parser

open Amalgam.Pegtl
open Amalgam.Cxx (isSpace)

def isSign (c : Char) : Bool := ['+', '-'].contains c

def isDigit (c : Char) : Bool := '0' ≤ c && c ≤ '9'

def isAlpha (c : Char) : Bool := ('a' ≤ c && c ≤ 'z') || ('A' ≤ c && c ≤ 'Z')

def isIdentStart (c : Char) : Bool := isAlpha c || ['_'].contains c

def isIdentChar (c : Char) : Bool := (isAlpha c || isDigit c) || ['_'].contains c

def isOpChar (c : Char) : Bool := Rules.operatorChars.contains c

def skip (s : Input) : Input := s.dropWhile isSpace

def takeSign : Input → Str × Input
  | [] => ([], [])
  | c :: s => if isSign c then ([c], s) else ([], c :: s)

/-- The longest literal in front: a sign, digits, and a run of letters. -/
def lexInteger (s : Input) : Option (Str × Input) :=
  let signed := takeSign s
  let rest := signed.2.dropWhile isDigit
  if (signed.2.takeWhile isDigit).isEmpty then none
  else some (signed.1 ++ signed.2.takeWhile isDigit ++ rest.takeWhile isAlpha,
    rest.dropWhile isAlpha)

def lexIdentifier : Input → Option (Str × Input)
  | [] => none
  | c :: s =>
      if isIdentStart c then
        some ((c :: s).takeWhile isIdentChar, (c :: s).dropWhile isIdentChar)
      else none

def lexOp (s : Input) : Option (Str × Input) :=
  if (s.takeWhile isOpChar).isEmpty then none
  else some (s.takeWhile isOpChar, s.dropWhile isOpChar)

/-- The rule reads the lexeme that the lexer splits off, and fails when there is none. -/
structure Lexes {σ ε : Type} (r : Matcher σ ε) (lex : Input → Option (Str × Input)) : Prop where
  scans : Scans r (fun s => (lex s).map Prod.snd)
  split : ∀ s tok rest, lex s = some (tok, rest) → s = tok ++ rest

private theorem takeSign_append (s : Input) : (takeSign s).1 ++ (takeSign s).2 = s := by
  cases s with
  | nil => rfl
  | cons c s =>
      simp only [takeSign]
      split <;> rfl

theorem lexInteger_split (s : Input) (tok : Str) (rest : Input)
    (h : lexInteger s = some (tok, rest)) : s = tok ++ rest := by
  simp only [lexInteger] at h
  split at h
  · simp at h
  · obtain ⟨rfl, rfl⟩ := Prod.mk.inj (Option.some.inj h)
    simp only [List.append_assoc, List.takeWhile_append_dropWhile, takeSign_append]

theorem lexIdentifier_split (s : Input) (tok : Str) (rest : Input)
    (h : lexIdentifier s = some (tok, rest)) : s = tok ++ rest := by
  cases s with
  | nil => simp [lexIdentifier] at h
  | cons c s =>
      simp only [lexIdentifier] at h
      split at h
      · obtain ⟨rfl, rfl⟩ := Prod.mk.inj (Option.some.inj h)
        exact (List.takeWhile_append_dropWhile).symm
      · simp at h

theorem lexOp_split (s : Input) (tok : Str) (rest : Input)
    (h : lexOp s = some (tok, rest)) : s = tok ++ rest := by
  simp only [lexOp] at h
  split at h
  · simp at h
  · obtain ⟨rfl, rfl⟩ := Prod.mk.inj (Option.some.inj h)
    exact (List.takeWhile_append_dropWhile).symm

section

variable {σ ε : Type}

private theorem sign_scans : Scans (one ['+', '-'] : Matcher σ ε)
    (charStep isSign) := character_scans _

private theorem digit_scans : Scans (digit : Matcher σ ε) (charStep isDigit) := character_scans _

private theorem alpha_scans : Scans (alpha : Matcher σ ε) (charStep isAlpha) :=
  (character_scans _).sor_char (character_scans _)

private theorem identStart_scans : Scans (sor [alpha, one ['_']] : Matcher σ ε)
    (charStep isIdentStart) :=
  alpha_scans.sor_char (character_scans _)

private theorem identChar_scans : Scans (sor [alnum, one ['_']] : Matcher σ ε)
    (charStep isIdentChar) :=
  (alpha_scans.sor_char digit_scans).sor_char (character_scans _)

theorem space_scans : Scans (space : Matcher σ ε) (charStep isSpace) := character_scans _

private theorem opChar_scans : Scans (one Rules.operatorChars : Matcher σ ε) (charStep isOpChar) :=
  character_scans _

private theorem takeSign_snd (s : Input) : (charStep isSign s).getD s = (takeSign s).2 := by
  cases s with
  | nil => rfl
  | cons c s => cases h : isSign c <;> simp [charStep, takeSign, h]

theorem literalInteger_lexes : Lexes (Rules.literalInteger : Matcher σ ε) lexInteger where
  scans := by
    have parts := (sign_scans (σ := σ) (ε := ε)).opt rfl |>.seq_three digit_scans.plus
      (alpha_scans.plus.opt rfl)
    refine parts.congr fun s => ?_
    simp only [Option.bind_some, takeSign_snd, charRun_eq isDigit, lexInteger]
    split
    · rfl
    · simp only [Option.bind_some, charRun_getD, Option.map_some]
  split := lexInteger_split

theorem isIdentChar_of_start {c : Char} (h : isIdentStart c = true) : isIdentChar c = true := by
  simp only [isIdentStart, isIdentChar, Bool.or_eq_true] at h ⊢
  tauto

theorem dropWhile_dropWhile_of_imp {α : Type} {p q : α → Bool} (h : ∀ a, p a = true → q a = true)
    (l : List α) : (l.dropWhile p).dropWhile q = l.dropWhile q := by
  induction l with
  | nil => rfl
  | cons a l ih =>
      cases hp : p a with
      | false => simp [hp]
      | true => simp [hp, h a hp, ih]

private theorem identifier_lexes : Lexes (Rules.identifier : Matcher σ ε) lexIdentifier where
  scans := by
    have parts := (identStart_scans (σ := σ) (ε := ε)).plus.seq_two identChar_scans.star
    refine parts.congr fun s => ?_
    cases s with
    | nil => rfl
    | cons c s =>
        cases hc : isIdentStart c with
        | false => simp [charRun, charStep, lexIdentifier, hc]
        | true =>
            simp [charRun, charStep, lexIdentifier, hc, isIdentChar_of_start hc,
              dropWhile_dropWhile_of_imp (fun _ => isIdentChar_of_start)]
  split := lexIdentifier_split

private theorem literalOp_lexes : Lexes (Rules.literalOp : Matcher σ ε) lexOp where
  scans := by
    refine opChar_scans.plus.congr fun s => ?_
    simp only [charRun_eq, lexOp]
    split <;> rfl
  split := lexOp_split

private theorem Lexes.pad_ifapply {r : Matcher σ ε} {lex : Input → Option (Str × Input)}
    (hr : Lexes r lex) (act : Str → σ → σ) (inp : Input) (st : σ) :
    pad (ifapply r (fun s st => .ok (act s st))) space false inp st =
      match lex (skip inp) with
      | some (tok, rest) => .ok (skip rest) (act tok st)
      | none => .fail inp st := by
  rw [pad_char space_scans, hr.scans.ifapply]
  show _ = match lex (inp.dropWhile isSpace) with
    | some (tok, rest) => _
    | none => _
  cases h : lex (inp.dropWhile isSpace) with
  | none => rfl
  | some found =>
      obtain ⟨tok, rest⟩ := found
      have text : consumed (inp.dropWhile isSpace) rest = tok := by
        rw [hr.split _ _ _ h, consumed_append]
      simp only [Option.map_some, text]
      rfl

variable (A : Actions σ ε)

theorem pushInteger_eq (inp : Input) (st : σ) :
    Rules.pushInteger A false inp st =
      match lexInteger (skip inp) with
      | some (tok, rest) => .ok (skip rest) (A.push .literalInt tok st)
      | none => .fail inp st :=
  literalInteger_lexes.pad_ifapply (A.push .literalInt) inp st

theorem pushIdentifier_eq (inp : Input) (st : σ) :
    Rules.pushIdentifier A false inp st =
      match lexIdentifier (skip inp) with
      | some (tok, rest) => .ok (skip rest) (A.push .identifier tok st)
      | none => .fail inp st :=
  identifier_lexes.pad_ifapply (A.push .identifier) inp st

theorem pushOp_eq (inp : Input) (st : σ) :
    Rules.pushOp A false inp st =
      match lexOp (skip inp) with
      | some (tok, rest) => .ok (skip rest) (A.push .op tok st)
      | none => .fail inp st :=
  literalOp_lexes.pad_ifapply (A.push .op) inp st

end

end Amalgam.Parser
