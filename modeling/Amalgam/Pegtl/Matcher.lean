/- Module: Amalgam/Pegtl/Matcher
   digest: The parsing expression templates as matchers over remaining input and user state. -/

import Mathlib.Data.List.Basic

set_option autoImplicit false
set_option relaxedAutoImplicit false

namespace Amalgam.Pegtl

abbrev Str := List Char

/-- Where a run stands: the characters between `m_run` and `m_end`. -/
abbrev Input := List Char

/-- What one call of `match` does. The states are those left behind, so a failed
call also reports the input and the user state it leaves. `parseError` carries the
input at the guard whose location is printed; `raised` is what an action threw.
`diverged` stands for a loop or recursion that outruns its fuel. -/
inductive Outcome (σ ε : Type) where
  | ok (rest : Input) (st : σ)
  | fail (rest : Input) (st : σ)
  | parseError (location : Input)
  | raised (e : ε)
  | diverged
  deriving DecidableEq

/-- A rule: the `Must` flag, the input and the states determine one outcome. -/
abbrev Matcher (σ ε : Type) := Bool → Input → σ → Outcome σ ε

variable {σ ε : Type}

/-- `basic_debug::match`: a failure under `Must` becomes a parse error located at
the input on entry. -/
def guarded (r : Matcher σ ε) : Matcher σ ε := fun must inp st =>
  match r must inp st with
  | .fail rest st' => if must then .parseError inp else .fail rest st'
  | o => o

/-- `forward_marker`: without `Must` a failure rewinds the input, never the state. -/
def marker (must : Bool) (inp : Input) : Outcome σ ε → Outcome σ ε
  | .fail rest st => .fail (if must then rest else inp) st
  | o => o

def character (p : Char → Bool) : Matcher σ ε := fun _ inp st =>
  match inp with
  | [] => .fail [] st
  | c :: rest => if p c then .ok rest st else .fail (c :: rest) st

def one (chars : Str) : Matcher σ ε := character (fun c => chars.contains c)

def range (lo hi : Char) : Matcher σ ε := character (fun c => lo ≤ c && c ≤ hi)

def eof : Matcher σ ε := fun _ inp st =>
  if inp.isEmpty then .ok inp st else .fail inp st

def seqMatch : List (Matcher σ ε) → Matcher σ ε
  | [] => fun _ inp st => .ok inp st
  | r :: rs => fun must inp st =>
      match guarded r must inp st with
      | .ok rest st' => seqMatch rs must rest st'
      | o => o

def seq (rs : List (Matcher σ ε)) : Matcher σ ε := fun must inp st =>
  marker (must || rs.tail.isEmpty) inp (seqMatch rs must inp st)

def opt (rs : List (Matcher σ ε)) : Matcher σ ε := fun _ inp st =>
  if inp.isEmpty then .ok inp st else
    match seq rs false inp st with
    | .fail rest st' => .ok rest st'
    | o => o

/-- The `while` of `star`. Every iteration that goes on has consumed input in the
grammars of interest, so the input length bounds the iterations. -/
def starLoop (r : Matcher σ ε) : Nat → Input → σ → Outcome σ ε
  | 0, _, _ => .diverged
  | n + 1, inp, st =>
      if inp.isEmpty then .ok inp st else
        match r false inp st with
        | .ok rest st' => starLoop r n rest st'
        | .fail rest st' => .ok rest st'
        | o => o

def star (rs : List (Matcher σ ε)) : Matcher σ ε := fun _ inp st =>
  starLoop (seq rs) (inp.length + 1) inp st

def plus (rs : List (Matcher σ ε)) : Matcher σ ε := fun must inp st =>
  match seq rs must inp st with
  | .ok rest st' => star rs must rest st'
  | o => o

/-- Ordered choice; the alternatives never inherit `Must`. -/
def sor : List (Matcher σ ε) → Matcher σ ε
  | [] => fun _ inp st => .fail inp st
  | r :: rs => fun _ inp st =>
      match guarded r false inp st with
      | .fail rest st' => sor rs false rest st'
      | o => o

def untilLoop (cond body : Matcher σ ε) (must : Bool) : Nat → Input → σ → Outcome σ ε
  | 0, _, _ => .diverged
  | n + 1, inp, st =>
      match guarded cond false inp st with
      | .fail rest st' =>
          if rest.isEmpty then .fail rest st' else
            match body must rest st' with
            | .ok rest' st'' => untilLoop cond body must n rest' st''
            | o => o
      | o => o

def untilRule (cond : Matcher σ ε) (rs : List (Matcher σ ε)) : Matcher σ ε :=
  fun must inp st =>
    marker must inp (untilLoop cond (seqMatch rs) must (inp.length + 1) inp st)

def consumed (inp rest : Input) : Str := inp.take (inp.length - rest.length)

def ifapply (r : Matcher σ ε) (act : Str → σ → Except ε σ) : Matcher σ ε :=
  fun must inp st =>
    marker false inp <|
      match r must inp st with
      | .ok rest st' =>
          match act (consumed inp rest) st' with
          | .ok st'' => .ok rest st''
          | .error e => .raised e
      | o => o

/-- `cond2impl`, with its own `Must` in place of the caller's. -/
def cond2impl (own : Bool) (cond : Matcher σ ε) (thens : List (Matcher σ ε)) :
    Matcher σ ε := fun _ inp st =>
  marker own inp <|
    match guarded cond false inp st with
    | .ok rest st' => seqMatch thens own rest st'
    | .fail rest st' => if own then .fail rest st' else .ok rest st'
    | o => o

def ifmust (cond : Matcher σ ε) (thens : List (Matcher σ ε)) : Matcher σ ε :=
  cond2impl true cond thens

def pad (r padding : Matcher σ ε) : Matcher σ ε := seq [star [padding], r, star [padding]]

/-- `list` with its default action `nop`, for which `ifapply` is the rule itself. -/
def list (r glue : Matcher σ ε) : Matcher σ ε := seq [r, star [ifmust glue [r]]]

def digit : Matcher σ ε := range '0' '9'

def lower : Matcher σ ε := range 'a' 'z'

def upper : Matcher σ ε := range 'A' 'Z'

def alpha : Matcher σ ε := sor [lower, upper]

def alnum : Matcher σ ε := sor [alpha, digit]

def space : Matcher σ ε := one [' ', '\n', '\r', '\t', '\x0b', '\x0c']

def lf : Matcher σ ε := one ['\n']

def cr : Matcher σ ε := one ['\r']

def crlf : Matcher σ ε := seq [cr, lf]

def eol : Matcher σ ε := sor [eof, crlf, lf, cr]

structure Location where
  line : Nat := 1
  column : Nat := 1
  deriving DecidableEq

def Location.advance (l : Location) (c : Char) : Location :=
  if c = '\n' then ⟨l.line + 1, 1⟩ else ⟨l.line, l.column + 1⟩

/-- The location at which a given suffix of the text remains. -/
def locate (text rest : Input) : Location :=
  (consumed text rest).foldl Location.advance {}

def parse (top : Matcher σ ε) (text : Str) (st : σ) : Outcome σ ε := guarded top true text st

end Amalgam.Pegtl
