/- Module: Amalgam/Peg/Basic
   digest: Parsing expressions with commitment, and what they make of an input. -/

import Mathlib.Data.List.Basic

set_option autoImplicit false
set_option relaxedAutoImplicit false

namespace Amalgam.Peg

section Expressions

/-- Parsing expressions over characters and names of rules. -/
inductive Expression (ι κ : Type) where
  | empty
  | char (p : κ → Bool)
  | call (i : ι)
  | seq (a b : Expression ι κ)
  | choice (a b : Expression ι κ)
  | star (a : Expression ι κ)
  | not (a : Expression ι κ)
  | commit (a : Expression ι κ)

/-- What is left of the input; a failure, which lets an alternative be tried; or the end
of everything. -/
inductive Result (κ : Type) where
  | ok (rest : List κ)
  | fail
  | abort

/-- What an expression makes of an input. Choice is ordered, repetition takes all it can,
and what is committed to does not fail. -/
inductive Parses {ι κ : Type} (rules : ι → Expression ι κ) :
    Expression ι κ → List κ → Result κ → Prop
  | empty (s : List κ) : Parses rules .empty s (.ok s)
  | char {p : κ → Bool} {c : κ} (s : List κ) : p c = true → Parses rules (.char p) (c :: s) (.ok s)
  | charNot {p : κ → Bool} {c : κ} (s : List κ) : p c = false →
      Parses rules (.char p) (c :: s) .fail
  | charEnd (p : κ → Bool) : Parses rules (.char p) [] .fail
  | call {i : ι} {s : List κ} {r : Result κ} : Parses rules (rules i) s r →
      Parses rules (.call i) s r
  | seq {a b : Expression ι κ} {s t : List κ} {r : Result κ} : Parses rules a s (.ok t) →
      Parses rules b t r → Parses rules (.seq a b) s r
  | seqFail {a : Expression ι κ} (b : Expression ι κ) {s : List κ} : Parses rules a s .fail →
      Parses rules (.seq a b) s .fail
  | seqAbort {a : Expression ι κ} (b : Expression ι κ) {s : List κ} : Parses rules a s .abort →
      Parses rules (.seq a b) s .abort
  | choice {a : Expression ι κ} (b : Expression ι κ) {s t : List κ} : Parses rules a s (.ok t) →
      Parses rules (.choice a b) s (.ok t)
  | choiceNext {a b : Expression ι κ} {s : List κ} {r : Result κ} : Parses rules a s .fail →
      Parses rules b s r → Parses rules (.choice a b) s r
  | choiceAbort {a : Expression ι κ} (b : Expression ι κ) {s : List κ} : Parses rules a s .abort →
      Parses rules (.choice a b) s .abort
  | starEnd {a : Expression ι κ} {s : List κ} : Parses rules a s .fail →
      Parses rules (.star a) s (.ok s)
  | starNext {a : Expression ι κ} {s t : List κ} {r : Result κ} : Parses rules a s (.ok t) →
      Parses rules (.star a) t r → Parses rules (.star a) s r
  | starAbort {a : Expression ι κ} {s : List κ} : Parses rules a s .abort →
      Parses rules (.star a) s .abort
  | not {a : Expression ι κ} {s t : List κ} : Parses rules a s (.ok t) →
    Parses rules (.not a) s .fail
  | notFail {a : Expression ι κ} {s : List κ} : Parses rules a s .fail →
      Parses rules (.not a) s (.ok s)
  | notAbort {a : Expression ι κ} {s : List κ} : Parses rules a s .abort →
      Parses rules (.not a) s .abort
  | commit {a : Expression ι κ} {s t : List κ} : Parses rules a s (.ok t) →
      Parses rules (.commit a) s (.ok t)
  | commitFail {a : Expression ι κ} {s : List κ} : Parses rules a s .fail →
      Parses rules (.commit a) s .abort
  | commitAbort {a : Expression ι κ} {s : List κ} : Parses rules a s .abort →
      Parses rules (.commit a) s .abort

end Expressions

section Determinism

variable {ι κ : Type} {rules : ι → Expression ι κ} {e : Expression ι κ} {s : List κ}
  {r r' : Result κ}

/-- An expression makes one thing of an input. -/
theorem Parses.unique (h : Parses rules e s r) (h' : Parses rules e s r') : r = r' := by
  induction h generalizing r' with
  | empty s => cases h'; rfl
  | char s holds =>
      cases h' with
      | char => rfl
      | charNot _ no => rw [holds] at no; cases no
  | charNot s no =>
      cases h' with
      | char _ holds => rw [no] at holds; cases holds
      | charNot => rfl
  | charEnd p => cases h'; rfl
  | call _ ih =>
      cases h' with
      | call h => exact ih h
  | seq _ _ ihFirst ihSecond =>
      cases h' with
      | seq first second =>
          cases ihFirst first
          exact ihSecond second
      | seqFail _ first => cases ihFirst first
      | seqAbort _ first => cases ihFirst first
  | seqFail b _ ih =>
      cases h' with
      | seq first _ => cases ih first
      | seqFail => rfl
      | seqAbort _ first => cases ih first
  | seqAbort b _ ih =>
      cases h' with
      | seq first _ => cases ih first
      | seqFail _ first => cases ih first
      | seqAbort => rfl
  | choice b _ ih =>
      cases h' with
      | choice _ first => exact ih first
      | choiceNext first _ => cases ih first
      | choiceAbort _ first => cases ih first
  | choiceNext _ _ ihFirst ihSecond =>
      cases h' with
      | choice _ first => cases ihFirst first
      | choiceNext _ second => exact ihSecond second
      | choiceAbort _ first => cases ihFirst first
  | choiceAbort b _ ih =>
      cases h' with
      | choice _ first => cases ih first
      | choiceNext first _ => cases ih first
      | choiceAbort => rfl
  | starEnd _ ih =>
      cases h' with
      | starEnd => rfl
      | starNext first _ => cases ih first
      | starAbort first => cases ih first
  | starNext _ _ ihFirst ihOthers =>
      cases h' with
      | starEnd first => cases ihFirst first
      | starNext first others =>
          cases ihFirst first
          exact ihOthers others
      | starAbort first => cases ihFirst first
  | starAbort _ ih =>
      cases h' with
      | starEnd first => cases ih first
      | starNext first _ => cases ih first
      | starAbort => rfl
  | not _ ih =>
      cases h' with
      | not => rfl
      | notFail h => cases ih h
      | notAbort h => cases ih h
  | notFail _ ih =>
      cases h' with
      | not h => cases ih h
      | notFail => rfl
      | notAbort h => cases ih h
  | notAbort _ ih =>
      cases h' with
      | not h => cases ih h
      | notFail h => cases ih h
      | notAbort => rfl
  | commit _ ih =>
      cases h' with
      | commit h => exact ih h
      | commitFail h => cases ih h
      | commitAbort h => cases ih h
  | commitFail _ ih =>
      cases h' with
      | commit h => cases ih h
      | commitFail => rfl
      | commitAbort => rfl
  | commitAbort _ ih =>
      cases h' with
      | commit h => cases ih h
      | commitFail => rfl
      | commitAbort => rfl

end Determinism

section Derived

variable {ι κ : Type} {rules : ι → Expression ι κ}

def Expression.seqs (es : List (Expression ι κ)) : Expression ι κ := es.foldr .seq .empty

def Expression.choices (es : List (Expression ι κ)) : Expression ι κ := es.foldr .choice
    (.not .empty)

def Expression.more : Expression ι κ := .not (.not (.char fun _ => true))

theorem parses_more (c : κ) (s : List κ) : Parses rules .more (c :: s) (.ok (c :: s)) :=
  .notFail (.not (.char s rfl))

private theorem parses_more_end : Parses rules .more [] .fail := .not (.notFail (.charEnd _))

theorem parses_guarded {e : Expression ι κ} {c : κ} {s : List κ} {r : Result κ}
    (h : Parses rules e (c :: s) r) : Parses rules (.seq .more e) (c :: s) r :=
  .seq (parses_more c s) h

theorem parses_guarded_end (e : Expression ι κ) : Parses rules (.seq .more e) [] .fail :=
  .seqFail e parses_more_end

end Derived

end Amalgam.Peg
