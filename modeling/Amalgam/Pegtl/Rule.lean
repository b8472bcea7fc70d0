/- Module: Amalgam/Pegtl/Rule
   digest: The rule templates as syntax, and the matcher that each of them stands for. -/

import Amalgam.Pegtl.Matcher

set_option autoImplicit false
set_option relaxedAutoImplicit false

namespace Amalgam.Pegtl

section Outcomes

variable {σ ε : Type}

def Outcome.resume (o : Outcome σ ε) (onOk onFail : Input → σ → Outcome σ ε) : Outcome σ ε :=
  match o with
  | .ok rest st => onOk rest st
  | .fail rest st => onFail rest st
  | o => o

theorem guarded_resume (r : Matcher σ ε) (must : Bool) (inp : Input) (st : σ) :
    guarded r must inp st = (r must inp st).resume .ok fun rest st' =>
      if must then .parseError inp else .fail rest st' := by
  unfold guarded
  cases r must inp st <;> rfl

theorem marker_resume (must : Bool) (inp : Input) (o : Outcome σ ε) :
    marker must inp o = o.resume .ok fun rest st' => .fail (if must then rest else inp) st' := by
  cases o <;> rfl

theorem seqMatch_resume (r : Matcher σ ε) (rs : List (Matcher σ ε)) (must : Bool) (inp : Input)
    (st : σ) :
    seqMatch (r :: rs) must inp st = (guarded r must inp st).resume (seqMatch rs must) .fail := by
  simp only [seqMatch]
  cases guarded r must inp st <;> rfl

theorem opt_resume (rs : List (Matcher σ ε)) (must : Bool) (inp : Input) (st : σ) :
    opt rs must inp st = if inp.isEmpty then .ok inp st else
      (seq rs false inp st).resume .ok .ok := by
  rw [opt]
  cases seq rs false inp st <;> rfl

theorem starLoop_resume (r : Matcher σ ε) (n : Nat) (inp : Input) (st : σ) :
    starLoop r (n + 1) inp st =
      if inp.isEmpty then .ok inp st else (r false inp st).resume (starLoop r n) .ok := by
  rw [starLoop]
  cases r false inp st <;> rfl

theorem sor_resume (r : Matcher σ ε) (rs : List (Matcher σ ε)) (must : Bool) (inp : Input)
    (st : σ) :
    sor (r :: rs) must inp st = (guarded r false inp st).resume .ok (sor rs false) := by
  simp only [sor]
  cases guarded r false inp st <;> rfl

theorem untilLoop_resume (cond body : Matcher σ ε) (must : Bool) (n : Nat) (inp : Input) (st : σ) :
    untilLoop cond body must (n + 1) inp st =
      (guarded cond false inp st).resume .ok fun rest st' =>
        if rest.isEmpty then .fail rest st' else
          (body must rest st').resume (untilLoop cond body must n) .fail := by
  rw [untilLoop]
  cases guarded cond false inp st with
  | fail rest st' =>
      simp only [Outcome.resume]
      cases body must rest st' <;> rfl
  | _ => rfl

theorem ifapply_resume (r : Matcher σ ε) (act : Str → σ → Except ε σ) (must : Bool) (inp : Input)
    (st : σ) :
    ifapply r act must inp st = marker false inp ((r must inp st).resume (fun rest st' =>
      match act (consumed inp rest) st' with
      | .ok st'' => .ok rest st''
      | .error e => .raised e) .fail) := by
  rw [ifapply]
  cases r must inp st <;> rfl

theorem cond2impl_resume (own : Bool) (cond : Matcher σ ε) (thens : List (Matcher σ ε))
    (must : Bool) (inp : Input) (st : σ) :
    cond2impl own cond thens must inp st = marker own inp ((guarded cond false inp st).resume
      (seqMatch thens own) fun rest st' => if own then .fail rest st' else .ok rest st') := by
  rw [cond2impl]
  cases guarded cond false inp st <;> rfl

end Outcomes

section Templates

variable {σ ε : Type}

def success : Matcher σ ε := fun _ inp st => .ok inp st

def failure : Matcher σ ε := fun _ inp st => .fail inp st

def divergence : Matcher σ ε := fun _ _ _ => .diverged

def any : Matcher σ ε := character fun _ => true

/-- `string::i_match`: the characters are matched outside the debug guard. -/
def stringMatch : Str → Matcher σ ε
  | [] => success
  | c :: cs => fun must inp st => (one [c] must inp st).resume (stringMatch cs must) .fail

def string (s : Str) : Matcher σ ε := fun must inp st => marker must inp (stringMatch s must inp st)

def starFor (n : Nat) (rs : List (Matcher σ ε)) : Matcher σ ε := fun _ inp st =>
  starLoop (seq rs) n inp st

def plusFor (n : Nat) (rs : List (Matcher σ ε)) : Matcher σ ε := fun must inp st =>
  (seq rs must inp st).resume (starFor n rs must) .fail

def untilFor (n : Nat) (cond body : Matcher σ ε) : Matcher σ ε := fun must inp st =>
  marker must inp (untilLoop cond body must n inp st)

/-- The marker is never told of a success. -/
def atRule (r : Matcher σ ε) : Matcher σ ε := fun must inp st =>
  (guarded r must inp st).resume (fun _ st' => .ok inp st') fun _ st' => .fail inp st'

/-- The rule is matched under the opposite of `Must`. -/
def notAt (r : Matcher σ ε) : Matcher σ ε := fun must inp st =>
  (guarded r (!must) inp st).resume (fun _ st' => .fail inp st') fun _ st' => .ok inp st'

def repLoop (r : Input → σ → Outcome σ ε) : Nat → Input → σ → Outcome σ ε
  | 0, inp, st => .ok inp st
  | n + 1, inp, st => (r inp st).resume (repLoop r n) .fail

def rep (n : Nat) (rs : List (Matcher σ ε)) : Matcher σ ε := fun must inp st =>
  marker must inp (repLoop (seqMatch rs must) n inp st)

/-- The iterations of `rep2` that may be missing: what the first missing one has read
before it failed stays read. -/
def rep2Loop (r done : Input → σ → Outcome σ ε) : Nat → Input → σ → Outcome σ ε
  | 0, inp, st => done inp st
  | n + 1, inp, st => (r inp st).resume (rep2Loop r done n) .ok

def rep2 (n m : Nat) (rs : List (Matcher σ ε)) : Matcher σ ε := fun must inp st =>
  marker must inp ((repLoop (seqMatch rs must) n inp st).resume
    (rep2Loop (seqMatch rs must) (notAt (seq rs) must) (m - n)) .fail)

def mustRule (rs : List (Matcher σ ε)) : Matcher σ ε := fun _ inp st => seq rs true inp st

def cond3impl (own : Bool) (cond thenRule elseRule : Matcher σ ε) : Matcher σ ε :=
  fun _ inp st => marker own inp ((guarded cond false inp st).resume (guarded thenRule own)
    (guarded elseRule own))

def applyHelper {α : Type} (act : α → Str → σ → Except ε σ) (fs : List α) (s : Str) (st : σ) :
    Except ε σ :=
  fs.foldlM (fun st f => act f s st) st

def apply (act : Str → σ → Except ε σ) : Matcher σ ε := fun _ inp st =>
  match act [] st with
  | .ok st' => .ok inp st'
  | .error e => .raised e

end Templates

section Syntax

/-- The rule templates without `capture`, whose match reads the states, over the names of
the rules that are derived from a template and the names of the actions. A template that
has a specialisation is written as the rule which that inherits from. -/
inductive Rule (ι α : Type) where
  | success
  | failure
  | eof
  | character (p : Char → Bool)
  | string (s : Str)
  | seq (rs : List (Rule ι α))
  | opt (rs : List (Rule ι α))
  | star (rs : List (Rule ι α))
  | plus (rs : List (Rule ι α))
  | sor (rs : List (Rule ι α))
  | atRule (r : Rule ι α)
  | notAt (r : Rule ι α)
  | rep (n : Nat) (rs : List (Rule ι α))
  | rep2 (n m : Nat) (rs : List (Rule ι α))
  | mustRule (rs : List (Rule ι α))
  | untilAny (cond : Rule ι α)
  | untilRule (cond : Rule ι α) (rs : List (Rule ι α))
  | cond2impl (own : Bool) (cond : Rule ι α) (thens : List (Rule ι α))
  | cond3impl (own : Bool) (cond thenRule elseRule : Rule ι α)
  | apply (fs : List α)
  | ifapply (r : Rule ι α) (fs : List α)
  | call (i : ι)

variable {ι α σ ε : Type}

namespace Rule

section Meaning

variable (act : α → Str → σ → Except ε σ) (calls : ι → Matcher σ ε) (n : Nat)

mutual

/-- The `match` of a rule, given those of the rules it calls and a bound on the
iterations of each loop. -/
def meaning : Rule ι α → Matcher σ ε
  | success => Pegtl.success
  | failure => Pegtl.failure
  | eof => Pegtl.eof
  | character p => Pegtl.character p
  | string s => Pegtl.string s
  | seq rs => Pegtl.seq (meanings rs)
  | opt rs => Pegtl.opt (meanings rs)
  | star rs => starFor n (meanings rs)
  | plus rs => plusFor n (meanings rs)
  | sor rs => Pegtl.sor (meanings rs)
  | atRule r => Pegtl.atRule r.meaning
  | notAt r => Pegtl.notAt r.meaning
  | rep k rs => Pegtl.rep k (meanings rs)
  | rep2 k m rs => Pegtl.rep2 k m (meanings rs)
  | mustRule rs => Pegtl.mustRule (meanings rs)
  | untilAny cond => untilFor n cond.meaning any
  | untilRule cond rs => untilFor n cond.meaning (seqMatch (meanings rs))
  | cond2impl own cond thens => Pegtl.cond2impl own cond.meaning (meanings thens)
  | cond3impl own cond thenRule elseRule =>
      Pegtl.cond3impl own cond.meaning thenRule.meaning elseRule.meaning
  | apply fs => Pegtl.apply (applyHelper act fs)
  | ifapply r fs => Pegtl.ifapply r.meaning (applyHelper act fs)
  | call i => calls i

def meanings : List (Rule ι α) → List (Matcher σ ε)
  | [] => []
  | r :: rs => r.meaning :: meanings rs

end

end Meaning

def calls (act : α → Str → σ → Except ε σ) (rules : ι → Rule ι α) : Nat → ι → Matcher σ ε
  | 0, _ => divergence
  | n + 1, i => (rules i).meaning act (calls act rules n) n

/-- `Rule::match`, with a bound on the calls and on the iterations of each loop. -/
def run (act : α → Str → σ → Except ε σ) (rules : ι → Rule ι α) (n : Nat) (r : Rule ι α) :
    Matcher σ ε :=
  r.meaning act (calls act rules n) n

end Rule

end Syntax

end Amalgam.Pegtl
