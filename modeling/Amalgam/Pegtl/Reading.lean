/- Module: Amalgam/Pegtl/Reading
   digest: A rule matches what the parsing expression it is written for says. -/

import Amalgam.Peg.Basic
import Amalgam.Pegtl.Contract
import Amalgam.Pegtl.Must

set_option autoImplicit false
set_option relaxedAutoImplicit false

namespace Amalgam.Pegtl

open Amalgam.Peg (Expression Result Parses)

section Expressions

variable {ι α : Type}

mutual

/-- The parsing expression of a rule. Repetitions and options are not tried at the end of
the input, and what is behind a condition with `Must` is committed to. -/
def Rule.expression : Rule ι α → Expression ι Char
  | .success => .empty
  | .failure => .not .empty
  | .eof => .not (.char fun _ => true)
  | .character p => .char p
  | .string s => .seqs (s.map fun c => .char fun d => [c].contains d)
  | .seq rs => .seqs (expressions rs)
  | .opt rs => .choice (.seq .more (.seqs (expressions rs))) .empty
  | .star rs => .star (.seq .more (.seqs (expressions rs)))
  | .plus rs => .seq (.seqs (expressions rs)) (.star (.seq .more (.seqs (expressions rs))))
  | .sor rs => .choices (expressions rs)
  | .atRule r => .not (.not r.expression)
  | .notAt r => .not r.expression
  | .rep n rs => .seqs (List.replicate n (.seqs (expressions rs)))
  | .rep2 n m rs => .seqs (List.replicate n (.seqs (expressions rs)) ++
      List.replicate (m - n) (.choice (.seqs (expressions rs)) .empty) ++
      [.not (.seqs (expressions rs))])
  | .mustRule rs => .commit (.seqs (expressions rs))
  | .untilAny cond => .seq (.star (.seq (.not cond.expression) (.seq .more (.char fun _ => true))))
      cond.expression
  | .untilRule cond rs =>
      .seq (.star (.seq (.not cond.expression) (.seq .more (.seqs (expressions rs)))))
        cond.expression
  | .cond2impl true cond thens => .seq cond.expression (.commit (.seqs (expressions thens)))
  | .cond2impl false cond thens =>
      .choice (.seq cond.expression (.seqs (expressions thens))) (.not cond.expression)
  | .cond3impl true cond r s => .choice (.seq cond.expression (.commit r.expression))
      (.seq (.not cond.expression) (.commit s.expression))
  | .cond3impl false cond r s => .choice (.seq cond.expression r.expression)
      (.seq (.not cond.expression) s.expression)
  | .apply _ => .empty
  | .ifapply r _ => r.expression
  | .call i => .call i

def expressions : List (Rule ι α) → List (Expression ι Char)
  | [] => []
  | r :: rs => r.expression :: expressions rs

end

end Expressions

section Outcomes

variable {ι σ ε : Type} {rules : ι → Expression ι Char} {a b e : Expression ι Char}
  {inp rest : Input} {o o' : Outcome σ ε} {k f : Input → σ → Outcome σ ε}

/-- The outcome is what the expression makes of the input: an exception of an action says
nothing about it, and neither does a match that does not end. -/
def Reads (rules : ι → Expression ι Char) (e : Expression ι Char) (inp : Input) :
    Outcome σ ε → Prop
  | .ok rest _ => Parses rules e inp (.ok rest)
  | .fail _ _ => Parses rules e inp .fail
  | .parseError _ => Parses rules e inp .abort
  | _ => True

theorem Reads.map (h : Reads rules a rest o)
    (step : ∀ r, Parses rules a rest r → Parses rules e inp r) : Reads rules e inp o := by
  cases o with
  | ok rest' st => exact step _ h
  | fail rest' st => exact step _ h
  | parseError l => exact step _ h
  | _ => trivial

theorem Reads.marker (h : Reads rules e inp o) (must : Bool) (start : Input) :
    Reads rules e inp (marker must start o) := by
  cases o with
  | _ => exact h

private theorem Reads.committed (h : Reads rules e inp o) (agrees : Agrees o o')
    (strict : Unfailing inp o') : Reads rules (.commit e) inp o' := by
  cases o with
  | ok rest st =>
      obtain rfl : o' = .ok rest st := agrees
      exact Parses.commit h
  | fail rest st =>
      rcases agrees with ⟨rest', st', rfl⟩ | ⟨l, rfl⟩
      · exact strict.elim
      · exact Parses.commitFail h
  | parseError l =>
      obtain rfl : o' = .parseError l := agrees
      exact Parses.commitAbort h
  | _ =>
      obtain rfl := agrees
      trivial

end Outcomes

section Templates

variable {ι σ ε : Type} {rules : ι → Expression ι Char} {a b c e : Expression ι Char}
  {es : List (Expression ι Char)} {r s cond : Matcher σ ε} {rs : List (Matcher σ ε)}

/-- A matcher that keeps to the contract, for which `Must` is an optimisation, and that
does without it what the expression says. -/
structure Meets (rules : ι → Expression ι Char) (r : Matcher σ ε) (e : Expression ι Char) :
    Prop where
  contract : Contract r
  uniform : Uniform r
  reads : ∀ inp st, Reads rules e inp (r false inp st)

theorem Meets.resume (h : Meets rules r a) {k f : Input → σ → Outcome σ ε} (inp : Input) (st : σ)
    (onOk : ∀ rest st', Parses rules a inp (.ok rest) → Reads rules e inp (k rest st'))
    (onFail : ∀ st', Parses rules a inp .fail → Reads rules e inp (f inp st'))
    (onAbort : Parses rules a inp .abort → Parses rules e inp .abort) :
    Reads rules e inp ((r false inp st).resume k f) := by
  have kept := h.contract false inp st
  have reads := h.reads inp st
  cases run : r false inp st with
  | ok rest st' =>
      rw [run] at reads
      exact onOk rest st' reads
  | fail rest st' =>
      rw [run] at reads kept
      obtain rfl := kept.2 rfl
      exact onFail st' reads
  | parseError l =>
      rw [run] at reads
      exact onAbort reads
  | _ => trivial

theorem Meets.guarded_true (h : Meets rules r e) (inp : Input) (st : σ) :
    Reads rules (.commit e) inp (guarded r true inp st) := by
  have agrees := h.uniform.guarded inp st
  rw [guarded_false] at agrees
  exact (h.reads inp st).committed agrees (h.contract.guarded_true inp st)

private theorem contracts (h : List.Forall₂ (Meets rules) rs es) : ∀ r ∈ rs, Contract r :=
  forall_of_forall₂ (h.imp fun _ _ meets => meets.contract)

theorem uniforms (h : List.Forall₂ (Meets rules) rs es) : ∀ r ∈ rs, Uniform r :=
  forall_of_forall₂ (h.imp fun _ _ meets => meets.uniform)

theorem seqMatch_reads (h : List.Forall₂ (Meets rules) rs es) (inp : Input) (st : σ) :
    Reads rules (.seqs es) inp (seqMatch rs false inp st) := by
  induction h generalizing inp st with
  | nil => exact Parses.empty inp
  | @cons r e rs es first _ ih =>
      rw [seqMatch_resume, guarded_false]
      refine first.resume inp st ?_ ?_ ?_
      · intro rest st' matched
        exact (ih rest st').map fun _ others => .seq matched others
      · intro st' failed
        exact Parses.seqFail _ failed
      · exact Parses.seqAbort _

private theorem seqMatch_committed (h : List.Forall₂ (Meets rules) rs es) (inp : Input) (st : σ) :
    Reads rules (.commit (.seqs es)) inp (seqMatch rs true inp st) :=
  (seqMatch_reads h inp st).committed (seqMatch_uniform (uniforms h) inp st)
    (seqMatch_unfailing (contracts h) inp st)

theorem seq_meets (h : List.Forall₂ (Meets rules) rs es) : Meets rules (seq rs) (.seqs es) where
  contract := seq_contract (contracts h)
  uniform := seq_uniform (uniforms h)
  reads := fun inp st => (seqMatch_reads h inp st).marker _ inp

private theorem opt_reads (h : List.Forall₂ (Meets rules) rs es) (inp : Input) (st : σ) :
    Reads rules (.choice (.seq .more (.seqs es)) .empty) inp (opt rs false inp st) := by
  rw [opt_resume]
  cases inp with
  | nil => exact Parses.choiceNext (Peg.parses_guarded_end _) (.empty [])
  | cons x inp =>
      refine (seq_meets h).resume (x :: inp) st ?_ ?_ ?_
      · intro rest st' matched
        exact Parses.choice _ (Peg.parses_guarded matched)
      · intro st' failed
        exact Parses.choiceNext (Peg.parses_guarded failed) (.empty _)
      · intro aborted
        exact Parses.choiceAbort _ (Peg.parses_guarded aborted)

private theorem starLoop_reads (h : Meets rules r e) (n : Nat) (inp : Input) (st : σ) :
    Reads rules (.star (.seq .more e)) inp (starLoop r n inp st) := by
  induction n generalizing inp st with
  | zero => trivial
  | succ n ih =>
      rw [starLoop_resume]
      cases inp with
      | nil => exact Parses.starEnd (Peg.parses_guarded_end e)
      | cons x inp =>
          refine h.resume (x :: inp) st ?_ ?_ ?_
          · intro rest st' matched
            exact (ih rest st').map fun _ others => .starNext (Peg.parses_guarded matched) others
          · intro st' failed
            exact Parses.starEnd (Peg.parses_guarded failed)
          · intro aborted
            exact Parses.starAbort (Peg.parses_guarded aborted)

private theorem plusFor_reads (n : Nat) (h : List.Forall₂ (Meets rules) rs es) (inp : Input)
    (st : σ) :
    Reads rules (.seq (.seqs es) (.star (.seq .more (.seqs es)))) inp
      (plusFor n rs false inp st) := by
  refine (seq_meets h).resume inp st ?_ ?_ ?_
  · intro rest st' matched
    exact (starLoop_reads (seq_meets h) n rest st').map fun _ others => .seq matched others
  · intro st' failed
    exact Parses.seqFail _ failed
  · exact Parses.seqAbort _

private theorem sor_reads (h : List.Forall₂ (Meets rules) rs es) (inp : Input) (st : σ) :
    Reads rules (.choices es) inp (sor rs false inp st) := by
  induction h generalizing st with
  | nil => exact Parses.not (.empty inp)
  | @cons r e rs es first _ ih =>
      rw [sor_resume, guarded_false]
      refine first.resume inp st ?_ ?_ ?_
      · intro rest st' matched
        exact Parses.choice _ matched
      · intro st' failed
        exact (ih st').map fun _ others => .choiceNext failed others
      · exact Parses.choiceAbort _

private theorem atRule_reads (h : Meets rules r e) (inp : Input) (st : σ) :
    Reads rules (.not (.not e)) inp (atRule r false inp st) := by
  rw [atRule, guarded_false]
  refine h.resume inp st ?_ ?_ ?_
  · intro rest st' matched
    exact Parses.notFail (.not matched)
  · intro st' failed
    exact Parses.not (.notFail failed)
  · intro aborted
    exact Parses.notAbort (.notAbort aborted)

private theorem repLoop_reads (h : List.Forall₂ (Meets rules) rs es) (n : Nat) (inp : Input)
    (st : σ) :
    Reads rules (.seqs (List.replicate n (.seqs es))) inp
      (repLoop (seqMatch rs false) n inp st) := by
  induction n generalizing inp st with
  | zero => exact Parses.empty inp
  | succ n ih =>
      have reads := seqMatch_reads h inp st
      rw [repLoop]
      cases run : seqMatch rs false inp st with
      | ok rest st' =>
          rw [run] at reads
          exact (ih rest st').map fun _ others => .seq reads others
      | fail rest st' =>
          rw [run] at reads
          exact Parses.seqFail _ reads
      | parseError l =>
          rw [run] at reads
          exact Parses.seqAbort _ reads
      | _ => trivial

private theorem mustRule_reads (h : List.Forall₂ (Meets rules) rs es) (inp : Input) (st : σ) :
    Reads rules (.commit (.seqs es)) inp (mustRule rs false inp st) := by
  rw [mustRule, seq, Bool.true_or, marker_true]
  exact seqMatch_committed h inp st

private theorem parses_again {inp t : Input} {q : Result Char} (next : Parses rules a inp (.ok t))
    (others : Parses rules (.seq (.star a) c) t q) : Parses rules (.seq (.star a) c) inp q := by
  cases others with
  | seq loop last => exact .seq (.starNext next loop) last
  | seqFail _ loop => exact .seqFail _ (.starNext next loop)
  | seqAbort _ loop => exact .seqAbort _ (.starNext next loop)

private theorem untilLoop_reads (hc : Meets rules cond c)
    (body : ∀ x inp st, Reads rules b (x :: inp) (r false (x :: inp) st)) (n : Nat) (inp : Input)
    (st : σ) :
    Reads rules (.seq (.star (.seq (.not c) (.seq .more b))) c) inp
      (untilLoop cond r false n inp st) := by
  induction n generalizing inp st with
  | zero => trivial
  | succ n ih =>
      rw [untilLoop_resume, guarded_false]
      refine hc.resume inp st ?_ ?_ ?_
      · intro rest st' matched
        exact Parses.seq (.starEnd (.seqFail _ (.not matched))) matched
      · intro st' failed
        have behind : Parses rules (.not c) inp (.ok inp) := .notFail failed
        cases inp with
        | nil =>
            have stop : Parses rules (.seq (.not c) (.seq .more b)) [] .fail :=
              .seq behind (Peg.parses_guarded_end b)
            exact Parses.seq (.starEnd stop) failed
        | cons x inp =>
            have reads := body x inp st'
            show Reads rules _ (x :: inp) ((r false (x :: inp) st').resume _ _)
            cases run : r false (x :: inp) st' with
            | ok rest st'' =>
                rw [run] at reads
                exact (ih rest st'').map fun _ others =>
                  parses_again (.seq behind (Peg.parses_guarded reads)) others
            | fail rest st'' =>
                rw [run] at reads
                exact Parses.seq (.starEnd (.seq behind (Peg.parses_guarded reads))) failed
            | parseError l =>
                rw [run] at reads
                exact Parses.seqAbort _ (.starAbort (.seq behind (Peg.parses_guarded reads)))
            | _ => trivial
      · intro aborted
        exact Parses.seqAbort _ (.starAbort (.seqAbort _ (.notAbort aborted)))

private theorem cond2impl_true_reads (hc : Meets rules cond c)
    (h : List.Forall₂ (Meets rules) rs es) (must : Bool) (inp : Input) (st : σ) :
    Reads rules (.seq c (.commit (.seqs es))) inp (cond2impl true cond rs must inp st) := by
  rw [cond2impl_resume, guarded_false]
  refine Reads.marker ?_ true inp
  refine hc.resume inp st ?_ ?_ ?_
  · intro rest st' matched
    exact (seqMatch_committed h rest st').map fun _ others => .seq matched others
  · intro st' failed
    exact Parses.seqFail _ failed
  · exact Parses.seqAbort _

private theorem cond2impl_false_reads (hc : Meets rules cond c)
    (h : List.Forall₂ (Meets rules) rs es) (must : Bool) (inp : Input) (st : σ) :
    Reads rules (.choice (.seq c (.seqs es)) (.not c)) inp
      (cond2impl false cond rs must inp st) := by
  rw [cond2impl_resume, guarded_false]
  refine Reads.marker ?_ false inp
  refine hc.resume inp st ?_ ?_ ?_
  · intro rest st' matched
    refine (seqMatch_reads h rest st').map ?_
    intro q others
    have first : Parses rules (.seq c (.seqs es)) inp q := .seq matched others
    cases q with
    | ok t => exact .choice _ first
    | fail => exact .choiceNext first (.not matched)
    | abort => exact .choiceAbort _ first
  · intro st' failed
    exact Parses.choiceNext (.seqFail _ failed) (.notFail failed)
  · intro aborted
    exact Parses.choiceAbort _ (.seqAbort _ aborted)

private theorem cond3impl_reads (own : Bool) (hc : Meets rules cond c) {er es : Expression ι Char}
    (first : ∀ inp st, Reads rules er inp (guarded r own inp st))
    (second : ∀ inp st, Reads rules es inp (guarded s own inp st)) (must : Bool) (inp : Input)
    (st : σ) :
    Reads rules (.choice (.seq c er) (.seq (.not c) es)) inp
      (cond3impl own cond r s must inp st) := by
  rw [cond3impl, guarded_false]
  refine Reads.marker ?_ own inp
  refine hc.resume inp st ?_ ?_ ?_
  · intro rest st' matched
    refine (first rest st').map ?_
    intro q others
    have taken : Parses rules (.seq c er) inp q := .seq matched others
    cases q with
    | ok t => exact .choice _ taken
    | fail => exact .choiceNext taken (.seqFail _ (.not matched))
    | abort => exact .choiceAbort _ taken
  · intro st' failed
    exact (second inp st').map fun _ others =>
      .choiceNext (.seqFail _ failed) (.seq (.notFail failed) others)
  · intro aborted
    exact Parses.choiceAbort _ (.seqAbort _ aborted)

private theorem ifapply_reads (h : Meets rules r e) (act : Str → σ → Except ε σ) (inp : Input)
    (st : σ) :
    Reads rules e inp (ifapply r act false inp st) := by
  rw [ifapply_resume]
  refine Reads.marker ?_ false inp
  refine h.resume inp st ?_ ?_ id
  · intro rest st' matched
    cases act (consumed inp rest) st' with
    | ok st'' => exact matched
    | error e => trivial
  · intro st' failed
    exact failed

private theorem apply_reads (act : Str → σ → Except ε σ) (must : Bool) (inp : Input) (st : σ) :
    Reads rules .empty inp (apply act must inp st) := by
  rw [apply]
  cases act [] st with
  | ok st' => exact Parses.empty inp
  | error e => trivial

theorem character_reads (p : Char → Bool) (must : Bool) (inp : Input) (st : σ) :
    Reads rules (.char p) inp (character p must inp st : Outcome σ ε) := by
  cases inp with
  | nil => exact Parses.charEnd p
  | cons x inp =>
      rw [character]
      cases holds : p x with
      | true => exact Parses.char inp holds
      | false => exact Parses.charNot inp holds

private theorem stringMatch_reads (w : Str) (inp : Input) (st : σ) :
    Reads rules (.seqs (w.map fun x => .char fun d => [x].contains d)) inp
      (stringMatch w false inp st : Outcome σ ε) := by
  induction w generalizing inp st with
  | nil => exact Parses.empty inp
  | cons x w ih =>
      have meets : Meets rules (one [x] : Matcher σ ε) (.char fun d => [x].contains d) :=
        ⟨character_contract _, character_uniform _, character_reads _ false⟩
      refine meets.resume inp st ?_ ?_ ?_
      · intro rest st' matched
        exact (ih rest st').map fun _ others => .seq matched others
      · intro st' failed
        exact Parses.seqFail _ failed
      · exact Parses.seqAbort _

private theorem eof_reads (must : Bool) (inp : Input) (st : σ) :
    Reads rules (.not (.char fun _ => true)) inp (eof must inp st : Outcome σ ε) := by
  cases inp with
  | nil => exact Parses.notFail (.charEnd _)
  | cons x inp => exact Parses.not (.char inp rfl)

end Templates

section Rules

variable {ι α σ ε : Type} {act : α → Str → σ → Except ε σ} {n : Nat} {calls : ι → Matcher σ ε}
  {rules : ι → Expression ι Char}

theorem upright_and {b c : Bool} (h : (b && c) = true) : b = true ∧ c = true :=
  Bool.and_eq_true_iff.mp h

mutual

theorem meaning_meets (called : ∀ i, Meets rules (calls i) (.call i)) :
    ∀ r : Rule ι α, r.upright = true → Meets rules (r.meaning act calls n) r.expression :=
  fun r hr =>
    { contract := meaning_contract act n (fun i => (called i).contract) r
      uniform := meaning_uniform act n (fun i => (called i).uniform) hr
      reads := meaning_reads called r hr }

theorem meaning_reads (called : ∀ i, Meets rules (calls i) (.call i)) :
    ∀ r : Rule ι α, r.upright = true → ∀ inp st,
      Reads rules r.expression inp (r.meaning act calls n false inp st)
  | .success, _ => fun inp _ => Parses.empty inp
  | .failure, _ => fun inp _ => Parses.not (.empty inp)
  | .eof, _ => eof_reads false
  | .character p, _ => character_reads p false
  | .string s, _ => fun inp st => (stringMatch_reads s inp st).marker false inp
  | .seq rs, h => (seq_meets (meanings_meet called rs h)).reads
  | .opt rs, h => opt_reads (meanings_meet called rs h)
  | .star rs, h => starLoop_reads (seq_meets (meanings_meet called rs h)) n
  | .plus rs, h => plusFor_reads n (meanings_meet called rs h)
  | .sor rs, h => sor_reads (meanings_meet called rs h)
  | .atRule r, h => atRule_reads (meaning_meets called r h)
  | .rep k rs, h => fun inp st =>
      (repLoop_reads (meanings_meet called rs h) k inp st).marker false inp
  | .mustRule rs, h => mustRule_reads (meanings_meet called rs h)
  | .untilAny c, h => fun inp st =>
      (untilLoop_reads (meaning_meets called c h)
        (fun x inp st => character_reads _ false (x :: inp) st) n inp st).marker false inp
  | .untilRule c rs, h => fun inp st =>
      (untilLoop_reads (meaning_meets called c (upright_and h).1)
        (fun x inp st => seqMatch_reads (meanings_meet called rs (upright_and h).2) (x :: inp) st)
        n inp st).marker false inp
  | .cond2impl true c rs, h =>
      cond2impl_true_reads (meaning_meets called c (upright_and h).1)
        (meanings_meet called rs (upright_and h).2) false
  | .cond2impl false c rs, h =>
      cond2impl_false_reads (meaning_meets called c (upright_and h).1)
        (meanings_meet called rs (upright_and h).2) false
  | .cond3impl true c r s, h =>
      cond3impl_reads true (meaning_meets called c (upright_and h).1)
        (meaning_meets called r (upright_and (upright_and h).2).1).guarded_true
        (meaning_meets called s (upright_and (upright_and h).2).2).guarded_true false
  | .cond3impl false c r s, h =>
      cond3impl_reads false (meaning_meets called c (upright_and h).1)
        (fun inp st => guarded_false (r.meaning act calls n) ▸
          (meaning_meets called r (upright_and (upright_and h).2).1).reads inp st)
        (fun inp st => guarded_false (s.meaning act calls n) ▸
          (meaning_meets called s (upright_and (upright_and h).2).2).reads inp st) false
  | .apply fs, _ => apply_reads (applyHelper act fs) false
  | .ifapply r fs, h => ifapply_reads (meaning_meets called r h) (applyHelper act fs)
  | .call i, _ => (called i).reads

theorem meanings_meet (called : ∀ i, Meets rules (calls i) (.call i)) :
    ∀ rs : List (Rule ι α), uprights rs = true →
      List.Forall₂ (Meets rules) (Rule.meanings act calls n rs) (expressions rs)
  | [], _ => .nil
  | r :: rs, h => .cons (meaning_meets called r (upright_and h).1)
      (meanings_meet called rs (upright_and h).2)

end

section Runs

variable {names : ι → Rule ι α}

theorem calls_meet (act : α → Str → σ → Except ε σ) (upright : ∀ i, (names i).upright = true)
    (n : Nat) (i : ι) :
    Meets (fun i => (names i).expression) (Rule.calls act names n i) (.call i) := by
  induction n generalizing i with
  | zero => exact ⟨fun _ _ _ => trivial, fun _ _ => rfl, fun _ _ => trivial⟩
  | succ n ih =>
      have body : Meets (fun i => (names i).expression)
          ((names i).meaning act (Rule.calls act names n) n) (names i).expression :=
        meaning_meets ih (names i) (upright i)
      exact ⟨body.contract, body.uniform, fun inp st => (body.reads inp st).map fun _ h => .call h⟩

theorem run_meets (act : α → Str → σ → Except ε σ) (upright : ∀ i, (names i).upright = true)
    {r : Rule ι α} (hr : r.upright = true) (n : Nat) :
    Meets (fun i => (names i).expression) (Rule.run act names n r) r.expression :=
  meaning_meets (calls_meet act upright n) r hr

end Runs

end Rules

end Amalgam.Pegtl
