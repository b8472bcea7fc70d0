/- Module: Amalgam/Pegtl/Traceback
   digest: What basic_debug logs of a parse that is aborted is the way through the rules. -/

import Mathlib.Data.List.Chain
import Mathlib.Data.List.Forall2
import Amalgam.Pegtl.Scan
import Amalgam.Pegtl.Must

set_option autoImplicit false
set_option relaxedAutoImplicit false

namespace Amalgam.Pegtl

section Debug

/-- A line of the log: the depth of the match, where it has begun, and its rule. -/
structure Frame (ι α : Type) where
  nest : Nat
  location : Input
  rule : Rule ι α

structure Debug (ι α : Type) where
  nest : Nat := 0
  log : List (Frame ι α) := []

inductive Thrown (ε : Type) where
  | parseError (location : Input)
  | action (e : ε)

variable {ι α σ ε : Type}

def Debug.enter (d : Debug ι α) : Debug ι α := { d with nest := d.nest + 1 }

def Debug.leave (d : Debug ι α) : Debug ι α := { d with nest := d.nest - 1 }

def Debug.record (d : Debug ι α) (location : Input) (rule : Rule ι α) : Debug ι α :=
  { d with log := d.log ++ [⟨d.nest, location, rule⟩] }

/-- A match that uses a `basic_debug`, which an exception leaves changed as well. -/
abbrev Debugged (ι α σ ε : Type) := Matcher (σ × Debug ι α) (Thrown ε × Debug ι α)

/-- `basic_debug::match`. The guard throws inside the `try`, and leaves behind it. What an action
throws is logged as well when it is a `parse_error`, as `caught` tells. -/
def debugMatch (caught : ε → Bool) (rule : Rule ι α) (r : Debugged ι α σ ε) :
    Debugged ι α σ ε := fun must inp st =>
  match r must inp (st.1, st.2.enter) with
  | .ok rest (st', d) => .ok rest (st', d.leave)
  | .fail rest (st', d) =>
      if must then .raised (.parseError inp, (d.record inp rule).leave)
      else .fail rest (st', d.leave)
  | .raised (.parseError l, d) => .raised (.parseError l, (d.record inp rule).leave)
  | .raised (.action e, d) =>
      .raised (.action e, (if caught e then d.record inp rule else d).leave)
  | .parseError l => .parseError l
  | .diverged => .diverged

def debugAction (act : α → Str → σ → Except ε σ) (f : α) (s : Str) (st : σ × Debug ι α) :
    Except (Thrown ε × Debug ι α) (σ × Debug ι α) :=
  match act f s st.1 with
  | .ok st' => .ok (st', st.2)
  | .error e => .error (.action e, st.2)

def rep2Of (n m : Nat) (rs : List (Matcher σ ε)) (last : Matcher σ ε) : Matcher σ ε :=
  fun must inp st => marker must inp ((repLoop (seqMatch rs must) n inp st).resume
    (rep2Loop (seqMatch rs must) (last must) (m - n)) .fail)

private theorem rep2_eq (n m : Nat) (rs : List (Matcher σ ε)) :
    rep2 n m rs = rep2Of n m rs (notAt (seq rs)) := rfl

namespace Rule

section Meaning

variable (caught : ε → Bool) (act : α → Str → σ → Except ε σ) (calls : ι → Debugged ι α σ ε)
  (n : Nat)

mutual

def debugged : Rule ι α → Debugged ι α σ ε
  | success => Pegtl.success
  | failure => Pegtl.failure
  | eof => Pegtl.eof
  | character p => Pegtl.character p
  | string s => Pegtl.string s
  | seq rs => Pegtl.seq (debuggeds rs)
  | opt rs => Pegtl.opt (debuggeds rs)
  | star rs => starFor n (debuggeds rs)
  | plus rs => plusFor n (debuggeds rs)
  | sor rs => Pegtl.sor (debuggeds rs)
  | atRule r => Pegtl.atRule (debugMatch caught r r.debugged)
  | notAt r => Pegtl.notAt (debugMatch caught r r.debugged)
  | rep k rs => Pegtl.rep k (debuggeds rs)
  | rep2 k m rs => rep2Of k m (debuggeds rs)
      (Pegtl.notAt (debugMatch caught (.seq rs) (Pegtl.seq (debuggeds rs))))
  | mustRule rs => Pegtl.mustRule (debuggeds rs)
  | untilAny cond => untilFor n (debugMatch caught cond cond.debugged) any
  | untilRule cond rs => untilFor n (debugMatch caught cond cond.debugged) (seqMatch (debuggeds rs))
  | cond2impl own cond thens =>
      Pegtl.cond2impl own (debugMatch caught cond cond.debugged) (debuggeds thens)
  | cond3impl own cond thenRule elseRule =>
      Pegtl.cond3impl own (debugMatch caught cond cond.debugged)
        (debugMatch caught thenRule thenRule.debugged)
        (debugMatch caught elseRule elseRule.debugged)
  | apply fs => Pegtl.apply (applyHelper (debugAction act) fs)
  | ifapply r fs => Pegtl.ifapply r.debugged (applyHelper (debugAction act) fs)
  | call i => calls i

def debuggeds : List (Rule ι α) → List (Debugged ι α σ ε)
  | [] => []
  | r :: rs => debugMatch caught r r.debugged :: debuggeds rs

end

end Meaning

def debuggedCalls (caught : ε → Bool) (act : α → Str → σ → Except ε σ) (rules : ι → Rule ι α) :
    Nat → ι → Debugged ι α σ ε
  | 0, _ => divergence
  | n + 1, i => (rules i).debugged caught act (debuggedCalls caught act rules n) n

end Rule

/-- `basic_parse`: a new `basic_debug` matches the rule on the whole text. -/
def basicParse (caught : ε → Bool) (act : α → Str → σ → Except ε σ) (rules : ι → Rule ι α)
    (n : Nat) (r : Rule ι α) (text : Str) (st : σ) :
    Outcome (σ × Debug ι α) (Thrown ε × Debug ι α) :=
  debugMatch caught r (r.debugged caught act (Rule.debuggedCalls caught act rules n) n) true text
    (st, {})

end Debug

section Frames

variable {ι α : Type}

def Rule.parts : Rule ι α → List (Rule ι α)
  | .seq rs => rs
  | .opt rs => rs
  | .star rs => rs
  | .plus rs => rs
  | .sor rs => rs
  | .atRule r => [r]
  | .notAt r => [r]
  | .rep _ rs => rs
  | .rep2 _ _ rs => .seq rs :: rs
  | .mustRule rs => rs
  | .untilAny cond => [cond]
  | .untilRule cond rs => cond :: rs
  | .cond2impl _ cond thens => cond :: thens
  | .cond3impl _ cond thenRule elseRule => [cond, thenRule, elseRule]
  | _ => []

/-- The first rule is one that the `match` of the second has the debug match. -/
inductive Part (rules : ι → Rule ι α) : Rule ι α → Rule ι α → Prop
  | own {r s : Rule ι α} : r ∈ s.parts → Part rules r s
  | call {r : Rule ι α} {i : ι} : Part rules r (rules i) → Part rules r (.call i)
  | ifapply {r s : Rule ι α} {fs : List α} : Part rules r s → Part rules r (.ifapply s fs)

/-- The log of the matches that an exception leaves, from a depth on: they are numbered
from the innermost down, each is of a rule that the next one matches, on an end of its input,
and of the last, if any, something is known. -/
structure Unwound (rules : ι → Rule ι α) (P : Option (Frame ι α) → Prop) (depth : Nat)
    (log : List (Frame ι α)) : Prop where
  numbered : log.map Frame.nest = (List.range' (depth + 1) log.length).reverse
  nested : log.IsChain fun inner outer =>
    Part rules inner.rule outer.rule ∧ inner.location <:+ outer.location
  outermost : P log.getLast?

def Within (Q : Rule ι α → Prop) (inp : Input) (last : Option (Frame ι α)) : Prop :=
  ∀ f ∈ last, Q f.rule ∧ f.location <:+ inp

variable {rules : ι → Rule ι α} {P P' : Option (Frame ι α) → Prop} {Q Q' : Rule ι α → Prop}
  {depth : Nat} {inp rest : Input} {log : List (Frame ι α)}

theorem Within.imp {last : Option (Frame ι α)} (h : Within Q rest last)
    (weaken : ∀ r, Q r → Q' r) (back : rest <:+ inp) : Within Q' inp last := fun f hf =>
  ⟨weaken f.rule (h f hf).1, (h f hf).2.trans back⟩

theorem Unwound.imp (h : Unwound rules P depth log) (weaken : ∀ last, P last → P' last) :
    Unwound rules P' depth log := ⟨h.numbered, h.nested, weaken _ h.outermost⟩

private theorem unwound_none : Unwound rules (Within Q inp) depth [] where
  numbered := rfl
  nested := .nil
  outermost := fun _ absent => by cases absent

private theorem Unwound.around {f : Frame ι α} (nest : f.nest = depth + 1)
    (h : Unwound rules (Within (Part rules · f.rule) f.location) (depth + 1) log)
    (holds : P (some f)) : Unwound rules P depth (log ++ [f]) where
  numbered := by
    rw [List.map_append, h.numbered, List.map_singleton, nest, List.length_append,
      List.length_singleton, List.range'_succ, List.reverse_cons]
  nested := by
    refine List.isChain_append.mpr ⟨h.nested, .singleton f, ?_⟩
    intro x hx y hy
    cases hy
    exact h.outermost x hx
  outermost := by
    rw [List.getLast?_concat]
    exact holds

private theorem head_append (log more : List (Frame ι α)) {l : Input}
    (first : log.head?.map Frame.location = some l) :
    (log ++ more).head?.map Frame.location = some l := by
  cases log with
  | nil => cases first
  | cons f log => exact first

end Frames

section Outcomes

variable {ι α σ ε : Type} {caught : ε → Bool} {rules : ι → Rule ι α}
  {P P' : Option (Frame ι α) → Prop} {Q : Rule ι α → Prop} {d : Debug ι α} {inp rest : Input}
  {O : Outcome (σ × Debug ι α) (Thrown ε × Debug ι α)} {o : Outcome σ ε}
  {K F : Input → σ × Debug ι α → Outcome (σ × Debug ι α) (Thrown ε × Debug ι α)}
  {k f : Input → σ → Outcome σ ε}

/-- What a match with the debug does beside the plain match: nothing is logged but for a parse
error, with one the matches that it leaves, and the counter is as it was before. A parse error
that no action has thrown points to where the innermost of these matches has begun. -/
def Accounts (caught : ε → Bool) (rules : ι → Rule ι α) (P : Option (Frame ι α) → Prop)
    (d : Debug ι α) (inp : Input) :
    Outcome (σ × Debug ι α) (Thrown ε × Debug ι α) → Outcome σ ε → Prop
  | .ok rest (st, d'), o => o = .ok rest st ∧ d' = d ∧ rest <:+ inp
  | .fail rest (st, d'), o => o = .fail rest st ∧ d' = d ∧ rest <:+ inp
  | .raised (.parseError l, d'), o => o = .parseError l ∧
      ∃ log, d' = { d with log := d.log ++ log } ∧ Unwound rules P d.nest log ∧
        log.head?.map Frame.location = some l
  | .raised (.action e, d'), o => o = .raised e ∧
      ∃ log, d' = { d with log := d.log ++ log } ∧
        (caught e = true → Unwound rules P d.nest log) ∧ (caught e = false → log = [])
  | .parseError _, _ => False
  | .diverged, o => o = .diverged

theorem Accounts.imp (h : Accounts caught rules P d inp O o) (weaken : ∀ last, P last → P' last) :
    Accounts caught rules P' d inp O o := by
  cases O with
  | raised e =>
      obtain ⟨e | e, d'⟩ := e
      · obtain ⟨same, log, logged, unwound, first⟩ := h
        exact ⟨same, log, logged, unwound.imp weaken, first⟩
      · obtain ⟨same, log, logged, unwound, silent⟩ := h
        exact ⟨same, log, logged, fun isCaught => (unwound isCaught).imp weaken, silent⟩
  | _ => exact h

theorem Accounts.behind (h : Accounts caught rules (Within Q rest) d rest O o)
    (back : rest <:+ inp) : Accounts caught rules (Within Q inp) d inp O o := by
  have within : ∀ last : Option (Frame ι α), Within Q rest last → Within Q inp last :=
    fun last h => h.imp (fun _ h => h) back
  cases O with
  | ok rest' st => exact ⟨h.1, h.2.1, h.2.2.trans back⟩
  | fail rest' st => exact ⟨h.1, h.2.1, h.2.2.trans back⟩
  | raised e =>
      obtain ⟨e | e, d'⟩ := e
      · exact Accounts.imp (O := .raised (.parseError e, d')) h within
      · exact Accounts.imp (O := .raised (.action e, d')) h within
  | _ => exact h

private theorem accounts_ok (st : σ) (back : rest <:+ inp) :
    Accounts caught rules P d inp (.ok rest (st, d)) (.ok rest st : Outcome σ ε) := ⟨rfl, rfl, back⟩

private theorem accounts_fail (st : σ) (back : rest <:+ inp) :
    Accounts caught rules P d inp (.fail rest (st, d)) (.fail rest st : Outcome σ ε) :=
    ⟨rfl, rfl, back⟩

private theorem accounts_action (e : ε) :
    Accounts caught rules (Within Q inp) d inp (.raised (.action e, d)) (.raised e : Outcome σ ε) :=
  ⟨rfl, [], by rw [List.append_nil], fun _ => unwound_none, fun _ => rfl⟩

theorem Accounts.resume (h : Accounts caught rules P d inp O o)
    (onOk : ∀ rest st, rest <:+ inp → Accounts caught rules P d inp (K rest (st, d)) (k rest st))
    (onFail : ∀ rest st, rest <:+ inp →
      Accounts caught rules P d inp (F rest (st, d)) (f rest st)) :
    Accounts caught rules P d inp (O.resume K F) (o.resume k f) := by
  cases O with
  | ok rest st =>
      obtain ⟨rfl, same, back⟩ := h
      cases same
      exact onOk rest st.1 back
  | fail rest st =>
      obtain ⟨rfl, same, back⟩ := h
      cases same
      exact onFail rest st.1 back
  | parseError l => exact h.elim
  | raised e =>
      obtain ⟨e | e, d'⟩ := e
      · obtain ⟨rfl, logged⟩ := h
        exact ⟨rfl, logged⟩
      · obtain ⟨rfl, logged⟩ := h
        exact ⟨rfl, logged⟩
  | diverged =>
      cases h
      rfl

theorem Accounts.marker (h : Accounts caught rules P d inp O o) (must : Bool) :
    Accounts caught rules P d inp (marker must inp O) (marker must inp o) := by
  rw [marker_resume, marker_resume]
  refine h.resume (fun _ st back => accounts_ok st back) ?_
  intro rest st back
  cases must with
  | true => exact accounts_fail st back
  | false => exact accounts_fail st List.suffix_rfl

end Outcomes

section Templates

variable {ι α σ ε : Type} {caught : ε → Bool} {rules : ι → Rule ι α} {Q : Rule ι α → Prop}
  {rule : Rule ι α}
  {M C E : Debugged ι α σ ε} {m c e : Matcher σ ε} {Ms : List (Debugged ι α σ ε)}
  {ms : List (Matcher σ ε)} {inp : Input} {st : σ} {d : Debug ι α}

/-- A match with the debug accounts for the plain one, with frames of these rules. -/
def Mirror (caught : ε → Bool) (rules : ι → Rule ι α) (Q : Rule ι α → Prop) (M : Debugged ι α σ ε)
    (m : Matcher σ ε) : Prop :=
  ∀ must inp st d, Accounts caught rules (Within Q inp) d inp (M must inp (st, d)) (m must inp st)

def Guarded (caught : ε → Bool) (rules : ι → Rule ι α) (Q : Rule ι α → Prop) (M : Debugged ι α σ ε)
    (m : Matcher σ ε) : Prop :=
  Mirror caught rules Q (guarded M) (guarded m)

private theorem guarded_debugMatch (M : Debugged ι α σ ε) :
    guarded (debugMatch caught rule M) = debugMatch caught rule M := by
  funext must inp st
  rw [guarded_resume, debugMatch]
  cases M must inp (st.1, st.2.enter) with
  | fail rest s => cases must <;> rfl
  | raised e => obtain ⟨e | e, d⟩ := e <;> rfl
  | _ => rfl

private theorem record_leave (d : Debug ι α) (log : List (Frame ι α)) (inp : Input)
    (rule : Rule ι α) :
    (Debug.record { d.enter with log := d.enter.log ++ log } inp rule).leave =
      { d with log := d.log ++ (log ++ [⟨d.nest + 1, inp, rule⟩]) } := by
  rw [← List.append_assoc]
  rfl

private theorem debugMatch_accounts (h : Mirror caught rules (Part rules · rule) M m)
    (must : Bool) (inp : Input) (st : σ) (d : Debug ι α) :
    Accounts caught rules (· = some ⟨d.nest + 1, inp, rule⟩) d inp
      (debugMatch caught rule M must inp (st, d)) (guarded m must inp st) := by
  have inside := h must inp st d.enter
  rw [debugMatch, guarded_resume]
  cases run : M must inp (st, d.enter) with
  | ok rest s =>
      rw [run] at inside
      obtain ⟨same, entered, back⟩ := inside
      rw [same]
      exact ⟨rfl, by rw [entered]; rfl, back⟩
  | fail rest s =>
      rw [run] at inside
      obtain ⟨same, entered, back⟩ := inside
      rw [same]
      cases must with
      | false => exact ⟨rfl, by rw [entered]; rfl, back⟩
      | true =>
          have inner : Unwound rules (Within (Part rules · rule) inp) (d.nest + 1) [] :=
            unwound_none
          refine ⟨rfl, [] ++ [⟨d.nest + 1, inp, rule⟩], ?_, inner.around rfl rfl, rfl⟩
          rw [entered]
          rfl
  | parseError l =>
      rw [run] at inside
      exact inside.elim
  | raised e =>
      rw [run] at inside
      obtain ⟨l | e, d'⟩ := e
      · obtain ⟨same, log, rfl, unwound, first⟩ := inside
        rw [same]
        exact ⟨rfl, log ++ [⟨d.nest + 1, inp, rule⟩], record_leave d log inp rule,
          unwound.around rfl rfl, head_append log _ first⟩
      · obtain ⟨same, log, rfl, unwound, silent⟩ := inside
        rw [same]
        simp only
        cases isCaught : caught e with
        | true =>
            rw [if_pos rfl]
            refine ⟨rfl, log ++ [⟨d.nest + 1, inp, rule⟩], record_leave d log inp rule,
              fun _ => (unwound isCaught).around rfl rfl, fun other => ?_⟩
            rw [isCaught] at other
            cases other
        | false =>
            obtain rfl := silent isCaught
            refine ⟨rfl, [], rfl, fun other => ?_, fun _ => rfl⟩
            rw [isCaught] at other
            cases other
  | diverged =>
      rw [run] at inside
      rw [show m must inp st = .diverged from inside]
      rfl

private theorem debugMatch_guarded (h : Mirror caught rules (Part rules · rule) M m)
    (part : Q rule) :
    Guarded caught rules Q (debugMatch caught rule M) m := by
  intro must inp st d
  rw [guarded_debugMatch]
  refine (debugMatch_accounts h must inp st d).imp ?_
  rintro last rfl f hf
  cases hf
  exact ⟨part, List.suffix_rfl⟩

private theorem seqMatch_mirror (h : List.Forall₂ (Guarded caught rules Q) Ms ms) :
    Mirror caught rules Q (seqMatch Ms) (seqMatch ms) := by
  induction h with
  | nil => exact fun _ _ st _ => accounts_ok st List.suffix_rfl
  | cons first _ ih =>
      intro must inp st d
      rw [seqMatch_resume, seqMatch_resume]
      refine (first must inp st d).resume ?_ fun _ st' back => accounts_fail st' back
      intro rest st' back
      exact (ih must rest st' d).behind back

private theorem seq_mirror (h : List.Forall₂ (Guarded caught rules Q) Ms ms) :
    Mirror caught rules Q (seq Ms) (seq ms) := by
  intro must inp st d
  have same : Ms.tail.isEmpty = ms.tail.isEmpty := by
    cases h with
    | nil => rfl
    | cons _ others =>
        cases others with
        | nil => rfl
        | cons _ _ => rfl
  rw [seq, seq, same]
  exact (seqMatch_mirror h must inp st d).marker _

private theorem opt_mirror (h : List.Forall₂ (Guarded caught rules Q) Ms ms) :
    Mirror caught rules Q (opt Ms) (opt ms) := by
  intro must inp st d
  rw [opt_resume, opt_resume]
  split
  · exact accounts_ok st List.suffix_rfl
  · exact (seq_mirror h false inp st d).resume (fun _ st' back => accounts_ok st' back)
      fun _ st' back => accounts_ok st' back

private theorem starLoop_mirror (h : Mirror caught rules Q M m) (n : Nat) (inp : Input) (st : σ)
    (d : Debug ι α) :
    Accounts caught rules (Within Q inp) d inp (starLoop M n inp (st, d))
      (starLoop m n inp st) := by
  induction n generalizing inp st with
  | zero => exact rfl
  | succ n ih =>
      rw [starLoop_resume, starLoop_resume]
      split
      · exact accounts_ok st List.suffix_rfl
      · refine (h false inp st d).resume ?_ fun _ st' back => accounts_ok st' back
        intro rest st' back
        exact (ih rest st').behind back

private theorem starFor_mirror (n : Nat) (h : List.Forall₂ (Guarded caught rules Q) Ms ms) :
    Mirror caught rules Q (starFor n Ms) (starFor n ms) := by
  intro must inp st d
  exact starLoop_mirror (seq_mirror h) n inp st d

private theorem plusFor_mirror (n : Nat) (h : List.Forall₂ (Guarded caught rules Q) Ms ms) :
    Mirror caught rules Q (plusFor n Ms) (plusFor n ms) := by
  intro must inp st d
  refine (seq_mirror h must inp st d).resume ?_ fun _ st' back => accounts_fail st' back
  intro rest st' back
  exact (starFor_mirror n h must rest st' d).behind back

private theorem sor_mirror (h : List.Forall₂ (Guarded caught rules Q) Ms ms) :
    Mirror caught rules Q (sor Ms) (sor ms) := by
  induction h with
  | nil => exact fun _ _ st _ => accounts_fail st List.suffix_rfl
  | cons first _ ih =>
      intro must inp st d
      rw [sor_resume, sor_resume]
      refine (first false inp st d).resume (fun _ st' back => accounts_ok st' back) ?_
      intro rest st' back
      exact (ih false rest st' d).behind back

private theorem atRule_mirror (h : Guarded caught rules Q M m) : Mirror caught rules Q (atRule M)
    (atRule m) := by
  intro must inp st d
  exact (h must inp st d).resume (fun _ st' _ => accounts_ok st' List.suffix_rfl)
    fun _ st' _ => accounts_fail st' List.suffix_rfl

private theorem notAt_mirror (h : Guarded caught rules Q M m) : Mirror caught rules Q (notAt M)
    (notAt m) := by
  intro must inp st d
  exact (h (!must) inp st d).resume (fun _ st' _ => accounts_fail st' List.suffix_rfl)
    fun _ st' _ => accounts_ok st' List.suffix_rfl

private theorem repLoop_mirror (h : Mirror caught rules Q M m) (n : Nat) (must : Bool)
    (inp : Input) (st : σ) (d : Debug ι α) :
    Accounts caught rules (Within Q inp) d inp (repLoop (M must) n inp (st, d))
      (repLoop (m must) n inp st) := by
  induction n generalizing inp st with
  | zero => exact accounts_ok st List.suffix_rfl
  | succ n ih =>
      refine (h must inp st d).resume ?_ fun _ st' back => accounts_fail st' back
      intro rest st' back
      exact (ih rest st').behind back

private theorem rep_mirror (n : Nat) (h : List.Forall₂ (Guarded caught rules Q) Ms ms) :
    Mirror caught rules Q (rep n Ms) (rep n ms) := by
  intro must inp st d
  exact (repLoop_mirror (seqMatch_mirror h) n must inp st d).marker must

private theorem rep2Loop_mirror (h : Mirror caught rules Q M m) (last : Mirror caught rules Q E e)
    (n : Nat) (must : Bool) (inp : Input) (st : σ) (d : Debug ι α) :
    Accounts caught rules (Within Q inp) d inp (rep2Loop (M must) (E must) n inp (st, d))
      (rep2Loop (m must) (e must) n inp st) := by
  induction n generalizing inp st with
  | zero => exact last must inp st d
  | succ n ih =>
      refine (h must inp st d).resume ?_ fun _ st' back => accounts_ok st' back
      intro rest st' back
      exact (ih rest st').behind back

private theorem rep2_mirror (k n : Nat) (h : List.Forall₂ (Guarded caught rules Q) Ms ms)
    (last : Guarded caught rules Q E (seq ms)) :
    Mirror caught rules Q (rep2Of k n Ms (notAt E)) (rep2 k n ms) := by
  intro must inp st d
  have body := seqMatch_mirror h
  rw [rep2_eq]
  refine Accounts.marker ?_ must
  refine (repLoop_mirror body k must inp st d).resume ?_ fun _ st' back => accounts_fail st' back
  intro rest st' back
  exact (rep2Loop_mirror body (notAt_mirror last) (n - k) must rest st' d).behind back

private theorem mustRule_mirror (h : List.Forall₂ (Guarded caught rules Q) Ms ms) :
    Mirror caught rules Q (mustRule Ms) (mustRule ms) := by
  intro must inp st d
  exact seq_mirror h true inp st d

private theorem untilLoop_mirror (cond : Guarded caught rules Q C c)
    (body : Mirror caught rules Q M m) (must : Bool) (n : Nat)
    (inp : Input) (st : σ) (d : Debug ι α) :
    Accounts caught rules (Within Q inp) d inp (untilLoop C M must n inp (st, d))
      (untilLoop c m must n inp st) := by
  induction n generalizing inp st with
  | zero => exact rfl
  | succ n ih =>
      rw [untilLoop_resume, untilLoop_resume]
      refine (cond false inp st d).resume (fun _ st' back => accounts_ok st' back) ?_
      intro rest st' back
      refine Accounts.behind ?_ back
      split
      · exact accounts_fail st' List.suffix_rfl
      · refine (body must rest st' d).resume ?_ fun _ st'' back => accounts_fail st'' back
        intro rest' st'' back'
        exact (ih rest' st'').behind back'

private theorem untilFor_mirror (n : Nat) (cond : Guarded caught rules Q C c)
    (body : Mirror caught rules Q M m) :
    Mirror caught rules Q (untilFor n C M) (untilFor n c m) := by
  intro must inp st d
  exact (untilLoop_mirror cond body must n inp st d).marker must

private theorem cond2impl_mirror (own : Bool) (cond : Guarded caught rules Q C c)
    (h : List.Forall₂ (Guarded caught rules Q) Ms ms) :
    Mirror caught rules Q (cond2impl own C Ms) (cond2impl own c ms) := by
  intro must inp st d
  rw [cond2impl_resume, cond2impl_resume]
  refine Accounts.marker ?_ own
  refine (cond false inp st d).resume ?_ ?_
  · intro rest st' back
    exact (seqMatch_mirror h own rest st' d).behind back
  · intro rest st' back
    cases own with
    | true => exact accounts_fail st' back
    | false => exact accounts_ok st' back

private theorem cond3impl_mirror (own : Bool) (cond : Guarded caught rules Q C c)
    (first : Guarded caught rules Q M m) (second : Guarded caught rules Q E e) :
    Mirror caught rules Q (cond3impl own C M E) (cond3impl own c m e) := by
  intro must inp st d
  refine Accounts.marker ?_ own
  refine (cond false inp st d).resume ?_ ?_
  · intro rest st' back
    exact (first own rest st' d).behind back
  · intro rest st' back
    exact (second own rest st' d).behind back

private theorem character_mirror (p : Char → Bool) :
    Mirror caught rules Q (character p : Debugged ι α σ ε) (character p) := by
  intro must inp st d
  cases inp with
  | nil => exact accounts_fail st List.suffix_rfl
  | cons x inp =>
      rw [character, character]
      cases p x with
      | true => exact accounts_ok st (List.suffix_cons x inp)
      | false => exact accounts_fail st List.suffix_rfl

private theorem stringMatch_mirror (s : Str) :
    Mirror caught rules Q (stringMatch s : Debugged ι α σ ε) (stringMatch s) := by
  induction s with
  | nil => exact fun _ _ st _ => accounts_ok st List.suffix_rfl
  | cons x s ih =>
      intro must inp st d
      refine (character_mirror _ must inp st d).resume ?_ fun _ st' back => accounts_fail st' back
      intro rest st' back
      exact (ih must rest st' d).behind back

private theorem string_mirror (s : Str) :
    Mirror caught rules Q (string s : Debugged ι α σ ε) (string s) := by
  intro must inp st d
  exact (stringMatch_mirror s must inp st d).marker must

private theorem eof_mirror : Mirror caught rules Q (eof : Debugged ι α σ ε) eof := by
  intro must inp st d
  cases inp with
  | nil => exact accounts_ok st List.suffix_rfl
  | cons x inp => exact accounts_fail st List.suffix_rfl

private theorem applyHelper_debugAction (act : α → Str → σ → Except ε σ) (fs : List α) (s : Str)
    (st : σ) (d : Debug ι α) :
    applyHelper (debugAction act) fs s (st, d) =
      match applyHelper act fs s st with
      | .ok st' => .ok (st', d)
      | .error e => .error (.action e, d) := by
  induction fs generalizing st with
  | nil => rfl
  | cons f fs ih =>
      simp only [applyHelper, List.foldlM_cons] at ih ⊢
      rw [debugAction]
      cases act f s st with
      | error e => rfl
      | ok st' => exact ih st'

private theorem apply_mirror (act : α → Str → σ → Except ε σ) (fs : List α) :
    Mirror caught rules Q (apply (applyHelper (debugAction act) fs))
      (apply (applyHelper act fs)) := by
  intro must inp st d
  rw [apply, apply, applyHelper_debugAction]
  cases applyHelper act fs [] st with
  | ok st' => exact accounts_ok st' List.suffix_rfl
  | error e => exact accounts_action e

private theorem ifapply_mirror (act : α → Str → σ → Except ε σ) (fs : List α)
    (h : Mirror caught rules Q M m) :
    Mirror caught rules Q (ifapply M (applyHelper (debugAction act) fs))
      (ifapply m (applyHelper act fs)) := by
  intro must inp st d
  rw [ifapply_resume, ifapply_resume]
  refine Accounts.marker ?_ false
  refine (h must inp st d).resume ?_ fun _ st' back => accounts_fail st' back
  intro rest st' back
  rw [applyHelper_debugAction]
  cases applyHelper act fs (consumed inp rest) st' with
  | ok st'' => exact accounts_ok st'' back
  | error e => exact accounts_action e

end Templates

section Rules

variable {ι α σ ε : Type} {caught : ε → Bool} {rules : ι → Rule ι α}
  {act : α → Str → σ → Except ε σ} {n : Nat}
  {debugged : ι → Debugged ι α σ ε} {plain : ι → Matcher σ ε}

mutual

theorem debugged_mirror
    (called : ∀ i, Mirror caught rules (Part rules · (.call i)) (debugged i) (plain i)) :
    ∀ r : Rule ι α, Mirror caught rules (Part rules · r) (r.debugged caught act debugged n)
      (r.meaning act plain n)
  | .success => fun _ _ st _ => accounts_ok st List.suffix_rfl
  | .failure => fun _ _ st _ => accounts_fail st List.suffix_rfl
  | .eof => eof_mirror
  | .character p => character_mirror p
  | .string s => string_mirror s
  | .seq rs => seq_mirror (debuggeds_guarded called rs fun _ member => .own member)
  | .opt rs => opt_mirror (debuggeds_guarded called rs fun _ member => .own member)
  | .star rs => starFor_mirror n (debuggeds_guarded called rs fun _ member => .own member)
  | .plus rs => plusFor_mirror n (debuggeds_guarded called rs fun _ member => .own member)
  | .sor rs => sor_mirror (debuggeds_guarded called rs fun _ member => .own member)
  | .atRule r => atRule_mirror
      (debugMatch_guarded (debugged_mirror called r) (.own List.mem_cons_self))
  | .notAt r => notAt_mirror
      (debugMatch_guarded (debugged_mirror called r) (.own List.mem_cons_self))
  | .rep k rs => rep_mirror k (debuggeds_guarded called rs fun _ member => .own member)
  | .rep2 k m rs =>
      have last : Mirror caught rules (Part rules · (.seq rs))
          (Pegtl.seq (Rule.debuggeds caught act debugged n rs))
          (Pegtl.seq (Rule.meanings act plain n rs)) :=
        seq_mirror (debuggeds_guarded called rs fun _ member => .own member)
      rep2_mirror k m
        (debuggeds_guarded called rs fun _ member => .own (List.mem_cons_of_mem _ member))
        (debugMatch_guarded last (.own List.mem_cons_self))
  | .mustRule rs => mustRule_mirror
      (debuggeds_guarded called rs fun _ member => .own member)
  | .untilAny c => untilFor_mirror n
      (debugMatch_guarded (debugged_mirror called c) (.own List.mem_cons_self))
      (character_mirror _)
  | .untilRule c rs => untilFor_mirror n
      (debugMatch_guarded (debugged_mirror called c) (.own List.mem_cons_self))
      (seqMatch_mirror
        (debuggeds_guarded called rs fun _ member => .own (List.mem_cons_of_mem _ member)))
  | .cond2impl own c rs => cond2impl_mirror own
      (debugMatch_guarded (debugged_mirror called c) (.own List.mem_cons_self))
      (debuggeds_guarded called rs fun _ member => .own (List.mem_cons_of_mem _ member))
  | .cond3impl own c r s => cond3impl_mirror own
      (debugMatch_guarded (debugged_mirror called c) (.own (by simp [Rule.parts])))
      (debugMatch_guarded (debugged_mirror called r) (.own (by simp [Rule.parts])))
      (debugMatch_guarded (debugged_mirror called s) (.own (by simp [Rule.parts])))
  | .apply fs => apply_mirror act fs
  | .ifapply r fs => fun must inp st d =>
      (ifapply_mirror act fs (debugged_mirror called r) must inp st d).imp
        fun _ within => within.imp (fun _ => .ifapply) List.suffix_rfl
  | .call i => called i

theorem debuggeds_guarded {Q : Rule ι α → Prop}
    (called : ∀ i, Mirror caught rules (Part rules · (.call i)) (debugged i) (plain i)) :
    ∀ rs : List (Rule ι α), (∀ r ∈ rs, Q r) →
      List.Forall₂ (Guarded caught rules Q) (Rule.debuggeds caught act debugged n rs)
        (Rule.meanings act plain n rs)
  | [], _ => .nil
  | r :: rs, parts =>
      .cons (debugMatch_guarded (debugged_mirror called r) (parts r List.mem_cons_self))
        (debuggeds_guarded called rs fun s member => parts s (List.mem_cons_of_mem _ member))

end

private theorem debuggedCalls_mirror (caught : ε → Bool) (act : α → Str → σ → Except ε σ)
    (rules : ι → Rule ι α) (n : Nat) (i : ι) :
    Mirror caught rules (Part rules · (.call i)) (Rule.debuggedCalls caught act rules n i)
      (Rule.calls act rules n i) := by
  induction n generalizing i with
  | zero => exact fun _ _ _ _ => rfl
  | succ n ih =>
      intro must inp st d
      exact (debugged_mirror ih (rules i) must inp st d).imp
        fun _ within => within.imp (fun _ => .call) List.suffix_rfl

example : (match basicParse (fun _ => false) noActions noRules 4 digitList ['1', ','] () with
    | .raised (_, d) => d.log.map fun f => (f.nest, f.location)
    | _ => []) = [(4, []), (3, [',']), (2, [',']), (1, ['1', ','])] := by decide

end Rules

end Amalgam.Pegtl
