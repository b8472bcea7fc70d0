/- Module: Amalgam/Pegtl/Returning
   digest: A match returns, and gives what the parsing expression of the rule gives. -/

import Amalgam.Peg.Evaluation
import Amalgam.Pegtl.Reading

set_option autoImplicit false
set_option relaxedAutoImplicit false

namespace Amalgam.Pegtl

open Amalgam.Peg (Expression Result Parses)

section Outcomes

variable {σ ε : Type} {o o' : Outcome σ ε} {k f : Input → σ → Outcome σ ε}

def Returns (o : Outcome σ ε) : Prop := o ≠ .diverged

private theorem returns_ok (rest : Input) (st : σ) : Returns (.ok rest st : Outcome σ ε) := nofun

private theorem returns_raised (e : ε) : Returns (.raised e : Outcome σ ε) := nofun

private theorem returns_fail (rest : Input) (st : σ) : Returns
    (.fail rest st : Outcome σ ε) := nofun

private theorem returns_parseError (l : Input) : Returns (.parseError l : Outcome σ ε) := nofun

theorem Returns.resume (h : Returns o) (onOk : ∀ rest st, o = .ok rest st → Returns (k rest st))
    (onFail : ∀ rest st, o = .fail rest st → Returns (f rest st)) :
    Returns (o.resume k f) := by
  cases o with
  | ok rest st => exact onOk rest st rfl
  | fail rest st => exact onFail rest st rfl
  | parseError l => exact returns_parseError l
  | raised e => exact returns_raised e
  | diverged => exact absurd rfl h

theorem Returns.marker (h : Returns o) (must : Bool) (inp : Input) :
    Returns (marker must inp o) := by
  rw [marker_resume]
  exact h.resume (fun rest st _ => returns_ok rest st) fun _ st _ => returns_fail _ st

theorem Agrees.returns (h : Agrees o o') (returns : Returns o) : Returns o' := by
  cases o with
  | fail rest st =>
      rcases h with ⟨rest', st', rfl⟩ | ⟨l, rfl⟩
      · exact returns_fail rest' st'
      · exact returns_parseError l
  | _ =>
      obtain rfl := h
      exact returns

end Outcomes

section Templates

variable {ι σ ε : Type} {rules : ι → Expression ι Char} {a b c e : Expression ι Char}
  {es : List (Expression ι Char)} {r s cond : Matcher σ ε} {rs : List (Matcher σ ε)}
  {inp : Input} {q : Result Char} {n m : Nat}

/-- A matcher that meets the expression and returns where the fuel is enough for it. -/
structure Ends (rules : ι → Expression ι Char) (n : Nat) (r : Matcher σ ε)
    (e : Expression ι Char) : Prop extends Meets rules r e where
  returns : ∀ inp q, Peg.eval rules n e inp = some q → ∀ st, Returns (r false inp st)

theorem Ends.resume (h : Ends rules n r a) {k f : Input → σ → Outcome σ ε} (hmn : m ≤ n)
    (found : Peg.eval rules m a inp = some q) (onOk : ∀ rest st, q = .ok rest → Returns (k rest st))
    (onFail : ∀ st, q = .fail → Returns (f inp st)) (st : σ) :
    Returns ((r false inp st).resume k f) := by
  have parsed : Parses rules a inp q := Peg.eval_sound found
  have reads := h.reads inp st
  have kept := h.contract false inp st
  refine (h.returns inp q (Peg.eval_le hmn found) st).resume ?_ ?_
  · intro rest st' run
    rw [run] at reads
    exact onOk rest st' (parsed.unique reads)
  · intro rest st' run
    rw [run] at reads kept
    obtain rfl := kept.2 rfl
    exact onFail st' (parsed.unique reads)

theorem Ends.guarded (h : Ends rules n r e) (must : Bool)
    (found : Peg.eval rules n e inp = some q) (st : σ) : Returns (guarded r must inp st) := by
  have plain := h.returns inp q found st
  cases must with
  | false => rwa [guarded_false]
  | true =>
      have agrees := h.uniform.guarded inp st
      rw [guarded_false] at agrees
      exact agrees.returns plain

private theorem meets_of_ends (h : List.Forall₂ (Ends rules n) rs es) :
    List.Forall₂ (Meets rules) rs es :=
  h.imp fun _ _ ends => ends.toMeets

private theorem seqMatch_returns (h : List.Forall₂ (Ends rules n) rs es)
    (found : Peg.eval rules n (.seqs es) inp = some q) (st : σ) :
    Returns (seqMatch rs false inp st) := by
  induction h generalizing inp st with
  | nil => exact returns_ok inp st
  | @cons r e rs es first _ ih =>
      obtain ⟨_, foundFirst, foundOthers⟩ := Peg.eval_seq found
      rw [seqMatch_resume, guarded_false]
      refine first.resume (Nat.le_refl n) foundFirst ?_ ?_ st
      · intro rest st' ok
        exact ih (foundOthers rest ok) st'
      · intro st' _
        exact returns_fail inp st'

private theorem seqMatch_own_returns (own : Bool) (h : List.Forall₂ (Ends rules n) rs es)
    (found : Peg.eval rules n (.seqs es) inp = some q) (st : σ) :
    Returns (seqMatch rs own inp st) := by
  have plain := seqMatch_returns h found st
  cases own with
  | false => exact plain
  | true => exact (seqMatch_uniform (uniforms (meets_of_ends h)) inp st).returns plain

private theorem seq_ends (h : List.Forall₂ (Ends rules n) rs es) : Ends rules n (seq rs)
    (.seqs es) where
  toMeets := seq_meets (meets_of_ends h)
  returns := fun inp _ found st => (seqMatch_returns h found st).marker _ inp

private theorem eval_guarded {x : Char}
    (found : Peg.eval rules n (.seq .more e) (x :: inp) = some q) :
    Peg.eval rules n e (x :: inp) = some q := by
  obtain ⟨_, foundMore, foundBody⟩ := Peg.eval_seq found
  exact foundBody _ ((Peg.eval_sound foundMore).unique (Peg.parses_more x inp))

private theorem opt_returns (h : List.Forall₂ (Ends rules n) rs es)
    (found : Peg.eval rules n (.choice (.seq .more (.seqs es)) .empty) inp = some q) (st : σ) :
    Returns (opt rs false inp st) := by
  rw [opt_resume]
  cases inp with
  | nil => exact returns_ok [] st
  | cons x inp =>
      obtain ⟨_, foundBody, _⟩ := Peg.eval_choice found
      refine (seq_ends h).resume (Nat.le_refl n) (eval_guarded foundBody) ?_ ?_ st
      · intro rest st' _
        exact returns_ok rest st'
      · intro st' _
        exact returns_ok (x :: inp) st'

private theorem starLoop_returns (h : Ends rules n r e) (hmn : m ≤ n)
    (found : Peg.eval rules m (.star (.seq .more e)) inp = some q) (st : σ) :
    Returns (starLoop r m inp st) := by
  induction m generalizing inp st with
  | zero => cases found
  | succ m ih =>
      obtain ⟨_, foundBody, foundOthers⟩ := Peg.eval_star found
      rw [starLoop_resume]
      cases inp with
      | nil => exact returns_ok [] st
      | cons x inp =>
          refine h.resume (by omega) (eval_guarded foundBody) ?_ ?_ st
          · intro rest st' ok
            exact ih (by omega) (foundOthers rest ok) st'
          · intro st' _
            exact returns_ok (x :: inp) st'

private theorem plusFor_returns (h : List.Forall₂ (Ends rules n) rs es)
    (found : Peg.eval rules n (.seq (.seqs es) (.star (.seq .more (.seqs es)))) inp = some q)
    (st : σ) : Returns (plusFor n rs false inp st) := by
  obtain ⟨_, foundFirst, foundOthers⟩ := Peg.eval_seq found
  refine (seq_ends h).resume (Nat.le_refl n) foundFirst ?_ ?_ st
  · intro rest st' ok
    exact starLoop_returns (seq_ends h) (Nat.le_refl n) (foundOthers rest ok) st'
  · intro st' _
    exact returns_fail inp st'

private theorem sor_returns (h : List.Forall₂ (Ends rules n) rs es)
    (found : Peg.eval rules n (.choices es) inp = some q) (st : σ) :
    Returns (sor rs false inp st) := by
  induction h generalizing st with
  | nil => exact returns_fail inp st
  | @cons r e rs es first _ ih =>
      obtain ⟨_, foundFirst, foundOthers⟩ := Peg.eval_choice found
      rw [sor_resume, guarded_false]
      refine first.resume (Nat.le_refl n) foundFirst ?_ ?_ st
      · intro rest st' _
        exact returns_ok rest st'
      · intro st' fail
        exact ih (foundOthers fail) st'

private theorem atRule_returns (h : Ends rules n r e)
    (found : Peg.eval rules n (.not (.not e)) inp = some q) (st : σ) :
    Returns (atRule r false inp st) := by
  obtain ⟨_, foundNot⟩ := Peg.eval_not found
  obtain ⟨_, foundBody⟩ := Peg.eval_not foundNot
  rw [atRule, guarded_false]
  refine h.resume (Nat.le_refl n) foundBody ?_ ?_ st
  · intro rest st' _
    exact returns_ok inp st'
  · intro st' _
    exact returns_fail inp st'

private theorem repLoop_returns (h : List.Forall₂ (Ends rules n) rs es) (k : Nat)
    (found : Peg.eval rules n (.seqs (List.replicate k (.seqs es))) inp = some q) (st : σ) :
    Returns (repLoop (seqMatch rs false) k inp st) := by
  induction k generalizing inp st with
  | zero => exact returns_ok inp st
  | succ k ih =>
      obtain ⟨p, foundFirst, foundOthers⟩ := Peg.eval_seq found
      have reads := seqMatch_reads (meets_of_ends h) inp st
      rw [repLoop]
      refine (seqMatch_returns h foundFirst st).resume ?_ ?_
      · intro rest st' run
        rw [run] at reads
        exact ih (foundOthers rest ((Peg.eval_sound foundFirst).unique reads)) st'
      · intro rest st' _
        exact returns_fail rest st'

private theorem mustRule_returns (h : List.Forall₂ (Ends rules n) rs es)
    (found : Peg.eval rules n (.commit (.seqs es)) inp = some q) (st : σ) :
    Returns (mustRule rs false inp st) := by
  obtain ⟨_, foundBody⟩ := Peg.eval_commit found
  rw [mustRule, seq, Bool.true_or, marker_true]
  exact seqMatch_own_returns true h foundBody st

private theorem untilLoop_returns (hc : Ends rules n cond c)
    (reads : ∀ inp st, Reads rules b inp (r false inp st))
    (body : ∀ inp q, Peg.eval rules n b inp = some q → ∀ st, Returns (r false inp st)) (hmn : m ≤ n)
    (found : Peg.eval rules m (.star (.seq (.not c) (.seq .more b))) inp = some q) (st : σ) :
    Returns (untilLoop cond r false m inp st) := by
  induction m generalizing inp st with
  | zero => cases found
  | succ m ih =>
      obtain ⟨_, foundBody, foundOthers⟩ := Peg.eval_star found
      obtain ⟨_, foundNot, foundMore⟩ := Peg.eval_seq foundBody
      obtain ⟨_, foundCond⟩ := Peg.eval_not foundNot
      rw [untilLoop_resume, guarded_false]
      refine hc.resume (by omega) foundCond ?_ ?_ st
      · intro rest st' _
        exact returns_ok rest st'
      rintro st' rfl
      have behind : Parses rules (.not c) inp (.ok inp) := .notFail (Peg.eval_sound foundCond)
      have foundGuarded := foundMore inp ((Peg.eval_sound foundNot).unique behind)
      cases inp with
      | nil => exact returns_fail [] st'
      | cons x inp =>
          have foundRule := eval_guarded foundGuarded
          have made := reads (x :: inp) st'
          show Returns ((r false (x :: inp) st').resume _ _)
          refine (body _ _ (Peg.eval_le (by omega) foundRule) st').resume ?_ ?_
          · intro rest st'' run
            rw [run] at made
            exact ih (by omega) (foundOthers rest ((Peg.eval_sound foundRule).unique made)) st''
          · intro rest st'' _
            exact returns_fail rest st''

private theorem untilFor_returns (hc : Ends rules n cond c)
    (reads : ∀ inp st, Reads rules b inp (r false inp st))
    (body : ∀ inp q, Peg.eval rules n b inp = some q → ∀ st, Returns (r false inp st))
    (found : Peg.eval rules n (.seq (.star (.seq (.not c) (.seq .more b))) c) inp = some q)
    (st : σ) : Returns (untilFor n cond r false inp st) := by
  obtain ⟨_, foundLoop, _⟩ := Peg.eval_seq found
  exact (untilLoop_returns hc reads body (Nat.le_refl n) foundLoop st).marker false inp

private theorem cond2impl_true_returns (hc : Ends rules n cond c)
    (h : List.Forall₂ (Ends rules n) rs es)
    (found : Peg.eval rules n (.seq c (.commit (.seqs es))) inp = some q) (st : σ) :
    Returns (cond2impl true cond rs false inp st) := by
  obtain ⟨_, foundCond, foundThens⟩ := Peg.eval_seq found
  rw [cond2impl_resume, guarded_false]
  refine Returns.marker ?_ true inp
  refine hc.resume (Nat.le_refl n) foundCond ?_ ?_ st
  · intro rest st' ok
    obtain ⟨_, foundBody⟩ := Peg.eval_commit (foundThens rest ok)
    exact seqMatch_own_returns true h foundBody st'
  · intro st' _
    exact returns_fail inp st'

private theorem cond2impl_false_returns (hc : Ends rules n cond c)
    (h : List.Forall₂ (Ends rules n) rs es)
    (found : Peg.eval rules n (.choice (.seq c (.seqs es)) (.not c)) inp = some q) (st : σ) :
    Returns (cond2impl false cond rs false inp st) := by
  obtain ⟨_, foundTaken, _⟩ := Peg.eval_choice found
  obtain ⟨_, foundCond, foundThens⟩ := Peg.eval_seq foundTaken
  rw [cond2impl_resume, guarded_false]
  refine Returns.marker ?_ false inp
  refine hc.resume (Nat.le_refl n) foundCond ?_ ?_ st
  · intro rest st' ok
    exact seqMatch_returns h (foundThens rest ok) st'
  · intro st' _
    exact returns_ok inp st'

private theorem cond3impl_returns (own : Bool) (hc : Ends rules n cond c)
    {er es : Expression ι Char}
    (first : ∀ inp q, Peg.eval rules n er inp = some q → ∀ st, Returns (guarded r own inp st))
    (second : ∀ inp q, Peg.eval rules n es inp = some q → ∀ st, Returns (guarded s own inp st))
    (found : Peg.eval rules n (.choice (.seq c er) (.seq (.not c) es)) inp = some q) (st : σ) :
    Returns (cond3impl own cond r s false inp st) := by
  obtain ⟨p, foundTaken, foundOther⟩ := Peg.eval_choice found
  obtain ⟨_, foundCond, foundFirst⟩ := Peg.eval_seq foundTaken
  rw [cond3impl, guarded_false]
  refine Returns.marker ?_ own inp
  refine hc.resume (Nat.le_refl n) foundCond ?_ ?_ st
  · intro rest st' ok
    exact first rest p (foundFirst rest ok) st'
  · rintro st' rfl
    have failed : Parses rules c inp .fail := Peg.eval_sound foundCond
    have skipped : p = .fail := (Peg.eval_sound foundTaken).unique (.seqFail er failed)
    obtain ⟨_, foundNot, foundSecond⟩ := Peg.eval_seq (foundOther skipped)
    have behind := (Peg.eval_sound foundNot).unique (.notFail failed)
    exact second inp q (foundSecond inp behind) st'

private theorem ifapply_returns (h : Ends rules n r e) (act : Str → σ → Except ε σ)
    (found : Peg.eval rules n e inp = some q) (st : σ) :
    Returns (ifapply r act false inp st) := by
  rw [ifapply_resume]
  refine Returns.marker ?_ false inp
  refine h.resume (Nat.le_refl n) found ?_ ?_ st
  · intro rest st' _
    cases act (consumed inp rest) st' with
    | ok st'' => exact returns_ok rest st''
    | error e => exact returns_raised e
  · intro st' _
    exact returns_fail inp st'

private theorem apply_returns (act : Str → σ → Except ε σ) (must : Bool) (inp : Input) (st : σ) :
    Returns (apply act must inp st) := by
  rw [apply]
  cases act [] st with
  | ok st' => exact returns_ok inp st'
  | error e => exact returns_raised e

private theorem character_returns (p : Char → Bool) (must : Bool) (inp : Input) (st : σ) :
    Returns (character p must inp st : Outcome σ ε) := by
  cases inp with
  | nil => exact returns_fail [] st
  | cons x inp =>
      rw [character]
      cases p x with
      | true => exact returns_ok inp st
      | false => exact returns_fail (x :: inp) st

private theorem stringMatch_returns (w : Str) (must : Bool) (inp : Input) (st : σ) :
    Returns (stringMatch w must inp st : Outcome σ ε) := by
  induction w generalizing inp st with
  | nil => exact returns_ok inp st
  | cons x w ih =>
      exact (character_returns _ must inp st).resume (fun rest st' _ => ih rest st')
        fun rest st' _ => returns_fail rest st'

end Templates

section Rules

variable {ι α σ ε : Type} {act : α → Str → σ → Except ε σ} {n : Nat} {calls : ι → Matcher σ ε}
  {rules : ι → Expression ι Char}

mutual

theorem meaning_ends (called : ∀ i, Ends rules n (calls i) (.call i)) :
    ∀ r : Rule ι α, r.upright = true → Ends rules n (r.meaning act calls n) r.expression :=
  fun r hr =>
    { toMeets := meaning_meets (fun i => (called i).toMeets) r hr
      returns := meaning_returns called r hr }

theorem meaning_returns (called : ∀ i, Ends rules n (calls i) (.call i)) :
    ∀ r : Rule ι α, r.upright = true → ∀ inp q, Peg.eval rules n r.expression inp = some q →
      ∀ st, Returns (r.meaning act calls n false inp st)
  | .success, _ => fun inp _ _ st => returns_ok inp st
  | .failure, _ => fun inp _ _ st => returns_fail inp st
  | .eof, _ => fun inp _ _ st => by
      cases inp with
      | nil => exact returns_ok [] st
      | cons x inp => exact returns_fail (x :: inp) st
  | .character p, _ => fun inp _ _ st => character_returns p false inp st
  | .string s, _ => fun inp _ _ st => (stringMatch_returns s false inp st).marker false inp
  | .seq rs, h => (seq_ends (meanings_end called rs h)).returns
  | .opt rs, h => fun _ _ found st => opt_returns (meanings_end called rs h) found st
  | .star rs, h => fun _ _ found st =>
      starLoop_returns (seq_ends (meanings_end called rs h)) (Nat.le_refl n) found st
  | .plus rs, h => fun _ _ found st => plusFor_returns (meanings_end called rs h) found st
  | .sor rs, h => fun _ _ found st => sor_returns (meanings_end called rs h) found st
  | .atRule r, h => fun _ _ found st => atRule_returns (meaning_ends called r h) found st
  | .rep k rs, h => fun inp _ found st =>
      (repLoop_returns (meanings_end called rs h) k found st).marker false inp
  | .mustRule rs, h => fun _ _ found st => mustRule_returns (meanings_end called rs h) found st
  | .untilAny c, h => fun _ _ found st =>
      untilFor_returns (meaning_ends called c h) (character_reads _ false)
        (fun inp _ _ st => character_returns _ false inp st) found st
  | .untilRule c rs, h => fun _ _ found st =>
      have others := meanings_end called rs (upright_and h).2
      untilFor_returns (meaning_ends called c (upright_and h).1)
        (seqMatch_reads (meets_of_ends others))
        (fun _ _ found st => seqMatch_returns others found st)
        found st
  | .cond2impl true c rs, h => fun _ _ found st =>
      cond2impl_true_returns (meaning_ends called c (upright_and h).1)
        (meanings_end called rs (upright_and h).2) found st
  | .cond2impl false c rs, h => fun _ _ found st =>
      cond2impl_false_returns (meaning_ends called c (upright_and h).1)
        (meanings_end called rs (upright_and h).2) found st
  | .cond3impl true c r s, h => fun _ _ found st =>
      cond3impl_returns true (meaning_ends called c (upright_and h).1)
        (fun _ _ found st => by
          obtain ⟨_, foundBody⟩ := Peg.eval_commit found
          exact (meaning_ends called r (upright_and (upright_and h).2).1).guarded true foundBody st)
        (fun _ _ found st => by
          obtain ⟨_, foundBody⟩ := Peg.eval_commit found
          exact (meaning_ends called s (upright_and (upright_and h).2).2).guarded true foundBody st)
        found st
  | .cond3impl false c r s, h => fun _ _ found st =>
      cond3impl_returns false (meaning_ends called c (upright_and h).1)
        (fun _ _ found st =>
          (meaning_ends called r (upright_and (upright_and h).2).1).guarded false found st)
        (fun _ _ found st =>
          (meaning_ends called s (upright_and (upright_and h).2).2).guarded false found st)
        found st
  | .apply fs, _ => fun inp _ _ st => apply_returns (applyHelper act fs) false inp st
  | .ifapply r fs, h => fun _ _ found st =>
      ifapply_returns (meaning_ends called r h) (applyHelper act fs) found st
  | .call i, _ => (called i).returns

theorem meanings_end (called : ∀ i, Ends rules n (calls i) (.call i)) :
    ∀ rs : List (Rule ι α), uprights rs = true →
      List.Forall₂ (Ends rules n) (Rule.meanings act calls n rs) (expressions rs)
  | [], _ => .nil
  | r :: rs, h => .cons (meaning_ends called r (upright_and h).1)
      (meanings_end called rs (upright_and h).2)

end

section Runs

variable {names : ι → Rule ι α}

private theorem calls_end (act : α → Str → σ → Except ε σ) (upright : ∀ i, (names i).upright = true)
    (n : Nat) (i : ι) :
    Ends (fun i => (names i).expression) n (Rule.calls act names n i) (.call i) := by
  induction n generalizing i with
  | zero => exact ⟨calls_meet act upright 0 i, fun _ _ found => nomatch found⟩
  | succ n ih =>
      refine ⟨calls_meet act upright (n + 1) i, ?_⟩
      intro inp q found
      exact meaning_returns ih (names i) (upright i) inp q found

/-- A match is an evaluation of the parsing expression: where the expression makes something
of the input, a match with every bound from some one on returns, and what a match that
returns gives is what the expression makes of the input, committed to under `Must`. -/
theorem run_reads (act : α → Str → σ → Except ε σ) (upright : ∀ i, (names i).upright = true)
    {r : Rule ι α} (hr : r.upright = true) (inp : Input) :
    (∀ n st, Reads (fun i => (names i).expression) r.expression inp
          (Rule.run act names n r false inp st) ∧
        Reads (fun i => (names i).expression) (.commit r.expression) inp
          (guarded (Rule.run act names n r) true inp st)) ∧
      ∀ q, Parses (fun i => (names i).expression) r.expression inp q →
        ∃ N, ∀ n, N ≤ n → ∀ st, Returns (Rule.run act names n r false inp st) ∧
          Returns (guarded (Rule.run act names n r) true inp st) := by
  refine ⟨?_, ?_⟩
  · intro n st
    have meets : Meets (fun i => (names i).expression) (Rule.run act names n r) r.expression :=
      run_meets act upright hr n
    exact ⟨meets.reads inp st, meets.guarded_true inp st⟩
  · intro q parsed
    obtain ⟨N, found⟩ := Peg.eval_complete parsed
    refine ⟨N, ?_⟩
    intro n hn st
    have enough := Peg.eval_le hn found
    have ends : Ends (fun i => (names i).expression) n (Rule.run act names n r) r.expression :=
      meaning_ends (calls_end act upright n) r hr
    exact ⟨ends.returns inp q enough st, ends.guarded true enough st⟩

theorem run_reads_digits :
    Parses (fun i => (noRules i).expression) (.commit digitList.expression) ['1', ','] .abort :=
  ((run_reads noActions (fun i => i.elim) (show digitList.upright = true from rfl) ['1', ',']).1
    4 ()).2

end Runs

end Rules

end Amalgam.Pegtl
