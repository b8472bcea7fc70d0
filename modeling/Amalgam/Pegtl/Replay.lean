/- Module: Amalgam/Pegtl/Replay
   digest: Actions neither steer a match nor are they undone by it. -/

import Amalgam.Pegtl.Parametric

set_option autoImplicit false
set_option relaxedAutoImplicit false

namespace Amalgam.Pegtl

section Calls

variable {α σ ε : Type}

/-- The actions called so far, each with the text it was given. -/
abbrev Calls (α : Type) := List (α × Str)

def noted (f : α) (s : Str) (log : Calls α) : Except Empty (Calls α) := .ok (log ++ [(f, s)])

/-- The noted calls, made on the states up to the first that throws. -/
def replay (act : α → Str → σ → Except ε σ) (log : Calls α) (st : σ) : Except ε σ :=
  log.foldlM (fun st call => act call.1 call.2 st) st

variable {act : α → Str → σ → Except ε σ}

private theorem replay_append (log log' : Calls α) (st : σ) :
    replay act (log ++ log') st = (replay act log st).bind (replay act log') := by
  rw [replay, List.foldlM_append]
  rfl

private theorem applyHelper_noted (fs : List α) (s : Str) (log : Calls α) :
    applyHelper noted fs s log = .ok (log ++ fs.map fun f => (f, s)) := by
  induction fs generalizing log with
  | nil => rw [List.map_nil, List.append_nil]; rfl
  | cons f fs ih =>
      have step : applyHelper noted (f :: fs) s log =
          applyHelper noted fs s (log ++ [(f, s)]) := rfl
      rw [step, ih, List.append_assoc]
      rfl

private theorem replay_map (fs : List α) (s : Str) (st : σ) :
    replay act (fs.map fun f => (f, s)) st = applyHelper act fs s st := by
  rw [replay, applyHelper, List.foldlM_map]

end Calls

section Outcomes

variable {α σ ε : Type} {act : α → Str → σ → Except ε σ} {st₀ : σ}
  {o : Outcome (Calls α) Empty} {o' : Outcome σ ε}
  {k f : Input → Calls α → Outcome (Calls α) Empty} {k' f' : Input → σ → Outcome σ ε}

def following (x : Except ε σ) (k : σ → Outcome σ ε) : Outcome σ ε :=
  match x with
  | .ok st => k st
  | .error e => .raised e

private theorem following_resume (x : Except ε σ) (g : σ → Outcome σ ε) :
    following x (fun st => (g st).resume k' f') = (following x g).resume k' f' := by
  cases x <;> rfl

private theorem following_marker (x : Except ε σ) (g : σ → Outcome σ ε) (must : Bool)
    (inp : Input) :
    following x (fun st => marker must inp (g st)) = marker must inp (following x g) := by
  cases x <;> rfl

/-- The second outcome is what the calls noted in the first make of the states. Of a parse
error nothing is noted: an action may have thrown before. -/
def Follows (act : α → Str → σ → Except ε σ) (st₀ : σ) :
    Outcome (Calls α) Empty → Outcome σ ε → Prop
  | .ok rest log, o' => o' = following (replay act log st₀) (.ok rest)
  | .fail rest log, o' => o' = following (replay act log st₀) (.fail rest)
  | .parseError l, o' => o' = .parseError l ∨ ∃ e, o' = .raised e
  | .raised e, _ => e.elim
  | .diverged, _ => True

theorem Follows.ok (rest : Input) (log : Calls α) :
    Follows act st₀ (.ok rest log) (following (replay act log st₀) (.ok rest)) := rfl

theorem Follows.fail (rest : Input) (log : Calls α) :
    Follows act st₀ (.fail rest log) (following (replay act log st₀) (.fail rest)) := rfl

theorem Follows.parseError (x : Except ε σ) (l : Input) :
    Follows act st₀ (.parseError l) (following x fun _ => .parseError l) := by
  cases x with
  | ok st => exact .inl rfl
  | error e => exact .inr ⟨e, rfl⟩

theorem Follows.resume (h : Follows act st₀ o o')
    (onOk : ∀ rest log, Follows act st₀ (k rest log) (following (replay act log st₀) (k' rest)))
    (onFail : ∀ rest log,
      Follows act st₀ (f rest log) (following (replay act log st₀) (f' rest))) :
    Follows act st₀ (o.resume k f) (o'.resume k' f') := by
  cases o with
  | ok rest log =>
      obtain rfl : o' = following (replay act log st₀) (.ok rest) := h
      rw [← following_resume]
      exact onOk rest log
  | fail rest log =>
      obtain rfl : o' = following (replay act log st₀) (.fail rest) := h
      rw [← following_resume]
      exact onFail rest log
  | parseError l =>
      rcases h with rfl | ⟨e, rfl⟩
      · exact .inl rfl
      · exact .inr ⟨e, rfl⟩
  | raised e => exact e.elim
  | diverged => trivial

theorem Follows.marker (h : Follows act st₀ o o') (must : Bool) (inp : Input) :
    Follows act st₀ (marker must inp o) (marker must inp o') := by
  rw [marker_resume, marker_resume]
  exact h.resume .ok fun _ _ => .fail _ _

end Outcomes

section Templates

variable {α σ ε : Type}

/-- The second matcher does to the states what the first one notes. -/
def Replays (act : α → Str → σ → Except ε σ) (r : Matcher (Calls α) Empty) (r' : Matcher σ ε) :
    Prop :=
  ∀ st₀ must inp log,
    Follows act st₀ (r must inp log) (following (replay act log st₀) fun st => r' must inp st)

variable {act : α → Str → σ → Except ε σ} {r s c : Matcher (Calls α) Empty} {r' s' c' : Matcher σ ε}
  {rs : List (Matcher (Calls α) Empty)} {rs' : List (Matcher σ ε)}

theorem Replays.guarded (h : Replays act r r') : Replays act (guarded r) (guarded r') := by
  intro st₀ must inp log
  simp only [guarded_resume, following_resume]
  refine (h st₀ must inp log).resume .ok ?_
  intro rest log'
  cases must with
  | false => exact .fail rest log'
  | true => exact .parseError _ inp

private theorem seqMatch_replays (h : List.Forall₂ (Replays act) rs rs') :
    Replays act (seqMatch rs) (seqMatch rs') := by
  induction h with
  | nil => exact fun _ _ inp log => .ok inp log
  | cons first _ ih =>
      intro st₀ must inp log
      simp only [seqMatch_resume, following_resume]
      exact (first.guarded st₀ must inp log).resume (ih st₀ must) .fail

private theorem seq_replays (h : List.Forall₂ (Replays act) rs rs') : Replays act (seq rs)
    (seq rs') := by
  intro st₀ must inp log
  have same : rs.tail.isEmpty = rs'.tail.isEmpty := by
    cases h with
    | nil => rfl
    | cons _ others =>
        cases others with
        | nil => rfl
        | cons _ _ => rfl
  simp only [seq, same, following_marker]
  exact (seqMatch_replays h st₀ must inp log).marker _ inp

private theorem opt_replays (h : List.Forall₂ (Replays act) rs rs') : Replays act (opt rs)
    (opt rs') := by
  intro st₀ must inp log
  simp only [opt_resume]
  split
  · exact .ok inp log
  · rw [following_resume]
    exact (seq_replays h st₀ false inp log).resume .ok .ok

private theorem starLoop_replays (h : Replays act r r') (n : Nat) (st₀ : σ) (inp : Input)
    (log : Calls α) :
    Follows act st₀ (starLoop r n inp log)
      (following (replay act log st₀) fun st => starLoop r' n inp st) := by
  induction n generalizing inp log with
  | zero => trivial
  | succ n ih =>
      simp only [starLoop_resume]
      split
      · exact .ok inp log
      · rw [following_resume]
        exact (h st₀ false inp log).resume ih .ok

private theorem plusFor_replays (n : Nat) (h : List.Forall₂ (Replays act) rs rs') :
    Replays act (plusFor n rs) (plusFor n rs') := by
  intro st₀ must inp log
  simp only [plusFor, following_resume]
  exact (seq_replays h st₀ must inp log).resume (starLoop_replays (seq_replays h) n st₀) .fail

private theorem sor_replays (h : List.Forall₂ (Replays act) rs rs') : Replays act (sor rs)
    (sor rs') := by
  induction h with
  | nil => exact fun _ _ inp log => .fail inp log
  | cons first _ ih =>
      intro st₀ must inp log
      simp only [sor_resume, following_resume]
      exact (first.guarded st₀ false inp log).resume .ok (ih st₀ false)

private theorem atRule_replays (h : Replays act r r') : Replays act (atRule r) (atRule r') := by
  intro st₀ must inp log
  simp only [atRule, following_resume]
  exact (h.guarded st₀ must inp log).resume (fun _ => .ok inp) fun _ => .fail inp

private theorem notAt_replays (h : Replays act r r') : Replays act (notAt r) (notAt r') := by
  intro st₀ must inp log
  simp only [notAt, following_resume]
  exact (h.guarded st₀ (!must) inp log).resume (fun _ => .fail inp) fun _ => .ok inp

private theorem repLoop_replays (h : List.Forall₂ (Replays act) rs rs') (n : Nat) (st₀ : σ)
    (must : Bool) (inp : Input) (log : Calls α) :
    Follows act st₀ (repLoop (seqMatch rs must) n inp log)
      (following (replay act log st₀) fun st => repLoop (seqMatch rs' must) n inp st) := by
  induction n generalizing inp log with
  | zero => exact .ok inp log
  | succ n ih =>
      simp only [repLoop, following_resume]
      exact (seqMatch_replays h st₀ must inp log).resume ih .fail

private theorem rep2Loop_replays (h : List.Forall₂ (Replays act) rs rs') (n : Nat) (st₀ : σ)
    (must : Bool) (inp : Input) (log : Calls α) :
    Follows act st₀ (rep2Loop (seqMatch rs must) (notAt (seq rs) must) n inp log)
      (following (replay act log st₀) fun st =>
        rep2Loop (seqMatch rs' must) (notAt (seq rs') must) n inp st) := by
  induction n generalizing inp log with
  | zero => exact notAt_replays (seq_replays h) st₀ must inp log
  | succ n ih =>
      simp only [rep2Loop, following_resume]
      exact (seqMatch_replays h st₀ must inp log).resume ih .ok

private theorem untilLoop_replays (cond : Replays act c c') (body : Replays act r r') (n : Nat)
    (st₀ : σ) (must : Bool) (inp : Input) (log : Calls α) :
    Follows act st₀ (untilLoop c r must n inp log)
      (following (replay act log st₀) fun st => untilLoop c' r' must n inp st) := by
  induction n generalizing inp log with
  | zero => trivial
  | succ n ih =>
      simp only [untilLoop_resume, following_resume]
      refine (cond.guarded st₀ false inp log).resume .ok ?_
      intro rest log'
      split
      · exact .fail rest log'
      · rw [following_resume]
        exact (body st₀ must rest log').resume ih .fail

private theorem untilFor_replays (n : Nat) (cond : Replays act c c') (body : Replays act r r') :
    Replays act (untilFor n c r) (untilFor n c' r') := by
  intro st₀ must inp log
  simp only [untilFor, following_marker]
  exact (untilLoop_replays cond body n st₀ must inp log).marker must inp

private theorem cond2impl_replays (own : Bool) (cond : Replays act c c')
    (h : List.Forall₂ (Replays act) rs rs') :
    Replays act (cond2impl own c rs) (cond2impl own c' rs') := by
  intro st₀ must inp log
  simp only [cond2impl_resume, following_marker, following_resume]
  refine Follows.marker ?_ own inp
  refine (cond.guarded st₀ false inp log).resume (seqMatch_replays h st₀ own) ?_
  intro rest log'
  cases own with
  | false => exact .ok rest log'
  | true => exact .fail rest log'

private theorem cond3impl_replays (own : Bool) (cond : Replays act c c') (hr : Replays act r r')
    (hs : Replays act s s') : Replays act (cond3impl own c r s) (cond3impl own c' r' s') := by
  intro st₀ must inp log
  simp only [cond3impl, following_marker, following_resume]
  refine Follows.marker ?_ own inp
  exact (cond.guarded st₀ false inp log).resume (hr.guarded st₀ own) (hs.guarded st₀ own)

private theorem applied_replays (fs : List α) (w : Str) (st₀ : σ) (rest : Input) (log : Calls α) :
    Follows act st₀ (following (applyHelper noted fs w log) (.ok rest))
      (following (replay act log st₀) fun st =>
          following (applyHelper act fs w st) (.ok rest)) := by
  have calls : replay act (log ++ fs.map fun f => (f, w)) st₀ =
      (replay act log st₀).bind (applyHelper act fs w) := by
    rw [replay_append]
    exact congrArg _ (funext (replay_map fs w))
  rw [applyHelper_noted]
  show following (replay act log st₀) _ = following (replay act (log ++ _) st₀) (.ok rest)
  rw [calls]
  cases replay act log st₀ <;> rfl

private theorem apply_following (g : Str → σ → Except ε σ) (must : Bool) (inp : Input) (st : σ) :
    apply g must inp st = following (g [] st) (.ok inp) := by
  rw [apply]
  cases g [] st <;> rfl

private theorem ifapply_following (m : Matcher σ ε) (g : Str → σ → Except ε σ) (must : Bool)
    (inp : Input) (st : σ) :
    ifapply m g must inp st = marker false inp ((m must inp st).resume
      (fun rest st' => following (g (consumed inp rest) st') (.ok rest)) .fail) := by
  rw [ifapply_resume]
  rfl

private theorem ifapply_replays (fs : List α) (h : Replays act r r') :
    Replays act (ifapply r (applyHelper noted fs)) (ifapply r' (applyHelper act fs)) := by
  intro st₀ must inp log
  simp only [ifapply_following, following_marker, following_resume]
  refine Follows.marker ?_ false inp
  refine (h st₀ must inp log).resume ?_ .fail
  intro rest log'
  exact applied_replays fs (consumed inp rest) st₀ rest log'

private theorem character_replays (p : Char → Bool) : Replays act (character p) (character p) := by
  intro st₀ must inp log
  cases inp with
  | nil => exact .fail [] log
  | cons x rest =>
      simp only [character]
      split
      · exact .ok rest log
      · exact .fail (x :: rest) log

private theorem stringMatch_replays (w : Str) : Replays act (stringMatch w) (stringMatch w) := by
  induction w with
  | nil => exact fun _ _ inp log => .ok inp log
  | cons x w ih =>
      intro st₀ must inp log
      simp only [stringMatch, following_resume]
      exact (character_replays _ st₀ must inp log).resume (ih st₀ must) .fail

private theorem eof_replays : Replays act eof eof := by
  intro st₀ must inp log
  simp only [eof]
  split
  · exact .ok inp log
  · exact .fail inp log

end Templates

section Rules

variable {ι α σ ε : Type}

private theorem replays_closed (act : α → Str → σ → Except ε σ) (n : Nat) :
    Closed noted act n n True (Replays act) where
  success := fun _ _ inp log => .ok inp log
  failure := fun _ _ inp log => .fail inp log
  eof := eof_replays
  character := character_replays
  string := by
    intro w st₀ must inp log
    simp only [string, following_marker]
    exact (stringMatch_replays w st₀ must inp log).marker must inp
  seq := seq_replays
  opt := opt_replays
  star := fun h st₀ _ => starLoop_replays (seq_replays h) n st₀
  plus := plusFor_replays n
  sor := sor_replays
  atRule := atRule_replays
  notAt := fun _ _ _ h => notAt_replays h
  rep := by
    intro k rs rs' h st₀ must inp log
    simp only [rep, following_marker]
    exact (repLoop_replays h k st₀ must inp log).marker must inp
  rep2 := by
    intro _ k m rs rs' h st₀ must inp log
    simp only [rep2, following_marker, following_resume]
    refine Follows.marker ?_ must inp
    exact (repLoop_replays h k st₀ must inp log).resume
      (rep2Loop_replays h (m - k) st₀ must) .fail
  mustRule := fun h st₀ _ => seq_replays h st₀ true
  untilAny := fun h => untilFor_replays n h (character_replays _)
  untilRule := fun h hs => untilFor_replays n h (seqMatch_replays hs)
  cond2impl := fun own _ _ _ _ h hs => cond2impl_replays own h hs
  cond3impl := fun own _ _ _ _ _ _ h hr hs => cond3impl_replays own h hr hs
  apply := by
    intro fs st₀ must inp log
    simp only [apply_following]
    exact applied_replays fs [] st₀ inp log
  ifapply := fun fs _ _ h => ifapply_replays fs h

/-- The actions have no say in what a rule matches, and none is undone: on any states the
rule does what is noted when it is run without states, in the order of the calls and with
those of the alternatives that were given up. -/
theorem run_replays (act : α → Str → σ → Except ε σ) (rules : ι → Rule ι α) (n : Nat)
    (r : Rule ι α) (must : Bool) (inp : Input) (st : σ) :
    Follows act st (Rule.run noted rules n r must inp []) (Rule.run act rules n r must inp st) :=
  Closed.run (replays_closed act) (fun _ _ _ _ => trivial) (fun _ => .inl trivial) n (.inl trivial)
    st must inp []

end Rules

end Amalgam.Pegtl
