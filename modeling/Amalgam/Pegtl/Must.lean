/- Module: Amalgam/Pegtl/Must
   digest: Must changes failures into exceptions, and nothing else. -/

import Amalgam.Pegtl.Scan
import Amalgam.Pegtl.Parametric

set_option autoImplicit false
set_option relaxedAutoImplicit false

namespace Amalgam.Pegtl

section Outcomes

variable {σ ε : Type} {o o' : Outcome σ ε} {k k' f f' : Input → σ → Outcome σ ε}

/-- An outcome and the one under `Must`: where the first is a failure, the second is a
failure or the exception that is thrown for it. -/
def Agrees : Outcome σ ε → Outcome σ ε → Prop
  | .fail _ _, o' => (∃ rest st, o' = .fail rest st) ∨ ∃ l, o' = .parseError l
  | o, o' => o' = o

theorem Agrees.refl (o : Outcome σ ε) : Agrees o o := by
  cases o with
  | fail rest st => exact .inl ⟨rest, st, rfl⟩
  | _ => rfl

theorem Agrees.resume (h : Agrees o o') (onOk : ∀ rest st, Agrees (k rest st) (k' rest st))
    (onFail : ∀ rest st, ∃ rest' st', f rest st = .fail rest' st')
    (onFail' : ∀ rest st, ∃ rest' st', f' rest st = .fail rest' st') :
    Agrees (o.resume k f) (o'.resume k' f') := by
  cases o with
  | ok rest st =>
      obtain rfl : o' = .ok rest st := h
      exact onOk rest st
  | fail rest st =>
      obtain ⟨a, s, failed⟩ := onFail rest st
      show Agrees (f rest st) (o'.resume k' f')
      rw [failed]
      rcases h with ⟨rest', st', rfl⟩ | ⟨l, rfl⟩
      · exact .inl (onFail' rest' st')
      · exact .inr ⟨l, rfl⟩
  | _ =>
      obtain rfl := h
      rfl

theorem Agrees.after (o : Outcome σ ε) (onOk : ∀ rest st, Agrees (k rest st) (k' rest st))
    (onFail : ∀ rest st, Agrees (f rest st) (f' rest st)) :
    Agrees (o.resume k f) (o.resume k' f') := by
  cases o with
  | ok rest st => exact onOk rest st
  | fail rest st => exact onFail rest st
  | _ => rfl

private theorem fails_fail (rest : Input) (st : σ) :
    ∃ rest' st', (Outcome.fail rest st : Outcome σ ε) = .fail rest' st' := ⟨rest, st, rfl⟩

theorem Agrees.marker (h : Agrees o o') (must must' : Bool) (inp : Input) :
    Agrees (marker must inp o) (marker must' inp o') := by
  rw [marker_resume, marker_resume]
  exact h.resume (fun _ _ => .refl _) (fun _ _ => fails_fail _ _) fun _ _ => fails_fail _ _

end Outcomes

section Templates

variable {σ ε : Type} {r c : Matcher σ ε} {rs : List (Matcher σ ε)}

/-- `Must` makes no difference but for what becomes of a failure. -/
def Uniform (r : Matcher σ ε) : Prop := ∀ inp st, Agrees (r false inp st) (r true inp st)

theorem Uniform.guarded (h : Uniform r) : Uniform (guarded r) := by
  intro inp st
  rw [guarded_false, guarded_resume]
  have agrees := h inp st
  cases plain : r false inp st with
  | fail rest st' =>
      rw [plain] at agrees
      rcases agrees with ⟨rest', st'', strict⟩ | ⟨l, strict⟩
      · exact .inr ⟨inp, by rw [strict]; rfl⟩
      · exact .inr ⟨l, by rw [strict]; rfl⟩
  | _ =>
      rw [plain] at agrees
      rw [show r true inp st = _ from agrees]
      rfl

theorem seqMatch_uniform (h : ∀ r ∈ rs, Uniform r) : Uniform (seqMatch rs) := by
  intro inp st
  induction rs generalizing inp st with
  | nil => rfl
  | cons r rs ih =>
      have first : Uniform r := h r List.mem_cons_self
      have others : ∀ r ∈ rs, Uniform r := fun r member => h r (List.mem_cons_of_mem _ member)
      rw [seqMatch_resume, seqMatch_resume]
      exact (first.guarded inp st).resume (ih others) fails_fail fails_fail

theorem seq_uniform (h : ∀ r ∈ rs, Uniform r) : Uniform (seq rs) := by
  intro inp st
  exact (seqMatch_uniform h inp st).marker _ _ inp

private theorem plusFor_uniform (n : Nat) (h : ∀ r ∈ rs, Uniform r) : Uniform (plusFor n rs) := by
  intro inp st
  -- The iterations behind the first are made without `Must` in both cases.
  exact (seq_uniform h inp st).resume (fun _ _ => .refl _) fails_fail fails_fail

private theorem sor_uniform (rs : List (Matcher σ ε)) : Uniform (sor rs) := by
  intro inp st
  cases rs with
  | nil => exact .refl _
  | cons r rs => exact .refl _

private theorem atRule_uniform (h : Uniform r) : Uniform (atRule r) := by
  intro inp st
  exact (h.guarded inp st).resume (fun _ _ => .refl _) (fun _ _ => fails_fail _ _)
    fun _ _ => fails_fail _ _

private theorem repLoop_uniform (h : ∀ r ∈ rs, Uniform r) (n : Nat) (inp : Input) (st : σ) :
    Agrees (repLoop (seqMatch rs false) n inp st) (repLoop (seqMatch rs true) n inp st) := by
  induction n generalizing inp st with
  | zero => rfl
  | succ n ih => exact (seqMatch_uniform h inp st).resume ih fails_fail fails_fail

private theorem untilLoop_uniform (body : Uniform r) (n : Nat) (inp : Input) (st : σ) :
    Agrees (untilLoop c r false n inp st) (untilLoop c r true n inp st) := by
  induction n generalizing inp st with
  | zero => rfl
  | succ n ih =>
      rw [untilLoop_resume, untilLoop_resume]
      refine Agrees.after _ (fun _ _ => .refl _) ?_
      intro rest st'
      split
      · exact .refl _
      · exact (body rest st').resume ih fails_fail fails_fail

theorem character_uniform (p : Char → Bool) : Uniform (character p : Matcher σ ε) := by
  intro inp st
  exact .refl _

private theorem stringMatch_uniform (w : Str) : Uniform (stringMatch w : Matcher σ ε) := by
  intro inp st
  induction w generalizing inp st with
  | nil => rfl
  | cons x w ih => exact (character_uniform _ inp st).resume ih fails_fail fails_fail

private theorem ifapply_uniform (h : Uniform r) (act : Str → σ → Except ε σ) : Uniform
    (ifapply r act) := by
  intro inp st
  rw [ifapply_resume, ifapply_resume]
  refine Agrees.marker ?_ false false inp
  exact (h inp st).resume (fun _ _ => .refl _) fails_fail fails_fail

theorem notAt_false (r : Matcher σ ε) (inp rest : Input) (st st' : σ) :
    notAt r false inp st ≠ .ok rest st' := by
  rw [notAt, Bool.not_false, guarded_resume]
  cases r true inp st with
  | _ => exact nofun

end Templates

section Rules

variable {ι α σ ε : Type}

private theorem uniform_closed (act : α → Str → σ → Except ε σ) (n : Nat) :
    Closed act act n n False fun r (_ : Matcher σ ε) => Uniform r where
  success := fun _ _ => rfl
  failure := fun _ _ => .refl _
  eof := fun _ _ => .refl _
  character := character_uniform
  string := fun s inp st => (stringMatch_uniform s inp st).marker _ _ inp
  seq := fun h => seq_uniform (forall_of_forall₂ h)
  opt := fun _ _ _ => .refl _
  star := fun _ _ _ => .refl _
  plus := fun h => plusFor_uniform n (forall_of_forall₂ h)
  sor := fun {rs _} _ => sor_uniform rs
  atRule := fun h => atRule_uniform h
  notAt := False.elim
  rep := fun k _ _ h inp st => (repLoop_uniform (forall_of_forall₂ h) k inp st).marker _ _ inp
  rep2 := False.elim
  mustRule := fun _ _ _ => .refl _
  untilAny := fun _ inp st => (untilLoop_uniform (character_uniform _) n inp st).marker _ _ inp
  untilRule := fun _ h inp st =>
    (untilLoop_uniform (seqMatch_uniform (forall_of_forall₂ h)) n inp st).marker _ _ inp
  cond2impl := fun _ _ _ _ _ _ _ _ _ => .refl _
  cond3impl := fun _ _ _ _ _ _ _ _ _ _ _ _ => .refl _
  apply := fun _ _ _ => .refl _
  ifapply := fun fs _ _ h => ifapply_uniform h (applyHelper act fs)

theorem meaning_uniform (act : α → Str → σ → Except ε σ) (n : Nat) {calls : ι → Matcher σ ε}
    (called : ∀ i, Uniform (calls i)) {r : Rule ι α} (hr : r.upright = true) :
    Uniform (r.meaning act calls n) :=
  @Closed.meaning ι α σ σ ε ε act act n n False _ calls calls (uniform_closed act n) called r
    (.inr hr)

/-- `Must` is an optimisation: a rule in which nothing is looked for under the opposite of
`Must` does under `Must`, behind the debug guard, what it does without, with the parse
error in place of the failure. -/
theorem run_must (act : α → Str → σ → Except ε σ) {rules : ι → Rule ι α}
    (hrules : ∀ i, (rules i).upright = true) {r : Rule ι α} (hr : r.upright = true) (n : Nat)
    (inp : Input) (st : σ) :
    (∀ rest st', guarded (Rule.run act rules n r) true inp st = .ok rest st' ↔
      Rule.run act rules n r false inp st = .ok rest st') ∧
    (∀ e, guarded (Rule.run act rules n r) true inp st = .raised e ↔
      Rule.run act rules n r false inp st = .raised e) ∧
    ((∃ l, guarded (Rule.run act rules n r) true inp st = .parseError l) ↔
      (∃ rest st', Rule.run act rules n r false inp st = .fail rest st') ∨
        ∃ l, Rule.run act rules n r false inp st = .parseError l) := by
  have uniform : Uniform (Rule.run act rules n r) :=
    Closed.run (uniform_closed act) (fun _ _ => rfl) (fun i => .inr (hrules i)) n (.inr hr)
  have agrees := uniform.guarded inp st
  have never : ∀ rest st', guarded (Rule.run act rules n r) true inp st ≠ .fail rest st' := by
    intro rest st'
    rw [guarded_resume]
    cases Rule.run act rules n r true inp st with
    | _ => exact nofun
  rw [guarded_false] at agrees
  cases plain : Rule.run act rules n r false inp st with
  | fail rest st' =>
      rw [plain] at agrees
      rcases agrees with ⟨rest', st'', strict⟩ | ⟨l, strict⟩
      · exact absurd strict (never rest' st'')
      · rw [strict]
        refine ⟨fun _ _ => ⟨nofun, nofun⟩, fun _ => ⟨nofun, nofun⟩, ?_⟩
        exact ⟨fun _ => .inl ⟨rest, st', rfl⟩, fun _ => ⟨l, rfl⟩⟩
  | _ =>
      rw [plain] at agrees
      rw [show guarded (Rule.run act rules n r) true inp st = _ from agrees]
      simp

def digitList : Rule Empty Empty :=
  .seq [.character Char.isDigit, .star [.cond2impl true (.character (· = ','))
    [.character Char.isDigit]]]

def noRules (i : Empty) : Rule Empty Empty := i.elim

def noActions (f : Empty) (_ : Str) (_ : Unit) : Except Unit Unit := f.elim

theorem run_must_digits :
    guarded (Rule.run noActions noRules 4 digitList) true ['1', ',', '2'] () = .ok [] () :=
  ((run_must noActions (fun i => i.elim) rfl 4 ['1', ',', '2'] ()).1 _ _).mpr rfl

end Rules

end Amalgam.Pegtl
