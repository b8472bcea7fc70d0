/- Module: Amalgam/Pegtl/Contract
   digest: Rules read forwards, and without Must a failed rule has consumed nothing. -/

import Amalgam.Pegtl.Scan
import Amalgam.Pegtl.Parametric

set_option autoImplicit false
set_option relaxedAutoImplicit false

namespace Amalgam.Pegtl

section Outcomes

variable {σ ε : Type} {must : Bool} {inp rest : Input} {o : Outcome σ ε}
  {k f : Input → σ → Outcome σ ε}

/-- What is left, and where an exception points, is an end of the input; a failure without
`Must` leaves all of it. -/
def Kept (must : Bool) (inp : Input) : Outcome σ ε → Prop
  | .ok rest _ => rest <:+ inp
  | .fail rest _ => rest <:+ inp ∧ (must = false → rest = inp)
  | .parseError l => l <:+ inp
  | _ => True

def Unfailing (inp : Input) : Outcome σ ε → Prop
  | .ok rest _ => rest <:+ inp
  | .fail _ _ => False
  | .parseError l => l <:+ inp
  | _ => True

theorem Unfailing.kept (h : Unfailing inp o) (must : Bool) : Kept must inp o := by
  cases o with
  | fail rest st => exact h.elim
  | _ => exact h

theorem Unfailing.behind (back : rest <:+ inp) (h : Unfailing rest o) : Unfailing inp o := by
  cases o with
  | ok rest' st => exact List.IsSuffix.trans h back
  | fail rest' st => exact h.elim
  | parseError l => exact List.IsSuffix.trans h back
  | _ => trivial

private theorem Kept.anyway (h : Kept false inp o) (must : Bool) : Kept must inp o := by
  cases o with
  | fail rest st => exact ⟨h.1, fun _ => h.2 rfl⟩
  | _ => exact h

private theorem Kept.loosen (h : Kept must inp o) : Kept true inp o := by
  cases o with
  | fail rest st => exact ⟨h.1, nofun⟩
  | _ => exact h

theorem Kept.behind (back : rest <:+ inp) (h : Kept true rest o) : Kept true inp o := by
  cases o with
  | ok rest' st => exact List.IsSuffix.trans h back
  | fail rest' st => exact ⟨h.1.trans back, nofun⟩
  | parseError l => exact List.IsSuffix.trans h back
  | _ => trivial

theorem Kept.marker (h : Kept true inp o) (must : Bool) : Kept must inp (marker must inp o) := by
  cases o with
  | fail rest st =>
      cases must with
      | false => exact ⟨List.suffix_rfl, fun _ => rfl⟩
      | true => exact h
  | _ => exact h

theorem Kept.resume {own : Bool} (h : Kept own inp o)
    (onOk : ∀ rest st, rest <:+ inp → Kept must inp (k rest st))
    (onFail : ∀ rest st, rest <:+ inp → (own = false → rest = inp) → Kept must inp (f rest st)) :
    Kept must inp (o.resume k f) := by
  cases o with
  | ok rest st => exact onOk rest st h
  | fail rest st => exact onFail rest st h.1 h.2
  | parseError l => exact h
  | _ => trivial

private theorem Kept.settle {own : Bool} (h : Kept own inp o)
    (onOk : ∀ rest st, rest <:+ inp → Unfailing inp (k rest st))
    (onFail : ∀ rest st, rest <:+ inp → (own = false → rest = inp) → Unfailing inp (f rest st)) :
    Unfailing inp (o.resume k f) := by
  cases o with
  | ok rest st => exact onOk rest st h
  | fail rest st => exact onFail rest st h.1 h.2
  | parseError l => exact h
  | _ => trivial

theorem Unfailing.resume (h : Unfailing inp o)
    (onOk : ∀ rest st, rest <:+ inp → Unfailing inp (k rest st)) :
    Unfailing inp (o.resume k f) := by
  cases o with
  | ok rest st => exact onOk rest st h
  | fail rest st => exact h.elim
  | parseError l => exact h
  | _ => trivial

end Outcomes

section Templates

variable {α σ ε : Type} {r s c : Matcher σ ε} {rs : List (Matcher σ ε)}

/-- The input is read from the front, and what a failure without `Must` has read is
given back. -/
def Contract (r : Matcher σ ε) : Prop := ∀ must inp st, Kept must inp (r must inp st)

theorem Contract.guarded_true (h : Contract r) (inp : Input) (st : σ) :
    Unfailing inp (guarded r true inp st) := by
  rw [guarded_resume]
  exact (h true inp st).settle (fun _ _ back => back) fun _ _ _ _ => List.suffix_rfl

theorem Contract.guarded (h : Contract r) : Contract (guarded r) := by
  intro must inp st
  cases must with
  | false => simpa only [guarded_false] using h false inp st
  | true => exact (h.guarded_true inp st).kept true

private theorem seqMatch_kept (h : ∀ r ∈ rs, Contract r) (must : Bool) (inp : Input) (st : σ) :
    Kept true inp (seqMatch rs must inp st) := by
  induction rs generalizing inp st with
  | nil => exact List.suffix_rfl
  | cons r rs ih =>
      have first : Contract r := h r List.mem_cons_self
      have others : ∀ r ∈ rs, Contract r := fun r member => h r (List.mem_cons_of_mem _ member)
      rw [seqMatch_resume]
      refine (first.guarded must inp st).resume ?_ ?_
      · intro rest st' back
        exact (ih others rest st').behind back
      · intro rest st' back _
        exact ⟨back, nofun⟩

theorem seqMatch_unfailing (h : ∀ r ∈ rs, Contract r) (inp : Input) (st : σ) :
    Unfailing inp (seqMatch rs true inp st) := by
  induction rs generalizing inp st with
  | nil => exact List.suffix_rfl
  | cons r rs ih =>
      have first : Contract r := h r List.mem_cons_self
      have others : ∀ r ∈ rs, Contract r := fun r member => h r (List.mem_cons_of_mem _ member)
      rw [seqMatch_resume]
      refine (first.guarded_true inp st).resume ?_
      intro rest st' back
      exact (ih others rest st').behind back

theorem seq_contract (h : ∀ r ∈ rs, Contract r) : Contract (seq rs) := by
  intro must inp st
  rw [seq]
  cases rs with
  | nil => exact List.suffix_rfl
  | cons r rs =>
      cases rs with
      | nil =>
          -- The marker of a single rule does not rewind: the rule does.
          rw [List.tail_cons, List.isEmpty_nil, Bool.or_true, marker_true, seqMatch_singleton]
          exact (h r List.mem_cons_self).guarded must inp st
      | cons s rs =>
          rw [List.tail_cons, List.isEmpty_cons, Bool.or_false]
          exact (seqMatch_kept h must inp st).marker must

private theorem opt_contract (h : ∀ r ∈ rs, Contract r) : Contract (opt rs) := by
  intro must inp st
  rw [opt_resume]
  split
  · exact List.suffix_rfl
  · exact (seq_contract h false inp st).resume (fun _ _ back => back) fun _ _ back _ => back

private theorem starLoop_unfailing (h : Contract r) (n : Nat) (inp : Input) (st : σ) :
    Unfailing inp (starLoop r n inp st) := by
  induction n generalizing inp st with
  | zero => trivial
  | succ n ih =>
      rw [starLoop_resume]
      split
      · exact List.suffix_rfl
      · refine (h false inp st).settle ?_ fun _ _ back _ => back
        intro rest st' back
        exact (ih rest st').behind back

private theorem plusFor_contract (n : Nat) (h : ∀ r ∈ rs, Contract r) : Contract
    (plusFor n rs) := by
  intro must inp st
  refine (seq_contract h must inp st).resume ?_ ?_
  · intro rest st' back
    exact ((starLoop_unfailing (seq_contract h) n rest st').behind back).kept must
  · intro rest st' back same
    exact ⟨back, same⟩

private theorem sor_kept (h : ∀ r ∈ rs, Contract r) (must : Bool) (inp : Input) (st : σ) :
    Kept false inp (sor rs must inp st) := by
  induction rs generalizing must st with
  | nil => exact ⟨List.suffix_rfl, fun _ => rfl⟩
  | cons r rs ih =>
      have first : Contract r := h r List.mem_cons_self
      have others : ∀ r ∈ rs, Contract r := fun r member => h r (List.mem_cons_of_mem _ member)
      rw [sor_resume]
      refine (first.guarded false inp st).resume (fun _ _ back => back) ?_
      intro rest st' _ same
      obtain rfl := same rfl
      exact ih others false st'

private theorem atRule_kept (h : Contract r) (must : Bool) (inp : Input) (st : σ) :
    Kept false inp (atRule r must inp st) :=
  (h.guarded must inp st).resume (fun _ _ _ => List.suffix_rfl)
    fun _ _ _ _ => ⟨List.suffix_rfl, fun _ => rfl⟩

private theorem notAt_kept (h : Contract r) (must : Bool) (inp : Input) (st : σ) :
    Kept false inp (notAt r must inp st) :=
  (h.guarded (!must) inp st).resume (fun _ _ _ => ⟨List.suffix_rfl, fun _ => rfl⟩)
    fun _ _ _ _ => List.suffix_rfl

private theorem repLoop_kept (h : ∀ r ∈ rs, Contract r) (must : Bool) (n : Nat) (inp : Input)
    (st : σ) :
    Kept true inp (repLoop (seqMatch rs must) n inp st) := by
  induction n generalizing inp st with
  | zero => exact List.suffix_rfl
  | succ n ih =>
      refine (seqMatch_kept h must inp st).resume ?_ ?_
      · intro rest st' back
        exact (ih rest st').behind back
      · intro rest st' back _
        exact ⟨back, nofun⟩

private theorem rep2Loop_kept (h : ∀ r ∈ rs, Contract r) (must : Bool) (n : Nat) (inp : Input)
    (st : σ) :
    Kept true inp (rep2Loop (seqMatch rs must) (notAt (seq rs) must) n inp st) := by
  induction n generalizing inp st with
  | zero => exact (notAt_kept (seq_contract h) must inp st).loosen
  | succ n ih =>
      refine (seqMatch_kept h must inp st).resume ?_ fun _ _ back _ => back
      intro rest st' back
      exact (ih rest st').behind back

private theorem rep2_contract (k m : Nat) (h : ∀ r ∈ rs, Contract r) : Contract (rep2 k m rs) := by
  intro must inp st
  refine Kept.marker ?_ must
  refine (repLoop_kept h must k inp st).resume ?_ ?_
  · intro rest st' back
    exact (rep2Loop_kept h must (m - k) rest st').behind back
  · intro rest st' back _
    exact ⟨back, nofun⟩

private theorem mustRule_contract (h : ∀ r ∈ rs, Contract r) : Contract (mustRule rs) := by
  intro must inp st
  rw [mustRule, seq, Bool.true_or, marker_true]
  exact (seqMatch_unfailing h inp st).kept must

private theorem untilLoop_kept (cond : Contract c)
    (body : ∀ must inp st, Kept true inp (r must inp st))
    (must : Bool) (n : Nat) (inp : Input) (st : σ) :
    Kept true inp (untilLoop c r must n inp st) := by
  induction n generalizing inp st with
  | zero => trivial
  | succ n ih =>
      rw [untilLoop_resume]
      refine (cond.guarded false inp st).resume (fun _ _ back => back) ?_
      intro rest st' back _
      split
      · exact ⟨back, nofun⟩
      · refine ((body must rest st').behind back).resume ?_ ?_
        · intro rest' st'' further
          exact (ih rest' st'').behind further
        · intro rest' st'' further _
          exact ⟨further, nofun⟩

private theorem cond2impl_kept (own : Bool) (cond : Contract c) (h : ∀ r ∈ rs, Contract r)
    (must : Bool) (inp : Input) (st : σ) : Kept false inp (cond2impl own c rs must inp st) := by
  rw [cond2impl_resume]
  cases own with
  | false =>
      refine Kept.marker ?_ false
      refine (cond.guarded false inp st).resume ?_ fun _ _ back _ => back
      intro rest st' back
      exact (seqMatch_kept h false rest st').behind back
  | true =>
      rw [marker_true]
      refine (cond.guarded false inp st).resume ?_ fun _ _ back same => ⟨back, same⟩
      intro rest st' back
      exact ((seqMatch_unfailing h rest st').behind back).kept false

private theorem cond3impl_kept (own : Bool) (cond : Contract c) (hr : Contract r) (hs : Contract s)
    (must : Bool) (inp : Input) (st : σ) : Kept false inp (cond3impl own c r s must inp st) := by
  rw [cond3impl]
  cases own with
  | false =>
      refine Kept.marker ?_ false
      refine (cond.guarded false inp st).resume ?_ ?_
      · intro rest st' back
        exact (hr.guarded false rest st').loosen.behind back
      · intro rest st' back _
        exact (hs.guarded false rest st').loosen.behind back
  | true =>
      rw [marker_true]
      refine (cond.guarded false inp st).resume ?_ ?_
      · intro rest st' back
        exact ((hr.guarded_true rest st').behind back).kept false
      · intro rest st' back _
        exact ((hs.guarded_true rest st').behind back).kept false

private theorem ifapply_kept (h : Contract r) (act : Str → σ → Except ε σ) (must : Bool)
    (inp : Input) (st : σ) : Kept false inp (ifapply r act must inp st) := by
  rw [ifapply_resume]
  refine Kept.marker ?_ false
  refine (h must inp st).resume ?_ fun _ _ back _ => ⟨back, nofun⟩
  intro rest st' back
  split
  · exact back
  · trivial

private theorem apply_contract (act : Str → σ → Except ε σ) : Contract (apply act) := by
  intro must inp st
  rw [apply]
  split
  · exact List.suffix_rfl
  · trivial

theorem character_contract (p : Char → Bool) : Contract (character p : Matcher σ ε) := by
  intro must inp st
  cases inp with
  | nil => exact ⟨List.suffix_rfl, fun _ => rfl⟩
  | cons x rest =>
      rw [character]
      split
      · exact List.suffix_cons x rest
      · exact ⟨List.suffix_rfl, fun _ => rfl⟩

private theorem stringMatch_kept (w : Str) (must : Bool) (inp : Input) (st : σ) :
    Kept true inp (stringMatch w must inp st : Outcome σ ε) := by
  induction w generalizing inp st with
  | nil => exact List.suffix_rfl
  | cons x w ih =>
      refine (character_contract _ must inp st).resume ?_ fun _ _ back _ => ⟨back, nofun⟩
      intro rest st' back
      exact (ih rest st').behind back

private theorem eof_contract : Contract (eof : Matcher σ ε) := by
  intro must inp st
  rw [eof]
  split
  · exact List.suffix_rfl
  · exact ⟨List.suffix_rfl, fun _ => rfl⟩

end Templates

section Rules

variable {ι α σ ε : Type}

private theorem contract_closed (act : α → Str → σ → Except ε σ) (n : Nat) :
    Closed act act n n True fun r (_ : Matcher σ ε) => Contract r where
  success := fun _ _ _ => List.suffix_rfl
  failure := fun _ _ _ => ⟨List.suffix_rfl, fun _ => rfl⟩
  eof := eof_contract
  character := character_contract
  string := fun s must inp st => (stringMatch_kept s must inp st).marker must
  seq := fun h => seq_contract (forall_of_forall₂ h)
  opt := fun h => opt_contract (forall_of_forall₂ h)
  star := fun h must inp st =>
    (starLoop_unfailing (seq_contract (forall_of_forall₂ h)) n inp st).kept must
  plus := fun h => plusFor_contract n (forall_of_forall₂ h)
  sor := fun h must inp st => (sor_kept (forall_of_forall₂ h) must inp st).anyway must
  atRule := fun h must inp st => (atRule_kept h must inp st).anyway must
  notAt := fun _ _ _ h must inp st => (notAt_kept h must inp st).anyway must
  rep := fun k _ _ h must inp st => (repLoop_kept (forall_of_forall₂ h) must k inp st).marker must
  rep2 := fun _ k m _ _ h => rep2_contract k m (forall_of_forall₂ h)
  mustRule := fun h => mustRule_contract (forall_of_forall₂ h)
  untilAny := fun h must inp st => (untilLoop_kept h
    (fun m i s => (character_contract _ m i s).loosen) must n inp st).marker must
  untilRule := fun h hs must inp st => (untilLoop_kept h
    (seqMatch_kept (forall_of_forall₂ hs)) must n inp st).marker must
  cond2impl := fun own _ _ _ _ h hs must inp st =>
    (cond2impl_kept own h (forall_of_forall₂ hs) must inp st).anyway must
  cond3impl := fun own _ _ _ _ _ _ h hr hs must inp st =>
    (cond3impl_kept own h hr hs must inp st).anyway must
  apply := fun fs => apply_contract (applyHelper act fs)
  ifapply := fun fs _ _ h must inp st =>
    (ifapply_kept h (applyHelper act fs) must inp st).anyway must

theorem meaning_contract (act : α → Str → σ → Except ε σ) (n : Nat) {calls : ι → Matcher σ ε}
    (called : ∀ i, Contract (calls i)) (r : Rule ι α) : Contract (r.meaning act calls n) :=
  @Closed.meaning ι α σ σ ε ε act act n n True _ calls calls (contract_closed act n) called r
    (.inl trivial)

/-- Do not consume input on failure: whatever templates a rule is built from, whatever it
calls and whatever its actions do, it reads from the front, and what it has read when it
fails without `Must` it gives back. -/
theorem run_contract (act : α → Str → σ → Except ε σ) (rules : ι → Rule ι α) (n : Nat)
    (r : Rule ι α) : Contract (Rule.run act rules n r) :=
  Closed.run (contract_closed act) (fun _ _ _ => trivial) (fun _ => .inl trivial) n (.inl trivial)

end Rules

end Amalgam.Pegtl
