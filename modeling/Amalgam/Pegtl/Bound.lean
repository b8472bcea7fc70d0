/- Module: Amalgam/Pegtl/Bound
   digest: Loops bounded by a large number and loops bounded by the input agree. -/

import Amalgam.Pegtl.Rule

set_option autoImplicit false
set_option relaxedAutoImplicit false

namespace Amalgam.Pegtl

section Outcomes

variable {σ ε : Type} {O O' : Nat → Outcome σ ε} {o : Outcome σ ε}
  {K F : Nat → Input → σ → Outcome σ ε} {k f : Input → σ → Outcome σ ε}

/-- From some bound on the outcome is the given one, if that is one. -/
def Tends (O : Nat → Outcome σ ε) (o : Outcome σ ε) : Prop :=
  o = .diverged ∨ ∃ N, ∀ n, N ≤ n → O n = o

theorem Tends.const (o : Outcome σ ε) : Tends (fun _ => o) o := .inr ⟨0, fun _ _ => rfl⟩

theorem Tends.later (h : Tends O o) (N : Nat) (same : ∀ n, N ≤ n → O' n = O n) : Tends O' o := by
  rcases h with none | ⟨M, h⟩
  · exact .inl none
  · refine .inr ⟨max M N, ?_⟩
    intro n hn
    rw [same n (by omega)]
    exact h n (by omega)

theorem Tends.resume (h : Tends O o) (onOk : ∀ rest st, Tends (fun n => K n rest st) (k rest st))
    (onFail : ∀ rest st, Tends (fun n => F n rest st) (f rest st)) :
    Tends (fun n => (O n).resume (K n) (F n)) (o.resume k f) := by
  rcases h with rfl | ⟨N, h⟩
  · exact .inl rfl
  · cases o with
    | ok rest st =>
        refine (onOk rest st).later N ?_
        intro n hn
        rw [h n hn]
        rfl
    | fail rest st =>
        refine (onFail rest st).later N ?_
        intro n hn
        rw [h n hn]
        rfl
    | _ =>
        refine .inr ⟨N, ?_⟩
        intro n hn
        show (O n).resume (K n) (F n) = _
        rw [h n hn]
        rfl

theorem Tends.marker (h : Tends O o) (must : Bool) (inp : Input) :
    Tends (fun n => marker must inp (O n)) (marker must inp o) := by
  simp only [marker_resume]
  exact h.resume (fun _ _ => .const _) fun _ _ => .const _

end Outcomes

section Templates

variable {σ ε : Type} {R C : Nat → Matcher σ ε} {r c : Matcher σ ε}
  {Rs : Nat → List (Matcher σ ε)} {rs : List (Matcher σ ε)}

/-- From some bound on, which depends on the input and the states, the matcher does what
the given one does. -/
def Reaches (R : Nat → Matcher σ ε) (r : Matcher σ ε) : Prop :=
  ∀ must inp st, Tends (fun n => R n must inp st) (r must inp st)

inductive ReachesAll : (Nat → List (Matcher σ ε)) → List (Matcher σ ε) → Prop
  | nil : ReachesAll (fun _ => []) []
  | cons {R : Nat → Matcher σ ε} {r : Matcher σ ε} {Rs : Nat → List (Matcher σ ε)}
      {rs : List (Matcher σ ε)} :
      Reaches R r → ReachesAll Rs rs → ReachesAll (fun n => R n :: Rs n) (r :: rs)

theorem Reaches.const (r : Matcher σ ε) : Reaches (fun _ => r) r := fun _ _ _ => .const _

theorem ReachesAll.one (h : Reaches R r) : ReachesAll (fun n => [R n]) [r] := .cons h .nil

theorem Reaches.guarded (h : Reaches R r) : Reaches (fun n => guarded (R n)) (guarded r) := by
  intro must inp st
  simp only [guarded_resume]
  exact (h must inp st).resume (fun _ _ => .const _) fun _ _ => .const _

private theorem seqMatch_reaches (h : ReachesAll Rs rs) :
    Reaches (fun n => seqMatch (Rs n)) (seqMatch rs) := by
  induction h with
  | nil => exact .const _
  | cons first _ ih =>
      intro must inp st
      simp only [seqMatch_resume]
      exact (first.guarded must inp st).resume (ih must) fun _ _ => .const _

private theorem seq_reaches (h : ReachesAll Rs rs) : Reaches (fun n => seq (Rs n)) (seq rs) := by
  intro must inp st
  have same : ∀ n, (Rs n).tail.isEmpty = rs.tail.isEmpty := by
    intro n
    cases h with
    | nil => rfl
    | cons _ others =>
        cases others with
        | nil => rfl
        | cons _ _ => rfl
  simp only [seq, same]
  exact (seqMatch_reaches h must inp st).marker _ inp

private theorem opt_reaches (h : ReachesAll Rs rs) : Reaches (fun n => opt (Rs n)) (opt rs) := by
  intro must inp st
  simp only [opt_resume]
  split
  · exact .const _
  · exact (seq_reaches h false inp st).resume (fun _ _ => .const _) fun _ _ => .const _

private theorem starLoop_reaches (h : Reaches R r) (k j : Nat) (inp : Input) (st : σ) :
    Tends (fun n => starLoop (R n) (n - j) inp st) (starLoop r k inp st) := by
  induction k generalizing j inp st with
  | zero => exact .inl rfl
  | succ k ih =>
      have next : Tends (fun n => starLoop (R n) (n - (j + 1) + 1) inp st)
          (starLoop r (k + 1) inp st) := by
        simp only [starLoop_resume]
        split
        · exact .const _
        · exact (h false inp st).resume (ih (j + 1)) fun _ _ => .const _
      refine next.later (j + 1) ?_
      intro n hn
      rw [show n - j = n - (j + 1) + 1 by omega]

private theorem star_reaches (h : ReachesAll Rs rs) : Reaches (fun n => starFor n (Rs n))
    (star rs) := by
  intro must inp st
  exact starLoop_reaches (seq_reaches h) (inp.length + 1) 0 inp st

private theorem plus_reaches (h : ReachesAll Rs rs) : Reaches (fun n => plusFor n (Rs n))
    (plus rs) := by
  intro must inp st
  have body : plus rs must inp st = (seq rs must inp st).resume (star rs must) .fail := by
    rw [plus]
    cases seq rs must inp st <;> rfl
  simp only [plusFor, body]
  exact (seq_reaches h must inp st).resume (star_reaches h must) fun _ _ => .const _

private theorem sor_reaches (h : ReachesAll Rs rs) : Reaches (fun n => sor (Rs n)) (sor rs) := by
  induction h with
  | nil => exact .const _
  | cons first _ ih =>
      intro must inp st
      simp only [sor_resume]
      exact (first.guarded false inp st).resume (fun _ _ => .const _) (ih false)

private theorem untilLoop_reaches (cond : Reaches C c) (body : Reaches R r) (must : Bool)
    (k j : Nat) (inp : Input) (st : σ) :
    Tends (fun n => untilLoop (C n) (R n) must (n - j) inp st) (untilLoop c r must k inp st) := by
  induction k generalizing j inp st with
  | zero => exact .inl rfl
  | succ k ih =>
      have next : Tends (fun n => untilLoop (C n) (R n) must (n - (j + 1) + 1) inp st)
          (untilLoop c r must (k + 1) inp st) := by
        simp only [untilLoop_resume]
        refine (cond.guarded false inp st).resume (fun _ _ => .const _) ?_
        intro rest st'
        split
        · exact .const _
        · exact (body must rest st').resume (ih (j + 1)) fun _ _ => .const _
      refine next.later (j + 1) ?_
      intro n hn
      rw [show n - j = n - (j + 1) + 1 by omega]

private theorem untilRule_reaches (cond : Reaches C c) (h : ReachesAll Rs rs) :
    Reaches (fun n => untilFor n (C n) (seqMatch (Rs n))) (untilRule c rs) := by
  intro must inp st
  exact (untilLoop_reaches cond (seqMatch_reaches h) must (inp.length + 1) 0 inp st).marker must inp

private theorem ifapply_reaches (act : Str → σ → Except ε σ) (h : Reaches R r) :
    Reaches (fun n => ifapply (R n) act) (ifapply r act) := by
  intro must inp st
  simp only [ifapply_resume]
  refine Tends.marker ?_ false inp
  exact (h must inp st).resume (fun _ _ => .const _) fun _ _ => .const _

private theorem cond2impl_reaches (own : Bool) (cond : Reaches C c) (h : ReachesAll Rs rs) :
    Reaches (fun n => cond2impl own (C n) (Rs n)) (cond2impl own c rs) := by
  intro must inp st
  simp only [cond2impl_resume]
  refine Tends.marker ?_ own inp
  exact (cond.guarded false inp st).resume (seqMatch_reaches h own) fun _ _ => .const _

end Templates

section Rules

variable {ι α σ ε : Type} {act : α → Str → σ → Except ε σ} {calls : Nat → ι → Matcher σ ε}
  {r c : Rule ι α} {rs : List (Rule ι α)} {m q : Matcher σ ε} {ms : List (Matcher σ ε)}

/-- A rule with a growing bound, given the rules it calls with that bound. -/
def Rule.bounded (act : α → Str → σ → Except ε σ) (calls : Nat → ι → Matcher σ ε) (r : Rule ι α)
    (n : Nat) : Matcher σ ε :=
  r.meaning act (calls n) n

inductive EachReaches (act : α → Str → σ → Except ε σ) (calls : Nat → ι → Matcher σ ε) :
    List (Rule ι α) → List (Matcher σ ε) → Prop
  | nil : EachReaches act calls [] []
  | cons {r : Rule ι α} {m : Matcher σ ε} {rs : List (Rule ι α)} {ms : List (Matcher σ ε)} :
      Reaches (r.bounded act calls) m → EachReaches act calls rs ms →
        EachReaches act calls (r :: rs) (m :: ms)

theorem EachReaches.one (h : Reaches (r.bounded act calls) m) : EachReaches act calls [r] [m] :=
  .cons h .nil

theorem EachReaches.two {s : Rule ι α} (h : Reaches (r.bounded act calls) m)
    (hs : Reaches (s.bounded act calls) q) : EachReaches act calls [r, s] [m, q] :=
  .cons h (.one hs)

theorem EachReaches.all (h : EachReaches act calls rs ms) :
    ReachesAll (fun n => Rule.meanings act (calls n) n rs) ms := by
  induction h with
  | nil => exact .nil
  | cons first _ ih => exact .cons first ih

theorem EachReaches.seq (h : EachReaches act calls rs ms) :
    Reaches ((Rule.seq rs).bounded act calls) (Pegtl.seq ms) :=
  seq_reaches h.all

theorem EachReaches.opt (h : EachReaches act calls rs ms) :
    Reaches ((Rule.opt rs).bounded act calls) (Pegtl.opt ms) :=
  opt_reaches h.all

theorem EachReaches.star (h : EachReaches act calls rs ms) :
    Reaches ((Rule.star rs).bounded act calls) (Pegtl.star ms) :=
  star_reaches h.all

theorem EachReaches.plus (h : EachReaches act calls rs ms) :
    Reaches ((Rule.plus rs).bounded act calls) (Pegtl.plus ms) :=
  plus_reaches h.all

theorem EachReaches.sor (h : EachReaches act calls rs ms) :
    Reaches ((Rule.sor rs).bounded act calls) (Pegtl.sor ms) :=
  sor_reaches h.all

theorem bounded_untilRule (cond : Reaches (c.bounded act calls) q)
    (h : EachReaches act calls rs ms) :
    Reaches ((Rule.untilRule c rs).bounded act calls) (Pegtl.untilRule q ms) :=
  untilRule_reaches cond h.all

theorem bounded_cond2impl (own : Bool) (cond : Reaches (c.bounded act calls) q)
    (h : EachReaches act calls rs ms) :
    Reaches ((Rule.cond2impl own c rs).bounded act calls) (Pegtl.cond2impl own q ms) :=
  cond2impl_reaches own cond h.all

theorem bounded_ifapply (f : α) (h : Reaches (r.bounded act calls) m) :
    Reaches ((Rule.ifapply r [f]).bounded act calls) (Pegtl.ifapply m (act f)) := by
  have single : applyHelper act [f] = act f := by
    funext s st
    rw [applyHelper, List.foldlM_cons]
    cases act f s st <;> rfl
  have reaches : Reaches ((Rule.ifapply r [f]).bounded act calls)
      (Pegtl.ifapply m (applyHelper act [f])) := ifapply_reaches (applyHelper act [f]) h
  rw [single] at reaches
  exact reaches

theorem bounded_character (p : Char → Bool) :
    Reaches ((Rule.character p).bounded act calls) (Pegtl.character p) := .const _

theorem bounded_eof : Reaches (Rule.eof.bounded act calls) Pegtl.eof := .const _

end Rules

end Amalgam.Pegtl
