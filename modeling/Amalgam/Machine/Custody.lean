/- Module: Amalgam/Machine/Custody
   digest: Obligations that are handed from place to place, and reported when they are dropped
   before they are discharged. -/

import Mathlib.Logic.Function.Basic
import Mathlib.Data.List.Basic

set_option autoImplicit false
set_option relaxedAutoImplicit false

namespace Amalgam.Machine

/-- Each place holds at most one obligation, with a mark that says whether it has been
discharged. -/
structure Custody (L T : Type) where
  held : L → Option (T × Bool)
  issued : List T
  reported : List T

namespace Custody

variable {L T : Type} [DecidableEq L]

def issue (s : Custody L T) (l : L) (t : T) : Custody L T :=
  { s with held := Function.update s.held l (some (t, false)), issued := s.issued ++ [t] }

def hand (s : Custody L T) (source target : L) : Custody L T :=
  { s with
    held := Function.update (Function.update s.held source none) target (s.held source) }

def discharge (s : Custody L T) (l : L) : Custody L T :=
  { s with held := Function.update s.held l ((s.held l).map fun p => (p.1, true)) }

def due (s : Custody L T) (l : L) : List T :=
  match s.held l with
  | some (t, false) => [t]
  | _ => []

def drop (s : Custody L T) (l : L) : Custody L T :=
  { s with held := Function.update s.held l none, reported := s.reported ++ s.due l }

/-- The course of one obligation: not issued yet; held in one place, marked when it was
discharged; or settled, reported once when it was not. -/
inductive Status [DecidableEq T] (s : Custody L T) (discharged : Prop) (t : T) : Prop where
  | unissued : t ∉ s.issued → (∀ l b, s.held l ≠ some (t, b)) → s.reported.count t = 0 →
      ¬ discharged → Status s discharged t
  | pending (l : L) (b : Bool) : t ∈ s.issued → s.held l = some (t, b) →
      (∀ l' b', s.held l' = some (t, b') → l' = l) → s.reported.count t = 0 →
      (b = true ↔ discharged) → Status s discharged t
  | settled : t ∈ s.issued → (∀ l b, s.held l ≠ some (t, b)) →
      (discharged → s.reported.count t = 0) → (¬ discharged → s.reported.count t = 1) →
      Status s discharged t

section Places

variable {s : Custody L T} {l l' k : L} {t : T} {p : T × Bool}

private theorem held_update_iff (f : L → Option (T × Bool)) (v : Option (T × Bool)) :
    Function.update f l v k = some p ↔ k = l ∧ v = some p ∨ k ≠ l ∧ f k = some p := by
  by_cases same : k = l
  · subst same
    simp
  · simp [same]

private theorem issue_held : (s.issue l t).held k = some p ↔
    k = l ∧ some (t, false) = some p ∨ k ≠ l ∧ s.held k = some p := held_update_iff _ _

private theorem hand_held : (s.hand l l').held k = some p ↔
    k = l' ∧ s.held l = some p ∨ k ≠ l' ∧ k ≠ l ∧ s.held k = some p := by
  rw [hand, held_update_iff, held_update_iff]
  simp

private theorem discharge_held : (s.discharge l).held k = some p ↔
    k = l ∧ (∃ b, s.held l = some (p.1, b)) ∧ p.2 = true ∨ k ≠ l ∧ s.held k = some p := by
  obtain ⟨t, b⟩ := p
  rw [discharge, held_update_iff]
  cases s.held l with
  | none => simp
  | some q =>
      obtain ⟨u, b'⟩ := q
      simp [eq_comm]

private theorem drop_held : (s.drop l).held k = some p ↔ k ≠ l ∧ s.held k = some p := by
  rw [drop, held_update_iff]
  simp

end Places

section Steps

variable [DecidableEq T] {s : Custody L T} {discharged : Prop} {l l' : L} {t u : T}

omit [DecidableEq L] in
private theorem due_count (s : Custody L T) (l : L) (t : T) :
    (s.due l).count t = if s.held l = some (t, false) then 1 else 0 := by
  unfold due
  cases held : s.held l with
  | none => rfl
  | some p =>
      obtain ⟨u, b⟩ := p
      cases b with
      | true => simp
      | false => simp [List.count_singleton]

theorem Status.issue (status : s.Status discharged t) (empty : s.held l = none)
    (fresh : u ∉ s.issued) : (s.issue l u).Status discharged t := by
  cases status with
  | unissued absent nobody silent unasked =>
      by_cases same : t = u
      · subst same
        have here : (s.issue l t).held l = some (t, false) := issue_held.mpr (.inl ⟨rfl, rfl⟩)
        refine .pending l false (by simp [Custody.issue]) here ?_ silent
          (iff_of_false Bool.false_ne_true unasked)
        intro k b held
        rcases issue_held.mp held with ⟨place, -⟩ | ⟨-, held⟩
        · exact place
        · exact absurd held (nobody k b)
      · refine .unissued ?_ ?_ silent unasked
        · simp [Custody.issue, absent, same]
        · intro k b held
          rcases issue_held.mp held with ⟨-, other⟩ | ⟨-, held⟩
          · obtain ⟨other, -⟩ := Prod.mk.inj (Option.some.inj other)
            exact same other.symm
          · exact nobody k b held
  | pending k b issued held only silent marked =>
      have other : k ≠ l := by
        rintro rfl
        simp [empty] at held
      refine .pending k b (List.mem_append_left _ issued) (issue_held.mpr (.inr ⟨other, held⟩)) ?_
        silent marked
      intro k' b' held'
      rcases issue_held.mp held' with ⟨-, new⟩ | ⟨-, held'⟩
      · obtain ⟨rfl, -⟩ := Prod.mk.inj (Option.some.inj new)
        exact absurd issued fresh
      · exact only k' b' held'
  | settled issued nobody none once =>
      refine .settled (List.mem_append_left _ issued) ?_ none once
      intro k b held
      rcases issue_held.mp held with ⟨-, new⟩ | ⟨-, held⟩
      · obtain ⟨rfl, -⟩ := Prod.mk.inj (Option.some.inj new)
        exact fresh issued
      · exact nobody k b held

theorem Status.hand (status : s.Status discharged t) (empty : s.held l' = none) :
    (s.hand l l').Status discharged t := by
  have nowhere : (∀ k b, s.held k ≠ some (t, b)) → ∀ k b, (s.hand l l').held k ≠ some (t, b) := by
    intro nobody k b held
    rcases hand_held.mp held with ⟨-, held⟩ | ⟨-, -, held⟩
    · exact nobody l b held
    · exact nobody k b held
  cases status with
  | unissued absent nobody silent unasked => exact .unissued absent (nowhere nobody) silent unasked
  | pending k b issued held only silent marked =>
      have other : k ≠ l' := by
        rintro rfl
        simp [empty] at held
      by_cases given : k = l
      · subst given
        refine .pending l' b issued (hand_held.mpr (.inl ⟨rfl, held⟩)) ?_ silent marked
        intro k' b' held'
        rcases hand_held.mp held' with ⟨place, -⟩ | ⟨-, away, held'⟩
        · exact place
        · exact absurd (only k' b' held') away
      · refine .pending k b issued (hand_held.mpr (.inr ⟨other, given, held⟩)) ?_ silent marked
        intro k' b' held'
        rcases hand_held.mp held' with ⟨-, taken⟩ | ⟨-, -, held'⟩
        · exact absurd (only l b' taken).symm given
        · exact only k' b' held'
  | settled issued nobody none once => exact .settled issued (nowhere nobody) none once

theorem Status.discharge (status : s.Status discharged t) :
    (s.discharge l).Status (discharged ∨ ∃ b, s.held l = some (t, b)) t := by
  have nowhere : (∀ k b, s.held k ≠ some (t, b)) →
      ∀ k b, (s.discharge l).held k ≠ some (t, b) := by
    intro nobody k b held
    rcases discharge_held.mp held with ⟨-, ⟨b', held⟩, -⟩ | ⟨-, held⟩
    · exact nobody l b' held
    · exact nobody k b held
  have elsewhere : (∀ b, s.held l ≠ some (t, b)) →
      ((discharged ∨ ∃ b, s.held l = some (t, b)) ↔ discharged) := by
    intro absent
    apply or_iff_left
    rintro ⟨b, held⟩
    exact absent b held
  cases status with
  | unissued absent nobody silent unasked =>
      refine .unissued absent (nowhere nobody) silent ?_
      rwa [elsewhere (nobody l)]
  | pending k b issued held only silent marked =>
      by_cases here : k = l
      · subst here
        refine .pending k true issued (discharge_held.mpr (.inl ⟨rfl, ⟨b, held⟩, rfl⟩)) ?_ silent
          (iff_of_true rfl (.inr ⟨b, held⟩))
        intro k' b' held'
        rcases discharge_held.mp held' with ⟨place, -⟩ | ⟨-, held'⟩
        · exact place
        · exact only k' b' held'
      · have absent : ∀ b', s.held l ≠ some (t, b') := fun b' held' => here (only l b' held').symm
        refine .pending k b issued (discharge_held.mpr (.inr ⟨here, held⟩)) ?_ silent ?_
        · intro k' b' held'
          rcases discharge_held.mp held' with ⟨-, ⟨b'', held'⟩, -⟩ | ⟨-, held'⟩
          · exact absurd held' (absent b'')
          · exact only k' b' held'
        · rw [elsewhere absent]
          exact marked
  | settled issued nobody none once =>
      refine .settled issued (nowhere nobody) ?_ ?_
      · rwa [elsewhere (nobody l)]
      · rwa [elsewhere (nobody l)]

theorem Status.drop (status : s.Status discharged t) : (s.drop l).Status discharged t := by
  have nowhere : (∀ k b, s.held k ≠ some (t, b)) → ∀ k b, (s.drop l).held k ≠ some (t, b) := by
    intro nobody k b held
    exact nobody k b (drop_held.mp held).2
  have reported : (s.drop l).reported.count t =
      s.reported.count t + if s.held l = some (t, false) then 1 else 0 := by
    rw [Custody.drop, List.count_append, due_count]
  have unchanged : (∀ b, s.held l ≠ some (t, b)) →
      (s.drop l).reported.count t = s.reported.count t := by
    intro absent
    rw [reported, if_neg (absent false)]
    rfl
  cases status with
  | unissued absent nobody silent unasked =>
      exact .unissued absent (nowhere nobody) ((unchanged (nobody l)).trans silent) unasked
  | pending k b issued held only silent marked =>
      by_cases here : k = l
      · subst here
        refine .settled issued ?_ ?_ ?_
        · intro k' b' held'
          obtain ⟨away, held'⟩ := drop_held.mp held'
          exact away (only k' b' held')
        · intro asked
          obtain rfl : b = true := marked.mpr asked
          rw [reported, silent, held]
          simp
        · intro unasked
          obtain rfl : b = false := Bool.eq_false_iff.mpr fun set => unasked (marked.mp set)
          rw [reported, silent, held]
          simp
      · have absent : ∀ b', s.held l ≠ some (t, b') := fun b' held' => here (only l b' held').symm
        refine .pending k b issued (drop_held.mpr ⟨here, held⟩) ?_ ((unchanged absent).trans silent)
          marked
        intro k' b' held'
        exact only k' b' (drop_held.mp held').2
  | settled issued nobody none once =>
      refine .settled issued (nowhere nobody) ?_ ?_
      · rw [unchanged (nobody l)]
        exact none
      · rw [unchanged (nobody l)]
        exact once

omit [DecidableEq L] in
/-- No obligation is reported twice. -/
theorem Status.count_le_one (status : s.Status discharged t) : s.reported.count t ≤ 1 := by
  cases status with
  | unissued _ _ silent _ => omega
  | pending _ _ _ _ _ silent _ => omega
  | settled _ _ none once =>
      by_cases asked : discharged
      · have := none asked
        omega
      · have := once asked
        omega

omit [DecidableEq L] in
/-- What was issued and is held nowhere any more was reported unless it was discharged. -/
theorem Status.count_eq_one_iff (status : s.Status discharged t) (issued : t ∈ s.issued)
    (nobody : ∀ k b, s.held k ≠ some (t, b)) : s.reported.count t = 1 ↔ ¬ discharged := by
  cases status with
  | unissued absent => exact absurd issued absent
  | pending k b _ held => exact absurd held (nobody k b)
  | settled _ _ none once =>
      constructor
      · intro one asked
        have := none asked
        omega
      · exact once

end Steps

end Custody

end Amalgam.Machine
