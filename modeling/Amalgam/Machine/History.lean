/- Module: Amalgam/Machine/History
   digest: Runs of a partial step function, with conditions and invariants over their histories. -/

import Mathlib.Data.List.Induction

set_option autoImplicit false
set_option relaxedAutoImplicit false

namespace Amalgam.Machine

variable {σ α ε : Type}

/-- Every action satisfies a condition that may depend on the actions before it. -/
def Along (P : List α → α → Prop) (l : List α) : Prop :=
  ∀ before a after, l = before ++ a :: after → P before a

def Once (P : List α → α → Prop) (l : List α) : Prop :=
  ∃ before a after, l = before ++ a :: after ∧ P before a

section Conditions

variable {P Q : List α → α → Prop}

theorem along_nil : Along P [] := by
  intro before a after split
  simp at split

theorem along_concat (l : List α) (a : α) : Along P (l ++ [a]) ↔ Along P l ∧ P l a := by
  constructor
  · intro h
    constructor
    · intro before b after split
      apply h before b (after ++ [a])
      rw [split, List.append_assoc, List.cons_append]
    · exact h l a [] rfl
  · rintro ⟨earlier, last⟩ before b after split
    rcases List.eq_nil_or_concat after with rfl | ⟨middle, c, rfl⟩
    · obtain ⟨rfl, same⟩ := List.append_inj' split rfl
      obtain ⟨rfl, -⟩ := List.cons.inj same
      exact last
    · rw [List.concat_eq_append, ← List.cons_append, ← List.append_assoc] at split
      obtain ⟨rfl, -⟩ := List.append_inj' split rfl
      exact earlier before b middle rfl

theorem along_of_forall {p : α → Prop} {l : List α} (h : ∀ a ∈ l, p a) :
    Along (fun _ a => p a) l := by
  intro before a after split
  apply h
  rw [split]
  exact List.mem_append_right before List.mem_cons_self

private theorem once_iff (l : List α) : Once P l ↔ ¬ Along (fun before a => ¬ P before a) l := by
  constructor
  · rintro ⟨before, a, after, split, holds⟩ never
    exact never before a after split holds
  · intro sometime
    by_contra never
    apply sometime
    intro before a after split holds
    exact never ⟨before, a, after, split, holds⟩

theorem once_nil : ¬ Once P [] := by
  rw [once_iff, not_not]
  exact along_nil

theorem once_concat (l : List α) (a : α) : Once P (l ++ [a]) ↔ Once P l ∨ P l a := by
  rw [once_iff, once_iff, along_concat, not_and_or, not_not]

theorem Along.front {l m : List α} (h : Along P (l ++ m)) : Along P l := by
  intro before a after split
  apply h before a (after ++ m)
  rw [split, List.append_assoc, List.cons_append]

theorem Along.and {l : List α} (h : Along P l) (h' : Along Q l) :
    Along (fun before a => P before a ∧ Q before a) l :=
  fun before a after split => ⟨h before a after split, h' before a after split⟩

end Conditions

section Runs

variable {step : σ → α → Except ε σ}

theorem run_append (l m : List α) (s s' : σ) :
    (l ++ m).foldlM step s = .ok s' ↔
      ∃ t, l.foldlM step s = .ok t ∧ m.foldlM step t = .ok s' := by
  rw [List.foldlM_append]
  cases l.foldlM step s with
  | error e => simp [bind, Except.bind]
  | ok t => simp [bind, Except.bind]

theorem run_cons (a : α) (l : List α) (s s' : σ) :
    (a :: l).foldlM step s = .ok s' ↔ ∃ t, step s a = .ok t ∧ l.foldlM step t = .ok s' := by
  rw [List.foldlM_cons]
  cases step s a with
  | error e => simp [bind, Except.bind]
  | ok t => simp [bind, Except.bind]

theorem run_concat (l : List α) (a : α) (s s' : σ) :
    (l ++ [a]).foldlM step s = .ok s' ↔ ∃ t, l.foldlM step s = .ok t ∧ step t a = .ok s' := by
  rw [run_append]
  simp only [run_cons, List.foldlM_nil, pure, Except.pure, Except.ok.injEq, exists_eq_right]

/-- What every action keeps, given the run so far, is known of the state that a run reaches. -/
theorem run_keeps (Inv : List α → σ → Prop) {s₀ : σ} (init : Inv [] s₀)
    (next : ∀ l s a s', l.foldlM step s₀ = .ok s → Inv l s → step s a = .ok s' → Inv (l ++ [a]) s')
    {l : List α} {s : σ} (run : l.foldlM step s₀ = .ok s) : Inv l s := by
  induction l using List.reverseRecOn generalizing s with
  | nil =>
      obtain rfl : s₀ = s := Except.ok.inj run
      exact init
  | append_singleton l a ih =>
      obtain ⟨t, earlier, taken⟩ := (run_concat l a s₀ s).mp run
      exact next l t a s earlier (ih earlier) taken

/-- When every action allowed after a history can be taken and keeps what is known of the
state reached, then every history of allowed actions has a run, and that is known of the
state it reaches. -/
theorem run_history {P : List α → α → Prop} (Inv : List α → σ → Prop) {s₀ : σ} (init : Inv [] s₀)
    (next : ∀ l s a, Inv l s → P l a → ∃ s', step s a = .ok s' ∧ Inv (l ++ [a]) s')
    {l : List α} (allowed : Along P l) : ∃ s, l.foldlM step s₀ = .ok s ∧ Inv l s := by
  induction l using List.reverseRecOn with
  | nil => exact ⟨s₀, rfl, init⟩
  | append_singleton l a ih =>
      obtain ⟨earlier, last⟩ := (along_concat l a).mp allowed
      obtain ⟨s, run, known⟩ := ih earlier
      obtain ⟨s', taken, known'⟩ := next l s a known last
      exact ⟨s', (run_concat l a s₀ s').mpr ⟨s, run, taken⟩, known'⟩

end Runs

end Amalgam.Machine
