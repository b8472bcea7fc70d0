/- Module: Amalgam/Terms/Evaluation
   digest: Terms over operations that may be undefined, and views that evaluation respects. -/

import Mathlib.Tactic.Common

set_option autoImplicit false
set_option relaxedAutoImplicit false

namespace Amalgam.Terms

inductive Term (ω α : Type) where
  | const (v : α)
  | app (op : ω) (left right : Term ω α)
  deriving DecidableEq

/-- What constants stand for, and what the operations do. An operation may be undefined. -/
structure Interpretation (ω α β : Type) where
  imm : α → β
  app : ω → β → β → Option β

variable {ω α β γ : Type}

def Term.eval (I : Interpretation ω α β) : Term ω α → Option β
  | const v => some (I.imm v)
  | app op left right =>
      match left.eval I, right.eval I with
      | some x, some y => I.app op x y
      | _, _ => none

/-- A view of the values that all operations respect, wherever they are defined. -/
structure Respects (I : Interpretation ω α β) (J : Interpretation ω α γ) (view : β → γ) : Prop where
  imm : ∀ v, J.imm v = view (I.imm v)
  app : ∀ op x y v, I.app op x y = some v → J.app op (view x) (view y) = some (view v)

theorem Term.eval_app (I : Interpretation ω α β) (op : ω) (left right : Term ω α) (v : β) :
    (app op left right).eval I = some v ↔
      ∃ x y, left.eval I = some x ∧ right.eval I = some y ∧ I.app op x y = some v := by
  rw [eval]
  cases left.eval I with
  | none => simp
  | some x =>
      cases right.eval I with
      | none => simp
      | some y => simp

/-- The view of the value of a term is the value of the term over the views. -/
theorem Respects.eval {I : Interpretation ω α β} {J : Interpretation ω α γ} {view : β → γ}
    (respects : Respects I J view) {t : Term ω α} {v : β} (value : t.eval I = some v) :
    t.eval J = some (view v) := by
  induction t generalizing v with
  | const w =>
      obtain rfl := Option.some.inj value
      exact congrArg some (respects.imm w)
  | app op left right ihl ihr =>
      obtain ⟨x, y, valueLeft, valueRight, value⟩ := (Term.eval_app I op left right v).mp value
      rw [Term.eval_app]
      exact ⟨view x, view y, ihl valueLeft, ihr valueRight, respects.app op x y v value⟩

end Amalgam.Terms
