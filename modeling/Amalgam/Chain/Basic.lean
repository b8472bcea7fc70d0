/- Module: Amalgam/Chain/Basic
   digest: Non-empty chains of operands with operators between them. -/

import Mathlib.Data.List.Basic

set_option autoImplicit false
set_option relaxedAutoImplicit false

namespace Amalgam

/-- Operands with an operator between every two neighbours. -/
inductive Chain (α ω : Type) where
  | last (a : α)
  | link (a : α) (o : ω) (rest : Chain α ω)
  deriving DecidableEq

namespace Chain

variable {α ω β : Type}

def append : Chain α ω → ω → Chain α ω → Chain α ω
  | last a, o, d => link a o d
  | link a p c, o, d => link a p (c.append o d)

def toList (f : α → β) (g : ω → β) : Chain α ω → List β
  | last a => [f a]
  | link a o c => f a :: g o :: c.toList f g

def size : Chain α ω → Nat
  | last _ => 1
  | link _ _ c => c.size + 2

theorem size_pos (c : Chain α ω) : 0 < c.size := by
  cases c <;> simp [size]

theorem toList_append (f : α → β) (g : ω → β) (c : Chain α ω) (o : ω) (d : Chain α ω) :
    (c.append o d).toList f g = c.toList f g ++ g o :: d.toList f g := by
  induction c with
  | last a => rfl
  | link a p c ih => simp [append, toList, ih]

theorem size_append (c : Chain α ω) (o : ω) (d : Chain α ω) :
    (c.append o d).size = c.size + 1 + d.size := by
  induction c with
  | last a =>
      simp only [append, size]
      omega
  | link a p c ih =>
      simp only [append, size, ih]
      omega

@[simp] theorem length_toList (f : α → β) (g : ω → β) (c : Chain α ω) :
    (c.toList f g).length = c.size := by
  induction c with
  | last a => rfl
  | link a o c ih => simp [toList, size, ih]

/-- The longest part in front whose operands, but perhaps the last, satisfy a test. -/
def front (p : α → Bool) : Chain α ω → Chain α ω
  | last a => last a
  | link a o c => if p a then link a o (c.front p) else last a

theorem size_front_le (p : α → Bool) (c : Chain α ω) : (c.front p).size ≤ c.size := by
  induction c with
  | last a => exact Nat.le_refl _
  | link a o c ih =>
      simp only [front]
      split
      · simp only [size]
        omega
      · simp only [size]
        omega

theorem front_eq_of_size {p : α → Bool} {c : Chain α ω} (h : (c.front p).size = c.size) :
    c.front p = c := by
  induction c with
  | last a => rfl
  | link a o c ih =>
      simp only [front] at h ⊢
      by_cases ha : p a = true
      · rw [if_pos ha] at h ⊢
        simp only [size] at h
        rw [ih (by omega)]
      · rw [if_neg ha] at h
        simp only [size] at h
        have := c.size_pos
        omega

theorem size_odd (c : Chain α ω) : c.size % 2 = 1 := by
  induction c with
  | last a => rfl
  | link a o c ih =>
      simp only [size]
      omega

theorem toList_append_inj {f : α → β} {g : ω → β} {p : β → Prop} (operator : ∀ o, p (g o))
    (injective : Function.Injective f) (injective' : Function.Injective g) {c d : Chain α ω}
    {rest : List β} (stop : ∀ b ∈ rest.head?, ¬ p b)
    (same : d.toList f g ++ rest = c.toList f g) : d = c ∧ rest = [] := by
  induction d generalizing c with
  | last a =>
      cases c with
      | last b =>
          obtain ⟨first, rfl⟩ := List.cons.inj same
          rw [injective first]
          exact ⟨rfl, rfl⟩
      | link b o c =>
          obtain ⟨-, rfl⟩ := List.cons.inj same
          exact absurd (operator o) (stop (g o) rfl)
  | link a o d ih =>
      cases c with
      | last b =>
          obtain ⟨-, others⟩ := List.cons.inj same
          exact absurd others (by simp)
      | link b q c =>
          obtain ⟨first, others⟩ := List.cons.inj same
          obtain ⟨second, tail⟩ := List.cons.inj others
          obtain ⟨rfl, rfl⟩ := ih tail
          rw [injective first, injective' second]
          exact ⟨rfl, rfl⟩

end Chain

end Amalgam
