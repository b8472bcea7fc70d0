/- Module: Amalgam/Chain/Fold
   digest: Chains folded to the right, and when it does not matter where they are bracketed. -/

import Amalgam.Chain.Basic

set_option autoImplicit false
set_option relaxedAutoImplicit false

namespace Amalgam.Chain

variable {α β ω : Type}

/-- Every operator takes the operand before it and all that comes after it. -/
def foldRight (f : ω → β → β → β) (g : α → β) : Chain α ω → β
  | last a => g a
  | link a o c => f o (g a) (c.foldRight f g)

def operators : Chain α ω → List ω
  | last _ => []
  | link _ o c => o :: c.operators

/-- What `p` yields may be taken by `o` as a whole or in its second operand only. -/
def Reassociates (f : ω → β → β → β) (p o : ω) : Prop :=
  ∀ x y z, f o (f p x y) z = f p x (f o y z)

/-- A chain in front of an operator may be bracketed when the operator may be moved into it
past each of its own. -/
theorem foldRight_append {f : ω → β → β → β} {g : α → β} {c : Chain α ω} {o : ω}
    (moves : ∀ p ∈ c.operators, Reassociates f p o) (d : Chain α ω) :
    (c.append o d).foldRight f g = f o (c.foldRight f g) (d.foldRight f g) := by
  induction c with
  | last a => rfl
  | link a p c ih =>
      obtain ⟨first, others⟩ := List.forall_mem_cons.mp moves
      rw [append, foldRight, ih others, foldRight]
      exact (first (g a) (c.foldRight f g) (d.foldRight f g)).symm

end Amalgam.Chain
