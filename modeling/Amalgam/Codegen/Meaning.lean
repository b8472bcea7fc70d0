/- Module: Amalgam/Codegen/Meaning
   digest: What the values that are generated may turn out to be, and their types. -/

import Amalgam.Codegen.Blocks

set_option autoImplicit false
set_option relaxedAutoImplicit false

namespace Amalgam.Codegen

/-- A division by zero, and one whose quotient is out of range, have no defined behaviour. -/
def Opcode.Defined (op : Opcode) (l r : BitVec 64) : Prop :=
  op = .sdiv ∨ op = .srem → r ≠ 0 ∧ ¬ (l = BitVec.intMin 64 ∧ r = -1)

/-- The results that an instruction may have. There is one, but that a shift by the width
or more may have any. One bit is given as 0 or 1. -/
def Opcode.Yields (op : Opcode) (l r w : BitVec 64) : Prop :=
  match op with
  | .add => w = l + r
  | .sub => w = l - r
  | .mul => w = l * r
  | .sdiv => w = l.sdiv r
  | .srem => w = l.srem r
  | .and => w = l &&& r
  | .or => w = l ||| r
  | .xor => w = l ^^^ r
  | .shl => r.toNat < 64 → w = l <<< r
  | .lshr => r.toNat < 64 → w = l >>> r
  | .icmpSGE => w = if r.sle l then 1 else 0
  | .icmpSLE => w = if l.sle r then 1 else 0
  | .icmpEQ => w = if l = r then 1 else 0
  | .icmpNE => w = if l = r then 0 else 1
  | .icmpSLT => w = if l.slt r then 1 else 0
  | .icmpSGT => w = if r.slt l then 1 else 0

section Values

/-- What a value may turn out to be when its instructions are executed. -/
def Value.Yields : Value → BitVec 64 → Prop
  | .constantInt v, w => w = v
  | .binary op l r, w => ∃ a b, l.Yields a ∧ r.Yields b ∧ op.Yields a b w

/-- Executing the instructions of a value has defined behaviour. -/
def Value.Defined : Value → Prop
  | .constantInt _ => True
  | .binary op l r =>
      l.Defined ∧ r.Defined ∧ ∀ a b, l.Yields a → r.Yields b → op.Defined a b

/-- The type rules of the instructions are kept, and the value is a 64-bit integer. -/
def Value.WellTyped (v : Value) : Prop :=
  (∀ c ∈ v.calls, c.left.width = c.right.width) ∧ v.width = 64

theorem Value.wellTyped_iff (v : Value) :
    v.WellTyped ↔ (∀ c ∈ v.calls, c.WellTyped) ∧ v.width = 64 := by
  constructor
  · rintro ⟨same, width⟩
    refine ⟨?_, width⟩
    induction v with
    | constantInt v => simp [calls]
    | binary op l r ihl ihr =>
        simp only [calls, List.forall_mem_append, List.forall_mem_singleton] at same ⊢
        obtain ⟨⟨left, right⟩, operands⟩ := same
        have plain : op.isComparison = false := by
          by_contra comparison
          rw [Value.width, if_pos (by simpa using comparison)] at width
          omega
        rw [Value.width, if_neg (by simp [plain])] at width
        have other : r.width = 64 := operands ▸ width
        exact ⟨⟨ihl left width, ihr right other⟩, width, other⟩
  · rintro ⟨typed, width⟩
    refine ⟨?_, width⟩
    intro c hc
    rw [(typed c hc).1, (typed c hc).2]

end Values

end Amalgam.Codegen
