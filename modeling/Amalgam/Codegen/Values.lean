/- Module: Amalgam/Codegen/Values
   digest: Values of strict trees: independent of types, and never out of range. -/

import Amalgam.Codegen.Generator
import Amalgam.Parser.Typing

set_option autoImplicit false
set_option relaxedAutoImplicit false

namespace Amalgam.Codegen

open Amalgam.Cxx (Fault Spares Str after silently spares_ok spares_silently stoi)
open Amalgam.Parser

theorem getValue_op (address : Nat) (data : Str) (l r : Ast)
    (semanticType : Option NumericTypeAnnotation) :
    getValue (.mk address .op data [l, r] semanticType) = (do
      let left ← getValue l
      let right ← after left.printed (getValue r)
      .ok (combine data left right)) := rfl

theorem getValue_literal (address : Nat) (data : Str)
    (semanticType : Option NumericTypeAnnotation) :
    getValue (.mk address .literalInt data [] semanticType) = (do
      let v ← silently (constantInt data)
      .ok ⟨some v, []⟩) := rfl

theorem getValue_erase {t : Ast} (strict : t.Strict) : getValue t.erase = getValue t := by
  induction strict with
  | @op address data l r semanticType _ _ ihl ihr =>
      have erased : Ast.erase (.mk address .op data [l, r] semanticType) =
          .mk address .op data [l.erase, r.erase] none := rfl
      rw [erased, getValue_op, getValue_op, ihl, ihr]
  | @leaf address type data semanticType other =>
      cases type with
      | op => exact absurd rfl other
      | literalInt => rfl
      | identifier => rfl
      | group => rfl

theorem constantInt_error {data : Str} {e : Fault} (h : constantInt data = .error e) :
    Verifier.NoAccess e := by
  unfold constantInt at h
  rcases bind_error_iff.mp h with failed | ⟨v, -, failed⟩
  · exact Verifier.stoSigned_error failed
  · simp at failed

theorem getValue_inBounds {t : Ast} (strict : t.Strict) (plain : ∀ n ∈ t.nodes, n.type ≠ .group) :
    Spares .outOfBounds (getValue t) := by
  induction strict with
  | @op address data l r semanticType _ _ ihl ihr =>
      obtain ⟨-, left, right⟩ := Ast.forall_nodes_op.mp plain
      rw [getValue_op]
      refine (ihl left).bind fun vl => ?_
      exact ((ihr right).after vl.printed).bind fun vr => spares_ok _ _
  | @leaf address type data semanticType other =>
      cases type with
      | op => exact absurd rfl other
      | literalInt =>
          rw [getValue_literal]
          refine (spares_silently ?_).bind fun v => spares_ok _ _
          intro failed
          exact (constantInt_error failed).1 rfl
      | identifier => exact spares_ok _ _
      | group => exact absurd rfl (plain _ (Ast.mem_nodes_self _))

end Amalgam.Codegen
