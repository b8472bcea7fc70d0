/- Module: Amalgam/Codegen/Generator
   digest: Values for expression trees, with the built-in operator table. -/

import Amalgam.Parser.Module

set_option autoImplicit false
set_option relaxedAutoImplicit false

namespace Amalgam.Codegen

open Amalgam.Cxx (Str Fault Thrown silently after stoi)
open Amalgam.Parser (Ast NodeType)

inductive Opcode where
  | add | sub | mul | sdiv | srem | and | or | xor | shl | lshr
  | icmpSGE | icmpSLE | icmpEQ | icmpNE | icmpSLT | icmpSGT
  deriving DecidableEq

inductive Value where
  | constantInt (v : BitVec 64)
  | binary (op : Opcode) (left right : Value)
  deriving DecidableEq

def opMap : List (Str × Opcode) :=
  [("+".toList, .add), ("-".toList, .sub), ("*".toList, .mul), ("/".toList, .sdiv),
    ("%".toList, .srem), ("&".toList, .and), ("|".toList, .or), ("^".toList, .xor),
    ("<<".toList, .shl), (">>".toList, .lshr), (">=".toList, .icmpSGE), ("<=".toList, .icmpSLE),
    ("==".toList, .icmpEQ), ("!=".toList, .icmpNE), ("<".toList, .icmpSLT), (">".toList, .icmpSGT)]

/-- A value, null when there is none, and the lines printed on the way. -/
structure Emitted where
  value : Option Value
  printed : List Str := []
  deriving DecidableEq

def missingOperand : Str :=
  "internal error: binary operation expected two operands, but did not find them.".toList

def missingGenerator (op : Str) : Str :=
  "internal error: no generator found for '".toList ++ op ++ "'.".toList

def nodeTypeIndex : NodeType → Nat
  | .literalInt => 0
  | .identifier => 1
  | .op => 2
  | .group => 3

def missingProcessor (type : NodeType) (data : Str) : Str :=
  "internal error: no processor found for node type '".toList ++
    (toString (nodeTypeIndex type)).toList ++ "':'".toList ++ data ++ "'".toList

def constantInt (data : Str) : Except Fault Value := do
  let v ← stoi data
  .ok (.constantInt (BitVec.ofInt 64 v))

/-- The part of `bin_op` after both operands have been generated. -/
def combine (data : Str) (left right : Emitted) : Emitted :=
  match left.value, right.value with
  | some l, some r =>
      match opMap.lookup data with
      | some op => ⟨some (.binary op l r), left.printed ++ right.printed⟩
      | none => ⟨none, left.printed ++ right.printed ++ [missingGenerator data]⟩
  | _, _ => ⟨none, left.printed ++ right.printed ++ [missingOperand]⟩

/-- `get_value`, with `bin_op` as its branch for operators. -/
def getValue : Ast → Except Thrown Emitted
  | .mk _ type data children _ =>
      match type with
      | .literalInt => do
          let v ← silently (constantInt data)
          .ok ⟨some v, []⟩
      | .op =>
          match children with
          | [] => .error ⟨.outOfBounds, []⟩
          | [l] => do
              let left ← getValue l
              .error ⟨.outOfBounds, left.printed⟩
          | l :: r :: _ => do
              let left ← getValue l
              let right ← after left.printed (getValue r)
              .ok (combine data left right)
      | .group =>
          match children with
          | [] => .error ⟨.outOfBounds, []⟩
          | c :: _ => getValue c
      | .identifier => .ok ⟨none, [missingProcessor type data]⟩

end Amalgam.Codegen
