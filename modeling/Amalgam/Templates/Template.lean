/- Module: Amalgam/Templates/Template
   digest: Operations, templates, and the preparation of a template for code generation. -/

import Amalgam.Util.Expected

set_option autoImplicit false
set_option relaxedAutoImplicit false

namespace Amalgam.Templates

open Amalgam.Cxx (Str Fault)
open Amalgam.Util (Expected)
open Std (TreeMap)

/-- A shared pointer to an operation, as the index of the object it owns. -/
abbrev OpPtr := Nat

abbrev ValuePtr := Nat

/-- The values that are created in LLVM: an integer constant of 64 bits, and a load through
a pointer. -/
inductive Value where
  | constantInt (bits : BitVec 64)
  | load (pointer : Option ValuePtr) (name : Str)
  deriving DecidableEq

inductive Opcode where
  | constantValue (target : Str) (value : Int)
  | load (target source : Str)
  deriving DecidableEq

def Opcode.target : Opcode → Str
  | .constantValue target _ => target
  | .load target _ => target

structure Op where
  code : Opcode
  prepared : Bool := false
  targetv : Option ValuePtr := none

namespace Op

def isPrepared (o : Op) : Bool := o.prepared

/-- Both classes are derived from `output_op`. -/
def hasOutput (_ : Op) : Bool := true

def getTargetName (o : Op) : Str := o.code.target

def getTargetValue (o : Op) : Option ValuePtr := o.targetv

def setPrepared (o : Op) (prepared : Bool) : Op := { o with prepared := prepared }

end Op

/-- The operation objects, and the values created so far. A value that an operation drops
when it is prepared once more stays among them, where its pointer releases it. -/
structure Memory where
  objects : List Op
  values : List Value := []

namespace Memory

def deref (m : Memory) (p : OpPtr) : Except Fault Op :=
  match m.objects[p]? with
  | some o => .ok o
  | none => .error .nullDereference

def store (m : Memory) (p : OpPtr) (o : Op) : Memory := { m with objects := m.objects.set p o }

def create (m : Memory) (v : Value) : Memory × ValuePtr :=
  ({ m with values := m.values ++ [v] }, m.values.length)

end Memory

/-- `op_list` are the operations in order, `reg_map` leads from a register to the operation
that produces it. -/
structure Templ where
  name : Str
  opList : List OpPtr := []
  regMap : TreeMap Str OpPtr := ∅

namespace Templ

def addOperation (t : Templ) (m : Memory) (opcode : OpPtr) : Except Fault Templ := do
  let o ← m.deref opcode
  let t := { t with opList := t.opList ++ [opcode] }
  if o.hasOutput then .ok { t with regMap := t.regMap.insert o.getTargetName opcode } else .ok t

def findOperationByOutput (t : Templ) (outputReg : Str) : Except Fault (Expected OpPtr Fault) :=
  match t.regMap[outputReg]? with
  | none =>
      Expected.fromException "std::out_of_range".toList "std::out_of_range".toList
        (.outOfRange "unknown output register".toList)
  | some p => .ok (.ofValue p)

def prepareConstantValue (value : Int) (m : Memory) (this : OpPtr) (o : Op) :
    Expected Bool Fault × Memory :=
  let created := m.create (.constantInt (BitVec.ofInt 64 value))
  (.ofValue true,
    created.1.store this ({ o with targetv := some created.2 }.setPrepared true))

/-- `load::prepare`: an unknown register is the only failure, and `prepared` is not set. -/
def prepareLoad (t : Templ) (target source : Str) (m : Memory) (this : OpPtr) (o : Op) :
    Except Fault (Expected Bool Fault × Memory) := do
  let sourceOp ← t.findOperationByOutput source
  let asked := sourceOp.valid
  if asked.1 = false then .ok (.ofValue false, m)
  else
    let result ← asked.2.get.1
    let found ← result
    let sourceValue := (← m.deref found).getTargetValue
    let created := m.create (.load sourceValue target)
    .ok (.ofValue true, created.1.store this { o with targetv := some created.2 })

def prepareOp (t : Templ) (m : Memory) (this : OpPtr) :
    Except Fault (Expected Bool Fault × Memory) := do
  let o ← m.deref this
  match o.code with
  | .constantValue _ value => .ok (prepareConstantValue value m this o)
  | .load target source => t.prepareLoad target source m this o

/-- One turn of the loop. The result is dropped without a look at it; it holds a value, so
its destructor does not throw. -/
def prepareNext (t : Templ) (m : Memory) (o : OpPtr) : Except Fault Memory := do
  let result ← t.prepareOp m o
  .ok result.2

def prepare (t : Templ) (m : Memory) : Except Fault Memory := t.opList.foldlM t.prepareNext m

end Templ

end Amalgam.Templates
