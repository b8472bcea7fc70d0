/- Module: Amalgam/Codegen/Program
   digest: Methods as functions with one block, modules as programs, and their run. -/

import Amalgam.Codegen.Generator

set_option autoImplicit false
set_option relaxedAutoImplicit false

namespace Amalgam.Codegen

open Amalgam.Cxx (Str Fault Thrown silently after)
open Amalgam.Parser (Ast Method Module MethodPtr)

structure Call where
  op : Opcode
  left : Value
  right : Value
  deriving DecidableEq

/-- What a block holds: the instructions of the calls, and returns. A return of a null
value is possible. -/
inductive Instruction where
  | call (c : Call)
  | ret (value : Option Value)
  deriving DecidableEq

/-- A function of no arguments that returns a 64-bit integer; `entry` is its only block. -/
structure Function where
  name : Str
  entry : List Instruction

structure Program where
  name : Str
  functions : List Function

/-- The library below the generator. `folds` tells which calls are answered by a constant
instead of an instruction. The check of a function aborts when it finds it broken. An
engine is there or not, with an error text; it has compiled a function or not; and the
compiled code returns a number or traps. -/
structure Llvm where
  folds : Call → Bool
  verifyFunction : Function → Except Fault Unit
  createEngine : Program → Except Str Unit
  compiles : Program → Function → Bool
  call : Function → Except Fault Int

def opCalls (data : Str) (left right : Emitted) : List Call :=
  match left.value, right.value, opMap.lookup data with
  | some l, some r, some op => [⟨op, l, r⟩]
  | _, _, _ => []

/-- `get_value`, with the builder calls it makes. -/
def emitValue : Ast → Except Thrown (Emitted × List Call)
  | .mk _ type data children _ =>
      match type with
      | .literalInt => do
          let v ← silently (constantInt data)
          .ok (⟨some v, []⟩, [])
      | .op =>
          match children with
          | [] => .error ⟨.outOfBounds, []⟩
          | [l] => do
              let left ← emitValue l
              .error ⟨.outOfBounds, left.1.printed⟩
          | l :: r :: _ => do
              let left ← emitValue l
              let right ← after left.1.printed (emitValue r)
              .ok (combine data left.1 right.1, left.2 ++ right.2 ++ opCalls data left.1 right.1)
      | .group =>
          match children with
          | [] => .error ⟨.outOfBounds, []⟩
          | c :: _ => emitValue c
      | .identifier => .ok (⟨none, [missingProcessor type data]⟩, [])

def Llvm.inserted (llvm : Llvm) (calls : List Call) : List Instruction :=
  (calls.filter fun c => !llvm.folds c).map .call

/-- The loop over the expression list: each value is returned at once. -/
def statements (llvm : Llvm) : List Ast → Except Thrown (List Instruction × List Str)
  | [] => .ok ([], [])
  | expr :: rest => do
      let value ← emitValue expr
      let others ← after value.1.printed (statements llvm rest)
      .ok (llvm.inserted value.2 ++ .ret value.1.value :: others.1, value.1.printed ++ others.2)

/-- `generator::method` up to the check of the function. -/
def build (llvm : Llvm) (m : Method) : Except Thrown (Function × List Str) := do
  let block ← statements llvm m.expressionList
  .ok (⟨m.name, block.1⟩, block.2)

def method (llvm : Llvm) (m : Method) : Except Thrown (Function × List Str) := do
  let built ← build llvm m
  let _ ← after built.2 (silently (llvm.verifyFunction built.1))
  .ok built

def methods (llvm : Llvm) (m : Module) :
    List (Str × Option MethodPtr) → Except Thrown (List Function × List Str)
  | [] => .ok ([], [])
  | me :: rest => do
      let x ← silently (m.deref me.2)
      let here ← method llvm x
      let others ← after here.2 (methods llvm m rest)
      .ok (here.1 :: others.1, here.2 ++ others.2)

/-- `generator::generate`; `none` is the null module. The dump of the code in verbose mode,
which goes to the error stream, is left out. -/
def generate (llvm : Llvm) : Option Module → Except Thrown (Program × List Str)
  | none => .error ⟨.nullDereference, []⟩
  | some m => do
      let functions ← methods llvm m m.methods.toList
      .ok (⟨m.name, functions.1⟩, functions.2)

def engineError (error : Str) : Str :=
  "internal error: unable to create JIT engine: ".toList ++ error

def missingEntry : Str := "internal error: unable to locate function '__default__'".toList

def compileError : Str := "internal error: unable to compile code.".toList

/-- `generator::run`, with the lines it prints. Whether the bracket in front of the result is
out before a call that traps is not specified by the language; here it is not. -/
def run (llvm : Llvm) (cm : Program) : Except Fault (List Str) :=
  match llvm.createEngine cm with
  | .error error => .ok [engineError error]
  | .ok _ =>
      match cm.functions.find? (fun f => f.name = "__default__".toList) with
      | none => .ok [missingEntry]
      | some f =>
          if llvm.compiles cm f then do
            let result ← llvm.call f
            .ok ["[ ".toList ++ (toString result).toList]
          else .ok [compileError]

end Amalgam.Codegen
