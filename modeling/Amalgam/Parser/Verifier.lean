/- Module: Amalgam/Parser/Verifier
   digest: Literal types, expression types, and the verification of modules. -/

import Amalgam.Parser.Module

set_option autoImplicit false
set_option relaxedAutoImplicit false

namespace Amalgam.Parser

open Amalgam.Cxx (Str Fault Thrown silently after stoll stoull)

/-- `std::string::find_first_not_of`; `none` is `npos`. -/
def findFirstNotOf (s chars : Str) : Option Nat := s.findIdx? (fun c => !chars.contains c)

def splitLiteralInt (token : Str) : Str × Str :=
  match findFirstNotOf token "0123456789".toList with
  | none => (token, [])
  | some sep => (token.take sep, token.drop sep)

namespace Verifier

def isLvalue (e : Ast) : Bool := e.type = .identifier

/-- The loop of `get_most_significant_bit`, on the value before the shift. -/
def shiftLoop : Nat → Int → Nat → Option Nat
  | 0, _, _ => none
  | n + 1, value, r =>
      let value := value >>> (1 : Nat)
      if value = 0 then some r else shiftLoop n value (r + 1)

/-- After 64 shifts a 64-bit value is 0 or, when negative, -1 for ever. -/
def getMostSignificantBit (value : Int) : Except Fault Nat :=
  match shiftLoop 64 value 0 with
  | some r => .ok r
  | none => .error .divergence

/-- The base and the signedness that a specifier selects. Any other specifier is left
to literal handlers and read as a signed decimal. -/
def specifierFormat (specifier : Str) : Nat × Bool :=
  if specifier = "h".toList then (16, true)
  else if specifier = "b".toList then (2, true)
  else if specifier = "o".toList then (8, true)
  else if specifier = "Uh".toList then (16, false)
  else if specifier = "Ub".toList then (2, false)
  else if specifier = "Uo".toList then (8, false)
  else (10, true)

def sizeInBits (msb : Nat) : Nat :=
  if msb ≤ 8 then 8 else if msb ≤ 16 then 16 else if msb ≤ 32 then 32
  else if msb ≤ 64 then 64 else 0

/-- The value whose size decides the type of a literal. -/
def literalValue (token : Str) : Except Fault Int :=
  let numSpec := splitLiteralInt token
  let format := specifierFormat numSpec.2
  if format.2 then stoll numSpec.1 format.1 else stoull numSpec.1 format.1

def getIntType (token : Str) : Except Fault NumericTypeAnnotation := do
  let numSpec := splitLiteralInt token
  let value ← literalValue token
  let msb ← getMostSignificantBit value
  .ok { id := .integer
        isSigned := (specifierFormat numSpec.2).2
        sizeInBits := sizeInBits msb
        specifier := numSpec.2 }

/-- `get_type`, with the node as it is left. On an operator both outcomes of the
comparison of the operand types reach the same `break`, so only the evaluation of
the operands shows. The nodes of a tree are taken to be distinct objects: a shared one
would be annotated wherever it stands. -/
def getType : Ast → Except Fault (Option NumericTypeAnnotation × Ast)
  | .mk address type data children semanticType =>
      match semanticType with
      | some t => .ok (some t, .mk address type data children (some t))
      | none =>
          match type with
          | .op =>
              match children with
              | [] => .error .outOfBounds
              | [l] => do
                  let _ ← getType l
                  .error .outOfBounds
              | l :: r :: cs => do
                  let left ← getType l
                  let right ← getType r
                  .ok (none, .mk address .op data (left.2 :: right.2 :: cs) none)
          | .literalInt => do
              let t ← getIntType data
              .ok (some t, .mk address .literalInt data children (some t))
          | .identifier => .ok (none, .mk address .identifier data children none)
          | .group => .ok (none, .mk address .group data children none)

/-- What one check reports: its verdict, the method and the tree as they are left,
and the lines printed. -/
structure Checked (α : Type) where
  passed : Bool
  method : Method
  checked : α
  printed : List Str := []

def inferenceError : Str :=
  "error: unable to infer type for the right hand side of the initializer".toList

/-- The branch of `expression_tree` for the operator `:=`. -/
def initializer (m : Method) (e : Ast) : Except Fault (Checked Ast) :=
  match e.children with
  | [] => .ok ⟨false, m, e, []⟩
  | target :: rest =>
      if isLvalue target = false then .ok ⟨false, m, e, []⟩ else
        match rest with
        | [] => .error .outOfBounds
        | r :: cs => do
            let right ← getType r
            match right.1 with
            | none => .ok ⟨false, m, e.withChildren (target :: right.2 :: cs), [inferenceError]⟩
            | some t =>
                .ok ⟨true, m.addVariable target.data t,
                  e.withChildren (target.annotate t :: right.2 :: cs), []⟩

/-- The branch of `expression_tree` for every other operator. -/
def operands (m : Method) (e : Ast) : Except Fault (Checked Ast) :=
  match e.children with
  | [] => .error .outOfBounds
  | [l] => do
      let _ ← getType l
      .error .outOfBounds
  | l :: r :: cs => do
      let left ← getType l
      let right ← getType r
      .ok ⟨true, m, e.withChildren (left.2 :: right.2 :: cs), []⟩

def expressionTree (m : Method) (e : Ast) : Except Fault (Checked Ast) :=
  if e.type = .op then
    if e.data = ":=".toList then initializer m e else operands m e
  else .ok ⟨true, m, e, []⟩

/-- The loop over the expression list; a failed tree does not stop it. -/
def expressionTrees (m : Method) : List Ast → Except Thrown (Checked (List Ast))
  | [] => .ok ⟨true, m, [], []⟩
  | e :: es => do
      -- What is thrown for a tree is thrown before anything is printed for it.
      let first ← silently (expressionTree m e)
      let rest ← after first.printed (expressionTrees first.method es)
      .ok ⟨first.passed && rest.passed, rest.method, first.checked :: rest.checked,
        first.printed ++ rest.printed⟩

def method (m : Method) : Except Thrown (Checked Unit) := do
  let trees ← expressionTrees m m.expressionList
  .ok ⟨trees.passed, { trees.method with expressionList := trees.checked }, (), trees.printed⟩

def methods (m : Module) : List (Str × Option MethodPtr) → Except Thrown (Bool × Module × List Str)
  | [] => .ok (true, m, [])
  | me :: rest => do
      let x ← silently (m.deref me.2)
      let here ← method x
      let others ← after here.printed (methods (m.store me.2 here.method) rest)
      .ok (here.passed && others.1, others.2.1, here.printed ++ others.2.2)

def verify (m : Module) : Except Thrown (Bool × Module × List Str) := methods m m.methods.toList

end Verifier

end Amalgam.Parser
