/- Module: Amalgam/Parser/Module
   digest: Methods, modules and the stack of nested methods. -/

import Amalgam.Parser.Ast

set_option autoImplicit false
set_option relaxedAutoImplicit false

namespace Amalgam.Parser

open Amalgam.Cxx (Str Fault)
open Std (TreeMap)

structure Method where
  name : Str
  expressionList : List Ast := []
  vars : TreeMap Str NumericTypeAnnotation := ∅

namespace Method

def addExpressionTree (m : Method) (node : Ast) : Method :=
  { m with expressionList := m.expressionList ++ [node] }

def addVariable (m : Method) (name : Str) (t : NumericTypeAnnotation) : Method :=
  { m with vars := m.vars.insert name t }

def hasVariable (m : Method) (name : Str) : Bool := m.vars.contains name

end Method

/-- A shared pointer to a method, as the index of the object it owns. -/
abbrev MethodPtr := Nat

/-- `objects` holds the method objects that the pointers of the module refer to. -/
structure Module where
  name : Str
  methods : TreeMap Str (Option MethodPtr) := ∅
  nestedMethodStack : List (Option MethodPtr) := []
  currentMethod : Option MethodPtr := none
  types : TreeMap Str (Option TypeAnnotation) := ∅
  objects : List Method := []

/-- `std::map::operator[]` on a map of pointers: a missing key is inserted as null. -/
def subscript {α : Type} (t : TreeMap Str (Option α)) (k : Str) :
    TreeMap Str (Option α) × Option α :=
  match t[k]? with
  | some v => (t, v)
  | none => (t.insert k none, none)

namespace Module

def deref (m : Module) : Option MethodPtr → Except Fault Method
  | none => .error .nullDereference
  | some p =>
      match m.objects[p]? with
      | some x => .ok x
      | none => .error .nullDereference

def store (m : Module) (p : Option MethodPtr) (x : Method) : Module :=
  match p with
  | none => m
  | some p => { m with objects := m.objects.set p x }

def newMethod (m : Module) (name : Str) : Module × MethodPtr :=
  ({ m with objects := m.objects ++ [{ name := name }] }, m.objects.length)

def addMethod (m : Module) (p : MethodPtr) : Module :=
  match m.objects[p]? with
  | some x => { m with methods := m.methods.insert x.name (some p) }
  | none => m

def hasMethod (m : Module) (name : Str) : Bool := m.methods.contains name

/-- The lookup goes through `operator[]`, so it registers a null entry for a name
that is not there. -/
def getMethod (m : Module) (name : Str) : Module × Option MethodPtr :=
  let s := subscript m.methods name
  ({ m with methods := s.1 }, s.2)

def pushCurrentMethod (m : Module) (name : Str) : Module :=
  let s := subscript m.methods name
  { m with
    nestedMethodStack := m.nestedMethodStack ++ [m.currentMethod]
    methods := s.1
    currentMethod := s.2 }

/-- `back` and `pop_back` of an empty stack are undefined. -/
def popCurrentMethod (m : Module) : Except Fault Module :=
  match m.nestedMethodStack.getLast? with
  | none => .error .outOfBounds
  | some p =>
      .ok { m with currentMethod := p, nestedMethodStack := m.nestedMethodStack.dropLast }

def getCurrentMethod (m : Module) : Option MethodPtr := m.currentMethod

def addType (m : Module) (t : TypeAnnotation) : Module :=
  { m with types := m.types.insert t.name (some t) }

def hasType (m : Module) (name : Str) : Bool := m.types.contains name

def getType (m : Module) (name : Str) : Module × Option TypeAnnotation :=
  let s := subscript m.types name
  ({ m with types := s.1 }, s.2)

def new (name : Str) : Module :=
  let s := newMethod { name := name } "__default__".toList
  (s.1.addMethod s.2).pushCurrentMethod "__default__".toList

end Module

end Amalgam.Parser
