/- Module: Amalgam/Parser/Ast
   digest: Type annotations and expression tree nodes. -/

import Amalgam.Cxx.Printing

set_option autoImplicit false
set_option relaxedAutoImplicit false

namespace Amalgam.Parser

open Amalgam.Cxx (Str)

inductive TypeId where
  | integer | floatingPoint | string | astruct | tuple | dict | method | interface | generic
  deriving DecidableEq

structure TypeAnnotation where
  name : Str := []
  id : TypeId
  isConstant : Bool := false
  isVector : Bool := false
  isArray : Bool := false
  sizeInElements : Nat := 0
  deriving DecidableEq

structure NumericTypeAnnotation extends TypeAnnotation where
  isSigned : Bool := false
  sizeInBits : Nat := 0
  specifier : Str := []
  deriving DecidableEq

/-- `type_annotation::operator==`: every field but the name. -/
def TypeAnnotation.equal (a b : TypeAnnotation) : Bool :=
  a.id = b.id && a.isConstant = b.isConstant && a.isVector = b.isVector &&
    a.isArray = b.isArray && a.sizeInElements = b.sizeInElements

/-- `numeric_type_annotation::operator==`: the specifier is not compared. -/
def NumericTypeAnnotation.equal (a b : NumericTypeAnnotation) : Bool :=
  a.toTypeAnnotation.equal b.toTypeAnnotation && a.isSigned = b.isSigned &&
    a.sizeInBits = b.sizeInBits

inductive NodeType where
  | literalInt | identifier | op | group
  deriving DecidableEq

/-- A node is known by the allocation it came from: two nodes with equal data are
different nodes when their addresses differ. -/
inductive Ast where
  | mk (address : Nat) (type : NodeType) (data : Str) (children : List Ast)
      (semanticType : Option NumericTypeAnnotation)

namespace Ast

def address : Ast → Nat
  | mk address _ _ _ _ => address

def type : Ast → NodeType
  | mk _ type _ _ _ => type

def data : Ast → Str
  | mk _ _ data _ _ => data

def children : Ast → List Ast
  | mk _ _ _ children _ => children

def semanticType : Ast → Option NumericTypeAnnotation
  | mk _ _ _ _ semanticType => semanticType

def fresh (address : Nat) (type : NodeType) (data : Str) : Ast := mk address type data [] none

def addChild : Ast → Ast → Ast
  | mk address type data children semanticType, c =>
      mk address type data (children ++ [c]) semanticType

def annotate : Ast → NumericTypeAnnotation → Ast
  | mk address type data children _, t => mk address type data children (some t)

def withChildren : Ast → List Ast → Ast
  | mk address type data _ semanticType, cs => mk address type data cs semanticType

end Ast

end Amalgam.Parser
