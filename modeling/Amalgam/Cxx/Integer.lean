/- Module: Amalgam/Cxx/Integer
   digest: Exceptions, the standard string-to-integer conversions, and computations in a row. -/

import Mathlib.Algebra.Ring.Int.Defs
import Mathlib.Algebra.Ring.Nat
import Mathlib.Data.List.Basic

set_option autoImplicit false
set_option relaxedAutoImplicit false

namespace Amalgam.Cxx

abbrev Str := List Char

instance decidableForallText (s : List Char) (p : Char → Prop) [DecidablePred p] :
    Decidable (∀ c ∈ s, p c) := List.decidableBAll p s

/-- The ways in which a call does not return: exceptions with their `what` text,
undefined accesses, failed assertions, and loops that never end. -/
inductive Fault where
  | invalidArgument (what : Str)
  | outOfRange (what : Str)
  | runtimeError (what : Str)
  | nullDereference
  | outOfBounds
  | assertionFailed
  | divergence
  deriving DecidableEq

def isSpace (c : Char) : Bool := [' ', '\n', '\r', '\t', '\x0b', '\x0c'].contains c

/-- The digit a character stands for; 36 when it stands for none. -/
def digitValue (c : Char) : Nat :=
  if '0' ≤ c ∧ c ≤ '9' then c.toNat - 48
  else if 'a' ≤ c ∧ c ≤ 'z' then c.toNat - 87
  else if 'A' ≤ c ∧ c ≤ 'Z' then c.toNat - 55
  else 36

def validDigits (base : Nat) (s : Str) : Str := s.takeWhile (fun c => digitValue c < base)

def magnitude (base : Nat) (ds : Str) : Nat :=
  ds.foldl (fun acc c => acc * base + digitValue c) 0

def readSign : Str → Bool × Str
  | '-' :: s => (true, s)
  | '+' :: s => (false, s)
  | s => (false, s)

/-- In base 16 a leading `0x` is dropped when a hexadecimal digit follows. -/
def dropHexPrefix (base : Nat) : Str → Str
  | '0' :: x :: d :: s =>
      if base = 16 ∧ (x = 'x' ∨ x = 'X') ∧ digitValue d < 16 then d :: s else '0' :: x :: d :: s
  | s => s

/-- The common part of the `strtol` family: white space, a sign, and the longest run
of digits of the base. There is no result when no digit could be converted. -/
def strto (base : Nat) (s : Str) : Option (Bool × Nat) :=
  let signed := readSign (s.dropWhile isSpace)
  let ds := validDigits base (dropHexPrefix base signed.2)
  if ds.isEmpty then none else some (signed.1, magnitude base ds)

def signedValue (negative : Bool) (n : Nat) : Int := if negative then -(n : Int) else n

def stoSigned (what : Str) (width : Nat) (s : Str) (base : Nat) : Except Fault Int :=
  match strto base s with
  | none => .error (.invalidArgument what)
  | some (negative, n) =>
      let v := signedValue negative n
      if -(2 ^ (width - 1) : Int) ≤ v ∧ v < 2 ^ (width - 1) then .ok v
      else .error (.outOfRange what)

def stoi (s : Str) : Except Fault Int := stoSigned "stoi".toList 32 s 10

def stoll (s : Str) (base : Nat) : Except Fault Int := stoSigned "stoll".toList 64 s base

/-- The unsigned conversion negates modulo the width and only bounds the magnitude. -/
def stoull (s : Str) (base : Nat) : Except Fault Int :=
  match strto base s with
  | none => .error (.invalidArgument "stoull".toList)
  | some (negative, n) =>
      if n < 2 ^ 64 then .ok (((signedValue negative n) % (2 ^ 64 : Int) : Int))
      else .error (.outOfRange "stoull".toList)

end Amalgam.Cxx

namespace Amalgam

section Sequences

variable {ε α β : Type}

theorem bind_ok_iff {x : Except ε α} {f : α → Except ε β} {b : β} :
    (x >>= f) = .ok b ↔ ∃ a, x = .ok a ∧ f a = .ok b := by
  cases x with
  | error e => simp [bind, Except.bind]
  | ok a => simp [bind, Except.bind]

theorem bind_error_iff {x : Except ε α} {f : α → Except ε β} {e : ε} :
    (x >>= f) = .error e ↔ x = .error e ∨ ∃ a, x = .ok a ∧ f a = .error e := by
  cases x with
  | error e => simp [bind, Except.bind]
  | ok a => simp [bind, Except.bind]

theorem bind_ne_error {x : Except ε α} {f : α → Except ε β} {e : ε}
    (first : x ≠ .error e) (next : ∀ a, f a ≠ .error e) : (x >>= f) ≠ .error e := by
  intro failed
  rcases bind_error_iff.mp failed with failed | ⟨a, -, failed⟩
  · exact first failed
  · exact next a failed

end Sequences

end Amalgam
