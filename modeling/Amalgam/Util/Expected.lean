/- Module: Amalgam/Util/Expected
   digest: A value or a captured exception, and when its destructor throws. -/

import Amalgam.Cxx.Integer

set_option autoImplicit false
set_option relaxedAutoImplicit false

namespace Amalgam.Util

open Amalgam.Cxx (Str Fault)

/-- `expected<T>`: the member of the union that is in use is the one that `got_value` names.
A pointer to an exception may be null. -/
structure Expected (α ε : Type) where
  content : α ⊕ Option ε
  gotValue : Bool
  checkedValue : Bool
  tagged : gotValue = content.isLeft

namespace Expected

variable {α ε : Type}

def ofValue (v : α) : Expected α ε := ⟨.inl v, true, false, rfl⟩

def fromPointer (p : Option ε) : Expected α ε := ⟨.inr p, false, false, rfl⟩

/-- `from_exception()`: a pointer to the exception that is being handled, null if there is none. -/
def fromCurrent (handled : Option ε) : Expected α ε := fromPointer handled

/-- `from_exception(const E&)`, by the static and the dynamic type of its argument. -/
def fromException (staticType dynamicType : Str) (e : ε) : Except Fault (Expected α ε) :=
  if dynamicType ≠ staticType then .error (.invalidArgument "slicing detected".toList)
  else .ok (fromPointer (some e))

/-- `from_code`, by what the function returns or throws. -/
def fromCode : Except ε α → Expected α ε
  | .ok v => ofValue v
  | .error e => fromCurrent (some e)

/-- The move constructor: the new object, and what is left of the old one. A moved value is
left as its own move constructor leaves it, a moved pointer is left null. -/
def move (hollow : α → α) (rhs : Expected α ε) : Expected α ε × Expected α ε :=
  ({ content := rhs.content
     gotValue := rhs.gotValue
     checkedValue := rhs.checkedValue
     tagged := rhs.tagged },
   { content := rhs.content.map hollow fun _ => none
     gotValue := rhs.gotValue
     checkedValue := true
     tagged := by rw [rhs.tagged]; cases rhs.content <;> rfl })

def valid (x : Expected α ε) : Bool × Expected α ε := (x.gotValue, { x with checkedValue := true })

/-- `std::rethrow_exception`, which must not be given a null pointer: what is thrown. -/
def rethrow : Option ε → Except Fault ε
  | some e => .ok e
  | none => .error .nullDereference

/-- `get`: the value returned or the exception thrown, and the object as it is left. Which
member is read is what `valid` returns. -/
def get (x : Expected α ε) : Except Fault (Except ε α) × Expected α ε :=
  (match x.content with
    | .inl v => .ok (.ok v)
    | .inr p => (rethrow p).map .error,
   x.valid.2)

def error (x : Expected α ε) : Option ε :=
  match x.content with
  | .inl _ => none
  | .inr p => p

/-- The destructor: the exception it throws, if any. -/
def destroy (x : Expected α ε) : Except Fault (Option ε) :=
  if !x.gotValue && !x.checkedValue then (rethrow x.error).map some else .ok none

theorem ofValue_inj {v w : α} (h : (ofValue v : Expected α ε) = ofValue w) : v = w :=
  Sum.inl.inj (congrArg content h)

theorem move_left_error (hollow : α → α) (x : Expected α ε) : (x.move hollow).2.error = none := by
  obtain ⟨content, gotValue, checkedValue, tagged⟩ := x
  cases content with
  | inl v => rfl
  | inr p => rfl

theorem destroy_value {x : Expected α ε} (value : x.gotValue = true) : x.destroy = .ok none := by
  rw [destroy, value]
  rfl

private theorem destroy_checked {x : Expected α ε} (checked : x.checkedValue = true) :
    x.destroy = .ok none := by
  rw [destroy, checked, Bool.not_true, Bool.and_false]
  rfl

/-- The destructor throws the captured exception unless the object has been checked. -/
theorem destroy_ok {x : Expected α ε} {thrown : Option ε} (run : x.destroy = .ok thrown) :
    thrown = if x.checkedValue then none else x.error := by
  obtain ⟨content, gotValue, checkedValue, tagged⟩ := x
  cases checkedValue with
  | true =>
      rw [destroy_checked rfl] at run
      exact (Except.ok.inj run).symm
  | false =>
      cases content with
      | inl v =>
          obtain rfl : gotValue = true := tagged
          exact (Except.ok.inj run).symm
      | inr p =>
          obtain rfl : gotValue = false := tagged
          cases p with
          | none => cases run
          | some e => exact (Except.ok.inj run).symm

theorem destroy_returns {x : Expected α ε} (known : x.content = .inr none → x.checkedValue = true) :
    ∃ thrown, x.destroy = .ok thrown := by
  obtain ⟨content, gotValue, checkedValue, tagged⟩ := x
  cases content with
  | inl v =>
      obtain rfl : gotValue = true := tagged
      exact ⟨none, rfl⟩
  | inr p =>
      cases p with
      | none => exact ⟨none, destroy_checked (known rfl)⟩
      | some e =>
          obtain rfl : gotValue = false := tagged
          cases checkedValue with
          | true => exact ⟨none, rfl⟩
          | false => exact ⟨some e, rfl⟩

theorem get_returns {x : Expected α ε} (known : x.content ≠ .inr none) :
    ∃ result, x.get.1 = .ok result := by
  obtain ⟨content, gotValue, checkedValue, tagged⟩ := x
  cases content with
  | inl v => exact ⟨.ok v, rfl⟩
  | inr p =>
      cases p with
      | none => exact absurd rfl known
      | some e => exact ⟨.error e, rfl⟩

end Expected

end Amalgam.Util
