/- Module: Amalgam/Cxx/Printing
   digest: Calls that print lines, also when they throw. -/

import Amalgam.Cxx.Integer

set_option autoImplicit false
set_option relaxedAutoImplicit false

namespace Amalgam.Cxx

/-- A fault, and the lines that have been printed until then. -/
structure Thrown where
  fault : Fault
  printed : List Str := []
  deriving DecidableEq

variable {α : Type}

def silently (x : Except Fault α) : Except Thrown α := x.mapError fun e => ⟨e, []⟩

def after (printed : List Str) (x : Except Thrown α) : Except Thrown α :=
  x.mapError fun e => ⟨e.fault, printed ++ e.printed⟩

def faults (x : Except Thrown α) : Except Fault α := x.mapError Thrown.fault

section Outcomes

@[simp] theorem silently_ok (v : α) : silently (.ok v) = .ok v := rfl

@[simp] theorem silently_error (e : Fault) :
    silently (.error e : Except Fault α) = .error ⟨e, []⟩ := rfl

@[simp] theorem after_ok (printed : List Str) (v : α) : after printed (.ok v) = .ok v := rfl

@[simp] theorem after_error (printed : List Str) (e : Thrown) :
    after printed (.error e : Except Thrown α) = .error ⟨e.fault, printed ++ e.printed⟩ := rfl

@[simp] theorem faults_ok (v : α) : faults (.ok v) = .ok v := rfl

private theorem mapError_ok_iff {ε ε' : Type} {f : ε → ε'} {x : Except ε α} {v : α} :
    x.mapError f = .ok v ↔ x = .ok v := by
  cases x with
  | error e => simp [Except.mapError]
  | ok w => simp [Except.mapError]

theorem silently_ok_iff {x : Except Fault α} {v : α} : silently x = .ok v ↔ x = .ok v :=
  mapError_ok_iff

theorem after_ok_iff {printed : List Str} {x : Except Thrown α} {v : α} :
    after printed x = .ok v ↔ x = .ok v := mapError_ok_iff

theorem faults_ok_iff {x : Except Thrown α} {v : α} : faults x = .ok v ↔ x = .ok v :=
  mapError_ok_iff

/-- A call does not end in a fault, whatever it has printed. -/
def Spares (e : Fault) (x : Except Thrown α) : Prop := ∀ printed, x ≠ .error ⟨e, printed⟩

theorem spares_ok (e : Fault) (v : α) : Spares e (.ok v) := by
  simp [Spares]

theorem spares_silently {e : Fault} {x : Except Fault α} (h : x ≠ .error e) :
    Spares e (silently x) := by
  intro printed failed
  cases x with
  | error e' => simp_all
  | ok v => simp at failed

theorem Spares.after {e : Fault} {x : Except Thrown α} (h : Spares e x) (printed : List Str) :
    Spares e (after printed x) := by
  intro out failed
  cases x with
  | ok v => simp at failed
  | error e' =>
      obtain ⟨fault, lines⟩ := e'
      simp only [after_error, Except.error.injEq, Thrown.mk.injEq] at failed
      obtain ⟨rfl, -⟩ := failed
      exact h lines rfl

theorem Spares.bind {β : Type} {e : Fault} {x : Except Thrown α} {f : α → Except Thrown β}
    (first : Spares e x) (next : ∀ a, Spares e (f a)) : Spares e (x >>= f) := fun printed =>
  bind_ne_error (first printed) fun a => next a printed

end Outcomes

end Amalgam.Cxx
