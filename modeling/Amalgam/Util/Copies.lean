/- Module: Amalgam/Util/Copies
   digest: With copies, what is thrown, what is asked for and what is copied balance. -/

import Amalgam.Util.Reports

set_option autoImplicit false
set_option relaxedAutoImplicit false

namespace Amalgam.Util

open Amalgam.Cxx (Fault)

variable {α : Type}

/-- The copy constructor: the value or the pointer, and both flags. -/
def Expected.copy {ε : Type} (rhs : Expected α ε) : Expected α ε :=
  { content := rhs.content
    gotValue := rhs.gotValue
    checkedValue := rhs.checkedValue
    tagged := rhs.tagged }

inductive CopyingAction (α : Type) where
  | plain (a : Action α)
  | copy (source : Nat)
  deriving DecidableEq

def Store.performCopying (hollow : α → α) (s : Store α) : CopyingAction α → Except Fault (Store α)
  | .plain a => s.perform hollow a
  | .copy o => do
      let x ← s.live o
      .ok (s.construct x.copy)

def runCopying (hollow : α → α) : Store α → List (CopyingAction α) → Except Fault (Store α)
  | s, [] => .ok s
  | s, a :: program => do
      let s ← s.performCopying hollow a
      runCopying hollow s program

section Accounts

def unchecked (e : Exception) (v : Option (Expected α Capture)) : Bool :=
  (mark v).any fun held => held.1.exception = e && !held.2

def Store.pending (s : Store α) (e : Exception) : Nat := s.objects.countP (unchecked e)

def Store.captured (s : Store α) (e : Exception) : Nat := (s.captures.map Capture.exception).count e

def Store.thrown (s : Store α) (e : Exception) : Nat := (s.rethrown.map Capture.exception).count e

def Store.throwing (s : Store α) (e : Exception) (o : Nat) : Nat :=
  if unchecked e s.objects[o]?.join then 1 else 0

/-- A call of `valid` or `get` of an object that would have thrown the exception. -/
def answered (e : Exception) (s : Store α) : CopyingAction α → Nat
  | .plain (.valid o) | .plain (.get o) => s.throwing e o
  | _ => 0

/-- A copy made of an object that would have thrown the exception. -/
def copied (e : Exception) (s : Store α) : CopyingAction α → Nat
  | .copy o => s.throwing e o
  | _ => 0

def total (hollow : α → α) (account : Store α → CopyingAction α → Nat) :
    Store α → List (CopyingAction α) → Nat
  | _, [] => 0
  | s, a :: program =>
      account s a +
        match s.performCopying hollow a with
        | .ok s' => total hollow account s' program
        | .error _ => 0

end Accounts

section Balance

variable {hollow : α → α} {s s' : Store α} {o : Nat} {x : Expected α Capture}

private theorem pending_construct (s : Store α) (x : Expected α Capture) (e : Exception) :
    (s.construct x).pending e = s.pending e + if unchecked e (some x) then 1 else 0 := by
  show (s.objects ++ [some x]).countP (unchecked e) = _
  rw [List.countP_append, List.countP_singleton]
  rfl

private theorem captured_make (s : Store α) (x : Expected α Capture) (e : Exception) :
    (s.make x).captured e = s.captured e + (x.error.toList.map Capture.exception).count e := by
  show ((s.captures ++ x.error.toList).map Capture.exception).count e = _
  rw [List.map_append, List.count_append]
  rfl

private theorem unchecked_fresh (e : Exception) {x : Expected α Capture}
    (fresh : x.checkedValue = false) :
    (x.error.toList.map Capture.exception).count e = if unchecked e (some x) then 1 else 0 := by
  unfold unchecked mark
  cases holds : x.error with
  | none => simp [holds]
  | some c =>
      by_cases same : c.exception = e
      · simp [holds, fresh, same]
      · simp [holds, fresh, same]

private theorem throwing_live (h : s.objects[o]? = some (some x)) (e : Exception) :
    s.throwing e o = if unchecked e (some x) then 1 else 0 := by
  rw [Store.throwing, h]
  rfl

private theorem pending_set (h : s.objects[o]? = some (some x)) (v : Option (Expected α Capture))
    (e : Exception) :
    (s.objects.set o v).countP (unchecked e) + s.throwing e o =
      s.pending e + if unchecked e v then 1 else 0 := by
  obtain ⟨inside, found⟩ := List.getElem?_eq_some_iff.mp h
  have present : some x ∈ s.objects := List.mem_of_getElem? h
  rw [List.countP_set inside, throwing_live h, found]
  show s.pending e - _ + _ + _ = _
  by_cases throws : unchecked e (some x) = true
  · have positive : 0 < s.pending e := List.countP_pos_iff.mpr ⟨some x, present, throws⟩
    rw [if_pos throws]
    omega
  · rw [if_neg throws]
    omega

private theorem unchecked_checked (e : Exception) {x : Expected α Capture}
    (checked : x.checkedValue = true) :
    unchecked e (some x) = false := by
  unfold unchecked mark
  cases h : x.error with
  | none => simp [h]
  | some c => simp [h, checked]

private theorem unchecked_silent (e : Exception) {x : Expected α Capture}
    (silent : x.error = none) :
    unchecked e (some x) = false := by
  simp [unchecked, mark, silent]

private theorem count_thrown {thrown : Option Capture} (h : s.objects[o]? = some (some x))
    (run : x.destroy = .ok thrown) (e : Exception) :
    (thrown.toList.map Capture.exception).count e = s.throwing e o := by
  rw [throwing_live h, Expected.destroy_ok run]
  cases checked : x.checkedValue with
  | true =>
      rw [unchecked_checked e checked]
      rfl
  | false => exact unchecked_fresh e checked

private theorem pending_asked (h : s.objects[o]? = some (some x)) (e : Exception) :
    (s.update o x.valid.2).pending e + s.throwing e o = s.pending e := by
  have balance := pending_set h (some x.valid.2) e
  rw [unchecked_checked e (x := x.valid.2) rfl] at balance
  exact balance

private theorem pending_moved (h : s.objects[o]? = some (some x)) (e : Exception) :
    ((s.update o (x.move hollow).2).construct (x.move hollow).1).pending e = s.pending e := by
  have balance := pending_set h (some (x.move hollow).2) e
  rw [unchecked_silent e (Expected.move_left_error hollow x), throwing_live h] at balance
  rw [pending_construct]
  exact balance

/-- The balance of an exception between two states: what was to be thrown, with the captures and
copies in between, has been thrown, is still to be thrown or has been asked for. -/
def Balanced (e : Exception) (s s' : Store α) (asked copies : Nat) : Prop :=
  s'.thrown e + s'.pending e + asked + s.captured e =
    s.thrown e + s.pending e + copies + s'.captured e

private theorem make_balance (s : Store α) (e : Exception) {x : Expected α Capture}
    (fresh : x.checkedValue = false) : Balanced e s (s.make x) 0 0 := by
  have added : (s.make x).pending e = s.pending e + if unchecked e (some x) then 1 else 0 :=
    pending_construct s x e
  have thrown : (s.make x).thrown e = s.thrown e := rfl
  rw [Balanced, thrown, added, captured_make, unchecked_fresh e fresh]
  omega

private theorem perform_balance {a : CopyingAction α} (step : s.performCopying hollow a = .ok s')
    (e : Exception) : Balanced e s s' (answered e s a) (copied e s a) := by
  cases a with
  | copy o =>
      obtain ⟨x, alive, step⟩ := bind_ok_iff.mp step
      obtain rfl := Except.ok.inj step
      show s.thrown e + (s.construct x.copy).pending e + 0 + s.captured e =
        s.thrown e + s.pending e + s.throwing e o + s.captured e
      rw [pending_construct, throwing_live (live_ok alive)]
      show _ + (_ + if unchecked e (some x) then 1 else 0) + 0 + _ = _
      omega
  | plain a =>
      cases a with
      | fromException staticType dynamicType =>
          simp only [Store.performCopying, Store.perform, Expected.fromException] at step
          by_cases sliced : dynamicType ≠ staticType
          · rw [if_pos sliced] at step
            obtain rfl := Except.ok.inj step
            rfl
          · rw [if_neg sliced] at step
            obtain rfl := Except.ok.inj step
            exact make_balance s e rfl
      | fromPointer p =>
          obtain rfl := Except.ok.inj step
          exact make_balance s e rfl
      | fromCurrent handled =>
          obtain rfl := Except.ok.inj step
          exact make_balance s e rfl
      | fromCode outcome =>
          obtain rfl := Except.ok.inj step
          exact make_balance s e (makes_fromCode s outcome).1
      | move o =>
          obtain ⟨x, alive, step⟩ := bind_ok_iff.mp step
          obtain rfl := Except.ok.inj step
          show s.thrown e + _ + 0 + s.captured e = s.thrown e + s.pending e + 0 + s.captured e
          rw [pending_moved (live_ok alive) e]
      | valid o =>
          obtain ⟨x, alive, step⟩ := bind_ok_iff.mp step
          obtain rfl := Except.ok.inj step
          have balance := pending_asked (live_ok alive) e
          show s.thrown e + (s.update o x.valid.2).pending e + s.throwing e o + s.captured e =
            s.thrown e + s.pending e + 0 + s.captured e
          omega
      | get o =>
          obtain ⟨x, alive, step⟩ := bind_ok_iff.mp step
          obtain ⟨result, -, step⟩ := bind_ok_iff.mp step
          obtain rfl := Except.ok.inj step
          have balance := pending_asked (live_ok alive) e
          show s.thrown e + (s.update o x.valid.2).pending e + s.throwing e o + s.captured e =
            s.thrown e + s.pending e + 0 + s.captured e
          omega
      | destroy o =>
          obtain ⟨x, alive, step⟩ := bind_ok_iff.mp step
          obtain ⟨thrown, run, step⟩ := bind_ok_iff.mp step
          obtain rfl := Except.ok.inj step
          have balance := pending_set (live_ok alive) none e
          have counted := count_thrown (live_ok alive) run e
          have empty : unchecked e (none : Option (Expected α Capture)) = false := rfl
          rw [empty] at balance
          simp only [Bool.false_eq_true, if_false] at balance
          show ((s.rethrown ++ thrown.toList).map Capture.exception).count e +
              (s.objects.set o none).countP (unchecked e) + 0 + s.captured e =
            s.thrown e + s.pending e + 0 + s.captured e
          rw [List.map_append, List.count_append, counted]
          show s.thrown e + _ + _ + 0 + _ = _
          omega

private theorem run_balance {program : List (CopyingAction α)}
    (run : runCopying hollow s program = .ok s') (e : Exception) :
    Balanced e s s' (total hollow (answered e) s program) (total hollow (copied e) s program) := by
  induction program generalizing s with
  | nil =>
      obtain rfl := Except.ok.inj run
      rfl
  | cons a program ih =>
      obtain ⟨next, step, run⟩ := bind_ok_iff.mp run
      have first := perform_balance step e
      have others := ih run
      simp only [total, step]
      unfold Balanced at first others ⊢
      omega

/-- Whatever is captured, moved, copied, asked and destroyed, and in whatever order: of each
exception, the times it was thrown by destructors, the objects that still will throw it and the
calls that such an object answered are together as many as its captures and the copies of such
objects. When all objects are destroyed no object still will. -/
theorem thrown_balance {program : List (CopyingAction α)} {s : Store α}
    (run : runCopying hollow {} program = .ok s) :
    (∀ e, s.thrown e + s.pending e + total hollow (answered e) {} program =
      s.captured e + total hollow (copied e) {} program) ∧
    ((∀ v ∈ s.objects, v = none) → ∀ e, s.pending e = 0) := by
  refine ⟨?_, ?_⟩
  · intro e
    have balance := run_balance run e
    have start : ({} : Store α).thrown e = 0 ∧ ({} : Store α).pending e = 0 ∧
        ({} : Store α).captured e = 0 := ⟨rfl, rfl, rfl⟩
    unfold Balanced at balance
    omega
  · intro gone e
    refine List.countP_eq_zero.mpr ?_
    intro v member
    rw [gone v member]
    exact Bool.false_ne_true

def copiedError : List (CopyingAction Nat) :=
  [.plain (.fromCode (.error (.thrown 0))), .copy 0, .plain (.valid 0), .plain (.destroy 0),
    .plain (.destroy 1)]

theorem thrown_balance_copied :
    ∃ s, runCopying id {} copiedError = .ok s ∧ s.rethrown = [⟨.thrown 0, 0⟩] ∧
      s.thrown (.thrown 0) + s.pending (.thrown 0) +
          total id (answered (.thrown 0)) {} copiedError =
        s.captured (.thrown 0) + total id (copied (.thrown 0)) {} copiedError := by
  have run : runCopying id {} copiedError =
      .ok ⟨[none, none], [⟨.thrown 0, 0⟩], [⟨.thrown 0, 0⟩]⟩ := rfl
  exact ⟨_, run, rfl, (thrown_balance run).1 (.thrown 0)⟩

end Balance

end Amalgam.Util
