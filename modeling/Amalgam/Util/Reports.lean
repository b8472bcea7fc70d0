/- Module: Amalgam/Util/Reports
   digest: Programs that make, move, ask and destroy expected objects, and which captured
   exceptions their destructors throw. -/

import Amalgam.Machine.Custody
import Amalgam.Machine.History
import Amalgam.Util.Expected

set_option autoImplicit false
set_option relaxedAutoImplicit false

namespace Amalgam.Util

open Amalgam.Cxx (Str Fault)
open Amalgam.Machine

variable {α : Type}

/-- The exceptions that may be pointed to: the copy that `make_exception_ptr` makes of its
argument for the capture of that number, and those that are thrown elsewhere. -/
inductive Exception where
  | copied (number : Nat)
  | thrown (id : Nat)
  deriving DecidableEq

/-- A capture of an exception. Captures are numbered in order; several may be of the same
exception. -/
structure Capture where
  exception : Exception
  number : Nat
  deriving DecidableEq

/-- What a program does with its objects, which are numbered in the order of their
construction. Pointers may be null, and the function passed to `from_code` may throw what has
been captured before. -/
inductive Action (α : Type) where
  | fromException (staticType dynamicType : Str)
  | fromPointer (p : Option Exception)
  | fromCurrent (handled : Option Exception)
  | fromCode (outcome : Except Exception α)
  | move (source : Nat)
  | valid (object : Nat)
  | get (object : Nat)
  | destroy (object : Nat)
  deriving DecidableEq

/-- The objects, `none` once destroyed; the captures; and those that destructors have
rethrown. -/
structure Store (α : Type) where
  objects : List (Option (Expected α Capture)) := []
  captures : List Capture := []
  rethrown : List Capture := []

namespace Store

def construct (s : Store α) (x : Expected α Capture) : Store α :=
  { s with objects := s.objects ++ [some x] }

def next (s : Store α) (e : Exception) : Capture := ⟨e, s.captures.length⟩

def make (s : Store α) (x : Expected α Capture) : Store α :=
  { s.construct x with captures := s.captures ++ x.error.toList }

def update (s : Store α) (o : Nat) (x : Expected α Capture) : Store α :=
  { s with objects := s.objects.set o (some x) }

def live (s : Store α) (o : Nat) : Except Fault (Expected α Capture) :=
  match s.objects[o]? with
  | some (some x) => .ok x
  | _ => .error .nullDereference

/-- An exception that leaves a call is caught by the program, which goes on. -/
def perform (hollow : α → α) (s : Store α) : Action α → Except Fault (Store α)
  | .fromException staticType dynamicType =>
      match Expected.fromException staticType dynamicType (s.next (.copied s.captures.length)) with
      | .ok x => .ok (s.make x)
      | .error _ => .ok s
  | .fromPointer p => .ok (s.make (.fromPointer (p.map s.next)))
  | .fromCurrent handled => .ok (s.make (.fromCurrent (handled.map s.next)))
  | .fromCode outcome => .ok (s.make (.fromCode (outcome.mapError s.next)))
  | .move o => do
      let x ← s.live o
      let moved := x.move hollow
      .ok ((s.update o moved.2).construct moved.1)
  | .valid o => do
      let x ← s.live o
      .ok (s.update o x.valid.2)
  | .get o => do
      let x ← s.live o
      let _ ← x.get.1
      .ok (s.update o x.get.2)
  | .destroy o => do
      let x ← s.live o
      let thrown ← x.destroy
      .ok { s with objects := s.objects.set o none, rethrown := s.rethrown ++ thrown.toList }

/-- The object is there and holds the capture. -/
def Holds (s : Store α) (o : Nat) (c : Capture) : Prop :=
  ∃ x, s.objects[o]? = some (some x) ∧ x.error = some c

end Store

section Custody

private theorem getElem?_concat {β : Type} (l : List β) (b : β) (k : Nat) :
    (l ++ [b])[k]? = if k = l.length then some b else l[k]? := by
  by_cases last : k = l.length
  · rw [if_pos last, last]
    exact List.getElem?_concat_length
  · rw [if_neg last, List.getElem?_append]
    split
    · rfl
    · have beyond : l.length ≤ k := by omega
      rw [List.getElem?_eq_none beyond]
      apply List.getElem?_eq_none
      rw [List.length_singleton]
      omega

def mark (v : Option (Expected α Capture)) : Option (Capture × Bool) :=
  v.bind fun x => x.error.map fun c => (c, x.checkedValue)

/-- The objects as places, the captures as obligations. -/
def Store.custody (s : Store α) : Custody Nat Capture where
  held o := mark s.objects[o]?.join
  issued := s.captures
  reported := s.rethrown

private theorem holds_iff (s : Store α) (o : Nat) (c : Capture) :
    s.Holds o c ↔ ∃ b, s.custody.held o = some (c, b) := by
  show _ ↔ ∃ b, mark s.objects[o]?.join = some (c, b)
  unfold Store.Holds
  rcases s.objects[o]? with none | none | x
  · simp [mark]
  · simp [mark]
  · cases h : x.error with
    | none => simp [mark, h]
    | some e => simp [mark, h]

private theorem held_none {s : Store α} {o : Nat} (h : s.objects.length ≤ o) :
    s.custody.held o = none := by
  show mark s.objects[o]?.join = none
  rw [List.getElem?_eq_none h]
  rfl

theorem live_ok {s : Store α} {o : Nat} {x : Expected α Capture} (h : s.live o = .ok x) :
    s.objects[o]? = some (some x) := by
  unfold Store.live at h
  split at h
  · rename_i y found
    rw [found, Except.ok.inj h]
  · cases h

private theorem held_live {s : Store α} {o : Nat} {x : Expected α Capture}
    (h : s.objects[o]? = some (some x)) :
    s.custody.held o = mark (some x) := by
  show mark s.objects[o]?.join = mark (some x)
  rw [h]
  rfl

private theorem held_construct (s : Store α) (x : Expected α Capture) :
    (s.construct x).custody.held =
      Function.update s.custody.held s.objects.length (mark (some x)) := by
  funext k
  show mark (s.objects ++ [some x])[k]?.join = _
  rw [getElem?_concat]
  by_cases last : k = s.objects.length
  · rw [if_pos last, last, Function.update_self]
    rfl
  · rw [if_neg last, Function.update_of_ne last]
    rfl

private theorem held_set {s : Store α} {o : Nat} (h : o < s.objects.length)
    (v : Option (Expected α Capture)) :
    (fun k => mark (s.objects.set o v)[k]?.join) =
      Function.update s.custody.held o (mark v) := by
  funext k
  by_cases same : k = o
  · subst same
    rw [List.getElem?_set_self h, Function.update_self]
    rfl
  · rw [List.getElem?_set_ne (Ne.symm same), Function.update_of_ne same]
    rfl

private theorem construct_custody (s : Store α) {x : Expected α Capture} (h : x.error = none) :
    (s.construct x).custody = s.custody := by
  have held : (s.construct x).custody.held = s.custody.held := by
    have empty : mark (some x) = s.custody.held s.objects.length := by
      rw [held_none (Nat.le_refl _)]
      simp [mark, h]
    rw [held_construct, empty, Function.update_eq_self]
  exact congrArg (fun held => ({ s.custody with held := held } : Custody Nat Capture)) held

private theorem make_custody (s : Store α) {x : Expected α Capture} {c : Capture}
    (h : x.error = some c) (unchecked : x.checkedValue = false) :
    (s.make x).custody = s.custody.issue s.objects.length c := by
  have marked : mark (some x) = some (c, false) := by
    simp [mark, h, unchecked]
  have held : (s.make x).custody.held =
      Function.update s.custody.held s.objects.length (some (c, false)) := by
    rw [← marked]
    exact held_construct s x
  show (⟨_, s.captures ++ x.error.toList, s.rethrown⟩ : Custody Nat Capture) = _
  rw [h]
  exact congrArg (fun held => (⟨held, _, s.rethrown⟩ : Custody Nat Capture)) held

private theorem make_custody_none (s : Store α) {x : Expected α Capture} (h : x.error = none) :
    (s.make x).custody = s.custody := by
  have captures : (s.make x).captures = s.captures := by
    rw [Store.make, h]
    exact List.append_nil _
  show (⟨_, (s.make x).captures, s.rethrown⟩ : Custody Nat Capture) = _
  rw [captures]
  exact construct_custody s h

private theorem checked_custody {s : Store α} {o : Nat} {x : Expected α Capture}
    (h : s.objects[o]? = some (some x)) :
    (s.update o { x with checkedValue := true }).custody = s.custody.discharge o := by
  have marked : mark (some { x with checkedValue := true }) =
      (s.custody.held o).map fun p => (p.1, true) := by
    rw [held_live h]
    show (x.error.map fun c => (c, true)) = (x.error.map _).map _
    rw [Option.map_map]
    rfl
  have held := held_set (List.getElem?_eq_some_iff.mp h).1 (some { x with checkedValue := true })
  rw [marked] at held
  exact congrArg (fun held => ({ s.custody with held := held } : Custody Nat Capture)) held

private theorem move_custody {s : Store α} {o : Nat} {x : Expected α Capture} (hollow : α → α)
    (h : s.objects[o]? = some (some x)) :
    ((s.update o (x.move hollow).2).construct (x.move hollow).1).custody =
      s.custody.hand o s.objects.length := by
  have inside := (List.getElem?_eq_some_iff.mp h).1
  have left : mark (some (x.move hollow).2) = none := by
    simp [mark, Expected.move_left_error]
  have taken : mark (some (x.move hollow).1) = s.custody.held o := (held_live h).symm
  have rest : (s.update o (x.move hollow).2).custody.held =
      Function.update s.custody.held o none := by
    rw [← left]
    exact held_set inside _
  have held := held_construct (s.update o (x.move hollow).2) (x.move hollow).1
  have length : (s.update o (x.move hollow).2).objects.length = s.objects.length :=
    List.length_set
  rw [rest, taken, length] at held
  exact congrArg (fun held => ({ s.custody with held := held } : Custody Nat Capture)) held

private theorem destroy_custody {s : Store α} {o : Nat} {x : Expected α Capture}
    {thrown : Option Capture} (h : s.objects[o]? = some (some x)) (run : x.destroy = .ok thrown) :
    ({ s with objects := s.objects.set o none,
              rethrown := s.rethrown ++ thrown.toList } : Store α).custody = s.custody.drop o := by
  have due : thrown.toList = s.custody.due o := by
    rw [Expected.destroy_ok run, Custody.due, held_live h]
    unfold mark
    cases checked : x.checkedValue with
    | true => cases held : x.error <;> simp [held, checked]
    | false => cases held : x.error <;> simp [held, checked]
  have held := held_set (List.getElem?_eq_some_iff.mp h).1 none
  rw [Custody.drop, ← due]
  exact congrArg
    (fun held => (⟨held, s.captures, s.rethrown ++ thrown.toList⟩ : Custody Nat Capture)) held

end Custody

section Runs

variable (hollow : α → α)

def runProgram (program : List (Action α)) : Except Fault (Store α) :=
  program.foldlM (Store.perform hollow) {}

def Asked (c : Capture) (before : List (Action α)) (a : Action α) : Prop :=
  ∃ s o, runProgram hollow before = .ok s ∧ (a = .valid o ∨ a = .get o) ∧ s.Holds o c

variable {hollow}

private theorem asked_iff {before : List (Action α)} {s : Store α}
    (run : runProgram hollow before = .ok s) (c : Capture) (a : Action α) :
    Asked hollow c before a ↔
      ∃ o, (a = .valid o ∨ a = .get o) ∧ ∃ b, s.custody.held o = some (c, b) := by
  constructor
  · rintro ⟨t, o, run', asks, holds⟩
    obtain rfl : t = s := Except.ok.inj (run'.symm.trans run)
    exact ⟨o, asks, (holds_iff t o c).mp holds⟩
  · rintro ⟨o, asks, held⟩
    exact ⟨s, o, run, asks, (holds_iff s o c).mpr held⟩

private theorem once_asked_other {l : List (Action α)} {s : Store α}
    (run : runProgram hollow l = .ok s) (c : Capture) {a : Action α}
    (other : ∀ o, a ≠ .valid o ∧ a ≠ .get o) :
    Once (Asked hollow c) (l ++ [a]) ↔ Once (Asked hollow c) l := by
  rw [once_concat, asked_iff run]
  apply or_iff_left
  rintro ⟨o, asks, -⟩
  rcases asks with rfl | rfl
  · exact (other o).1 rfl
  · exact (other o).2 rfl

private theorem once_asked {l : List (Action α)} {s : Store α} (run : runProgram hollow l = .ok s)
    (c : Capture) {a : Action α} {o : Nat} (asks : a = .valid o ∨ a = .get o) :
    Once (Asked hollow c) (l ++ [a]) ↔
      Once (Asked hollow c) l ∨ ∃ b, s.custody.held o = some (c, b) := by
  rw [once_concat, asked_iff run]
  have this : (∃ o', (a = .valid o' ∨ a = .get o') ∧ ∃ b, s.custody.held o' = some (c, b)) ↔
      ∃ b, s.custody.held o = some (c, b) := by
    constructor
    · rintro ⟨o', asks', held⟩
      rcases asks with rfl | rfl
      · rcases asks' with same | same
        · obtain rfl : o = o' := Action.valid.inj same
          exact held
        · cases same
      · rcases asks' with same | same
        · cases same
        · obtain rfl : o = o' := Action.get.inj same
          exact held
    · intro held
      exact ⟨o, asks, held⟩
  rw [this]

def Store.Numbered (s : Store α) : Prop := ∀ c ∈ s.captures, c.number < s.captures.length

theorem Store.Numbered.fresh {s : Store α} (numbered : s.Numbered) (e : Exception) :
    s.next e ∉ s.captures := fun member => Nat.lt_irrefl _ (numbered _ member)

theorem Store.Numbered.make {s : Store α} (numbered : s.Numbered) {x : Expected α Capture}
    (h : x.error = none ∨ ∃ e, x.error = some (s.next e)) : (s.make x).Numbered := by
  intro c member
  show c.number < (s.captures ++ x.error.toList).length
  rcases h with nothing | ⟨e, captured⟩
  · have same : (s.make x).captures = s.captures := by
      rw [Store.make, nothing]
      exact List.append_nil _
    rw [same] at member
    rw [nothing, Option.toList_none, List.append_nil]
    exact numbered c member
  · have more : (s.make x).captures = s.captures ++ [s.next e] := by
      rw [Store.make, captured]
      rfl
    rw [more] at member
    rw [captured, Option.toList_some, List.length_append, List.length_singleton]
    rcases List.mem_append.mp member with earlier | last
    · exact Nat.lt_succ_of_lt (numbered c earlier)
    · rw [List.mem_singleton.mp last]
      exact Nat.lt_succ_self _

def Store.Makes (s : Store α) (x : Expected α Capture) : Prop :=
  x.checkedValue = false ∧ (x.error = none ∨ ∃ e, x.error = some (s.next e))

private theorem makes_fromPointer (s : Store α) (p : Option Exception) :
    s.Makes (.fromPointer (p.map s.next)) := by
  refine ⟨rfl, ?_⟩
  cases p with
  | none => exact .inl rfl
  | some e => exact .inr ⟨e, rfl⟩

theorem makes_fromCode (s : Store α) (outcome : Except Exception α) :
    s.Makes (.fromCode (outcome.mapError s.next)) := by
  cases outcome with
  | ok v => exact ⟨rfl, .inl rfl⟩
  | error e => exact makes_fromPointer s (some e)

/-- What is known of a capture when a program has been run. -/
structure Course (hollow : α → α) (c : Capture) (l : List (Action α)) (s : Store α) : Prop where
  numbered : s.Numbered
  status : s.custody.Status (Once (Asked hollow c) l) c

theorem Course.make {l : List (Action α)} {s : Store α} {a : Action α} {c : Capture}
    (course : Course hollow c l s) (run : runProgram hollow l = .ok s)
    (other : ∀ o, a ≠ .valid o ∧ a ≠ .get o) {x : Expected α Capture} (makes : s.Makes x) :
    Course hollow c (l ++ [a]) (s.make x) := by
  obtain ⟨unchecked, holds⟩ := makes
  refine ⟨course.numbered.make holds, ?_⟩
  rw [once_asked_other run c other]
  rcases holds with nothing | ⟨e, captured⟩
  · rw [make_custody_none s nothing]
    exact course.status
  · rw [make_custody s captured unchecked]
    exact course.status.issue (held_none (Nat.le_refl _)) (course.numbered.fresh e)

/-- One action moves each capture along its course. -/
theorem Course.next {l : List (Action α)} {s s' : Store α} {a : Action α} {c : Capture}
    (course : Course hollow c l s) (run : runProgram hollow l = .ok s)
    (step : s.perform hollow a = .ok s') : Course hollow c (l ++ [a]) s' := by
  have vacant : s.custody.held s.objects.length = none := held_none (Nat.le_refl _)
  have status := course.status
  have numbered := course.numbered
  cases a with
  | fromException staticType dynamicType =>
      simp only [Store.perform, Expected.fromException] at step
      by_cases sliced : dynamicType ≠ staticType
      · rw [if_pos sliced] at step
        rw [← Except.ok.inj step]
        refine ⟨numbered, ?_⟩
        rw [once_asked_other run c (by simp)]
        exact status
      · rw [if_neg sliced] at step
        rw [← Except.ok.inj step]
        exact course.make run (by simp) (makes_fromPointer s (some _))
  | fromPointer p =>
      rw [← Except.ok.inj step]
      exact course.make run (by simp) (makes_fromPointer s p)
  | fromCurrent handled =>
      rw [← Except.ok.inj step]
      exact course.make run (by simp) (makes_fromPointer s handled)
  | fromCode outcome =>
      rw [← Except.ok.inj step]
      exact course.make run (by simp) (makes_fromCode s outcome)
  | move o =>
      obtain ⟨x, alive, step⟩ := bind_ok_iff.mp step
      rw [← Except.ok.inj step]
      refine ⟨numbered, ?_⟩
      rw [once_asked_other run c (by simp), move_custody hollow (live_ok alive)]
      exact status.hand vacant
  | valid o =>
      obtain ⟨x, alive, step⟩ := bind_ok_iff.mp step
      rw [← Except.ok.inj step]
      refine ⟨numbered, ?_⟩
      rw [once_asked run c (.inl rfl)]
      show (s.update o { x with checkedValue := true }).custody.Status _ c
      rw [checked_custody (live_ok alive)]
      exact status.discharge
  | get o =>
      obtain ⟨x, alive, step⟩ := bind_ok_iff.mp step
      obtain ⟨result, -, step⟩ := bind_ok_iff.mp step
      rw [← Except.ok.inj step]
      refine ⟨numbered, ?_⟩
      rw [once_asked run c (.inr rfl)]
      show (s.update o { x with checkedValue := true }).custody.Status _ c
      rw [checked_custody (live_ok alive)]
      exact status.discharge
  | destroy o =>
      obtain ⟨x, alive, step⟩ := bind_ok_iff.mp step
      obtain ⟨thrown, run', step⟩ := bind_ok_iff.mp step
      rw [← Except.ok.inj step]
      refine ⟨numbered, ?_⟩
      rw [once_asked_other run c (by simp), destroy_custody (live_ok alive) run']
      exact status.drop

private theorem program_course {program : List (Action α)} {s : Store α}
    (run : runProgram hollow program = .ok s) (c : Capture) : Course hollow c program s := by
  have init : Course hollow c [] ({} : Store α) := by
    refine ⟨fun c member => absurd member List.not_mem_nil, ?_⟩
    refine .unissued ?_ ?_ rfl once_nil
    · exact List.not_mem_nil
    · intro o b held
      cases held
  exact run_keeps (fun l s => Course hollow c l s) init
    (fun l s a s' earlier course taken => course.next earlier taken) run

end Runs

section Programs

def Action.constructs : Action α → Bool
  | .fromException staticType dynamicType => dynamicType = staticType
  | .fromPointer _ | .fromCurrent _ | .fromCode _ | .move _ => true
  | _ => false

def constructed (before : List (Action α)) : Nat := before.countP Action.constructs

def Alive (before : List (Action α)) (o : Nat) : Prop :=
  o < constructed before ∧ .destroy o ∉ before

/-- No null pointer is captured, each object is destroyed once at most, and is not moved or
asked after it was moved. -/
def Allowed (before : List (Action α)) : Action α → Prop
  | .fromPointer p | .fromCurrent p => p ≠ none
  | .move o | .valid o | .get o => Alive before o ∧ .move o ∉ before
  | .destroy o => Alive before o
  | _ => True

/-- What is known of an object after some calls: a null pointer is that of a moved object. -/
def Fine (before : List (Action α)) (o : Nat) : Option (Expected α Capture) → Prop
  | none => .destroy o ∈ before
  | some x => x.content = .inr none → x.checkedValue = true ∧ .move o ∈ before

def AllFine (before : List (Action α)) (objects : List (Option (Expected α Capture))) : Prop :=
  ∀ o v, objects[o]? = some v → Fine before o v

structure Sound (before : List (Action α)) (s : Store α) : Prop where
  length : s.objects.length = constructed before
  fine : AllFine before s.objects

variable {hollow : α → α} {before : List (Action α)} {objects : List (Option (Expected α Capture))}

theorem AllFine.more (fine : AllFine before objects) (a : Action α) :
    AllFine (before ++ [a]) objects := by
  intro o v found
  have known := fine o v found
  cases v with
  | none => exact List.mem_append_left _ known
  | some x => exact fun null => ⟨(known null).1, List.mem_append_left _ (known null).2⟩

theorem AllFine.set (fine : AllFine before objects) {o : Nat} {v : Option (Expected α Capture)}
    (h : Fine before o v) : AllFine before (objects.set o v) := by
  intro k w found
  by_cases same : o = k
  · subst same
    rw [List.getElem?_set_self'] at found
    obtain ⟨-, -, rfl⟩ := Option.map_eq_some_iff.mp found
    exact h
  · rw [List.getElem?_set_ne same] at found
    exact fine k w found

theorem AllFine.append (fine : AllFine before objects) {v : Option (Expected α Capture)}
    (h : Fine before objects.length v) : AllFine before (objects ++ [v]) := by
  intro k w found
  rw [getElem?_concat] at found
  by_cases last : k = objects.length
  · rw [if_pos last] at found
    rw [last, ← Option.some.inj found]
    exact h
  · rw [if_neg last] at found
    exact fine k w found

theorem Sound.found {s : Store α} (sound : Sound before s) {o : Nat} (alive : Alive before o) :
    ∃ x, s.live o = .ok x ∧ Fine before o (some x) := by
  have inside : o < s.objects.length := sound.length ▸ alive.1
  obtain ⟨v, found⟩ : ∃ v, s.objects[o]? = some v := ⟨_, List.getElem?_eq_getElem inside⟩
  have known := sound.fine o v found
  cases v with
  | none => exact absurd known alive.2
  | some x =>
      refine ⟨x, ?_, known⟩
      rw [Store.live, found]

private theorem constructed_concat (a : Action α) :
    constructed (before ++ [a]) = constructed before + if a.constructs then 1 else 0 := by
  rw [constructed, List.countP_append, List.countP_singleton]
  rfl

private theorem Sound.made {s s' : Store α} (sound : Sound before s) {a : Action α}
    (constructs : a.constructs = true) {x : Expected α Capture} (known : x.content ≠ .inr none)
    (objects : s'.objects = s.objects ++ [some x]) : Sound (before ++ [a]) s' where
  length := by
    rw [objects, constructed_concat, if_pos constructs, ← sound.length, List.length_append,
      List.length_singleton]
  fine := objects ▸ (sound.fine.more a).append fun null => absurd null known

private theorem Sound.replaced {s s' : Store α} (sound : Sound before s) {a : Action α}
    (constructs : a.constructs = false) {o : Nat} {v : Option (Expected α Capture)}
    (known : Fine (before ++ [a]) o v) (objects : s'.objects = s.objects.set o v) :
    Sound (before ++ [a]) s' where
  length := by
    rw [objects, constructed_concat, constructs, List.length_set, sound.length]
    rfl
  fine := objects ▸ (sound.fine.more a).set known

private theorem fromPointer_known (e : Capture) :
    (Expected.fromPointer (some e) : Expected α Capture).content ≠ .inr none := by
  simp [Expected.fromPointer]

/-- An allowed call returns and keeps what is known. -/
theorem Sound.next {s : Store α} (sound : Sound before s) {a : Action α}
    (allowed : Allowed before a) :
    ∃ s', s.perform hollow a = .ok s' ∧ Sound (before ++ [a]) s' := by
  cases a with
  | fromException staticType dynamicType =>
      by_cases same : dynamicType = staticType
      · refine ⟨s.make (.fromPointer (some (s.next (.copied s.captures.length)))), ?_, ?_⟩
        · simp only [Store.perform, Expected.fromException, if_neg (not_not_intro same)]
        · exact sound.made (decide_eq_true same) (fromPointer_known _) rfl
      · refine ⟨s, ?_, ?_, sound.fine.more _⟩
        · simp only [Store.perform, Expected.fromException, if_pos same]
        · rw [constructed_concat, sound.length]
          simp [Action.constructs, same]
  | fromPointer p =>
      obtain ⟨e, rfl⟩ := Option.ne_none_iff_exists'.mp allowed
      exact ⟨_, rfl, sound.made rfl (fromPointer_known (s.next e)) rfl⟩
  | fromCurrent handled =>
      obtain ⟨e, rfl⟩ := Option.ne_none_iff_exists'.mp allowed
      exact ⟨_, rfl, sound.made rfl (fromPointer_known (s.next e)) rfl⟩
  | fromCode outcome =>
      cases outcome with
      | ok v =>
          have known : (Expected.ofValue v : Expected α Capture).content ≠ .inr none := by
            simp [Expected.ofValue]
          exact ⟨_, rfl, sound.made rfl known rfl⟩
      | error e => exact ⟨_, rfl, sound.made rfl (fromPointer_known (s.next e)) rfl⟩
  | move o =>
      obtain ⟨alive, unmoved⟩ := allowed
      obtain ⟨x, live, known⟩ := sound.found alive
      refine ⟨_, bind_ok_iff.mpr ⟨x, live, rfl⟩, ?_, ?_⟩
      · show (s.objects.set o _ ++ [_]).length = _
        rw [constructed_concat, ← sound.length, List.length_append, List.length_set]
        rfl
      · apply AllFine.append
        · apply (sound.fine.more _).set
          intro _
          exact ⟨rfl, List.mem_append_right _ List.mem_cons_self⟩
        · intro null
          exact absurd (known null).2 unmoved
  | valid o =>
      obtain ⟨alive, unmoved⟩ := allowed
      obtain ⟨x, live, known⟩ := sound.found alive
      have kept : Fine (before ++ [.valid o]) o (some x.valid.2) :=
        fun null => absurd (known null).2 unmoved
      exact ⟨_, bind_ok_iff.mpr ⟨x, live, rfl⟩, sound.replaced rfl kept rfl⟩
  | get o =>
      obtain ⟨alive, unmoved⟩ := allowed
      obtain ⟨x, live, known⟩ := sound.found alive
      obtain ⟨result, returns⟩ := Expected.get_returns fun null => unmoved (known null).2
      have kept : Fine (before ++ [.get o]) o (some x.get.2) :=
        fun null => absurd (known null).2 unmoved
      exact ⟨_, bind_ok_iff.mpr ⟨x, live, bind_ok_iff.mpr ⟨result, returns, rfl⟩⟩,
        sound.replaced rfl kept rfl⟩
  | destroy o =>
      obtain ⟨x, live, known⟩ := sound.found allowed
      obtain ⟨thrown, returns⟩ := Expected.destroy_returns fun null => (known null).1
      have gone : Fine (before ++ [.destroy o]) o (none : Option (Expected α Capture)) :=
        List.mem_append_right _ List.mem_cons_self
      exact ⟨_, bind_ok_iff.mpr ⟨x, live, bind_ok_iff.mpr ⟨thrown, returns, rfl⟩⟩,
        sound.replaced rfl gone rfl⟩

theorem Sound.init : Sound ([] : List (Action α)) {} := by
  refine ⟨rfl, ?_⟩
  intro o v found
  cases found

/-- Programs that capture no null pointer, and ask and move only objects that hold what they
were made of, are defined. In every program that is, no capture is rethrown twice by
destructors; and when all objects have been destroyed, one was rethrown exactly when no object
was asked `valid` or `get` while it held it. Destroying an object that holds a value throws
nothing. -/
theorem rethrown_once (hollow : α → α) :
    (∀ program : List (Action α), Along Allowed program →
      ∃ s, runProgram hollow program = .ok s) ∧
    (∀ (program : List (Action α)) (s : Store α), runProgram hollow program = .ok s →
      (∀ c, s.rethrown.count c ≤ 1) ∧
      ((∀ v ∈ s.objects, v = none) → ∀ c ∈ s.captures,
        (s.rethrown.count c = 1 ↔ ¬ Once (Asked hollow c) program))) ∧
    ∀ (s : Store α) (o : Nat) (x : Expected α Capture), s.objects[o]? = some (some x) →
      x.gotValue = true →
        ∃ s', s.perform hollow (.destroy o) = .ok s' ∧ s'.rethrown = s.rethrown := by
  refine ⟨?_, ?_, ?_⟩
  · intro program allowed
    obtain ⟨s, run, -⟩ := run_history Sound Sound.init
      (fun l s a sound permitted => sound.next permitted) allowed
    exact ⟨s, run⟩
  · intro program s run
    refine ⟨fun c => (program_course run c).status.count_le_one, ?_⟩
    intro destroyed c captured
    apply (program_course run c).status.count_eq_one_iff captured
    intro o b held
    obtain ⟨x, found, -⟩ := (holds_iff s o c).mpr ⟨b, held⟩
    cases destroyed _ (List.mem_of_getElem? found)
  · intro s o x found value
    have live : s.live o = .ok x := by rw [Store.live, found]
    refine ⟨_, bind_ok_iff.mpr ⟨x, live, bind_ok_iff.mpr
      ⟨none, Expected.destroy_value value, rfl⟩⟩, ?_⟩
    exact List.append_nil _

def movedError : List (Action Nat) :=
  [.fromCode (.error (.thrown 0)), .move 0, .destroy 0, .destroy 1]

theorem rethrown_once_moved :
    (∃ s, runProgram id movedError = .ok s ∧ s.rethrown = [⟨.thrown 0, 0⟩] ∧
      ¬ Once (Asked id ⟨.thrown 0, 0⟩) movedError) ∧
    ∃ s', ({ objects := [some (.ofValue 7)] } : Store Nat).perform id (.destroy 0) = .ok s' ∧
      s'.rethrown = [] := by
  have allowed : Along Allowed movedError := by
    have split : movedError =
        ((([] ++ [Action.fromCode (.error (.thrown 0))]) ++ [.move 0]) ++ [.destroy 0]) ++
          [.destroy 1] := rfl
    rw [split]
    simp only [along_concat]
    refine ⟨⟨⟨⟨along_nil, trivial⟩, ⟨?_, ?_⟩, ?_⟩, ?_, ?_⟩, ?_, ?_⟩ <;> decide
  obtain ⟨s, run⟩ := (rethrown_once id).1 movedError allowed
  have reached : runProgram id movedError =
      .ok { objects := [none, none], captures := [⟨.thrown 0, 0⟩], rethrown := [⟨.thrown 0, 0⟩] } :=
    rfl
  obtain rfl := Except.ok.inj (reached.symm.trans run)
  have destroyed : ∀ v ∈ ([none, none] : List (Option (Expected Nat Capture))), v = none := by simp
  have silent := (((rethrown_once id).2.1 movedError _ run).2 destroyed ⟨.thrown 0, 0⟩
    List.mem_cons_self).mp rfl
  have value := (rethrown_once id).2.2 { objects := [some (.ofValue 7)] } 0 (.ofValue 7) rfl rfl
  exact ⟨⟨_, run, rfl, silent⟩, value⟩

/-- An exception to which two objects are made a pointer is rethrown by both. An object made of
a null pointer cannot be destroyed without asking it. -/
theorem rethrown_twice :
    (∃ s : Store Nat, runProgram id [.fromPointer (some (.thrown 0)),
        .fromPointer (some (.thrown 0)), .destroy 0, .destroy 1] = .ok s ∧
      (s.rethrown.map Capture.exception).count (.thrown 0) = 2) ∧
    runProgram id [(.fromPointer none : Action Nat), .destroy 0] = .error .nullDereference := by
  refine ⟨⟨⟨[none, none], [⟨.thrown 0, 0⟩, ⟨.thrown 0, 1⟩], [⟨.thrown 0, 0⟩, ⟨.thrown 0, 1⟩]⟩,
    rfl, ?_⟩, rfl⟩
  decide

end Programs

end Amalgam.Util
