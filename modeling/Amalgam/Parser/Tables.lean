/- Module: Amalgam/Parser/Tables
   digest: The tables of a module over whole histories of calls, and which calls spoil them. -/

import Amalgam.Codegen.Pointers
import Amalgam.Machine.History

set_option autoImplicit false
set_option relaxedAutoImplicit false

namespace Amalgam.Parser

open Amalgam.Cxx (Str Fault)
open Amalgam.Machine
open Std (TreeMap)

/-- The calls that a client can make of a module. A method object is created before it is
added. -/
inductive Operation where
  | create (x : Method)
  | addMethod (p : MethodPtr)
  | addType (t : TypeAnnotation)
  | hasMethod (name : Str)
  | getMethod (name : Str)
  | hasType (name : Str)
  | getType (name : Str)
  | pushCurrentMethod (name : Str)
  | popCurrentMethod

def Module.perform (m : Module) : Operation → Except Fault Module
  | .create x => .ok { m with objects := m.objects ++ [x] }
  | .addMethod p => .ok (m.addMethod p)
  | .addType t => .ok (m.addType t)
  | .hasMethod _ => .ok m
  | .getMethod name => .ok (m.getMethod name).1
  | .hasType _ => .ok m
  | .getType name => .ok (m.getType name).1
  | .pushCurrentMethod name => .ok (m.pushCurrentMethod name)
  | .popCurrentMethod => m.popCurrentMethod

namespace Operation

def created : Operation → Option Method
  | .create x => some x
  | _ => none

def isPush : Operation → Bool
  | .pushCurrentMethod _ => true
  | _ => false

def isPop : Operation → Bool
  | .popCurrentMethod => true
  | _ => false

def isLookup : Operation → Bool
  | .hasMethod _ | .getMethod _ | .hasType _ | .getType _ => true
  | _ => false

end Operation

def objectsAfter (before : List Operation) : List Method :=
  { name := "__default__".toList } :: before.filterMap Operation.created

def AddsMethod (name : Str) (before : List Operation) (a : Operation) : Prop :=
  ∃ (p : MethodPtr) (x : Method), a = .addMethod p ∧ (objectsAfter before)[p]? = some x ∧
    x.name = name

def AddsType (name : Str) (_ : List Operation) (a : Operation) : Prop :=
  ∃ t, a = .addType t ∧ t.name = name

def MethodAdded (name : Str) (before : List Operation) : Prop := Once (AddsMethod name) before

def TypeAdded (name : Str) (before : List Operation) : Prop := Once (AddsType name) before

/-- A pointer that is passed owns an object, and a pop is matched by an earlier push. -/
def Allowed (before : List Operation) : Operation → Prop
  | .addMethod p => p < (objectsAfter before).length
  | .popCurrentMethod => before.countP Operation.isPop < before.countP Operation.isPush
  | _ => True

/-- The name that is looked up, other than by `has_method` and `has_type`, has been added. -/
def Registered (before : List Operation) : Operation → Prop
  | .getMethod name | .pushCurrentMethod name =>
      name = "__default__".toList ∨ MethodAdded name before
  | .getType name => TypeAdded name before
  | _ => True

namespace Module

/-- Every entry is a method under its own name, and exactly the names added are there. -/
structure WellFormed (m : Module) (before : List Operation) : Prop where
  entries : ∀ name e, m.methods[name]? = some e →
    ∃ (p : MethodPtr) (x : Method), e = some p ∧ m.objects[p]? = some x ∧ x.name = name
  hasMethod_iff : ∀ name, m.hasMethod name = true ↔
    name = "__default__".toList ∨ MethodAdded name before
  hasType_iff : ∀ name, m.hasType name = true ↔ TypeAdded name before

/-- The verifier and the generator, which go through all entries, follow no null pointer. -/
def Safe (m : Module) : Prop :=
  (∀ printed, Verifier.verify m ≠ .error ⟨.nullDereference, printed⟩) ∧
    ∀ llvm : Codegen.Llvm, (∀ f, llvm.verifyFunction f ≠ .error .nullDereference) →
      ∀ printed, Codegen.generate llvm (some m) ≠ .error ⟨.nullDereference, printed⟩

/-- A lookup leaves what `has_method` and `has_type` report. -/
def Unaffected (m : Module) (a : Operation) : Prop :=
  a.isLookup = true → ∀ m', m.perform a = .ok m' →
    ∀ name, m'.hasMethod name = m.hasMethod name ∧ m'.hasType name = m.hasType name

end Module

section Lookup

variable {α : Type} {t : TreeMap Str (Option α)}

private theorem subscript_present {k : Str} {v : Option α} (h : t[k]? = some v) :
    subscript t k = (t, v) := by
  rw [subscript, h]

private theorem subscript_contains (t : TreeMap Str (Option α)) (k : Str) :
    (subscript t k).1.contains k = true := by
  unfold subscript
  cases h : t[k]? with
  | some v =>
      rw [Std.TreeMap.contains_eq_isSome_getElem?, h]
      rfl
  | none => exact Std.TreeMap.contains_insert_self

private theorem subscript_of_contains {k : Str} (h : t.contains k = true) :
    ∃ v, t[k]? = some v ∧ subscript t k = (t, v) := by
  rw [Std.TreeMap.contains_eq_isSome_getElem?, Option.isSome_iff_exists] at h
  obtain ⟨v, found⟩ := h
  exact ⟨v, found, subscript_present found⟩

private theorem contains_insert_iff (k n : Str) (v : Option α) :
    (t.insert k v).contains n = true ↔ k = n ∨ t.contains n = true := by
  rw [Std.TreeMap.contains_insert]
  simp

private theorem getElem?_insert_some {k n : Str} {v e : Option α}
    (found : (t.insert k v)[n]? = some e) :
    k = n ∧ v = e ∨ t[n]? = some e := by
  rw [Std.TreeMap.getElem?_insert] at found
  by_cases same : compare k n = .eq
  · rw [if_pos same] at found
    exact .inl ⟨Std.LawfulEqCmp.eq_of_compare same, Option.some.inj found⟩
  · rw [if_neg same] at found
    exact .inr found

end Lookup

section Calls

variable {m : Module}

private theorem addMethod_eq {p : MethodPtr} {x : Method} (object : m.objects[p]? = some x) :
    m.addMethod p = { m with methods := m.methods.insert x.name (some p) } := by
  rw [Module.addMethod, object]

theorem pushCurrentMethod_eq {name : Str} {e : Option MethodPtr}
    (found : subscript m.methods name = (m.methods, e)) :
    m.pushCurrentMethod name =
      { m with nestedMethodStack := m.nestedMethodStack ++ [m.currentMethod]
               currentMethod := e } := by
  rw [Module.pushCurrentMethod, found]

theorem popCurrentMethod_eq {frames : List (Option MethodPtr)} {top : Option MethodPtr}
    (stack : m.nestedMethodStack = frames ++ [top]) :
    m.popCurrentMethod = .ok { m with currentMethod := top, nestedMethodStack := frames } := by
  rw [Module.popCurrentMethod, stack, List.getLast?_concat, List.dropLast_concat]

end Calls

section Step

variable {before : List Operation} {m m' : Module} {a : Operation}

/-- What is known of a module after some calls. -/
structure Module.Kept (m : Module) (before : List Operation) : Prop where
  objects : m.objects = objectsAfter before
  depth : m.nestedMethodStack.length + before.countP Operation.isPop =
    before.countP Operation.isPush + 1
  wellFormed : m.WellFormed before

private theorem methodAdded_concat (name : Str) (before : List Operation) (a : Operation) :
    MethodAdded name (before ++ [a]) ↔ MethodAdded name before ∨ AddsMethod name before a :=
  once_concat before a

private theorem typeAdded_concat (name : Str) (before : List Operation) (a : Operation) :
    TypeAdded name (before ++ [a]) ↔ TypeAdded name before ∨ AddsType name before a :=
  once_concat before a

theorem objectsAfter_concat (before : List Operation) (a : Operation) :
    objectsAfter (before ++ [a]) = objectsAfter before ++ a.created.toList := by
  simp only [objectsAfter, List.filterMap_append, List.cons_append]
  cases h : a.created <;> simp [h]

theorem Module.WellFormed.frame (h : m.WellFormed before) (methods : m'.methods = m.methods)
    (types : m'.types = m.types) {more : List Method} (objects : m'.objects = m.objects ++ more)
    (noMethod : ∀ p, a ≠ .addMethod p) (noType : ∀ t, a ≠ .addType t) :
    m'.WellFormed (before ++ [a]) where
  entries := by
    intro name e found
    rw [methods] at found
    obtain ⟨p, x, owned, object, same⟩ := h.entries name e found
    have inside : p < m.objects.length := (List.getElem?_eq_some_iff.mp object).1
    refine ⟨p, x, owned, ?_, same⟩
    rw [objects, List.getElem?_append_left inside, object]
  hasMethod_iff := by
    intro name
    have none : ¬ AddsMethod name before a := by
      rintro ⟨p, x, adds, -⟩
      exact noMethod p adds
    rw [methodAdded_concat, or_iff_left none, ← h.hasMethod_iff, Module.hasMethod, methods]
    rfl
  hasType_iff := by
    intro name
    have none : ¬ AddsType name before a := by
      rintro ⟨t, adds, -⟩
      exact noType t adds
    rw [typeAdded_concat, or_iff_left none, ← h.hasType_iff, Module.hasType, types]
    rfl

theorem Module.WellFormed.addMethod (h : m.WellFormed before)
    (objects : m.objects = objectsAfter before) {p : MethodPtr}
    {x : Method} (object : m.objects[p]? = some x) :
    (m.addMethod p).WellFormed (before ++ [.addMethod p]) := by
  have adds : ∀ name, AddsMethod name before (.addMethod p) ↔ x.name = name := by
    intro name
    rw [objects] at object
    simp [AddsMethod, object]
  rw [addMethod_eq object]
  constructor
  · intro name e found
    rcases getElem?_insert_some found with ⟨same, owned⟩ | before
    · exact ⟨p, x, owned.symm, object, same⟩
    · exact h.entries name e before
  · intro name
    rw [methodAdded_concat, ← or_assoc, ← h.hasMethod_iff, adds, Module.hasMethod,
      contains_insert_iff, or_comm]
    rfl
  · intro name
    have none : ¬ AddsType name before (.addMethod p) := by
      rintro ⟨t, adds, -⟩
      simp at adds
    rw [typeAdded_concat, or_iff_left none, ← h.hasType_iff]
    rfl

theorem Module.WellFormed.addType (h : m.WellFormed before) (t : TypeAnnotation) :
    (m.addType t).WellFormed (before ++ [.addType t]) := by
  constructor
  · exact h.entries
  · intro name
    have none : ¬ AddsMethod name before (.addType t) := by
      rintro ⟨p, x, adds, -⟩
      simp at adds
    rw [methodAdded_concat, or_iff_left none, ← h.hasMethod_iff]
    rfl
  · intro name
    have adds : AddsType name before (.addType t) ↔ t.name = name := by
      simp [AddsType]
    rw [typeAdded_concat, ← h.hasType_iff, adds, Module.hasType, Module.addType,
      contains_insert_iff, or_comm]
    rfl

theorem Module.Kept.next (kept : m.Kept before)
    (objects : m'.objects = m.objects ++ a.created.toList)
    (depth : m'.nestedMethodStack.length + [a].countP Operation.isPop =
      m.nestedMethodStack.length + [a].countP Operation.isPush)
    (wellFormed : m'.WellFormed (before ++ [a])) : m'.Kept (before ++ [a]) where
  objects := by rw [objects, kept.objects, objectsAfter_concat]
  depth := by
    have := kept.depth
    rw [List.countP_append, List.countP_append]
    omega
  wellFormed := wellFormed

theorem Module.Kept.unchanged (kept : m.Kept before) (created : a.created = none)
    (pop : a.isPop = false) (push : a.isPush = false) (noMethod : ∀ p, a ≠ .addMethod p)
    (noType : ∀ t, a ≠ .addType t) : m.Kept (before ++ [a]) := by
  have objects : m.objects = m.objects ++ a.created.toList := by
    rw [created]
    simp
  apply kept.next objects
  · simp [pop, push]
  · exact kept.wellFormed.frame rfl rfl objects noMethod noType

theorem Module.Kept.subscript_method (kept : m.Kept before) {name : Str}
    (registered : name = "__default__".toList ∨ MethodAdded name before) :
    ∃ (p : MethodPtr) (x : Method), m.objects[p]? = some x ∧
      subscript m.methods name = (m.methods, some p) := by
  have present := (kept.wellFormed.hasMethod_iff name).mpr registered
  obtain ⟨e, found, same⟩ := subscript_of_contains present
  obtain ⟨p, x, rfl, object, -⟩ := kept.wellFormed.entries name e found
  exact ⟨p, x, object, same⟩

private theorem Module.Kept.subscript_type (kept : m.Kept before) {name : Str}
    (registered : TypeAdded name before) : (subscript m.types name).1 = m.types := by
  obtain ⟨e, -, same⟩ := subscript_of_contains ((kept.wellFormed.hasType_iff name).mpr registered)
  rw [same]

/-- Every allowed call of a registered name keeps what is known. -/
theorem Module.Kept.perform (kept : m.Kept before) (allowed : Allowed before a)
    (registered : Registered before a) :
    ∃ m', m.perform a = .ok m' ∧ m'.Kept (before ++ [a]) := by
  cases a with
  | create x =>
      refine ⟨_, rfl, kept.next rfl rfl ?_⟩
      exact kept.wellFormed.frame rfl rfl rfl (by simp) (by simp)
  | addMethod p =>
      have inside : p < m.objects.length := by
        rw [kept.objects]
        exact allowed
      have object := List.getElem?_eq_getElem inside
      refine ⟨_, rfl, kept.next ?_ ?_ (kept.wellFormed.addMethod kept.objects object)⟩
      · rw [addMethod_eq object]
        simp [Operation.created]
      · rw [addMethod_eq object]
        rfl
  | addType t =>
      refine ⟨_, rfl, kept.next ?_ rfl (kept.wellFormed.addType t)⟩
      simp [Module.addType, Operation.created]
  | hasMethod name => exact ⟨m, rfl, kept.unchanged rfl rfl rfl (by simp) (by simp)⟩
  | getMethod name =>
      obtain ⟨p, x, -, found⟩ := kept.subscript_method registered
      have same : (m.getMethod name).1 = m := by
        rw [Module.getMethod, found]
      refine ⟨m, congrArg Except.ok same, ?_⟩
      exact kept.unchanged rfl rfl rfl (by simp) (by simp)
  | hasType name => exact ⟨m, rfl, kept.unchanged rfl rfl rfl (by simp) (by simp)⟩
  | getType name =>
      have found := kept.subscript_type registered
      have same : (m.getType name).1 = m := by
        rw [Module.getType, found]
      refine ⟨m, congrArg Except.ok same, ?_⟩
      exact kept.unchanged rfl rfl rfl (by simp) (by simp)
  | pushCurrentMethod name =>
      obtain ⟨p, x, -, found⟩ := kept.subscript_method registered
      have pushed := pushCurrentMethod_eq found
      have objects : (m.pushCurrentMethod name).objects = m.objects ++ [] := by
        rw [pushed, List.append_nil]
      refine ⟨_, rfl, kept.next objects ?_ ?_⟩
      · rw [pushed]
        simp [Operation.isPop, Operation.isPush]
      · rw [pushed] at objects ⊢
        exact kept.wellFormed.frame rfl rfl objects (by simp) (by simp)
  | popCurrentMethod =>
      have depth := kept.depth
      have matched : before.countP Operation.isPop < before.countP Operation.isPush := allowed
      have some : m.nestedMethodStack ≠ [] := by
        intro empty
        rw [empty, List.length_nil] at depth
        omega
      obtain ⟨frames, top, stack⟩ := (List.eq_nil_or_concat _).resolve_left some
      rw [List.concat_eq_append] at stack
      have objects : m.objects = m.objects ++ [] := (List.append_nil _).symm
      refine ⟨_, popCurrentMethod_eq stack, kept.next objects ?_ ?_⟩
      · rw [stack, List.length_append]
        simp [Operation.isPop, Operation.isPush]
      · exact kept.wellFormed.frame rfl rfl objects (by simp) (by simp)

end Step

section Histories

variable {before : List Operation} {m : Module}

theorem new_kept (name : Str) : (Module.new name).Kept [] := by
  have methods : (Module.new name).methods =
      (∅ : TreeMap Str (Option MethodPtr)).insert "__default__".toList (some 0) := rfl
  have noMethod : ∀ name, ¬ MethodAdded name [] := fun _ => once_nil
  have noType : ∀ name, ¬ TypeAdded name [] := fun _ => once_nil
  refine ⟨rfl, rfl, ?_, ?_, ?_⟩
  · intro n e found
    rw [methods] at found
    rcases getElem?_insert_some found with ⟨same, owned⟩ | before
    · exact ⟨0, _, owned.symm, rfl, same⟩
    · simp at before
  · intro n
    have empty : ¬ (∅ : TreeMap Str (Option MethodPtr)).contains n = true := by simp
    rw [or_iff_left (noMethod n), Module.hasMethod, methods, contains_insert_iff,
      or_iff_left empty, eq_comm]
  · intro n
    have empty : (Module.new name).hasType n = false := rfl
    rw [empty]
    simp [noType]

private theorem Module.WellFormed.safe (h : m.WellFormed before) : m.Safe := by
  have live : ∀ me ∈ m.methods.toList, ∃ x, m.deref me.2 = .ok x := by
    intro me member
    have found := Std.TreeMap.mem_toList_iff_getElem?_eq_some.mp member
    obtain ⟨p, x, owned, object, -⟩ := h.entries me.1 me.2 found
    rw [deref_isOk]
    exact ⟨p, owned, (List.getElem?_eq_some_iff.mp object).1⟩
  exact ⟨verify_pointers live, fun llvm checks => Codegen.generate_pointers checks live⟩

private theorem run_kept (name : Str) {history : List Operation} (allowed : Along Allowed history)
    (registered : Along Registered history) :
    ∃ m, history.foldlM Module.perform (Module.new name) = .ok m ∧ m.Kept history := by
  apply run_history (fun before (m : Module) => m.Kept before) (new_kept name) ?_
    (allowed.and registered)
  intro before m a kept condition
  exact kept.perform condition.1 condition.2

private theorem Module.WellFormed.unaffected {m' : Module} {a : Operation} (h : m.WellFormed before)
    (h' : m'.WellFormed (before ++ [a])) (lookup : a.isLookup = true) (name : Str) :
    m'.hasMethod name = m.hasMethod name ∧ m'.hasType name = m.hasType name := by
  have noMethod : ¬ AddsMethod name before a := by
    rintro ⟨p, x, rfl, -⟩
    simp [Operation.isLookup] at lookup
  have noType : ¬ AddsType name before a := by
    rintro ⟨t, rfl, -⟩
    simp [Operation.isLookup] at lookup
  constructor
  · rw [Bool.eq_iff_iff, h.hasMethod_iff, h'.hasMethod_iff, methodAdded_concat,
      or_iff_left noMethod]
  · rw [Bool.eq_iff_iff, h.hasType_iff, h'.hasType_iff, typeAdded_concat, or_iff_left noType]

private theorem registered_of_wellFormed {m' : Module} {a : Operation}
    (h' : m'.WellFormed (before ++ [a])) (taken : m.perform a = .ok m') : Registered before a := by
  have present : ∀ name, (subscript m.methods name).1 = m'.methods →
      (¬ AddsMethod name before a) → name = "__default__".toList ∨ MethodAdded name before := by
    intro name inserted none
    have reported : m'.hasMethod name = true := by
      rw [Module.hasMethod, ← inserted]
      exact subscript_contains m.methods name
    rwa [h'.hasMethod_iff, methodAdded_concat, or_iff_left none] at reported
  cases a with
  | getMethod name =>
      have same : (m.getMethod name).1 = m' := Except.ok.inj taken
      exact present name (congrArg Module.methods same) (by simp [AddsMethod])
  | pushCurrentMethod name =>
      have same : m.pushCurrentMethod name = m' := Except.ok.inj taken
      exact present name (congrArg Module.methods same) (by simp [AddsMethod])
  | getType name =>
      have same : (m.getType name).1 = m' := Except.ok.inj taken
      have reported : m'.hasType name = true := by
        rw [Module.hasType, ← same]
        exact subscript_contains m.types name
      have none : ¬ AddsType name before (.getType name) := by simp [AddsType]
      rwa [h'.hasType_iff, typeAdded_concat, or_iff_left none] at reported
  | _ => trivial

/-- Along a history of calls with live pointers and matched pops, the tables are well formed
after every call, the verifier and the generator are safe on them, and lookups leave what is
reported, exactly when every name that `get_method`, `push_current_method` or `get_type`
looks up has been added before. -/
theorem tables_wellFormed_iff (name : Str) {history : List Operation}
    (allowed : Along Allowed history) :
    (∀ before after, history = before ++ after → ∃ m,
      before.foldlM Module.perform (Module.new name) = .ok m ∧ m.WellFormed before ∧ m.Safe ∧
        ∀ a ∈ after.head?, m.Unaffected a) ↔
    Along Registered history := by
  constructor
  · intro kept before a after split
    obtain ⟨m, run, -⟩ := kept before (a :: after) split
    obtain ⟨m', run', wellFormed, -⟩ := kept (before ++ [a]) after (by simp [split])
    obtain ⟨t, run'', taken⟩ := (run_concat before a _ m').mp run'
    obtain rfl := Except.ok.inj (run.symm.trans run'')
    exact registered_of_wellFormed wellFormed taken
  · intro registered
    have reached : ∀ before after, history = before ++ after → ∃ m,
        before.foldlM Module.perform (Module.new name) = .ok m ∧ m.Kept before := by
      intro before after split
      rw [split] at allowed registered
      exact run_kept name allowed.front registered.front
    intro before after split
    obtain ⟨m, run, kept⟩ := reached before after split
    refine ⟨m, run, kept.wellFormed, kept.wellFormed.safe, ?_⟩
    intro a next lookup m' taken
    obtain ⟨rest, rfl⟩ : ∃ rest, after = a :: rest := List.head?_eq_some_iff.mp next
    obtain ⟨m'', run', kept'⟩ := reached (before ++ [a]) rest (by simp [split])
    obtain ⟨t, run'', taken'⟩ := (run_concat before a _ m'').mp run'
    obtain rfl := Except.ok.inj (run.symm.trans run'')
    obtain rfl := Except.ok.inj (taken.symm.trans taken')
    exact kept.wellFormed.unaffected kept'.wellFormed lookup

theorem tables_wellFormed_nested :
    ∃ m, [.pushCurrentMethod "__default__".toList, .popCurrentMethod].foldlM Module.perform
        (Module.new "__main__".toList) = .ok m ∧
      m.WellFormed [.pushCurrentMethod "__default__".toList, .popCurrentMethod] ∧ m.Safe := by
  have allowed : Along Allowed [.pushCurrentMethod "__default__".toList, .popCurrentMethod] :=
    (along_concat [_] _).mpr ⟨(along_concat [] _).mpr ⟨along_nil, trivial⟩,
      by unfold Allowed; decide⟩
  have registered : Along Registered [.pushCurrentMethod "__default__".toList, .popCurrentMethod] :=
    (along_concat [_] _).mpr ⟨(along_concat [] _).mpr ⟨along_nil, .inl rfl⟩, trivial⟩
  obtain ⟨m, run, wellFormed, safe, -⟩ :=
    (tables_wellFormed_iff "__main__".toList allowed).mpr registered _ [] (List.append_nil _).symm
  exact ⟨m, run, wellFormed, safe⟩

/-- Asking a new module for the method `x` registers a null entry, which `has_method` then
reports and the verifier dereferences. -/
theorem getMethod_inserts_null :
    Along Allowed [.getMethod ['x']] ∧ ¬ MethodAdded ['x'] [.getMethod ['x']] ∧
      ∃ m, [.getMethod ['x']].foldlM Module.perform (Module.new "__main__".toList) = .ok m ∧
        m.methods[['x']]? = some none ∧ m.hasMethod ['x'] = true ∧
        Verifier.verify m = .error ⟨.nullDereference, []⟩ := by
  refine ⟨(along_concat [] _).mpr ⟨along_nil, trivial⟩, ?_, _, rfl, rfl, rfl, rfl⟩
  intro added
  rcases (once_concat [] _).mp added with none | ⟨p, x, adds, -⟩
  · exact once_nil none
  · simp at adds

end Histories

end Amalgam.Parser
