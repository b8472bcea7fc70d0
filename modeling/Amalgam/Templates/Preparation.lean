/- Module: Amalgam/Templates/Preparation
   digest: Which definition a load reads when a template is prepared, and what preparation
   leaves undone. -/

import Amalgam.Machine.History
import Amalgam.Templates.Template

set_option autoImplicit false
set_option relaxedAutoImplicit false

namespace Amalgam.Templates

open Amalgam.Cxx (Str Fault)
open Amalgam.Machine
open Amalgam.Util (Expected)

def fresh (codes : List Opcode) : Memory := { objects := codes.map fun code => { code := code } }

/-- A template made by adding operations one by one, the same one more than once perhaps. -/
def build (name : Str) (codes : List Opcode) (adds : List OpPtr) : Except Fault Templ :=
  adds.foldlM (fun t p => t.addOperation (fresh codes) p) { name := name }

def defines (codes : List Opcode) (r : Str) (p : OpPtr) : Bool :=
  codes[p]?.any fun code => code.target = r

/-- The last operation of the list whose output is the register. -/
def definition (codes : List Opcode) (r : Str) (l : List OpPtr) : Option OpPtr :=
  l.reverse.find? (defines codes r)

def Memory.value (m : Memory) (p : OpPtr) : Option ValuePtr := m.objects[p]?.bind Op.getTargetValue

section Building

variable {codes : List Opcode}

theorem definition_concat (r : Str) (l : List OpPtr) (p : OpPtr) :
    definition codes r (l ++ [p]) = if defines codes r p then some p else definition codes r l := by
  rw [definition, List.reverse_append, List.reverse_singleton, List.singleton_append,
    List.find?_cons]
  cases defines codes r p with
  | true => rfl
  | false => rfl

theorem definition_some {r : Str} {l : List OpPtr} {p : OpPtr} (h : definition codes r l = some p) :
    p ∈ l ∧ defines codes r p = true :=
  ⟨List.mem_reverse.mp (List.mem_of_find?_eq_some h), List.find?_some h⟩

theorem definition_append {r : Str} {before after : List OpPtr}
    (h : definition codes r before ≠ none) : definition codes r (before ++ after) ≠ none := by
  rw [definition, List.reverse_append, List.find?_append]
  intro none
  exact h (Option.or_eq_none_iff.mp none).2

private theorem fresh_deref {p : OpPtr} {code : Opcode} (h : codes[p]? = some code) :
    (fresh codes).deref p = .ok { code := code } := by
  rw [Memory.deref, fresh, List.getElem?_map, h]
  rfl

/-- The map of a template leads to the last definition of each register. -/
theorem build_ok (name : Str) {adds : List OpPtr} (valid : ∀ p ∈ adds, p < codes.length) :
    ∃ t, build name codes adds = .ok t ∧ t.opList = adds ∧
      ∀ r : Str, t.regMap[r]? = definition codes r adds := by
  have allowed : Along (fun _ p => p < codes.length) adds := along_of_forall valid
  refine run_history (fun (l : List OpPtr) (t : Templ) =>
    t.opList = l ∧ ∀ r : Str, t.regMap[r]? = definition codes r l) ?_ ?_ allowed
  · exact ⟨rfl, fun r => rfl⟩
  · rintro l t p ⟨list, map⟩ inside
    have code := List.getElem?_eq_getElem inside
    refine ⟨_, bind_ok_iff.mpr ⟨_, fresh_deref code, rfl⟩, ?_, ?_⟩
    · show t.opList ++ [p] = l ++ [p]
      rw [list]
    · intro r
      show (t.regMap.insert (codes[p]).target p)[r]? = _
      have target : defines codes r p = decide ((codes[p]).target = r) := by
        rw [defines, code]
        rfl
      rw [definition_concat, target, Std.TreeMap.getElem?_insert, map r]
      by_cases same : (codes[p]).target = r
      · simp [same]
      · simp [same, Std.LawfulEqCmp.compare_eq_iff_eq]

end Building

/-- Preparing the operation gives it a value: a constant always gets one, a load when any
operation of the template defines its source. -/
def Sourced (codes : List Opcode) (adds : List OpPtr) : Opcode → Prop
  | .constantValue _ _ => True
  | .load _ source => definition codes source adds ≠ none

/-- The state after some operations of the list `adds` have been prepared. -/
structure Prepared (codes : List Opcode) (adds before : List OpPtr) (m : Memory) : Prop where
  classes : m.objects.map Op.code = codes
  prepared : ∀ (p : OpPtr) (o : Op), m.objects[p]? = some o →
    (o.prepared = true ↔ p ∈ before ∧ ∃ target value, o.code = .constantValue target value)
  valued : ∀ (p : OpPtr) (o : Op), m.objects[p]? = some o →
    (o.targetv ≠ none ↔ p ∈ before ∧ Sourced codes adds o.code)
  bound : ∀ p v, m.value p = some v → v < m.values.length
  distinct : ∀ p q v, m.value p = some v → m.value q = some v → p = q

section Steps

variable {codes : List Opcode} {adds before : List OpPtr} {m : Memory}

theorem value_object {p : OpPtr} {o : Op} (h : m.objects[p]? = some o) : m.value p = o.targetv := by
  rw [Memory.value, h]
  rfl

private theorem deref_object {p : OpPtr} {o : Op} (h : m.objects[p]? = some o) :
    m.deref p = .ok o := by
  rw [Memory.deref, h]

theorem Prepared.object (known : Prepared codes adds before m) {p : OpPtr} {code : Opcode}
    (h : codes[p]? = some code) : ∃ o, m.objects[p]? = some o ∧ o.code = code := by
  rw [← known.classes, List.getElem?_map] at h
  exact Option.map_eq_some_iff.mp h

theorem Prepared.found (known : Prepared codes adds before m) {p : OpPtr}
    (inside : p < codes.length) : ∃ o, m.objects[p]? = some o ∧ codes[p]? = some o.code := by
  have made := List.getElem?_eq_getElem inside
  obtain ⟨o, object, code⟩ := known.object made
  exact ⟨o, object, made.trans (congrArg some code.symm)⟩

def Memory.assign (m : Memory) (p : OpPtr) (o : Op) (prepared : Bool) (v : Value) : Memory :=
  { objects := m.objects.set p { o with targetv := some m.values.length, prepared := prepared }
    values := m.values ++ [v] }

theorem assign_value {p : OpPtr} {o : Op} (h : m.objects[p]? = some o) (prepared : Bool) (v : Value)
    (q : OpPtr) :
    (m.assign p o prepared v).value q = if q = p then some m.values.length else m.value q := by
  have inside := (List.getElem?_eq_some_iff.mp h).1
  unfold Memory.assign Memory.value
  by_cases same : q = p
  · subst same
    rw [List.getElem?_set_self inside, if_pos rfl]
    rfl
  · rw [List.getElem?_set_ne (Ne.symm same), if_neg same]

theorem Prepared.assign (known : Prepared codes adds before m) {p : OpPtr} {o : Op}
    (h : m.objects[p]? = some o) {prepared : Bool} (v : Value) (sourced : Sourced codes adds o.code)
    (flag : prepared = true ↔ ∃ target value, o.code = .constantValue target value) :
    Prepared codes adds (before ++ [p]) (m.assign p o prepared v) := by
  have inside := (List.getElem?_eq_some_iff.mp h).1
  have here : (m.assign p o prepared v).objects[p]? =
      some { o with targetv := some m.values.length, prepared := prepared } :=
    List.getElem?_set_self inside
  have elsewhere : ∀ q, q ≠ p → (m.assign p o prepared v).objects[q]? = m.objects[q]? :=
    fun q other => List.getElem?_set_ne other.symm
  have member : ∀ q, q ≠ p → (q ∈ before ++ [p] ↔ q ∈ before) := by
    intro q other
    rw [List.mem_append, List.mem_singleton, or_iff_left other]
  have last : p ∈ before ++ [p] := List.mem_append_right _ List.mem_cons_self
  refine ⟨?_, ?_, ?_, ?_, ?_⟩
  · show (m.objects.set p _).map Op.code = codes
    rw [List.map_set, ← known.classes]
    have same : (m.objects.map Op.code)[p]? = some o.code := by rw [List.getElem?_map, h]; rfl
    obtain ⟨bound, code⟩ := List.getElem?_eq_some_iff.mp same
    show (m.objects.map Op.code).set p o.code = m.objects.map Op.code
    rw [← code, List.set_getElem_self]
  · intro q x found
    by_cases same : q = p
    · subst same
      rw [here] at found
      rw [← Option.some.inj found]
      exact flag.trans (and_iff_right last).symm
    · rw [elsewhere q same] at found
      rw [member q same]
      exact known.prepared q x found
  · intro q x found
    by_cases same : q = p
    · subst same
      rw [here] at found
      rw [← Option.some.inj found]
      exact iff_of_true (by simp) ⟨last, sourced⟩
    · rw [elsewhere q same] at found
      rw [member q same]
      exact known.valued q x found
  · intro q w value
    show w < (m.values ++ [v]).length
    rw [List.length_append, List.length_singleton]
    rw [assign_value h] at value
    split at value
    · obtain rfl := Option.some.inj value
      exact Nat.lt_succ_self _
    · exact Nat.lt_succ_of_lt (known.bound q w value)
  · intro q q' w value value'
    rw [assign_value h] at value value'
    by_cases same : q = p
    · by_cases same' : q' = p
      · rw [same, same']
      · rw [if_pos same] at value
        rw [if_neg same'] at value'
        obtain rfl := Option.some.inj value
        exact absurd (known.bound q' _ value') (Nat.lt_irrefl _)
    · by_cases same' : q' = p
      · rw [if_neg same] at value
        rw [if_pos same'] at value'
        obtain rfl := Option.some.inj value'
        exact absurd (known.bound q _ value) (Nat.lt_irrefl _)
      · rw [if_neg same] at value
        rw [if_neg same'] at value'
        exact known.distinct q q' w value value'

theorem Prepared.skip (known : Prepared codes adds before m) {p : OpPtr} {o : Op}
    (h : m.objects[p]? = some o) (unsourced : ¬ Sourced codes adds o.code) :
    Prepared codes adds (before ++ [p]) m := by
  have notConstant : ¬ ∃ target value, o.code = .constantValue target value := by
    rintro ⟨target, value, code⟩
    rw [code] at unsourced
    exact unsourced trivial
  have member : ∀ (q : OpPtr) (x : Op) {c : Prop}, m.objects[q]? = some x → (q = p → ¬ c) →
      (q ∈ before ++ [p] ∧ c ↔ q ∈ before ∧ c) := by
    intro q x c found excluded
    rw [List.mem_append, List.mem_singleton]
    constructor
    · rintro ⟨earlier | rfl, holds⟩
      · exact ⟨earlier, holds⟩
      · exact absurd holds (excluded rfl)
    · rintro ⟨earlier, holds⟩
      exact ⟨.inl earlier, holds⟩
  refine ⟨known.classes, ?_, ?_, known.bound, known.distinct⟩
  · intro q x found
    rw [member q x found, known.prepared q x found]
    rintro rfl
    obtain rfl : o = x := Option.some.inj (h.symm.trans found)
    exact notConstant
  · intro q x found
    rw [member q x found, known.valued q x found]
    rintro rfl
    obtain rfl : o = x := Option.some.inj (h.symm.trans found)
    exact unsourced

variable {t : Templ}

theorem load_unknown {target source : Str} (unknown : t.regMap[source]? = none) (p : OpPtr)
    (o : Op) : t.prepareLoad target source m p o = .ok (.ofValue false, m) := by
  rw [Templ.prepareLoad, Templ.findOperationByOutput, unknown]
  rfl

theorem load_known {target source : Str} {q : OpPtr} (found : t.regMap[source]? = some q) {x : Op}
    (h : m.objects[q]? = some x) (p : OpPtr) (o : Op) :
    t.prepareLoad target source m p o =
      .ok (.ofValue true, m.assign p o o.prepared (.load x.targetv target)) := by
  have read : m.deref q = .ok x := deref_object h
  rw [Templ.prepareLoad, Templ.findOperationByOutput, found]
  show (m.deref q >>= _) = _
  rw [read]
  rfl

theorem prepareOp_load {p : OpPtr} {o : Op} (h : m.objects[p]? = some o) {target source : Str}
    (code : o.code = .load target source) :
    t.prepareOp m p = t.prepareLoad target source m p o := by
  rw [Templ.prepareOp, deref_object h]
  show (match o.code with | .constantValue _ value => _ | .load target source => _) = _
  rw [code]

theorem prepareOp_constant {p : OpPtr} {o : Op} (h : m.objects[p]? = some o) {target : Str}
    {value : Int} (code : o.code = .constantValue target value) :
    t.prepareOp m p =
      .ok (.ofValue true, m.assign p o true (.constantInt (BitVec.ofInt 64 value))) := by
  rw [Templ.prepareOp, deref_object h]
  show (match o.code with | .constantValue _ value => _ | .load target source => _) = _
  rw [code]
  rfl

variable (map : ∀ r : Str, t.regMap[r]? = definition codes r adds)
  (valid : ∀ p ∈ adds, p < codes.length)

include map valid

theorem Prepared.source (known : Prepared codes adds before m) {source : Str} {q : OpPtr}
    (defined : definition codes source adds = some q) :
    t.regMap[source]? = some q ∧ ∃ x, m.objects[q]? = some x ∧ codes[q]? = some x.code :=
  ⟨(map source).trans defined, known.found (valid q (definition_some defined).1)⟩

/-- One turn of the loop. -/
theorem Prepared.next (known : Prepared codes adds before m) {p : OpPtr}
    (inside : p < codes.length) :
    ∃ m', t.prepareNext m p = .ok m' ∧ Prepared codes adds (before ++ [p]) m' := by
  obtain ⟨o, object, -⟩ := known.found inside
  cases code : o.code with
  | constantValue target value =>
      have sourced : Sourced codes adds o.code := by
        rw [code]
        trivial
      refine ⟨_, bind_ok_iff.mpr ⟨_, prepareOp_constant object code, rfl⟩, ?_⟩
      exact known.assign object _ sourced (iff_of_true rfl ⟨target, value, code⟩)
  | load target source =>
      have loads := prepareOp_load (t := t) object code
      cases defined : definition codes source adds with
      | none =>
          rw [load_unknown ((map source).trans defined)] at loads
          have unsourced : ¬ Sourced codes adds o.code := by
            rw [code]
            exact not_not_intro defined
          exact ⟨m, bind_ok_iff.mpr ⟨_, loads, rfl⟩, known.skip object unsourced⟩
      | some q =>
          obtain ⟨found, x, objectX, -⟩ := known.source map valid defined
          rw [load_known found objectX] at loads
          have sourced : Sourced codes adds o.code := by
            rw [code, Sourced, defined]
            simp
          refine ⟨_, bind_ok_iff.mpr ⟨_, loads, rfl⟩, known.assign object _ sourced ?_⟩
          rw [known.prepared p o object, code]
          simp

/-- Preparing some operations one after the other. -/
theorem prepared_run (inside : ∀ p ∈ before, p < codes.length) :
    ∃ m, before.foldlM t.prepareNext (fresh codes) = .ok m ∧ Prepared codes adds before m := by
  have allowed : Along (fun _ p => p < codes.length) before := along_of_forall inside
  have start : Prepared codes adds [] (fresh codes) := by
    have unprepared : ∀ (p : OpPtr) (o : Op), (fresh codes).objects[p]? = some o →
        o.prepared = false ∧ o.targetv = none := by
      intro p o found
      rw [fresh, List.getElem?_map] at found
      obtain ⟨code, -, rfl⟩ := Option.map_eq_some_iff.mp found
      exact ⟨rfl, rfl⟩
    have novalue : ∀ p, (fresh codes).value p = none := by
      intro p
      cases found : (fresh codes).objects[p]? with
      | none => rw [Memory.value, found]; rfl
      | some o => rw [value_object found, (unprepared p o found).2]
    refine ⟨?_, ?_, ?_, ?_, ?_⟩
    · rw [fresh, List.map_map]
      exact List.map_id codes
    · intro p o found
      simp [(unprepared p o found).1]
    · intro p o found
      simp [(unprepared p o found).2]
    · intro p v value
      rw [novalue] at value
      cases value
    · intro p q v value
      rw [novalue] at value
      cases value
  exact run_history (fun l m => Prepared codes adds l m) start
    (fun l m p known allowed => known.next map valid allowed) allowed

end Steps

end Amalgam.Templates
