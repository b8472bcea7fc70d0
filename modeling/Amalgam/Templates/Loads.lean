/- Module: Amalgam/Templates/Loads
   digest: When every load reads the definition before it, and when a template is prepared as a
   whole. -/

import Amalgam.Templates.Preparation

set_option autoImplicit false
set_option relaxedAutoImplicit false

namespace Amalgam.Templates

open Amalgam.Cxx (Str Fault)
open Amalgam.Machine
open Amalgam.Util (Expected)

section Reading

/-- Preparing the load either succeeds with a value made from that of the nearest definition
before it, which is not null, or fails; it fails when there is no definition before it. -/
def ReadsAt (codes : List Opcode) (t : Templ) (m : Memory) (before : List OpPtr) (p : OpPtr)
    (target source : Str) : Prop :=
  ∃ r m', t.prepareOp m p = .ok (r, m') ∧
    (r = .ofValue true → ∃ q v w, definition codes source before = some q ∧ m.value q = some v ∧
      m'.value p = some w ∧ m'.values[w]? = some (.load (some v) target)) ∧
    (definition codes source before = none → r = .ofValue false)

def ReadsPreceding (codes : List Opcode) (t : Templ) : Prop :=
  ∀ before p after target source, t.opList = before ++ p :: after →
    codes[p]? = some (.load target source) →
      ∃ m, before.foldlM t.prepareNext (fresh codes) = .ok m ∧
        ReadsAt codes t m before p target source

/-- The source of a load is defined nowhere, or the last definition in the whole list is also
the nearest one before the load, and one that gets a value. -/
def SettledAt (codes : List Opcode) (adds before : List OpPtr) (source : Str) : Prop :=
  definition codes source adds = none ∨
    ∃ q code, definition codes source adds = some q ∧ definition codes source before = some q ∧
      codes[q]? = some code ∧ Sourced codes adds code

def Settled (codes : List Opcode) (adds : List OpPtr) : Prop :=
  ∀ before p after target source, adds = before ++ p :: after →
    codes[p]? = some (.load target source) → SettledAt codes adds before source

variable {codes : List Opcode} {adds before : List OpPtr} {m : Memory} {t : Templ}

private theorem Prepared.value_iff (known : Prepared codes adds before m) {q : OpPtr}
    {code : Opcode}
    (h : codes[q]? = some code) : m.value q ≠ none ↔ q ∈ before ∧ Sourced codes adds code := by
  obtain ⟨x, object, rfl⟩ := known.object h
  rw [value_object object]
  exact known.valued q x object

private theorem reads_known_iff (known : Prepared codes adds before m) {p q : OpPtr} {o x : Op}
    {target source : Str} (object : m.objects[p]? = some o) (code : o.code = .load target source)
    (found : t.regMap[source]? = some q) (objectX : m.objects[q]? = some x) :
    ReadsAt codes t m before p target source ↔
      definition codes source before = some q ∧ m.value q ≠ none := by
  have loads := prepareOp_load (t := t) object code
  rw [load_known found objectX] at loads
  have created : (m.assign p o o.prepared (.load x.targetv target)).value p =
      some m.values.length := by
    rw [assign_value object, if_pos rfl]
  have built : (m.assign p o o.prepared (.load x.targetv target)).values[m.values.length]? =
      some (.load x.targetv target) := List.getElem?_concat_length
  constructor
  · rintro ⟨r, m', run, success, -⟩
    obtain ⟨rfl, rfl⟩ := Prod.mk.inj (Except.ok.inj (loads.symm.trans run))
    obtain ⟨q', v, w, earlier, value, created', built'⟩ := success rfl
    obtain rfl := Option.some.inj (created.symm.trans created')
    -- values are fresh, so the operand tells which operation it was read from
    have operand : x.targetv = some v :=
      (Value.load.inj (Option.some.inj (built.symm.trans built'))).1
    have valueQ : m.value q = some v := (value_object objectX).trans operand
    obtain rfl : q' = q := known.distinct q' q v value valueQ
    exact ⟨earlier, by simp [valueQ]⟩
  · rintro ⟨earlier, present⟩
    obtain ⟨v, value⟩ := Option.ne_none_iff_exists'.mp present
    have operand : x.targetv = some v := (value_object objectX).symm.trans value
    refine ⟨_, _, loads, ?_, ?_⟩
    · intro _
      refine ⟨q, v, _, earlier, value, created, ?_⟩
      rw [built, operand]
    · intro nothing
      rw [earlier] at nothing
      cases nothing

private theorem reads_iff (map : ∀ r : Str, t.regMap[r]? = definition codes r adds)
    (valid : ∀ p ∈ adds, p < codes.length) (known : Prepared codes adds before m) {p : OpPtr}
    {target source : Str} (load : codes[p]? = some (.load target source)) :
    ReadsAt codes t m before p target source ↔ SettledAt codes adds before source := by
  obtain ⟨o, object, code⟩ := known.object load
  cases defined : definition codes source adds with
  | none =>
      have loads := prepareOp_load (t := t) object code
      rw [load_unknown ((map source).trans defined)] at loads
      apply iff_of_true
      · refine ⟨_, _, loads, ?_, fun _ => rfl⟩
        intro succeeded
        cases Expected.ofValue_inj succeeded
      · exact .inl defined
  | some q =>
      obtain ⟨found, x, objectX, made⟩ := known.source map valid defined
      rw [reads_known_iff known object code found objectX, known.value_iff made]
      constructor
      · rintro ⟨earlier, -, sourced⟩
        exact .inr ⟨q, x.code, defined, earlier, made, sourced⟩
      · rintro (nowhere | ⟨q', code', defined', earlier, made', sourced⟩)
        · rw [defined] at nowhere
          cases nowhere
        · obtain rfl : q = q' := Option.some.inj (defined.symm.trans defined')
          obtain rfl : x.code = code' := Option.some.inj (made.symm.trans made')
          exact ⟨earlier, (definition_some earlier).1, sourced⟩

/-- The loads of a template read the definitions before them exactly when for each load the
register is defined nowhere, or last by the operation that is also the nearest one before the
load, and that gets a value. -/
theorem readsPreceding_iff (name : Str) (codes : List Opcode) (adds : List OpPtr)
    (valid : ∀ p ∈ adds, p < codes.length) :
    (∃ t, build name codes adds = .ok t ∧ ReadsPreceding codes t) ↔ Settled codes adds := by
  obtain ⟨t, built, list, map⟩ := build_ok name valid
  have run : ∀ before after, adds = before ++ after →
      ∃ m, before.foldlM t.prepareNext (fresh codes) = .ok m ∧ Prepared codes adds before m := by
    intro before after split
    apply prepared_run map valid
    intro p hp
    apply valid
    rw [split]
    exact List.mem_append_left _ hp
  constructor
  · rintro ⟨t', built', reads⟩ before p after target source split load
    obtain rfl : t = t' := Except.ok.inj (built.symm.trans built')
    obtain ⟨m, taken, known⟩ := run before (p :: after) split
    obtain ⟨m', taken', readsAt⟩ := reads before p after target source (list.trans split) load
    obtain rfl : m = m' := Except.ok.inj (taken.symm.trans taken')
    exact (reads_iff map valid known load).mp readsAt
  · intro settled
    refine ⟨t, built, ?_⟩
    intro before p after target source split load
    have split' := list.symm.trans split
    obtain ⟨m, taken, known⟩ := run before (p :: after) split'
    exact ⟨m, taken, (reads_iff map valid known load).mpr
      (settled before p after target source split' load)⟩

def constantAndLoad : List Opcode :=
  [.constantValue "r0".toList 1, .load "r1".toList "r0".toList]

theorem constantAndLoad_split {before after : List OpPtr} {p : OpPtr} {target source : Str}
    (split : [0, 1] = before ++ p :: after)
    (load : constantAndLoad[p]? = some (.load target source)) :
    before = [0] ∧ source = "r0".toList := by
  rcases before with none | ⟨b, none | ⟨c, rest⟩⟩
  · obtain ⟨rfl, -⟩ := List.cons.inj split
    cases load
  · obtain ⟨rfl, tail⟩ := List.cons.inj split
    obtain ⟨rfl, -⟩ := List.cons.inj tail
    exact ⟨rfl, (Opcode.load.inj (Option.some.inj load)).2.symm⟩
  · have lengths := congrArg List.length split
    simp at lengths

theorem readsPreceding_constantAndLoad :
    ∃ t, build "load.uint32".toList constantAndLoad [0, 1] = .ok t ∧
      ReadsPreceding constantAndLoad t := by
  apply (readsPreceding_iff _ constantAndLoad [0, 1] (by decide)).mpr
  intro before p after target source split load
  obtain ⟨rfl, rfl⟩ := constantAndLoad_split split load
  exact .inr ⟨0, .constantValue "r0".toList 1, by decide, by decide, rfl, trivial⟩

def redefinition : List Opcode :=
  [.constantValue "r0".toList 1, .load "r1".toList "r0".toList, .constantValue "r0".toList 2]

/-- The load succeeds with a value made from a null pointer, although the constant before it
has a value. -/
theorem readsPreceding_redefinition :
    (∃ t m m', build "load.uint32".toList redefinition [0, 1, 2] = .ok t ∧
      [0].foldlM t.prepareNext (fresh redefinition) = .ok m ∧ m.value 0 = some 0 ∧
      t.prepareOp m 1 = .ok (.ofValue true, m') ∧
      m'.values = [.constantInt 1, .load none "r1".toList]) ∧
    ¬ ∃ t, build "load.uint32".toList redefinition [0, 1, 2] = .ok t ∧
      ReadsPreceding redefinition t := by
  refine ⟨⟨_, _, _, rfl, rfl, rfl, rfl, rfl⟩, ?_⟩
  rintro ⟨t, built, reads⟩
  have valid : ∀ p ∈ [0, 1, 2], p < redefinition.length := by decide
  have inside : ∀ p ∈ [0], p < redefinition.length := by decide
  obtain ⟨t', built', list, map⟩ := build_ok "load.uint32".toList valid
  obtain rfl : t = t' := Except.ok.inj (built.symm.trans built')
  obtain ⟨m, taken, known⟩ := prepared_run map valid inside
  obtain ⟨m', taken', readsAt⟩ := reads [0] 1 [2] "r1".toList "r0".toList list rfl
  obtain rfl : m = m' := Except.ok.inj (taken.symm.trans taken')
  rcases (reads_iff map valid known rfl).mp readsAt with nowhere | ⟨q, -, last, earlier, -⟩
  · exact absurd nowhere (by decide)
  · have later : definition redefinition "r0".toList [0, 1, 2] = some 2 := by decide
    have first : definition redefinition "r0".toList [0] = some 0 := by decide
    rw [later] at last
    rw [first, ← last] at earlier
    cases earlier

end Reading

section Completeness

variable {codes : List Opcode} {adds : List OpPtr}

/-- Every register is defined once at most, and every load reads a register that an
operation before it defines. -/
structure WellFormed (codes : List Opcode) (adds : List OpPtr) : Prop where
  once : (adds.map fun p => codes[p]?.map Opcode.target).Nodup
  sources : ∀ before p after target source, adds = before ++ p :: after →
    codes[p]? = some (.load target source) → definition codes source before ≠ none

/-- Every operation of the list is prepared and has a target value. -/
def Complete (m : Memory) (adds : List OpPtr) : Prop :=
  ∀ p ∈ adds, ∃ o, m.objects[p]? = some o ∧ o.isPrepared = true ∧ o.getTargetValue ≠ none

theorem WellFormed.sourced (wellFormed : WellFormed codes adds) {p : OpPtr} (member : p ∈ adds)
    {code : Opcode} (h : codes[p]? = some code) : Sourced codes adds code := by
  cases code with
  | constantValue target value => trivial
  | load target source =>
      obtain ⟨before, after, split⟩ := List.append_of_mem member
      have earlier := wellFormed.sources before p after target source split h
      show definition codes source adds ≠ none
      rw [split]
      exact definition_append earlier

/-- Preparing a well-formed template gives every operation a target value, and completes all
of them exactly when none is a load. -/
theorem prepare_complete_iff (name : Str) (valid : ∀ p ∈ adds, p < codes.length)
    (wellFormed : WellFormed codes adds) :
    ∃ t m, build name codes adds = .ok t ∧ t.prepare (fresh codes) = .ok m ∧
      (∀ p ∈ adds, m.value p ≠ none) ∧
      (Complete m adds ↔ ∀ p ∈ adds, ∀ target source, codes[p]? ≠ some (.load target source)) := by
  obtain ⟨t, built, list, map⟩ := build_ok name valid
  obtain ⟨m, taken, known⟩ := prepared_run map valid valid
  have valued : ∀ p ∈ adds, m.value p ≠ none := by
    intro p member
    obtain ⟨o, -, made⟩ := known.found (valid p member)
    exact (known.value_iff made).mpr ⟨member, wellFormed.sourced member made⟩
  refine ⟨t, m, built, ?_, valued, ?_⟩
  · rw [Templ.prepare, list]
    exact taken
  · constructor
    · intro complete p member target source load
      obtain ⟨o, found, prepared, -⟩ := complete p member
      obtain ⟨-, name, value, constant⟩ := (known.prepared p o found).mp prepared
      obtain ⟨x, found', code⟩ := known.object load
      obtain rfl : o = x := Option.some.inj (found.symm.trans found')
      rw [constant] at code
      cases code
    · intro noLoad p member
      obtain ⟨o, found, made⟩ := known.found (valid p member)
      refine ⟨o, found, ?_, ?_⟩
      · apply (known.prepared p o found).mpr
        refine ⟨member, ?_⟩
        cases code : o.code with
        | constantValue target value => exact ⟨target, value, rfl⟩
        | load target source =>
            rw [code] at made
            exact absurd made (noLoad p member target source)
      · have present := valued p member
        rw [value_object found] at present
        exact present

theorem prepare_complete_constants :
    ∃ t m, build "load.uint32".toList
        [.constantValue "r0".toList 1, .constantValue "r1".toList 2] [0, 1] = .ok t ∧
      t.prepare (fresh [.constantValue "r0".toList 1, .constantValue "r1".toList 2]) = .ok m ∧
      Complete m [0, 1] := by
  have noLoad : ∀ p ∈ [0, 1], ∀ target source,
      [Opcode.constantValue "r0".toList 1, .constantValue "r1".toList 2][p]? ≠
        some (.load target source) := by
    intro p member target source load
    rcases List.mem_pair.mp member with rfl | rfl
    · cases load
    · cases load
  have wellFormed : WellFormed
      [.constantValue "r0".toList 1, .constantValue "r1".toList 2] [0, 1] := by
    refine ⟨by decide, ?_⟩
    intro before p after target source split load
    refine absurd load (noLoad p ?_ target source)
    rw [split]
    exact List.mem_append_right _ List.mem_cons_self
  obtain ⟨t, m, built, prepared, -, complete⟩ :=
    prepare_complete_iff "load.uint32".toList (by decide) wellFormed
  exact ⟨t, m, built, prepared, complete.mpr noLoad⟩

/-- A load of a constant's register is given a value, and is not marked as prepared. -/
theorem prepare_incomplete_load :
    WellFormed constantAndLoad [0, 1] ∧
      ∃ t m, build "load.uint32".toList constantAndLoad [0, 1] = .ok t ∧
        t.prepare (fresh constantAndLoad) = .ok m ∧ m.value 1 = some 1 ∧
        m.objects[1]?.map Op.isPrepared = some false ∧ ¬ Complete m [0, 1] := by
  have wellFormed : WellFormed constantAndLoad [0, 1] := by
    refine ⟨by decide, ?_⟩
    intro before p after target source split load
    obtain ⟨rfl, rfl⟩ := constantAndLoad_split split load
    decide
  refine ⟨wellFormed, _, _, rfl, rfl, rfl, rfl, ?_⟩
  intro complete
  obtain ⟨o, found, prepared, -⟩ := complete 1 (by simp)
  obtain rfl := Option.some.inj found
  cases prepared

end Completeness

end Amalgam.Templates
