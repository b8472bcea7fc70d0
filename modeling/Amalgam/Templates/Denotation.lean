/- Module: Amalgam/Templates/Denotation
   digest: What the values of a prepared template stand for, and that a well-formed template
   computes what its operations say, one after the other. -/

import Amalgam.Templates.Loads
import Mathlib.Data.List.Induction
import Mathlib.Data.List.Nodup

set_option autoImplicit false
set_option relaxedAutoImplicit false

namespace Amalgam.Templates

open Amalgam.Cxx (Str Fault)
open Amalgam.Machine

/-- What a value stands for: a constant, or a load through what another value stands for, or
through a null pointer. -/
inductive Tree where
  | constant (bits : BitVec 64)
  | load (pointer : Option Tree) (name : Str)

def Tree.Grounded : Tree → Prop
  | .constant _ => True
  | .load none _ => False
  | .load (some t) _ => t.Grounded

def Value.tree (earlier : List Tree) : Value → Tree
  | .constantInt bits => .constant bits
  | .load pointer name => .load (pointer.bind fun q => earlier[q]?) name

def trees (values : List Value) : List Tree := values.foldl (fun ts v => ts ++ [v.tree ts]) []

def Memory.tree (m : Memory) (p : OpPtr) : Option Tree := (m.value p).bind fun v =>
    (trees m.values)[v]?

/-- Give an operation its value: a load takes that of the last definition of its source in
the whole list, as far as there is one by then. -/
def assign (codes : List Opcode) (adds : List OpPtr) (env : OpPtr → Option Tree) (p : OpPtr) :
    OpPtr → Option Tree :=
  match codes[p]? with
  | some (.constantValue _ value) =>
      Function.update env p (some (.constant (BitVec.ofInt 64 value)))
  | some (.load target source) =>
      match definition codes source adds with
      | some q => Function.update env p (some (.load (env q) target))
      | none => env
  | none => env

/-- The registers after an operation, which reads and writes them by name. -/
def execute (codes : List Opcode) (registers : Str → Option Tree) (p : OpPtr) : Str → Option Tree :=
  match codes[p]? with
  | some (.constantValue target value) =>
      Function.update registers target (some (.constant (BitVec.ofInt 64 value)))
  | some (.load target source) =>
      Function.update registers target (some (.load (registers source) target))
  | none => registers

section Values

private theorem trees_concat (values : List Value) (v : Value) :
    trees (values ++ [v]) = trees values ++ [v.tree (trees values)] :=
  List.foldl_concat _ _ _ _

private theorem length_trees (values : List Value) : (trees values).length = values.length := by
  induction values using List.reverseRecOn with
  | nil => rfl
  | append_singleton values v ih =>
      rw [trees_concat, List.length_append, List.length_append, ih]
      rfl

variable {codes : List Opcode} {adds before : List OpPtr} {m : Memory} {t : Templ}

private theorem assign_tree (known : Prepared codes adds before m) {p : OpPtr} {o : Op}
    (h : m.objects[p]? = some o) (prepared : Bool) (v : Value) :
    (m.assign p o prepared v).tree = Function.update m.tree p (some (v.tree (trees m.values))) := by
  ext1 q
  have values : (m.assign p o prepared v).values = m.values ++ [v] := rfl
  rw [Memory.tree, values, trees_concat, assign_value h]
  by_cases same : q = p
  · subst same
    rw [if_pos rfl, Function.update_self, Option.bind_some, ← length_trees,
      List.getElem?_concat_length]
  · rw [if_neg same, Function.update_of_ne same, Memory.tree]
    cases value : m.value q with
    | none => rfl
    | some w =>
        have inside : w < (trees m.values).length := by
          rw [length_trees]
          exact known.bound q w value
        exact List.getElem?_append_left inside

end Values

section Preparation

variable {codes : List Opcode} {adds before : List OpPtr} {m : Memory} {t : Templ}

variable (map : ∀ r : Str, t.regMap[r]? = definition codes r adds)
  (valid : ∀ p ∈ adds, p < codes.length)

include map valid

private theorem next_tree (known : Prepared codes adds before m) {p : OpPtr}
    (inside : p < codes.length) {m' : Memory}
    (run : t.prepareNext m p = .ok m') : m'.tree = assign codes adds m.tree p := by
  obtain ⟨o, object, code⟩ := known.found inside
  rw [assign, code]
  cases opcode : o.code with
  | constantValue target value =>
      obtain ⟨r, prepared, ending⟩ := bind_ok_iff.mp run
      rw [prepareOp_constant object opcode] at prepared
      obtain rfl := Except.ok.inj prepared
      obtain rfl := Except.ok.inj ending
      exact assign_tree known object true _
  | load target source =>
      obtain ⟨r, prepared, ending⟩ := bind_ok_iff.mp run
      rw [prepareOp_load object opcode] at prepared
      cases defined : definition codes source adds with
      | none =>
          rw [load_unknown ((map source).trans defined)] at prepared
          obtain rfl := Except.ok.inj prepared
          obtain rfl := Except.ok.inj ending
          simp only [defined]
      | some q =>
          obtain ⟨found, x, objectX, -⟩ := known.source map valid defined
          rw [load_known found objectX] at prepared
          obtain rfl := Except.ok.inj prepared
          obtain rfl := Except.ok.inj ending
          simp only [defined]
          rw [assign_tree known object, Value.tree, ← value_object objectX]
          rfl

private theorem run_tree {l : List OpPtr} (inside : ∀ p ∈ l, p < codes.length) {m : Memory}
    (run : l.foldlM t.prepareNext (fresh codes) = .ok m) :
    m.tree = l.foldl (assign codes adds) fun _ => none := by
  induction l using List.reverseRecOn generalizing m with
  | nil =>
      obtain rfl := Except.ok.inj run
      ext1 p
      have unprepared : (fresh codes).value p = none := by
        rw [Memory.value, fresh, List.getElem?_map]
        cases codes[p]? <;> rfl
      rw [Memory.tree, unprepared]
      rfl
  | append_singleton l p ih =>
      obtain ⟨m', front, last⟩ := (run_concat l p _ m).mp run
      have insideFront : ∀ q ∈ l, q < codes.length := fun q hq =>
        inside q (List.mem_append_left [p] hq)
      obtain ⟨m'', front', known⟩ := prepared_run (t := t) map valid insideFront
      obtain rfl := Except.ok.inj (front.symm.trans front')
      have here : p < codes.length := inside p (List.mem_append_right l List.mem_cons_self)
      rw [next_tree map valid known here last, ih insideFront front, List.foldl_concat]

end Preparation

section Sequence

variable {codes : List Opcode} {adds before : List OpPtr}

private theorem target_of_defines {p : OpPtr} {r : Str} (h : defines codes r p = true) :
    codes[p]?.map Opcode.target = some r := by
  rw [defines] at h
  cases found : codes[p]? with
  | none => simp [found] at h
  | some code => simpa [found] using h

theorem WellFormed.unique (wellFormed : WellFormed codes adds) {p q : OpPtr} (hp : p ∈ adds)
    (hq : q ∈ adds) {r : Str} (definesP : defines codes r p = true)
    (definesQ : defines codes r q = true) : p = q :=
  List.inj_on_of_nodup_map wellFormed.once hp hq
    ((target_of_defines definesP).trans (target_of_defines definesQ).symm)

private theorem WellFormed.fresh_target (wellFormed : WellFormed codes adds) {p : OpPtr}
    {after : List OpPtr} (split : adds = before ++ p :: after) : p ∉ before := by
  have once := wellFormed.once
  rw [split, List.map_append, List.map_cons] at once
  intro member
  exact (List.nodup_append.mp once).2.2 _ (List.mem_map_of_mem member) _ List.mem_cons_self rfl

/-- What is known of the operations before some place: the registers hold what the operations
defining them have been assigned, and all of these have been assigned something grounded. -/
structure Sequential (codes : List Opcode) (before : List OpPtr) (env : OpPtr → Option Tree)
    (registers : Str → Option Tree) : Prop where
  held : ∀ r, registers r = (definition codes r before).bind env
  grounded : ∀ p ∈ before, ∃ tree, env p = some tree ∧ tree.Grounded

theorem Sequential.update {env : OpPtr → Option Tree} {registers : Str → Option Tree}
    (known : Sequential codes before env registers) {p : OpPtr} (new : p ∉ before) {code : Opcode}
    (found : codes[p]? = some code) {tree : Tree} (grounded : tree.Grounded) :
    Sequential codes (before ++ [p]) (Function.update env p (some tree))
      (Function.update registers code.target (some tree)) := by
  constructor
  · intro r
    have defined : defines codes r p = decide (code.target = r) := by
      rw [defines, found]
      rfl
    rw [definition_concat, defined]
    by_cases same : code.target = r
    · subst same
      rw [if_pos (decide_eq_true rfl), Option.bind_some, Function.update_self, Function.update_self]
    · rw [if_neg (by simpa using same), Function.update_of_ne (Ne.symm same), known.held]
      cases earlier : definition codes r before with
      | none => rfl
      | some q =>
          have other : q ≠ p := fun eq => new (eq ▸ (definition_some earlier).1)
          rw [Option.bind_some, Option.bind_some, Function.update_of_ne other]
  · intro q hq
    by_cases same : q = p
    · exact ⟨tree, by rw [same, Function.update_self], grounded⟩
    · rcases List.mem_append.mp hq with hq | hq
      · rw [Function.update_of_ne same]
        exact known.grounded q hq
      · exact absurd (List.mem_singleton.mp hq) same

/-- One operation of a well-formed template: the last definition of its source in the whole
list is the one before it. -/
theorem Sequential.next (wellFormed : WellFormed codes adds)
    (valid : ∀ p ∈ adds, p < codes.length) {env : OpPtr → Option Tree}
    {registers : Str → Option Tree} (known : Sequential codes before env registers) {p : OpPtr}
    {after : List OpPtr} (split : adds = before ++ p :: after) :
    Sequential codes (before ++ [p]) (assign codes adds env p) (execute codes registers p) := by
  have new := wellFormed.fresh_target split
  have inside : p < codes.length := valid p (by rw [split]; simp)
  have found : codes[p]? = some codes[p] := List.getElem?_eq_getElem inside
  rw [assign, execute, found]
  cases code : codes[p] with
  | constantValue target value =>
      rw [code] at found
      exact known.update new found trivial
  | load target source =>
      rw [code] at found
      have present := wellFormed.sources before p after target source split found
      obtain ⟨q, earlier⟩ := Option.ne_none_iff_exists'.mp present
      obtain ⟨memberQ, definesQ⟩ := definition_some earlier
      have somewhere : definition codes source adds ≠ none := by
        rw [split]
        exact definition_append present
      obtain ⟨q', whole⟩ := Option.ne_none_iff_exists'.mp somewhere
      obtain ⟨memberQ', definesQ'⟩ := definition_some whole
      have inAdds : q ∈ adds := by
        rw [split]
        exact List.mem_append_left _ memberQ
      obtain rfl := wellFormed.unique inAdds memberQ' definesQ definesQ'
      obtain ⟨tree, value, grounded⟩ := known.grounded q memberQ
      have read : registers source = some tree := by
        rw [known.held, earlier, Option.bind_some, value]
      simp only [whole, read, value]
      exact known.update new found grounded

private theorem sequential_run (wellFormed : WellFormed codes adds)
    (valid : ∀ p ∈ adds, p < codes.length) (after : List OpPtr) (split : adds = before ++ after) :
    Sequential codes before (before.foldl (assign codes adds) fun _ => none)
      (before.foldl (execute codes) fun _ => none) := by
  induction before using List.reverseRecOn generalizing after with
  | nil => exact ⟨fun _ => rfl, by simp⟩
  | append_singleton before p ih =>
      have split' : adds = before ++ p :: after := by simpa using split
      rw [List.foldl_concat, List.foldl_concat]
      exact (ih (p :: after) split').next wellFormed valid split'

/-- Preparing a well-formed template gives every operation the value that executing the
operations one after the other leaves in its register. No load goes through a null pointer. -/
theorem prepare_executes (name : Str) (valid : ∀ p ∈ adds, p < codes.length)
    (wellFormed : WellFormed codes adds) :
    ∃ t m, build name codes adds = .ok t ∧ t.prepare (fresh codes) = .ok m ∧
      ∀ p ∈ adds, ∃ code tree, codes[p]? = some code ∧ m.tree p = some tree ∧
        adds.foldl (execute codes) (fun _ => none) code.target = some tree ∧ tree.Grounded := by
  obtain ⟨t, built, ops, map⟩ := build_ok name valid
  obtain ⟨m, run, -⟩ := prepared_run (t := t) map valid valid
  have known := sequential_run wellFormed valid [] (List.append_nil adds).symm
  refine ⟨t, m, built, ?_, ?_⟩
  · rw [Templ.prepare, ops]
    exact run
  · intro p hp
    obtain ⟨tree, value, grounded⟩ := known.grounded p hp
    obtain ⟨code, found⟩ : ∃ code, codes[p]? = some code :=
      ⟨_, List.getElem?_eq_getElem (valid p hp)⟩
    have definesP : defines codes code.target p = true := by
      rw [defines, found]
      exact decide_eq_true rfl
    have own : definition codes code.target adds = some p := by
      have present : definition codes code.target adds ≠ none := by
        rw [definition, Ne, List.find?_eq_none]
        exact fun none => none p (List.mem_reverse.mpr hp) definesP
      obtain ⟨q, whole⟩ := Option.ne_none_iff_exists'.mp present
      obtain ⟨memberQ, definesQ⟩ := definition_some whole
      rw [whole, wellFormed.unique hp memberQ definesP definesQ]
    refine ⟨code, tree, found, ?_, ?_, grounded⟩
    · rw [run_tree map valid valid run]
      exact value
    · rw [known.held, own, Option.bind_some, value]

theorem prepare_executes_constantAndLoad :
    ∃ t m, build "load.uint32".toList constantAndLoad [0, 1] = .ok t ∧
      t.prepare (fresh constantAndLoad) = .ok m ∧
      m.tree 1 = some (.load (some (.constant 1)) "r1".toList) := by
  have wellFormed : WellFormed constantAndLoad [0, 1] := by
    refine ⟨by decide, ?_⟩
    intro before p after target source split load
    obtain ⟨rfl, rfl⟩ := constantAndLoad_split split load
    decide
  obtain ⟨t, m, built, prepared, executes⟩ :=
    prepare_executes "load.uint32".toList (by decide) wellFormed
  obtain ⟨code, tree, found, value, register, -⟩ := executes 1 (by decide)
  obtain rfl : code = .load "r1".toList "r0".toList := (Option.some.inj found).symm
  exact ⟨t, m, built, prepared, value.trans register.symm⟩

end Sequence

end Amalgam.Templates
