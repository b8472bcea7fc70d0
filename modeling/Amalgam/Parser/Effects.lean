/- Module: Amalgam/Parser/Effects
   digest: The verdict on a module of freshly built trees, and what it leaves in the tables of
   variables. -/

import Amalgam.Parser.Inference
import Amalgam.Parser.Parsed

set_option autoImplicit false
set_option relaxedAutoImplicit false

namespace Amalgam.Parser

open Amalgam.Cxx (Str Fault isDecimal)
open Verifier (Checked getType getIntType expressionTree expressionTrees isLvalue inferenceError)

/-- A tree as it is first built, whose literals all convert. -/
structure Ast.Built (t : Ast) : Prop where
  strict : t.Strict
  untyped : ∀ n ∈ t.nodes, n.semanticType = none
  converts : ∀ tok ∈ t.literals, ∃ s, getIntType tok = .ok s

def Ast.Initialises (t : Ast) : Prop := t.type = .op ∧ t.data = ":=".toList

instance (t : Ast) : Decidable t.Initialises := inferInstanceAs (Decidable (_ ∧ _))

/-- The variable declared by a tree, with its type: the root is `:=`, the first child is an
identifier, and the second one has a type. -/
def Ast.declares (t : Ast) : Option (Str × NumericTypeAnnotation) :=
  if t.Initialises then
    match t.children with
    | target :: r :: _ =>
        if target.type = .identifier then
          match getType r with
          | .ok (some s, _) => some (target.data, s)
          | _ => none
        else none
    | _ => none
  else none

namespace Method

/-- Every tree whose root is `:=` declares a variable. -/
def Passes (x : Method) : Prop :=
  ∀ t ∈ x.expressionList, t.Initialises → t.declares.isSome = true

/-- The variables declared by the trees are entered in the order of the trees, and no other
entry changes; the trees themselves are annotated at most. -/
structure Updated (x x' : Method) : Prop where
  name : x'.name = x.name
  vars : x'.vars = x.vars.insertMany (x.expressionList.filterMap Ast.declares)
  others : ∀ n, (∀ t ∈ x.expressionList, ∀ s, t.declares ≠ some (n, s)) →
    x'.vars[n]? = x.vars[n]?
  trees : x'.expressionList.map Ast.erase = x.expressionList.map Ast.erase

end Method

namespace Module

def Holds (m : Module) (name : Str) (x : Method) : Prop :=
  ∃ p : MethodPtr, m.methods[name]? = some (some p) ∧ m.objects[p]? = some x

/-- Every entry is a method under its own name, and all trees are freshly built. -/
structure FreshlyBuilt (m : Module) : Prop where
  entries : ∀ name e, m.methods[name]? = some e →
    ∃ (p : MethodPtr) (x : Method), e = some p ∧ m.objects[p]? = some x ∧ x.name = name
  trees : ∀ name x, m.Holds name x → ∀ t ∈ x.expressionList, t.Built

end Module

section Trees

theorem Ast.Built.operands {address : Nat} {data : Str} {l r : Ast}
    {semanticType : Option NumericTypeAnnotation}
    (built : (Ast.mk address .op data [l, r] semanticType).Built) : l.Built ∧ r.Built := by
  obtain ⟨strict, untyped, converts⟩ := built
  rw [Ast.forall_nodes_op] at untyped
  rw [Ast.literals_op, List.forall_mem_append] at converts
  cases strict with
  | op strictLeft strictRight =>
      exact ⟨⟨strictLeft, untyped.2.1, converts.1⟩, ⟨strictRight, untyped.2.2, converts.2⟩⟩

private theorem getType_built {t : Ast} (built : t.Built) : ∃ r, getType t = .ok r := by
  have strict := built.strict
  induction strict using Verifier.typing_induct with
  | typed address type data children s => exact ⟨_, Verifier.getType_typed _ _ _ _ s⟩
  | op address data l r _ _ ihl ihr =>
      obtain ⟨tl, left⟩ := ihl built.operands.1
      obtain ⟨tr, right⟩ := ihr built.operands.2
      rw [Verifier.getType_op]
      exact ⟨_, bind_ok_iff.mpr ⟨tl, left, bind_ok_iff.mpr ⟨tr, right, rfl⟩⟩⟩
  | literal address data =>
      obtain ⟨s, typed⟩ := built.converts data List.mem_cons_self
      rw [Verifier.getType_literal]
      exact ⟨_, bind_ok_iff.mpr ⟨s, typed, rfl⟩⟩
  | other address type data _ notOp notLiteral =>
      exact ⟨_, Verifier.getType_other address data notOp notLiteral⟩

theorem declares_other {t : Ast} (h : ¬ t.Initialises) : t.declares = none := if_neg h

private theorem declares_initialiser (address : Nat) (l r : Ast)
    (semanticType : Option NumericTypeAnnotation) :
    (Ast.mk address .op ":=".toList [l, r] semanticType).declares =
      if l.type = .identifier then
        match getType r with
        | .ok (some s, _) => some (l.data, s)
        | _ => none
      else none := if_pos ⟨rfl, rfl⟩

private theorem expressionTree_effect (m : Method) {t : Ast} (built : t.Built) :
    ∃ c, expressionTree m t = .ok c ∧
      (c.passed = true ↔ (t.Initialises → t.declares.isSome = true)) ∧
      c.method.vars = m.vars.insertMany t.declares.toList := by
  have strict := built.strict
  cases strict with
  | @leaf address type data semanticType other =>
      have noInit : ¬ (Ast.mk address type data [] semanticType).Initialises := fun h => other h.1
      rw [Verifier.expressionTree_leaf (e := .mk address type data [] semanticType) m other,
        declares_other noInit]
      exact ⟨_, rfl, iff_of_true rfl fun h => absurd h noInit, rfl⟩
  | @op address data l r semanticType _ _ =>
      obtain ⟨builtLeft, builtRight⟩ := built.operands
      obtain ⟨⟨a, r'⟩, right⟩ := getType_built builtRight
      by_cases isInit : data = ":=".toList
      · subst isInit
        rw [Verifier.expressionTree_initializer, declares_initialiser, right]
        by_cases target : l.type = .identifier
        · have lvalue : ¬ isLvalue l = false := by
            rw [Bool.not_eq_false, isLvalue_iff]
            exact target
          rw [if_neg lvalue, if_pos target]
          cases a with
          | none =>
              refine ⟨_, rfl, iff_of_false (by simp) ?_, rfl⟩
              intro passes
              exact Bool.false_ne_true (passes ⟨rfl, rfl⟩)
          | some s => exact ⟨_, rfl, iff_of_true rfl fun _ => rfl, rfl⟩
        · have noLvalue : isLvalue l = false := by
            rw [Bool.eq_false_iff, Ne, isLvalue_iff]
            exact target
          rw [if_pos noLvalue, if_neg target]
          refine ⟨_, rfl, iff_of_false (by simp) ?_, rfl⟩
          intro passes
          exact Bool.false_ne_true (passes ⟨rfl, rfl⟩)
      · have noInit : ¬ (Ast.mk address .op data [l, r] semanticType).Initialises :=
          fun h => isInit h.2
        obtain ⟨tl, left⟩ := getType_built builtLeft
        rw [Verifier.expressionTree_operands m address isInit, left, right,
          declares_other noInit]
        exact ⟨_, rfl, iff_of_true rfl fun h => absurd h noInit, rfl⟩

end Trees

section Loops

private theorem expressionTrees_effect (m : Method) {ts : List Ast} (built : ∀ t ∈ ts, t.Built) :
    ∃ c, expressionTrees m ts = .ok c ∧
      (c.passed = true ↔ ∀ t ∈ ts, t.Initialises → t.declares.isSome = true) ∧
      c.method.name = m.name ∧ c.method.vars = m.vars.insertMany (ts.filterMap Ast.declares) ∧
      c.checked.map Ast.erase = ts.map Ast.erase := by
  induction ts generalizing m with
  | nil => exact ⟨_, rfl, iff_of_true rfl (by simp), rfl, rfl, rfl⟩
  | cons t ts ih =>
      have builtFirst := built t List.mem_cons_self
      obtain ⟨first, check, passed, vars⟩ := expressionTree_effect m builtFirst
      obtain ⟨erased, name⟩ := Verifier.expressionTree_keeps builtFirst.strict check
      obtain ⟨rest, checks, passes, names, varsRest, erasedRest⟩ :=
        ih first.method fun u hu => built u (List.mem_cons_of_mem t hu)
      refine ⟨_, (Verifier.expressionTrees_cons m t ts _).mpr ⟨first, rest, check, checks, rfl⟩,
        ?_, ?_, ?_, ?_⟩
      · rw [Bool.and_eq_true, passed, passes, List.forall_mem_cons]
      · rw [names, name]
      · rw [varsRest, vars, ← Std.TreeMap.insertMany_append, List.filterMap_cons]
        cases t.declares with
        | none => rfl
        | some d => rfl
      · rw [List.map_cons, List.map_cons, erased, erasedRest]

private theorem method_effect {x : Method} (built : ∀ t ∈ x.expressionList, t.Built) :
    ∃ c, Verifier.method x = .ok c ∧ (c.passed = true ↔ x.Passes) ∧ x.Updated c.method := by
  obtain ⟨trees, checks, passes, name, vars, erased⟩ := expressionTrees_effect x built
  refine ⟨_, bind_ok_iff.mpr ⟨trees, checks, rfl⟩, passes, name, vars, ?_, erased⟩
  intro n unnamed
  show trees.method.vars[n]? = x.vars[n]?
  rw [vars]
  apply Std.TreeMap.getElem?_insertMany_list_of_contains_eq_false
  rw [Bool.eq_false_iff, Ne, List.contains_iff_mem]
  intro declared
  obtain ⟨d, member, rfl⟩ := List.mem_map.mp declared
  obtain ⟨t, ht, declares⟩ := List.mem_filterMap.mp member
  exact unnamed t ht d.2 declares

theorem deref_ok {m : Module} {p : MethodPtr} {x : Method} (object : m.objects[p]? = some x) :
    m.deref (some p) = .ok x := by
  rw [Module.deref]
  simp only [object]

private theorem methods_effect {m : Module} {entries : List (Str × Option MethodPtr)}
    (live : ∀ me ∈ entries, ∃ (p : MethodPtr) (x : Method), me.2 = some p ∧
      m.objects[p]? = some x ∧ ∀ t ∈ x.expressionList, t.Built)
    (distinct : (entries.map Prod.snd).Nodup) :
    ∃ passed m' printed, Verifier.methods m entries = .ok (passed, m', printed) ∧
      (passed = true ↔ ∀ (p : MethodPtr) (x : Method), some p ∈ entries.map Prod.snd →
        m.objects[p]? = some x → x.Passes) ∧
      m'.methods = m.methods ∧
      (∀ p : MethodPtr, some p ∉ entries.map Prod.snd → m'.objects[p]? = m.objects[p]?) ∧
      ∀ (p : MethodPtr) (x : Method), some p ∈ entries.map Prod.snd → m.objects[p]? = some x →
        ∃ x', m'.objects[p]? = some x' ∧ x.Updated x' := by
  induction entries generalizing m with
  | nil => exact ⟨true, m, [], rfl, by simp, rfl, fun _ _ => rfl, by simp⟩
  | cons me rest ih =>
      obtain ⟨name, e⟩ := me
      obtain ⟨p, x, rfl, object, built⟩ := live (name, e) List.mem_cons_self
      obtain ⟨fresh, distinctRest⟩ := List.nodup_cons.mp distinct
      obtain ⟨here, checked, passed, updated⟩ := method_effect built
      have elsewhere : ∀ q : MethodPtr, q ≠ p →
          (m.store (some p) here.method).objects[q]? = m.objects[q]? := by
        intro q other
        exact List.getElem?_set_ne other.symm
      have stored : (m.store (some p) here.method).objects[p]? = some here.method := by
        apply List.getElem?_set_self
        exact (List.getElem?_eq_some_iff.mp object).1
      have apart : ∀ q : MethodPtr, some q ∈ rest.map Prod.snd → q ≠ p := by
        rintro q member rfl
        exact fresh member
      have liveRest : ∀ me ∈ rest, ∃ (q : MethodPtr) (y : Method), me.2 = some q ∧
          (m.store (some p) here.method).objects[q]? = some y ∧
            ∀ t ∈ y.expressionList, t.Built := by
        intro me member
        obtain ⟨q, y, entry, objectY, builtY⟩ := live me (List.mem_cons_of_mem _ member)
        have other : q ≠ p := apart q (entry ▸ List.mem_map_of_mem member)
        exact ⟨q, y, entry, (elsewhere q other).trans objectY, builtY⟩
      obtain ⟨passedRest, m', printed, run, passes, methods, frame, updates⟩ :=
        ih liveRest distinctRest
      refine ⟨here.passed && passedRest, m', here.printed ++ printed, ?_, ?_, methods, ?_, ?_⟩
      · exact (Verifier.methods_cons m _ rest _).mpr
          ⟨x, here, _, deref_ok object, checked, run, rfl⟩
      · rw [Bool.and_eq_true, passed, passes]
        constructor
        · rintro ⟨first, others⟩ q y member objectY
          rcases List.mem_cons.mp member with same | member
          · obtain rfl : q = p := Option.some.inj same
            obtain rfl : x = y := Option.some.inj (object.symm.trans objectY)
            exact first
          · exact others q y member ((elsewhere q (apart q member)).trans objectY)
        · intro all
          refine ⟨all p x List.mem_cons_self object, ?_⟩
          intro q y member objectY
          rw [elsewhere q (apart q member)] at objectY
          exact all q y (List.mem_cons_of_mem _ member) objectY
      · intro q absent
        rw [List.map_cons, List.mem_cons, not_or] at absent
        have other : q ≠ p := fun same => absent.1 (congrArg some same)
        rw [frame q absent.2, elsewhere q other]
      · intro q y member objectY
        rcases List.mem_cons.mp member with same | member
        · obtain rfl : q = p := Option.some.inj same
          obtain rfl : x = y := Option.some.inj (object.symm.trans objectY)
          exact ⟨here.method, (frame q fresh).trans stored, updated⟩
        · exact updates q y member ((elsewhere q (apart q member)).trans objectY)

end Loops

section Modules

theorem Module.FreshlyBuilt.distinct {m : Module} (fresh : m.FreshlyBuilt) :
    (m.methods.toList.map Prod.snd).Nodup := by
  rw [List.Nodup, List.pairwise_map]
  apply Std.TreeMap.distinct_keys_toList.imp_of_mem
  intro a b memberA memberB different same
  obtain ⟨p, x, owned, object, name⟩ :=
    fresh.entries a.1 a.2 (Std.TreeMap.mem_toList_iff_getElem?_eq_some.mp memberA)
  obtain ⟨q, y, owned', object', name'⟩ :=
    fresh.entries b.1 b.2 (Std.TreeMap.mem_toList_iff_getElem?_eq_some.mp memberB)
  obtain rfl : p = q := Option.some.inj (owned.symm.trans (same.trans owned'))
  obtain rfl : x = y := Option.some.inj (object.symm.trans object')
  apply different
  rw [← name, ← name']
  exact Std.ReflCmp.compare_self

private theorem mem_pointers_iff (m : Module) (p : MethodPtr) :
    some p ∈ m.methods.toList.map Prod.snd ↔ ∃ name : Str, m.methods[name]? = some (some p) := by
  rw [List.mem_map]
  constructor
  · rintro ⟨⟨name, e⟩, member, rfl⟩
    exact ⟨name, Std.TreeMap.mem_toList_iff_getElem?_eq_some.mp member⟩
  · rintro ⟨name, entry⟩
    exact ⟨(name, some p), Std.TreeMap.mem_toList_iff_getElem?_eq_some.mpr entry, rfl⟩

/-- Verifying a module of freshly built trees returns true exactly when every tree with `:=`
at its root declares a variable. In either case each method's table is updated, in the order
of its trees, by exactly the variables these declare, and no other method changes. -/
theorem verify_effect {m : Module} (fresh : m.FreshlyBuilt) :
    ∃ passed m' printed, Verifier.verify m = .ok (passed, m', printed) ∧
      (passed = true ↔ ∀ name x, m.Holds name x → x.Passes) ∧
      m'.methods = m.methods ∧
      (∀ name x, m.Holds name x → ∃ x', m'.Holds name x' ∧ x.Updated x') ∧
      ∀ p : MethodPtr, (∀ name : Str, m.methods[name]? ≠ some (some p)) →
        m'.objects[p]? = m.objects[p]? := by
  have live : ∀ me ∈ m.methods.toList, ∃ (p : MethodPtr) (x : Method), me.2 = some p ∧
      m.objects[p]? = some x ∧ ∀ t ∈ x.expressionList, t.Built := by
    rintro ⟨name, e⟩ member
    have entry := Std.TreeMap.mem_toList_iff_getElem?_eq_some.mp member
    obtain ⟨p, x, rfl, object, -⟩ := fresh.entries name e entry
    exact ⟨p, x, rfl, object, fresh.trees name x ⟨p, entry, object⟩⟩
  obtain ⟨passed, m', printed, run, passes, methods, frame, updates⟩ :=
    methods_effect live fresh.distinct
  refine ⟨passed, m', printed, run, ?_, methods, ?_, ?_⟩
  · rw [passes]
    constructor
    · rintro all name x ⟨p, entry, object⟩
      exact all p x ((mem_pointers_iff m p).mpr ⟨name, entry⟩) object
    · intro all p x member object
      obtain ⟨name, entry⟩ := (mem_pointers_iff m p).mp member
      exact all name x ⟨p, entry, object⟩
  · rintro name x ⟨p, entry, object⟩
    obtain ⟨x', object', updated⟩ := updates p x ((mem_pointers_iff m p).mpr ⟨name, entry⟩) object
    refine ⟨x', ⟨p, ?_, object'⟩, updated⟩
    rw [methods]
    exact entry
  · intro p unregistered
    apply frame
    rw [mem_pointers_iff, not_exists]
    exact unregistered

theorem verify_effect_one :
    ∃ m' printed, Verifier.verify (mainModule (defaultMethod
        [.mk 1 .op ":=".toList [.fresh 0 .identifier ['x'], .fresh 2 .literalInt ['1']] none])) =
      .ok (true, m', printed) := by
  let tree : Ast :=
    .mk 1 .op ":=".toList [.fresh 0 .identifier ['x'], .fresh 2 .literalInt ['1']] none
  let only : Method := defaultMethod [tree]
  have entry : ∀ name e, (mainModule only).methods[name]? = some e →
      name = "__default__".toList ∧ e = some 0 := by
    intro name e found
    have member := Std.TreeMap.mem_toList_iff_getElem?_eq_some.mpr found
    rw [mainModule_methods, List.mem_singleton] at member
    exact Prod.mk.inj member
  have holds : ∀ name x, (mainModule only).Holds name x → x = only := by
    rintro name x ⟨p, found, object⟩
    obtain ⟨-, same⟩ := entry name (some p) found
    obtain rfl : p = 0 := Option.some.inj same
    exact (Option.some.inj object).symm
  have built : tree.Built := by
    refine ⟨.op (.leaf (by simp)) (.leaf (by simp)), ?_, ?_⟩
    · intro n hn
      rw [Ast.nodes_op] at hn
      simp only [Ast.fresh, Ast.nodes, Ast.nodesAll_nil, List.singleton_append, List.mem_cons,
        List.not_mem_nil, or_false] at hn
      rcases hn with rfl | rfl | rfl <;> rfl
    · intro tok ht
      obtain rfl : tok = ['1'] := List.mem_singleton.mp ht
      exact ⟨byteType, getIntType_one⟩
  have typed : getType (.fresh 2 .literalInt ['1']) =
      .ok (some byteType, .mk 2 .literalInt ['1'] [] (some byteType)) := by
    rw [Ast.fresh, Verifier.getType_literal, getIntType_one]
    rfl
  have fresh : (mainModule only).FreshlyBuilt := by
    constructor
    · intro name e found
      obtain ⟨rfl, rfl⟩ := entry name e found
      exact ⟨0, only, rfl, rfl, rfl⟩
    · intro name x held t ht
      rw [holds name x held] at ht
      obtain rfl : t = tree := List.mem_singleton.mp ht
      exact built
  obtain ⟨passed, m', printed, run, passes, -⟩ := verify_effect fresh
  have accepted : passed = true := by
    apply passes.mpr
    intro name x held t ht _
    rw [holds name x held] at ht
    obtain rfl : t = tree := List.mem_singleton.mp ht
    show tree.declares.isSome = true
    rw [declares_initialiser, typed]
    rfl
  rw [accepted] at run
  exact ⟨m', printed, run⟩

end Modules

end Amalgam.Parser
