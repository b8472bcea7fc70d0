/- Module: Amalgam/Parser/Messages
   digest: What the verifier prints about any module, and that verifying it again tells the
   same. -/

import Amalgam.Parser.Effects

set_option autoImplicit false
set_option relaxedAutoImplicit false

namespace Amalgam.Parser

open Amalgam.Cxx (Str Fault)
open Verifier (Checked getType expressionTree expressionTrees isLvalue inferenceError)

namespace Ast

/-- The tree passes: it declares a variable, or is no initialiser. -/
def passes (t : Ast) : Bool := !decide t.Initialises || t.declares.isSome

/-- What is printed about a tree: one line when it has a target, but no type for it. Without
a target it is rejected in silence. -/
def messages (t : Ast) : List Str :=
  if t.passes = false ∧ t.children.head?.any isLvalue = true then [inferenceError] else []

end Ast

namespace Method

/-- The same method, but for the way in which the table of variables is stored. -/
structure Same (x y : Method) : Prop where
  name : y.name = x.name
  trees : y.expressionList = x.expressionList
  vars : ∀ n : Str, y.vars[n]? = x.vars[n]?

def declareAll (x : Method) (ds : List (Str × NumericTypeAnnotation)) : Method :=
  { x with vars := x.vars.insertMany ds }

def shapes (x : Method) : List Ast := x.expressionList.map Ast.erase

/-- All trees pass. -/
def passes (x : Method) : Bool := x.expressionList.all Ast.passes

def messages (x : Method) : List Str := x.expressionList.flatMap Ast.messages

/-- The verdict on the method, and what is printed about it. -/
def tells (x : Method) : Bool × List Str := (x.passes, x.messages)

/-- Checking the method tells this about it, and changes nothing. -/
def Settled (x : Method) : Prop :=
  ∀ y, x.Same y → ∃ c, Verifier.method y = .ok c ∧ c.passed = x.passes ∧
    c.printed = x.messages ∧ x.Same c.method

theorem Same.refl (x : Method) : x.Same x := ⟨rfl, rfl, fun _ => rfl⟩

end Method

structure Module.Same (m m' : Module) : Prop where
  name : m'.name = m.name
  methods : m'.methods = m.methods
  nestedMethodStack : m'.nestedMethodStack = m.nestedMethodStack
  currentMethod : m'.currentMethod = m.currentMethod
  types : m'.types = m.types
  length : m'.objects.length = m.objects.length
  objects : ∀ (p : MethodPtr) (x : Method), m.objects[p]? = some x →
    ∃ y, m'.objects[p]? = some y ∧ x.Same y

def Module.trees (m : Module) : List Ast := m.objects.flatMap Method.expressionList

/-- Every node is in one place. A node in two places would be annotated in both at once. -/
def Module.Unshared (m : Module) : Prop := (m.trees.flatMap Ast.addresses).Nodup

section Trees

private theorem getType_keeps {t t' : Ast} {a : Option NumericTypeAnnotation}
    (run : getType t = .ok (a, t')) : t'.erase = t.erase := by
  induction t using Ast.induct generalizing a t' with
  | h address type data children semanticType ih =>
      cases semanticType with
      | some s =>
          obtain ⟨rfl, rfl⟩ := Prod.mk.inj (Except.ok.inj run)
          rfl
      | none =>
          cases type with
          | literalInt =>
              obtain ⟨s, -, ending⟩ := bind_ok_iff.mp run
              obtain ⟨rfl, rfl⟩ := Prod.mk.inj (Except.ok.inj ending)
              rfl
          | identifier =>
              obtain ⟨rfl, rfl⟩ := Prod.mk.inj (Except.ok.inj run)
              rfl
          | group =>
              obtain ⟨rfl, rfl⟩ := Prod.mk.inj (Except.ok.inj run)
              rfl
          | op =>
              match children with
              | [] => exact absurd run (by simp [getType])
              | [l] =>
                  obtain ⟨_, -, failed⟩ := bind_ok_iff.mp run
                  exact absurd failed (by simp)
              | l :: r :: cs =>
                  rw [Verifier.getType_op] at run
                  obtain ⟨left, runLeft, run⟩ := bind_ok_iff.mp run
                  obtain ⟨right, runRight, ending⟩ := bind_ok_iff.mp run
                  obtain ⟨rfl, rfl⟩ := Prod.mk.inj (Except.ok.inj ending)
                  have keptLeft := ih l List.mem_cons_self runLeft
                  have keptRight := ih r (List.mem_cons_of_mem l List.mem_cons_self) runRight
                  simp only [Ast.erase, Ast.eraseAll_cons, keptLeft, keptRight]

private theorem getType_again {t t' : Ast} {a : Option NumericTypeAnnotation}
    (run : getType t = .ok (a, t')) : getType t' = .ok (a, t') := by
  induction t using Ast.induct generalizing a t' with
  | h address type data children semanticType ih =>
      cases semanticType with
      | some s =>
          obtain ⟨rfl, rfl⟩ := Prod.mk.inj (Except.ok.inj run)
          rfl
      | none =>
          cases type with
          | literalInt =>
              obtain ⟨s, -, ending⟩ := bind_ok_iff.mp run
              obtain ⟨rfl, rfl⟩ := Prod.mk.inj (Except.ok.inj ending)
              rfl
          | identifier =>
              obtain ⟨rfl, rfl⟩ := Prod.mk.inj (Except.ok.inj run)
              exact run
          | group =>
              obtain ⟨rfl, rfl⟩ := Prod.mk.inj (Except.ok.inj run)
              exact run
          | op =>
              match children with
              | [] => exact absurd run (by simp [getType])
              | [l] =>
                  obtain ⟨_, -, failed⟩ := bind_ok_iff.mp run
                  exact absurd failed (by simp)
              | l :: r :: cs =>
                  rw [Verifier.getType_op] at run
                  obtain ⟨left, runLeft, run⟩ := bind_ok_iff.mp run
                  obtain ⟨right, runRight, ending⟩ := bind_ok_iff.mp run
                  obtain ⟨rfl, rfl⟩ := Prod.mk.inj (Except.ok.inj ending)
                  have againLeft := ih l List.mem_cons_self runLeft
                  have againRight := ih r (List.mem_cons_of_mem l List.mem_cons_self) runRight
                  rw [Verifier.getType_op, againLeft, againRight]
                  rfl

/-- What a check that returns can do. -/
inductive Checks (m : Method) : Ast → Checked Ast → Prop
  | leaf {address : Nat} {type : NodeType} {data : Str} {cs : List Ast}
      {s : Option NumericTypeAnnotation} : type ≠ .op →
      Checks m (.mk address type data cs s) ⟨true, m, .mk address type data cs s, []⟩
  | operands {address : Nat} {data : Str} {l r l' r' : Ast} {cs : List Ast}
      {s a b : Option NumericTypeAnnotation} : data ≠ ":=".toList → getType l = .ok (a, l') →
      getType r = .ok (b, r') →
      Checks m (.mk address .op data (l :: r :: cs) s)
        ⟨true, m, .mk address .op data (l' :: r' :: cs) s, []⟩
  | targetless {address : Nat} {cs : List Ast} {s : Option NumericTypeAnnotation} :
      cs.head?.any isLvalue = false →
      Checks m (.mk address .op ":=".toList cs s) ⟨false, m, .mk address .op ":=".toList cs s, []⟩
  | untyped {address : Nat} {target r r' : Ast} {cs : List Ast}
      {s : Option NumericTypeAnnotation} : isLvalue target = true → getType r = .ok (none, r') →
      Checks m (.mk address .op ":=".toList (target :: r :: cs) s)
        ⟨false, m, .mk address .op ":=".toList (target :: r' :: cs) s, [inferenceError]⟩
  | declared {address : Nat} {target r r' : Ast} {cs : List Ast}
      {s : Option NumericTypeAnnotation} {u : NumericTypeAnnotation} : isLvalue target = true →
      getType r = .ok (some u, r') →
      Checks m (.mk address .op ":=".toList (target :: r :: cs) s)
        ⟨true, m.addVariable target.data u,
          .mk address .op ":=".toList (target.annotate u :: r' :: cs) s, []⟩

private theorem expressionTree_init (m : Method) (address : Nat) (cs : List Ast)
    (s : Option NumericTypeAnnotation) :
    expressionTree m (.mk address .op ":=".toList cs s) =
      Verifier.initializer m (.mk address .op ":=".toList cs s) := rfl

private theorem expressionTree_op (m : Method) (address : Nat) {data : Str}
    (other : data ≠ ":=".toList) (cs : List Ast) (s : Option NumericTypeAnnotation) :
    expressionTree m (.mk address .op data cs s) =
      Verifier.operands m (.mk address .op data cs s) :=
  (if_pos rfl).trans (if_neg other)

private theorem expressionTree_checks {m : Method} {t : Ast} {c : Checked Ast}
    (run : expressionTree m t = .ok c) : Checks m t c := by
  obtain ⟨address, type, data, children, s⟩ := t
  by_cases op : type = .op
  · subst op
    by_cases isInit : data = ":=".toList
    · subst isInit
      rw [expressionTree_init] at run
      match children with
      | [] =>
          obtain rfl := Except.ok.inj run
          exact .targetless rfl
      | target :: rest =>
          by_cases lvalue : isLvalue target = false
          · obtain rfl := Except.ok.inj ((if_pos lvalue).symm.trans run)
            exact .targetless lvalue
          · replace run := (if_neg lvalue).symm.trans run
            rw [Bool.not_eq_false] at lvalue
            match rest with
            | r :: cs =>
                obtain ⟨⟨a, r'⟩, typed, ending⟩ := bind_ok_iff.mp run
                cases a with
                | none =>
                    obtain rfl := Except.ok.inj ending
                    exact .untyped lvalue typed
                | some u =>
                    obtain rfl := Except.ok.inj ending
                    exact .declared lvalue typed
    · rw [expressionTree_op m address isInit] at run
      match children with
      | [l] =>
          obtain ⟨_, -, failed⟩ := bind_ok_iff.mp run
          exact absurd failed (by simp)
      | l :: r :: cs =>
          obtain ⟨⟨a, l'⟩, left, run⟩ := bind_ok_iff.mp run
          obtain ⟨⟨b, r'⟩, right, ending⟩ := bind_ok_iff.mp run
          obtain rfl := Except.ok.inj ending
          exact .operands isInit left right
  · obtain rfl := Except.ok.inj ((if_neg op).symm.trans run)
    exact .leaf op

theorem Checks.run {m : Method} {t : Ast} {c : Checked Ast} (checks : Checks m t c) :
    expressionTree m t = .ok c := by
  cases checks with
  | leaf other => exact if_neg other
  | operands other left right =>
      rw [expressionTree_op m _ other]
      exact bind_ok_iff.mpr ⟨_, left, bind_ok_iff.mpr ⟨_, right, rfl⟩⟩
  | @targetless address cs s none =>
      cases cs with
      | nil => rfl
      | cons target rest => exact if_pos none
  | untyped lvalue typed =>
      rw [expressionTree_init]
      exact (if_neg (by rw [lvalue]; simp)).trans (bind_ok_iff.mpr ⟨_, typed, rfl⟩)
  | declared lvalue typed =>
      rw [expressionTree_init]
      exact (if_neg (by rw [lvalue]; simp)).trans (bind_ok_iff.mpr ⟨_, typed, rfl⟩)

private theorem passes_initialiser {t : Ast} (isInit : t.Initialises) :
    t.passes = t.declares.isSome := by
  rw [Ast.passes, decide_eq_true isInit]
  rfl

private theorem passes_other {t : Ast} (other : ¬ t.Initialises) : t.passes = true := by
  rw [Ast.passes, decide_eq_false other]
  rfl

theorem messages_passed {t : Ast} (passed : t.passes = true) : t.messages = [] := by
  apply if_neg
  rw [passed]
  simp

private theorem messages_failed {t : Ast} (failed : t.passes = false) :
    t.messages = if t.children.head?.any isLvalue = true then [inferenceError] else [] := by
  simp only [Ast.messages, failed, true_and]

private theorem declares_target {address : Nat} {target r : Ast} {cs : List Ast}
    {semanticType : Option NumericTypeAnnotation} (lvalue : isLvalue target = true)
    {a : Option NumericTypeAnnotation} {r' : Ast} (run : getType r = .ok (a, r')) :
    (Ast.mk address .op ":=".toList (target :: r :: cs) semanticType).declares =
      a.map fun s => (target.data, s) := by
  have isInit : (Ast.mk address .op ":=".toList (target :: r :: cs) semanticType).Initialises :=
    ⟨rfl, rfl⟩
  unfold Ast.declares
  rw [if_pos isInit]
  simp only [Ast.children, if_pos ((isLvalue_iff target).mp lvalue), run]
  cases a with
  | none => rfl
  | some s => rfl

private theorem declares_targetless {address : Nat} {cs : List Ast}
    {s : Option NumericTypeAnnotation} (none : cs.head?.any isLvalue = false) :
    (Ast.mk address .op ":=".toList cs s).declares = .none := by
  have isInit : (Ast.mk address .op ":=".toList cs s).Initialises := ⟨rfl, rfl⟩
  unfold Ast.declares
  rw [if_pos isInit]
  match cs with
  | [] => rfl
  | [_] => rfl
  | target :: _ :: _ =>
      have notTarget : target.type ≠ .identifier := by
        rw [Ne, ← isLvalue_iff, Bool.not_eq_true]
        exact none
      exact if_neg notTarget

/-- What a check tells, and what it enters, is read off the tree. -/
theorem Checks.tells {m : Method} {t : Ast} {c : Checked Ast} (checks : Checks m t c) :
    c.passed = t.passes ∧ c.printed = t.messages ∧
      c.method = m.declareAll t.declares.toList := by
  have silent : ∀ {t : Ast}, ¬ t.Initialises → true = t.passes ∧ [] = t.messages ∧
      m = m.declareAll t.declares.toList := by
    intro t other
    have passed := passes_other other
    rw [messages_passed passed, declares_other other]
    exact ⟨passed.symm, rfl, rfl⟩
  cases checks with
  | leaf other => exact silent fun h => other h.1
  | operands other => exact silent fun h => other h.2
  | @targetless address cs s none =>
      have declares := @declares_targetless address cs s none
      have failed := @passes_initialiser (.mk address .op ":=".toList cs s) ⟨rfl, rfl⟩
      rw [declares] at failed
      rw [failed, messages_failed failed, declares]
      exact ⟨rfl, (if_neg (by rw [Ast.children, none]; simp)).symm, rfl⟩
  | @untyped address target r r' cs s lvalue typed =>
      have declares := @declares_target address target r cs s lvalue _ _ typed
      have failed := @passes_initialiser (.mk address .op ":=".toList (target :: r :: cs) s)
        ⟨rfl, rfl⟩
      rw [declares] at failed
      rw [failed, messages_failed failed, declares]
      exact ⟨rfl, (if_pos lvalue).symm, rfl⟩
  | @declared address target r r' cs s u lvalue typed =>
      have declares := @declares_target address target r cs s lvalue _ _ typed
      have passed := @passes_initialiser (.mk address .op ":=".toList (target :: r :: cs) s)
        ⟨rfl, rfl⟩
      rw [declares] at passed
      rw [passed, messages_passed passed, declares]
      exact ⟨rfl, rfl, rfl⟩

theorem Checks.again {m : Method} {t : Ast} {c : Checked Ast} (checks : Checks m t c) :
    c.checked.declares = t.declares ∧ c.checked.passes = t.passes ∧
      c.checked.messages = t.messages ∧
      ∀ m', Checks m' c.checked
        ⟨t.passes, m'.declareAll t.declares.toList, c.checked, t.messages⟩ := by
  have settled : c.checked.declares = t.declares ∧ ∀ m', ∃ c', Checks m' c.checked c' ∧
      c'.checked = c.checked ∧ c'.passed = c.passed ∧ c'.printed = c.printed := by
    cases checks with
    | leaf other => exact ⟨rfl, fun m' => ⟨_, .leaf other, rfl, rfl, rfl⟩⟩
    | @operands address data l r l' r' cs s a b other left right =>
        have noInit : ∀ t : Ast, t.data = data → ¬ t.Initialises := fun t same h =>
          other (same.symm.trans h.2)
        refine ⟨?_, fun m' =>
          ⟨_, .operands other (getType_again left) (getType_again right), rfl, rfl, rfl⟩⟩
        rw [declares_other (noInit _ rfl), declares_other (noInit _ rfl)]
    | targetless none => exact ⟨rfl, fun m' => ⟨_, .targetless none, rfl, rfl, rfl⟩⟩
    | untyped lvalue typed =>
        refine ⟨?_, fun m' => ⟨_, .untyped lvalue (getType_again typed), rfl, rfl, rfl⟩⟩
        rw [declares_target lvalue typed, declares_target lvalue (getType_again typed)]
    | @declared address target r r' cs s u lvalue typed =>
        have annotated : isLvalue (target.annotate u) = true := by
          cases target
          exact lvalue
        have named : (target.annotate u).data = target.data := by
          cases target
          rfl
        have twice : (target.annotate u).annotate u = target.annotate u := by
          cases target
          rfl
        refine ⟨?_, fun m' => ⟨_, .declared annotated (getType_again typed), ?_, rfl, rfl⟩⟩
        · rw [declares_target lvalue typed, declares_target annotated (getType_again typed), named]
        · rw [twice]
  obtain ⟨declares, again⟩ := settled
  obtain ⟨passed, printed, -⟩ := checks.tells
  obtain ⟨c', checks', checked', passed', printed'⟩ := again m
  obtain ⟨passes', messages', -⟩ := checks'.tells
  refine ⟨declares, ?_, ?_, ?_⟩
  · rw [← passes', passed', passed]
  · rw [← messages', printed', printed]
  · intro m'
    obtain ⟨⟨passed', method', checked', printed'⟩, checks', rfl, rfl, rfl⟩ := again m'
    obtain ⟨-, -, rfl⟩ := checks'.tells
    rw [← passed, ← printed, ← declares]
    exact checks'

private theorem Checks.keeps {m : Method} {t : Ast} {c : Checked Ast} (checks : Checks m t c) :
    c.checked.erase = t.erase := by
  cases checks with
  | leaf other => rfl
  | operands other left right =>
      simp only [Ast.erase, Ast.eraseAll_cons, getType_keeps left, getType_keeps right]
  | targetless none => rfl
  | untyped lvalue typed => simp only [Ast.erase, Ast.eraseAll_cons, getType_keeps typed]
  | declared lvalue typed =>
      simp only [Ast.erase, Ast.eraseAll_cons, Ast.erase_annotate, getType_keeps typed]

end Trees

section Methods

private theorem declareAll_append (x : Method) (ds ds' : List (Str × NumericTypeAnnotation)) :
    (x.declareAll ds).declareAll ds' = x.declareAll (ds ++ ds') := by
  simp only [Method.declareAll, Std.TreeMap.insertMany_append]

private theorem expressionTrees_again {m : Method} {ts : List Ast} {c : Checked (List Ast)}
    (run : expressionTrees m ts = .ok c) :
    c.passed = ts.all Ast.passes ∧ c.printed = ts.flatMap Ast.messages ∧
      c.method = m.declareAll (ts.filterMap Ast.declares) ∧
      c.checked.all Ast.passes = ts.all Ast.passes ∧
      c.checked.flatMap Ast.messages = ts.flatMap Ast.messages ∧
      ∀ m', expressionTrees m' c.checked = .ok ⟨ts.all Ast.passes,
        m'.declareAll (ts.filterMap Ast.declares), c.checked, ts.flatMap Ast.messages⟩ := by
  induction ts generalizing m c with
  | nil =>
      obtain rfl := Except.ok.inj run
      exact ⟨rfl, rfl, rfl, rfl, rfl, fun m' => rfl⟩
  | cons t ts ih =>
      obtain ⟨first, others, here, later, rfl⟩ := (Verifier.expressionTrees_cons m t ts c).mp run
      have checks := expressionTree_checks here
      obtain ⟨passed, printed, method⟩ := checks.tells
      obtain ⟨declares, passes, messages, again⟩ := checks.again
      obtain ⟨passedLater, printedLater, methodLater, passesLater, messagesLater, againLater⟩ :=
        ih later
      have entered : ∀ m' : Method, (m'.declareAll t.declares.toList).declareAll
          (ts.filterMap Ast.declares) = m'.declareAll ((t :: ts).filterMap Ast.declares) := by
        intro m'
        rw [declareAll_append, List.filterMap_cons]
        cases t.declares with
        | none => rfl
        | some d => rfl
      refine ⟨?_, ?_, ?_, ?_, ?_, ?_⟩
      · rw [List.all_cons, ← passed, ← passedLater]
      · rw [List.flatMap_cons, ← printed, ← printedLater]
      · rw [methodLater, method, entered]
      · rw [List.all_cons, List.all_cons, passes, passesLater]
      · rw [List.flatMap_cons, List.flatMap_cons, messages, messagesLater]
      · intro m'
        refine (Verifier.expressionTrees_cons _ _ _ _).mpr ⟨_, _, (again m').run, againLater _, ?_⟩
        rw [entered, List.all_cons, List.flatMap_cons]

private theorem expressionTrees_keeps {m : Method} {ts : List Ast} {c : Checked (List Ast)}
    (run : expressionTrees m ts = .ok c) : c.checked.map Ast.erase = ts.map Ast.erase := by
  induction ts generalizing m c with
  | nil =>
      obtain rfl := Except.ok.inj run
      rfl
  | cons t ts ih =>
      obtain ⟨first, others, here, later, rfl⟩ := (Verifier.expressionTrees_cons m t ts c).mp run
      rw [List.map_cons, List.map_cons, (expressionTree_checks here).keeps, ih later]

private theorem method_keeps {x : Method} {c : Checked Unit} (run : Verifier.method x = .ok c) :
    c.method.shapes = x.shapes := by
  obtain ⟨trees, checked, ending⟩ := bind_ok_iff.mp run
  obtain rfl := Except.ok.inj ending
  exact expressionTrees_keeps checked

private theorem declareAll_entered {x y : Method} {ds : List (Str × NumericTypeAnnotation)}
    (same : (x.declareAll ds).Same y) : (x.declareAll ds).Same (y.declareAll ds) := by
  refine ⟨same.name, same.trees, ?_⟩
  intro n
  have before := same.vars n
  simp only [Method.declareAll, Std.TreeMap.getElem?_insertMany_list] at before ⊢
  cases last : ds.findSomeRev? fun d => if compare d.1 n = .eq then some d.2 else none with
  | none =>
      rw [last, Option.none_or] at before
      rw [Option.none_or, Option.none_or]
      exact before
  | some s => rfl

private theorem method_again {x : Method} {c : Checked Unit} (run : Verifier.method x = .ok c) :
    c.passed = x.passes ∧ c.printed = x.messages ∧ c.method.passes = x.passes ∧
      c.method.messages = x.messages ∧ c.method.Settled := by
  obtain ⟨trees, checked, ending⟩ := bind_ok_iff.mp run
  obtain rfl := Except.ok.inj ending
  obtain ⟨passed, printed, method, passes, messages, again⟩ := expressionTrees_again checked
  refine ⟨passed, printed, passes, messages, ?_⟩
  intro y same
  have kept : y.expressionList = trees.checked := same.trees
  have checkedAgain := again y
  rw [← kept] at checkedAgain
  refine ⟨_, bind_ok_iff.mpr ⟨_, checkedAgain, rfl⟩, passes.symm, messages.symm, ?_⟩
  rw [method] at same ⊢
  have entered : (x.declareAll (x.expressionList.filterMap Ast.declares)).Same
      { y with expressionList := x.expressionList } := ⟨same.name, rfl, same.vars⟩
  exact ⟨same.name, kept, (declareAll_entered entered).vars⟩

end Methods

section Modules

private theorem deref_some {m : Module} {e : Option MethodPtr} {x : Method}
    (found : m.deref e = .ok x) :
    ∃ p, e = some p ∧ m.objects[p]? = some x := by
  cases e with
  | none => exact absurd found (by simp [Module.deref])
  | some p =>
      cases object : m.objects[p]? with
      | none => exact absurd found (by simp [Module.deref, object])
      | some y =>
          obtain rfl := Except.ok.inj ((deref_ok object).symm.trans found)
          exact ⟨p, rfl, object⟩

theorem methods_cons {m m' : Module} {me : Str × Option MethodPtr}
    {rest : List (Str × Option MethodPtr)} {passed : Bool} {out : List Str} :
    Verifier.methods m (me :: rest) = .ok (passed, m', out) ↔
      ∃ p x here others more, me.2 = some p ∧ m.objects[p]? = some x ∧
        Verifier.method x = .ok here ∧
        Verifier.methods (m.store (some p) here.method) rest = .ok (others, m', more) ∧
        passed = (here.passed && others) ∧ out = here.printed ++ more := by
  constructor
  · intro run
    obtain ⟨x, here, ⟨others, m'', more⟩, found, checked, later, ending⟩ :=
      (Verifier.methods_cons m me rest _).mp run
    obtain ⟨p, owned, object⟩ := deref_some found
    rw [owned] at later
    obtain ⟨rfl, rfl, rfl⟩ := ending
    exact ⟨p, x, here, others, more, owned, object, checked, later, rfl, rfl⟩
  · rintro ⟨p, x, here, others, more, owned, object, checked, later, rfl, rfl⟩
    have found : m.deref me.2 = .ok x := by
      rw [owned]
      exact deref_ok object
    rw [← owned] at later
    exact (Verifier.methods_cons m me rest _).mpr ⟨x, here, _, found, checked, later, rfl⟩

def Module.treesBehind (m : Module) (entries : List (Str × Option MethodPtr)) : List Ast :=
  entries.flatMap fun me =>
    match m.deref me.2 with
    | .ok x => x.expressionList
    | .error _ => []

private theorem treesBehind_cons {m : Module} {me : Str × Option MethodPtr}
    (rest : List (Str × Option MethodPtr)) {p : MethodPtr} {x : Method} (owned : me.2 = some p)
    (object : m.objects[p]? = some x) :
    m.treesBehind (me :: rest) = x.expressionList ++ m.treesBehind rest := by
  simp only [Module.treesBehind, List.flatMap_cons, owned, deref_ok object]

def Module.Alike (m m' : Module) : Prop :=
  ∀ p : MethodPtr, m'.objects[p]?.map Method.tells = m.objects[p]?.map Method.tells

private theorem alike_treesBehind {m m' : Module} (alike : m.Alike m')
    (entries : List (Str × Option MethodPtr)) :
    (m'.treesBehind entries).all Ast.passes = (m.treesBehind entries).all Ast.passes ∧
      (m'.treesBehind entries).flatMap Ast.messages =
        (m.treesBehind entries).flatMap Ast.messages := by
  induction entries with
  | nil => exact ⟨rfl, rfl⟩
  | cons me rest ih =>
      obtain ⟨name, e⟩ := me
      simp only [Module.treesBehind, List.flatMap_cons, List.all_append, List.flatMap_append]
        at ih ⊢
      rw [ih.1, ih.2]
      cases e with
      | none => exact ⟨rfl, rfl⟩
      | some p =>
          have tells := alike p
          simp only [Module.deref]
          cases object : m.objects[p]? with
          | none =>
              rw [object, Option.map_none, Option.map_eq_none_iff] at tells
              rw [tells]
              exact ⟨rfl, rfl⟩
          | some x =>
              rw [object, Option.map_some, Option.map_eq_some_iff] at tells
              obtain ⟨y, object', same⟩ := tells
              obtain ⟨passes, messages⟩ := Prod.mk.inj same
              rw [object']
              exact ⟨congrArg (· && _) passes, congrArg (· ++ _) messages⟩

private theorem stored_object {m : Module} {p : MethodPtr} {x : Method}
    (object : m.objects[p]? = some x) (y : Method) (q : MethodPtr) :
    (m.store (some p) y).objects[q]? = if p = q then some y else m.objects[q]? := by
  rw [Module.store, List.getElem?_set]
  by_cases same : p = q
  · subst same
    rw [if_pos rfl, if_pos rfl, if_pos (List.getElem?_eq_some_iff.mp object).1]
  · rw [if_neg same, if_neg same]

/-- The loop over the entries tells what the trees behind them tell, in order, also where
several entries have one object. It leaves the object of every entry settled. -/
theorem methods_again {m m' : Module} {entries : List (Str × Option MethodPtr)} {passed : Bool}
    {out : List Str} (run : Verifier.methods m entries = .ok (passed, m', out)) :
    passed = (m.treesBehind entries).all Ast.passes ∧
      out = (m.treesBehind entries).flatMap Ast.messages ∧ m'.methods = m.methods ∧
      m.Alike m' ∧
      (∀ (p : MethodPtr) (x : Method), m.objects[p]? = some x → x.Settled →
        ∃ x', m'.objects[p]? = some x' ∧ x'.Settled) ∧
      ∀ me ∈ entries, ∃ (p : MethodPtr) (x : Method), me.2 = some p ∧
        m'.objects[p]? = some x ∧ x.Settled := by
  induction entries generalizing m passed out with
  | nil =>
      obtain ⟨rfl, rfl, rfl⟩ := Except.ok.inj run
      exact ⟨rfl, rfl, rfl, fun _ => rfl, fun p x object settled => ⟨x, object, settled⟩,
        fun me hme => absurd hme (by simp)⟩
  | cons me rest ih =>
      obtain ⟨p, x, here, others, more, owned, object, checked, later, rfl, rfl⟩ :=
        methods_cons.mp run
      obtain ⟨passedHere, printedHere, passes, messages, settledHere⟩ := method_again checked
      obtain ⟨passedLater, printedLater, methods, alikeLater, keeps, settledLater⟩ := ih later
      have stored := stored_object object here.method
      have alike : m.Alike (m.store (some p) here.method) := by
        intro q
        rw [stored]
        by_cases same : p = q
        · subst same
          rw [if_pos rfl, object, Option.map_some, Option.map_some, Method.tells, Method.tells,
            passes, messages]
        · rw [if_neg same]
      obtain ⟨allRest, messagesRest⟩ := alike_treesBehind alike rest
      refine ⟨?_, ?_, methods, ?_, ?_, ?_⟩
      · rw [treesBehind_cons rest owned object, List.all_append, passedHere, passedLater, allRest]
        rfl
      · rw [treesBehind_cons rest owned object, List.flatMap_append, printedHere, printedLater,
          messagesRest]
        rfl
      · intro q
        rw [alikeLater q, alike q]
      · intro q y objectY settled
        by_cases same : p = q
        · subst same
          exact keeps p here.method (by rw [stored, if_pos rfl]) settledHere
        · exact keeps q y (by rw [stored, if_neg same, objectY]) settled
      · intro me' member
        rcases List.mem_cons.mp member with rfl | member
        · obtain ⟨x', object', settled'⟩ :=
            keeps p here.method (by rw [stored, if_pos rfl]) settledHere
          exact ⟨p, x', owned, object', settled'⟩
        · exact settledLater me' member

private theorem addresses_erased (ts : List Ast) :
    (ts.map Ast.erase).flatMap Ast.addresses = ts.flatMap Ast.addresses := by
  have single : ∀ t : Ast, t.erase.addresses = t.addresses := by
    intro t
    rw [Ast.addresses, Ast.nodes_erase, List.map_map]
    exact List.map_congr_left fun n _ => n.erase_address
  rw [List.flatMap_map]
  exact List.flatMap_congr fun t _ => single t

private theorem methods_keeps {m m' : Module} {entries : List (Str × Option MethodPtr)}
    {passed : Bool} {out : List Str} (run : Verifier.methods m entries = .ok (passed, m', out)) :
    m'.trees.map Ast.erase = m.trees.map Ast.erase := by
  induction entries generalizing m passed out with
  | nil =>
      obtain ⟨rfl, rfl, rfl⟩ := Except.ok.inj run
      rfl
  | cons me rest ih =>
      obtain ⟨p, x, here, others, more, owned, object, checked, later, rfl, rfl⟩ :=
        methods_cons.mp run
      obtain ⟨inside, found⟩ := List.getElem?_eq_some_iff.mp object
      have shapes : (m.store (some p) here.method).objects.map Method.shapes =
          m.objects.map Method.shapes := by
        rw [Module.store, List.map_set, method_keeps checked, ← found, ← List.map_set,
          List.set_getElem_self]
      rw [ih later, Module.trees, Module.trees, List.map_flatMap, List.map_flatMap]
      exact congrArg List.flatten shapes

private theorem unshared_verified {m m' : Module} (unshared : m.Unshared) {passed : Bool}
    {out : List Str} (run : Verifier.verify m = .ok (passed, m', out)) : m'.Unshared := by
  rw [Module.Unshared, ← addresses_erased, methods_keeps run, addresses_erased]
  exact unshared

theorem Module.Same.refl (m : Module) : m.Same m :=
  ⟨rfl, rfl, rfl, rfl, rfl, rfl, fun _ x object => ⟨x, object, Method.Same.refl x⟩⟩

private theorem methods_settled {m m' : Module} (same : m.Same m')
    {entries : List (Str × Option MethodPtr)}
    (settled : ∀ me ∈ entries, ∃ (p : MethodPtr) (x : Method), me.2 = some p ∧
      m.objects[p]? = some x ∧ x.Settled) :
    ∃ m'', Verifier.methods m' entries = .ok ((m.treesBehind entries).all Ast.passes, m'',
      (m.treesBehind entries).flatMap Ast.messages) ∧ m.Same m'' := by
  induction entries generalizing m' with
  | nil => exact ⟨m', rfl, same⟩
  | cons me rest ih =>
      obtain ⟨p, x, owned, object, settledHere⟩ := settled me List.mem_cons_self
      obtain ⟨y, object', sameHere⟩ := same.objects p x object
      obtain ⟨here, checked, passed, printed, kept⟩ := settledHere y sameHere
      have stored := stored_object object' here.method
      have sameNext : m.Same (m'.store (some p) here.method) := by
        refine ⟨same.name, same.methods, same.nestedMethodStack, same.currentMethod, same.types,
          List.length_set.trans same.length, ?_⟩
        intro q z objectZ
        rw [stored]
        by_cases eq : p = q
        · subst eq
          obtain rfl := Option.some.inj (object.symm.trans objectZ)
          exact ⟨here.method, if_pos rfl, kept⟩
        · rw [if_neg eq]
          exact same.objects q z objectZ
      obtain ⟨m'', run, sameLater⟩ :=
        ih sameNext fun me' member => settled me' (List.mem_cons_of_mem me member)
      refine ⟨m'', methods_cons.mpr ⟨p, y, here, _, _, owned, object', checked, run, ?_, ?_⟩,
        sameLater⟩
      · rw [treesBehind_cons rest owned object, List.all_append, passed]
        rfl
      · rw [treesBehind_cons rest owned object, List.flatMap_append, printed]
        rfl

/-- A verification that returns, of a module without shared nodes, gives the verdict of all
trees of the module, and prints one line about every initialiser that has a target and no type
for it. So a module that passes is passed in silence, while one that fails may be failed in
silence. No nodes are shared afterwards. -/
theorem verify_printed {m m' : Module} (unshared : m.Unshared) {passed : Bool} {out : List Str}
    (run : Verifier.verify m = .ok (passed, m', out)) :
    passed = m.expressionTrees.all Ast.passes ∧ out = m.expressionTrees.flatMap Ast.messages ∧
      (passed = true → out = []) ∧ m'.Unshared := by
  obtain ⟨verdict, printed, -⟩ := methods_again run
  refine ⟨verdict, printed, ?_, unshared_verified unshared run⟩
  intro success
  rw [verdict, List.all_eq_true] at success
  rw [printed, List.flatMap_eq_nil_iff]
  exact fun t ht => messages_passed (success t ht)

def untypedTree : Ast :=
  .mk 1 .op ":=".toList [.fresh 0 .identifier ['x'], .fresh 2 .identifier ['y']] none

def sharedModule : Module :=
  { mainModule (defaultMethod [untypedTree]) with
    methods := (mainModule (defaultMethod [untypedTree])).methods.insert "f".toList (some 0) }

private theorem sharedModule_verified :
    ∃ m', Verifier.verify sharedModule = .ok (false, m', [inferenceError, inferenceError]) :=
  ⟨sharedModule, rfl⟩

private theorem sharedModule_unshared : sharedModule.Unshared := by
  unfold Module.Unshared
  decide

theorem verify_printed_twice :
    sharedModule.expressionTrees.flatMap Ast.messages = [inferenceError, inferenceError] := by
  obtain ⟨m', run⟩ := sharedModule_verified
  exact (verify_printed sharedModule_unshared run).2.1.symm

/-- Verifying a module without shared nodes once more, whatever its entries share, gives the
same verdict, prints the same lines, and leaves everything as it is. -/
theorem verify_again {m m' : Module} (unshared : m.Unshared) {passed : Bool} {out : List Str}
    (run : Verifier.verify m = .ok (passed, m', out)) :
    m'.Unshared ∧ ∃ m'', Verifier.verify m' = .ok (passed, m'', out) ∧ m'.Same m'' := by
  obtain ⟨verdict, printed, methods, alike, -, settled⟩ := methods_again run
  obtain ⟨m'', again, same⟩ := methods_settled (Module.Same.refl m') settled
  obtain ⟨passes, messages⟩ := alike_treesBehind alike m.methods.toList
  refine ⟨unshared_verified unshared run, m'', ?_, same⟩
  rw [Verifier.verify, methods, again, passes, messages, verdict, printed]

theorem verify_again_twice :
    ∃ m' m'', Verifier.verify m' = .ok (false, m'', [inferenceError, inferenceError]) ∧
      m'.Same m'' := by
  obtain ⟨m', run⟩ := sharedModule_verified
  exact ⟨m', (verify_again sharedModule_unshared run).2⟩

end Modules

end Amalgam.Parser
