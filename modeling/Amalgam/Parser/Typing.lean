/- Module: Amalgam/Parser/Typing
   digest: What typing a tree needs, what it changes, and how it can fail. -/

import Amalgam.Parser.Trees
import Amalgam.Parser.Verifier

set_option autoImplicit false
set_option relaxedAutoImplicit false

namespace Amalgam.Parser

open Amalgam.Cxx (Fault Str after_ok_iff silently_ok_iff stoll stoull stoSigned)
open Ast (Strict)

namespace Verifier

section Literals

/-- The fault is none of an access: not out of bounds, and not through a null pointer. -/
def NoAccess (e : Fault) : Prop := e ≠ .outOfBounds ∧ e ≠ .nullDereference

theorem stoSigned_error {what : Str} {width : Nat} {s : Str} {base : Nat} {e : Fault}
    (h : stoSigned what width s base = .error e) : NoAccess e := by
  unfold stoSigned at h
  split at h
  · rw [← Except.error.inj h]
    simp [NoAccess]
  · simp only at h
    split at h
    · simp at h
    · rw [← Except.error.inj h]
      simp [NoAccess]

private theorem stoull_error {s : Str} {base : Nat} {e : Fault} (h : stoull s base = .error e) :
    NoAccess e := by
  unfold stoull at h
  split at h
  · rw [← Except.error.inj h]
    simp [NoAccess]
  · split at h
    · simp at h
    · rw [← Except.error.inj h]
      simp [NoAccess]

private theorem literalValue_error {token : Str} {e : Fault} (h : literalValue token = .error e) :
    NoAccess e := by
  unfold literalValue at h
  by_cases signed : (specifierFormat (splitLiteralInt token).2).2 = true
  · rw [if_pos signed] at h
    exact stoSigned_error h
  · rw [if_neg signed] at h
    exact stoull_error h

theorem getIntType_error {token : Str} {e : Fault} (h : getIntType token = .error e) :
    NoAccess e := by
  unfold getIntType at h
  rcases bind_error_iff.mp h with failed | ⟨value, -, failed⟩
  · exact literalValue_error failed
  · rcases bind_error_iff.mp failed with failed | ⟨msb, -, failed⟩
    · unfold getMostSignificantBit at failed
      split at failed
      · simp at failed
      · rw [← Except.error.inj failed]
        simp [NoAccess]
    · simp at failed

end Literals

section Trees

theorem getType_typed (address : Nat) (type : NodeType) (data : Str) (children : List Ast)
    (t : NumericTypeAnnotation) :
    getType (.mk address type data children (some t)) =
      .ok (some t, .mk address type data children (some t)) := rfl

theorem getType_op (address : Nat) (data : Str) (l r : Ast) (cs : List Ast) :
    getType (.mk address .op data (l :: r :: cs) none) = (do
      let left ← getType l
      let right ← getType r
      .ok (none, .mk address .op data (left.2 :: right.2 :: cs) none)) := rfl

theorem getType_literal (address : Nat) (data : Str) (children : List Ast) :
    getType (.mk address .literalInt data children none) = (do
      let t ← getIntType data
      .ok (some t, .mk address .literalInt data children (some t))) := rfl

theorem getType_other (address : Nat) {type : NodeType} (data : Str) (notOp : type ≠ .op)
    (notLiteral : type ≠ .literalInt) :
    getType (.mk address type data [] none) = .ok (none, .mk address type data [] none) := by
  cases type with
  | op => exact absurd rfl notOp
  | literalInt => exact absurd rfl notLiteral
  | identifier => rfl
  | group => rfl

/-- Induction over a strict tree by what typing does at the root: nothing to a node that
has a type, both operands of an operator, the conversion of a literal, nothing else. -/
theorem typing_induct {motive : ∀ t : Ast, t.Strict → Prop}
    (typed : ∀ address type data children s strict,
      motive (.mk address type data children (some s)) strict)
    (op : ∀ address data l r (strictLeft : Strict l) (strictRight : Strict r),
      motive l strictLeft → motive r strictRight →
        motive (.mk address .op data [l, r] none) (.op strictLeft strictRight))
    (literal : ∀ address data strict, motive (.mk address .literalInt data [] none) strict)
    (other : ∀ address type data strict, type ≠ .op → type ≠ .literalInt →
      motive (.mk address type data [] none) strict)
    {t : Ast} (strict : t.Strict) : motive t strict := by
  induction strict with
  | @op address data l r semanticType strictLeft strictRight ihl ihr =>
      cases semanticType with
      | some s => exact typed _ _ _ _ s _
      | none => exact op _ _ l r strictLeft strictRight ihl ihr
  | @leaf address type data semanticType notOp =>
      cases semanticType with
      | some s => exact typed _ _ _ _ s _
      | none =>
          by_cases isLiteral : type = .literalInt
          · subst isLiteral
            exact literal _ _ _
          · exact other _ _ _ _ notOp isLiteral

private theorem getType_erase {t t' : Ast} {a : Option NumericTypeAnnotation} (strict : t.Strict)
    (h : getType t = .ok (a, t')) : t'.erase = t.erase := by
  induction strict using typing_induct generalizing a t' with
  | typed address type data children s =>
      rw [getType_typed] at h
      obtain ⟨-, rfl⟩ := Prod.mk.inj (Except.ok.inj h)
      rfl
  | op address data l r _ _ ihl ihr =>
      rw [getType_op] at h
      obtain ⟨⟨al, l'⟩, left, h⟩ := bind_ok_iff.mp h
      obtain ⟨⟨ar, r'⟩, right, h⟩ := bind_ok_iff.mp h
      obtain ⟨-, rfl⟩ := Prod.mk.inj (Except.ok.inj h)
      have hl := ihl left
      have hr := ihr right
      simp only [Ast.erase, Ast.eraseAll_cons, Ast.eraseAll_nil, hl, hr]
  | literal address data =>
      rw [getType_literal] at h
      obtain ⟨s, -, h⟩ := bind_ok_iff.mp h
      obtain ⟨-, rfl⟩ := Prod.mk.inj (Except.ok.inj h)
      rfl
  | other address type data _ notOp notLiteral =>
      rw [getType_other address data notOp notLiteral] at h
      obtain ⟨-, rfl⟩ := Prod.mk.inj (Except.ok.inj h)
      rfl

/-- On a strict tree typing never reads past the children of a node. -/
theorem getType_inBounds {t : Ast} (strict : t.Strict) : getType t ≠ .error .outOfBounds := by
  induction strict using typing_induct with
  | typed address type data children s =>
      rw [getType_typed]
      simp
  | op address data l r _ _ ihl ihr =>
      rw [getType_op]
      apply bind_ne_error ihl
      intro left
      apply bind_ne_error ihr
      simp
  | literal address data =>
      rw [getType_literal]
      apply bind_ne_error
      · intro failed
        exact (getIntType_error failed).1 rfl
      · simp
  | other address type data _ notOp notLiteral =>
      rw [getType_other address data notOp notLiteral]
      simp

end Trees

section Expressions

theorem expressionTree_leaf (m : Method) {e : Ast} (h : e.type ≠ .op) :
    expressionTree m e = .ok ⟨true, m, e, []⟩ := if_neg h

theorem expressionTree_initializer (m : Method) (address : Nat) (l r : Ast)
    (semanticType : Option NumericTypeAnnotation) :
    expressionTree m (.mk address .op ":=".toList [l, r] semanticType) =
      if isLvalue l = false then
        .ok ⟨false, m, .mk address .op ":=".toList [l, r] semanticType, []⟩
      else (do
        let right ← getType r
        match right.1 with
        | none =>
            .ok ⟨false, m, .mk address .op ":=".toList [l, right.2] semanticType, [inferenceError]⟩
        | some t =>
            .ok ⟨true, m.addVariable l.data t,
              .mk address .op ":=".toList [l.annotate t, right.2] semanticType, []⟩) := rfl

theorem expressionTree_operands (m : Method) (address : Nat) {data : Str} (h : data ≠ ":=".toList)
    (l r : Ast) (semanticType : Option NumericTypeAnnotation) :
    expressionTree m (.mk address .op data [l, r] semanticType) = (do
      let left ← getType l
      let right ← getType r
      .ok ⟨true, m, .mk address .op data [left.2, right.2] semanticType, []⟩) := by
  have branch : expressionTree m (.mk address .op data [l, r] semanticType) =
      if data = ":=".toList then initializer m (.mk address .op data [l, r] semanticType)
      else operands m (.mk address .op data [l, r] semanticType) := rfl
  rw [branch, if_neg h]
  rfl

theorem expressionTree_keeps {m : Method} {t : Ast} {r : Checked Ast} (strict : t.Strict)
    (h : expressionTree m t = .ok r) : r.checked.erase = t.erase ∧ r.method.name = m.name := by
  cases strict with
  | @leaf address type data semanticType other =>
      rw [expressionTree_leaf (e := .mk address type data [] semanticType) m other] at h
      rw [← Except.ok.inj h]
      exact ⟨rfl, rfl⟩
  | @op address data l r' semanticType hl hr =>
      by_cases isInit : data = ":=".toList
      · subst isInit
        rw [expressionTree_initializer] at h
        by_cases lvalue : isLvalue l = false
        · rw [if_pos lvalue] at h
          rw [← Except.ok.inj h]
          exact ⟨rfl, rfl⟩
        · rw [if_neg lvalue] at h
          obtain ⟨⟨a, r''⟩, right, h⟩ := bind_ok_iff.mp h
          have same := getType_erase hr right
          cases a with
          | none =>
              rw [← Except.ok.inj h]
              simp only [Ast.erase, Ast.eraseAll_cons, same, true_and]
          | some s =>
              rw [← Except.ok.inj h]
              simp only [Ast.erase, Ast.eraseAll_cons, same, Ast.erase_annotate, true_and]
              rfl
      · rw [expressionTree_operands m address isInit] at h
        obtain ⟨⟨al, l'⟩, left, h⟩ := bind_ok_iff.mp h
        obtain ⟨⟨ar, r''⟩, right, h⟩ := bind_ok_iff.mp h
        have sameLeft := getType_erase hl left
        have sameRight := getType_erase hr right
        rw [← Except.ok.inj h]
        simp only [Ast.erase, Ast.eraseAll_cons, sameLeft, sameRight, and_self]

theorem expressionTree_inBounds {t : Ast} (strict : t.Strict) (m : Method) :
    expressionTree m t ≠ .error .outOfBounds := by
  cases strict with
  | @leaf address type data semanticType other =>
      rw [expressionTree_leaf (e := .mk address type data [] semanticType) m other]
      simp
  | @op address data l r semanticType hl hr =>
      by_cases isInit : data = ":=".toList
      · subst isInit
        rw [expressionTree_initializer]
        by_cases lvalue : isLvalue l = false
        · rw [if_pos lvalue]
          simp
        · rw [if_neg lvalue]
          apply bind_ne_error (getType_inBounds hr)
          rintro ⟨a, r'⟩
          cases a <;> simp
      · rw [expressionTree_operands m address isInit]
        apply bind_ne_error (getType_inBounds hl)
        intro left
        apply bind_ne_error (getType_inBounds hr)
        simp

end Expressions

section Loops

theorem expressionTrees_cons (m : Method) (t : Ast) (ts : List Ast) (c : Checked (List Ast)) :
    expressionTrees m (t :: ts) = .ok c ↔
      ∃ first rest, expressionTree m t = .ok first ∧
        expressionTrees first.method ts = .ok rest ∧
        c = ⟨first.passed && rest.passed, rest.method, first.checked :: rest.checked,
          first.printed ++ rest.printed⟩ := by
  rw [expressionTrees]
  simp only [bind_ok_iff, silently_ok_iff, after_ok_iff, Except.ok.injEq, eq_comm (b := c)]
  constructor
  · rintro ⟨first, here, rest, later, rfl⟩
    exact ⟨first, rest, here, later, rfl⟩
  · rintro ⟨first, rest, here, later, rfl⟩
    exact ⟨first, here, rest, later, rfl⟩

theorem methods_cons (m : Module) (me : Str × Option MethodPtr)
    (rest : List (Str × Option MethodPtr)) (v : Bool × Module × List Str) :
    methods m (me :: rest) = .ok v ↔
      ∃ x here others, m.deref me.2 = .ok x ∧ method x = .ok here ∧
        methods (m.store me.2 here.method) rest = .ok others ∧
        v = (here.passed && others.1, others.2.1, here.printed ++ others.2.2) := by
  rw [methods]
  simp only [bind_ok_iff, silently_ok_iff, after_ok_iff, Except.ok.injEq, eq_comm (b := v)]
  constructor
  · rintro ⟨x, found, here, checked, others, later, rfl⟩
    exact ⟨x, here, others, found, checked, later, rfl⟩
  · rintro ⟨x, here, others, found, checked, later, rfl⟩
    exact ⟨x, found, here, checked, others, later, rfl⟩

end Loops

end Verifier

end Amalgam.Parser
