/- Module: Amalgam/Codegen/Pointers
   digest: The verifier and the generator follow no pointers but those in the method map. -/

import Amalgam.Codegen.Emission

set_option autoImplicit false
set_option relaxedAutoImplicit false

namespace Amalgam.Parser

open Amalgam.Cxx (Fault Spares Str spares_ok spares_silently)
open Verifier (getType)

section Verifier

private theorem getType_pointers (t : Ast) : getType t ≠ .error .nullDereference := by
  induction t using Ast.induct with
  | h address type data children semanticType ih =>
      cases semanticType with
      | some s => simp [Verifier.getType_typed]
      | none =>
          cases type with
          | literalInt =>
              rw [Verifier.getType_literal]
              apply bind_ne_error
              · intro failed
                exact (Verifier.getIntType_error failed).2 rfl
              · simp
          | identifier => simp [getType]
          | group => simp [getType]
          | op =>
              rcases children with none | ⟨l, none | ⟨r, cs⟩⟩
              · simp [getType]
              · apply bind_ne_error (ih l List.mem_cons_self)
                simp
              · rw [Verifier.getType_op]
                apply bind_ne_error (ih l List.mem_cons_self)
                intro left
                apply bind_ne_error (ih r (List.mem_cons_of_mem _ List.mem_cons_self))
                simp

private theorem initializer_pointers (m : Method) (e : Ast) :
    Verifier.initializer m e ≠ .error .nullDereference := by
  unfold Verifier.initializer
  split
  · simp
  · split
    · simp
    · split
      · simp
      · apply bind_ne_error (getType_pointers _)
        intro right
        split <;> simp

private theorem operands_pointers (m : Method) (e : Ast) :
    Verifier.operands m e ≠ .error .nullDereference := by
  unfold Verifier.operands
  split
  · simp
  · apply bind_ne_error (getType_pointers _)
    simp
  · apply bind_ne_error (getType_pointers _)
    intro left
    apply bind_ne_error (getType_pointers _)
    simp

private theorem expressionTree_pointers (m : Method) (e : Ast) :
    Verifier.expressionTree m e ≠ .error .nullDereference := by
  unfold Verifier.expressionTree
  split
  · split
    · exact initializer_pointers m e
    · exact operands_pointers m e
  · simp

private theorem expressionTrees_pointers (m : Method) (es : List Ast) :
    Spares .nullDereference (Verifier.expressionTrees m es) := by
  induction es generalizing m with
  | nil => exact spares_ok _ _
  | cons e es ih =>
      refine (spares_silently (expressionTree_pointers m e)).bind fun first => ?_
      exact ((ih first.method).after first.printed).bind fun rest => spares_ok _ _

theorem method_pointers (m : Method) : Spares .nullDereference (Verifier.method m) :=
  (expressionTrees_pointers m m.expressionList).bind fun _ => spares_ok _ _

theorem deref_isOk {m : Module} {e : Option MethodPtr} :
    (∃ x, m.deref e = .ok x) ↔ ∃ p, e = some p ∧ p < m.objects.length := by
  cases e with
  | none => simp [Module.deref]
  | some p =>
      cases object : m.objects[p]? with
      | none =>
          have := List.getElem?_eq_none_iff.mp object
          simp only [Module.deref, object, Option.some.injEq]
          simp
          omega
      | some x =>
          have := (List.getElem?_eq_some_iff.mp object).1
          simp [Module.deref, this]

private theorem store_length (m : Module) (e : Option MethodPtr) (x : Method) :
    (m.store e x).objects.length = m.objects.length := by
  cases e with
  | none => rfl
  | some p => exact List.length_set

theorem methods_pointers {m : Module} {entries : List (Str × Option MethodPtr)}
    (live : ∀ me ∈ entries, ∃ x, m.deref me.2 = .ok x) :
    Spares .nullDereference (Verifier.methods m entries) := by
  induction entries generalizing m with
  | nil => exact spares_ok _ _
  | cons me rest ih =>
      obtain ⟨x, object⟩ := live me List.mem_cons_self
      rw [Verifier.methods, object]
      refine (method_pointers x).bind fun here => ?_
      refine ((ih ?_).after here.printed).bind fun others => spares_ok _ _
      intro other member
      have before := live other (List.mem_cons_of_mem _ member)
      rw [deref_isOk] at before ⊢
      rwa [store_length]

theorem verify_pointers {m : Module} (live : ∀ me ∈ m.methods.toList, ∃ x, m.deref me.2 = .ok x) :
    Spares .nullDereference (Verifier.verify m) := methods_pointers live

end Verifier

end Amalgam.Parser

namespace Amalgam.Codegen

open Amalgam.Cxx (Fault Spares Str spares_ok spares_silently)
open Amalgam.Parser

section Generator

private theorem emitValue_pointers (t : Ast) : Spares .nullDereference (emitValue t) := by
  induction t using Ast.induct with
  | h address type data children semanticType ih =>
      cases type with
      | literalInt =>
          unfold emitValue
          refine (spares_silently ?_).bind fun v => spares_ok _ _
          intro failed
          exact (constantInt_error failed).2 rfl
      | identifier => exact spares_ok _ _
      | group =>
          cases children with
          | nil => simp [emitValue, Spares]
          | cons c cs => exact ih c List.mem_cons_self
      | op =>
          rcases children with none | ⟨l, none | ⟨r, cs⟩⟩
          · simp [emitValue, Spares]
          · refine (ih l List.mem_cons_self).bind fun left => ?_
            simp [Spares]
          · refine (ih l List.mem_cons_self).bind fun left => ?_
            have right := ih r (List.mem_cons_of_mem _ List.mem_cons_self)
            exact (right.after left.1.printed).bind fun vr => spares_ok _ _

private theorem statements_pointers (llvm : Llvm) (ts : List Ast) :
    Spares .nullDereference (statements llvm ts) := by
  induction ts with
  | nil => exact spares_ok _ _
  | cons t ts ih =>
      refine (emitValue_pointers t).bind fun value => ?_
      exact (ih.after value.1.printed).bind fun others => spares_ok _ _

variable {llvm : Llvm} (checks : ∀ f, llvm.verifyFunction f ≠ .error .nullDereference)

include checks

theorem method_pointers (x : Method) : Spares .nullDereference (method llvm x) := by
  have built : Spares .nullDereference (build llvm x) :=
    (statements_pointers llvm x.expressionList).bind fun block => spares_ok _ _
  refine built.bind fun f => ?_
  exact ((spares_silently (checks f.1)).after f.2).bind fun verified => spares_ok _ _

theorem methods_pointers {m : Module} {entries : List (Str × Option MethodPtr)}
    (live : ∀ me ∈ entries, ∃ x, m.deref me.2 = .ok x) :
    Spares .nullDereference (methods llvm m entries) := by
  induction entries with
  | nil => exact spares_ok _ _
  | cons me rest ih =>
      obtain ⟨x, object⟩ := live me List.mem_cons_self
      rw [methods, object]
      refine (method_pointers checks x).bind fun here => ?_
      have later := ih fun other member => live other (List.mem_cons_of_mem _ member)
      exact (later.after here.2).bind fun others => spares_ok _ _

theorem generate_pointers {m : Module} (live : ∀ me ∈ m.methods.toList, ∃ x, m.deref me.2 = .ok x) :
    Spares .nullDereference (generate llvm (some m)) :=
  (methods_pointers checks live).bind fun _ => spares_ok _ _

end Generator

end Amalgam.Codegen
