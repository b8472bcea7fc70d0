/- Module: Amalgam/Codegen/Blocks
   digest: When the block of a generated function ends in its only return. -/

import Amalgam.Codegen.Emission

set_option autoImplicit false
set_option relaxedAutoImplicit false

namespace Amalgam.Codegen

open Amalgam.Pegtl (Str)
open Amalgam.Parser

/-- A return is the only terminator that the generator makes. -/
def Instruction.isRet : Instruction → Bool
  | .ret _ => true
  | .call _ => false

/-- The block ends in the return of a value, and holds no other terminator. -/
def Function.WellTerminated (f : Function) : Prop :=
  ∃ body v, f.entry = body ++ [.ret (some v)] ∧ ∀ i ∈ body, i.isRet = false

section Statements

private theorem emitValue_of_getValue {t : Ast} {r : Emitted} (h : getValue t = .ok r) :
    ∃ calls, emitValue t = .ok (r, calls) := by
  rw [← emitValue_value] at h
  cases emitted : emitValue t with
  | error e => simp [emitted, Except.map] at h
  | ok found =>
      rw [emitted] at h
      exact ⟨found.2, by rw [← Except.ok.inj h]⟩

theorem getValue_of_emitValue {t : Ast} {r : Emitted} {calls : List Call}
    (h : emitValue t = .ok (r, calls)) : getValue t = .ok r := by
  rw [← emitValue_value, h]
  rfl

private theorem inserted_isRet (llvm : Llvm) (calls : List Call) :
    ∀ i ∈ llvm.inserted calls, i.isRet = false := by
  intro i hi
  obtain ⟨c, -, rfl⟩ := List.mem_map.mp hi
  rfl

private theorem inserted_countP (llvm : Llvm) (calls : List Call) :
    (llvm.inserted calls).countP Instruction.isRet = 0 := by
  rw [List.countP_eq_zero]
  intro i hi
  rw [inserted_isRet llvm calls i hi]
  simp

private theorem statements_countP {llvm : Llvm} {ts : List Ast} {block : List Instruction}
    {out : List Str} (run : statements llvm ts = .ok (block, out)) :
    block.countP Instruction.isRet = ts.length := by
  induction ts generalizing block out with
  | nil =>
      obtain ⟨rfl, -⟩ := Prod.mk.inj (Except.ok.inj run)
      rfl
  | cons t ts ih =>
      obtain ⟨value, -, run⟩ := bind_ok_iff.mp run
      obtain ⟨others, more, run⟩ := bind_ok_iff.mp run
      obtain ⟨rfl, -⟩ := Prod.mk.inj (Except.ok.inj run)
      rw [List.countP_append, List.countP_cons, inserted_countP,
        ih (Cxx.after_ok_iff.mp more), List.length_cons]
      simp [Instruction.isRet]

theorem Function.WellTerminated.countP {f : Function} (h : f.WellTerminated) :
    f.entry.countP Instruction.isRet = 1 := by
  obtain ⟨body, v, entry, plain⟩ := h
  have none : body.countP Instruction.isRet = 0 := by
    rw [List.countP_eq_zero]
    intro i hi
    rw [plain i hi]
    simp
  rw [entry, List.countP_append, none]
  rfl

private theorem build_wellTerminated (llvm : Llvm) (x : Method) :
    (∃ f out, build llvm x = .ok (f, out) ∧ f.WellTerminated) ↔
      ∃ t v out, x.expressionList = [t] ∧ getValue t = .ok ⟨some v, out⟩ := by
  constructor
  · rintro ⟨f, out, built, terminated⟩
    obtain ⟨⟨block, out'⟩, run, built⟩ := bind_ok_iff.mp built
    obtain ⟨rfl, -⟩ := Prod.mk.inj (Except.ok.inj built)
    have single : x.expressionList.length = 1 := by
      rw [← statements_countP run]
      exact terminated.countP
    obtain ⟨t, trees⟩ := List.length_eq_one_iff.mp single
    rw [trees] at run
    obtain ⟨⟨value, calls⟩, emitted, -⟩ := bind_ok_iff.mp run
    rw [statements_singleton llvm emitted] at run
    obtain ⟨rfl, -⟩ := Prod.mk.inj (Except.ok.inj run)
    obtain ⟨body, v, entry, -⟩ := terminated
    -- Both sides end in a return.
    obtain ⟨-, last⟩ := List.append_inj' entry rfl
    have returned : value.value = some v := Instruction.ret.inj (List.singleton_inj.mp last)
    refine ⟨t, v, value.printed, trees, ?_⟩
    rw [getValue_of_emitValue emitted, ← returned]
  · rintro ⟨t, v, out, trees, value⟩
    obtain ⟨calls, emitted⟩ := emitValue_of_getValue value
    have run := statements_singleton llvm emitted
    rw [← trees] at run
    refine ⟨⟨x.name, llvm.inserted calls ++ [.ret (some v)]⟩, out, ?_, ?_⟩
    · exact bind_ok_iff.mpr ⟨_, run, rfl⟩
    · exact ⟨llvm.inserted calls, v, rfl, inserted_isRet llvm calls⟩

end Statements

section Texts

theorem getValue_some_iff {t : Ast} (strict : t.Strict) :
    (∃ v out, getValue t = .ok ⟨some v, out⟩) ↔ ∀ n ∈ t.nodes, Generable n.type n.data := by
  constructor
  · induction strict with
    | @op address data l r semanticType _ _ ihl ihr =>
        rintro ⟨v, out, value⟩
        obtain ⟨op, vl, vr, outLeft, outRight, found, -, left, right⟩ := getValue_op_some value
        have known : (opMap.lookup data).isSome = true := by
          rw [found]
          rfl
        rw [Ast.forall_nodes_op]
        exact ⟨.inl ⟨rfl, known⟩, ihl ⟨vl, outLeft, left⟩, ihr ⟨vr, outRight, right⟩⟩
    | @leaf address type data semanticType other =>
        rintro ⟨v, out, value⟩ n hn
        rw [List.mem_singleton.mp hn]
        cases type with
        | op => exact absurd rfl other
        | literalInt =>
            rw [getValue_literal] at value
            obtain ⟨w, converted, -⟩ := bind_ok_iff.mp value
            exact .inr ⟨rfl, w, Cxx.silently_ok_iff.mp converted⟩
        | identifier => simp [getValue] at value
        | group => simp [getValue] at value
  · intro generable
    obtain ⟨v, emitted, -⟩ := emitValue_generable strict generable
    exact ⟨v, [], getValue_of_emitValue emitted⟩

theorem identifier_not_generable (text : Str) : ¬ Generable .identifier text := by
  simp [Generable]

theorem parse_wellTerminated (llvm : Llvm) {s : Str} {es : List Expr} {x : Method}
    (derived : DerivesAll s es) (parsed : parse s = .ok (some (mainModule x))) :
    (∃ f out, build llvm x = .ok (f, out) ∧ f.WellTerminated) ↔
      ∃ e others, es = e :: others ∧ ∀ t ∈ e.tokens, Generable t.type t.text := by
  have trees := derived.parse_trees parsed
  rw [mainModule_expressionTrees] at trees
  rw [build_wellTerminated]
  cases es with
  | nil =>
      have none : x.expressionList = [] := List.map_eq_nil_iff.mp trees
      simp [none]
  | cons e es =>
      obtain ⟨t, ts, single, same, rest⟩ := List.map_eq_cons_iff.mp trees
      obtain rfl : ts = [] := List.map_eq_nil_iff.mp rest
      have strict : t.Strict := strict_of_erase same (chainTree_strict 0 e.flat)
      have value : (∃ v out, getValue t = .ok ⟨some v, out⟩) ↔
          ∀ t ∈ e.tokens, Generable t.type t.text := by
        rw [← getValue_erase strict, same, getValue_some_iff (chainTree_strict 0 e.flat),
          forall_chainTree identifier_not_generable, Expr.tokens_eq]
      rw [single]
      constructor
      · rintro ⟨t', v, out, only, generated⟩
        obtain rfl := List.singleton_inj.mp only
        exact ⟨e, es, rfl, value.mp ⟨v, out, generated⟩⟩
      · rintro ⟨e', others, same, generable⟩
        obtain ⟨rfl, -⟩ := List.cons.inj same
        obtain ⟨v, out, generated⟩ := value.mpr generable
        exact ⟨t, v, out, rfl, generated⟩

/-- A method whose trees all have values is built into a function that ends in its only
return exactly when it has one tree. For a text that is parsed to a module this means that
it has an expression, and that the first one has built-in operators, literals in the range
of the generator and no identifiers. -/
theorem wellTerminated_iff (llvm : Llvm) :
    (∀ x : Method, (∀ t ∈ x.expressionList, ∃ v out, getValue t = .ok ⟨some v, out⟩) →
      ((∃ f out, build llvm x = .ok (f, out) ∧ f.WellTerminated) ↔
        x.expressionList.length = 1)) ∧
    ∀ s m, parse s = .ok (some m) →
      ((∀ me ∈ m.methods.toList, ∃ x f out, m.deref me.2 = .ok x ∧
          build llvm x = .ok (f, out) ∧ f.WellTerminated) ↔
        ∃ e es, DerivesAll s (e :: es) ∧ ∀ t ∈ e.tokens, Generable t.type t.text) := by
  constructor
  · intro x values
    rw [build_wellTerminated, List.length_eq_one_iff]
    constructor
    · rintro ⟨t, v, out, single, -⟩
      exact ⟨t, single⟩
    · rintro ⟨t, single⟩
      obtain ⟨v, out, value⟩ := values t (by rw [single]; exact List.mem_singleton_self t)
      exact ⟨t, v, out, single, value⟩
  · intro s m parsed
    obtain ⟨es, derived⟩ := parse_derives parsed
    obtain ⟨x, rfl, -, -⟩ := derived.parse_module parsed
    have entry : (mainModule x).deref (some 0) = .ok x := rfl
    have built : (∀ me ∈ (mainModule x).methods.toList, ∃ y f out,
        (mainModule x).deref me.2 = .ok y ∧ build llvm y = .ok (f, out) ∧ f.WellTerminated) ↔
          ∃ f out, build llvm x = .ok (f, out) ∧ f.WellTerminated := by
      rw [mainModule_methods, List.forall_mem_singleton, entry]
      simp
    rw [built, parse_wellTerminated llvm derived parsed]
    constructor
    · rintro ⟨e, others, rfl, generable⟩
      exact ⟨e, others, derived, generable⟩
    · rintro ⟨e, others, derived', generable⟩
      exact ⟨e, others, derived.unique derived', generable⟩

theorem wellTerminated_sum :
    ∃ llvm f out, build llvm (defaultMethod [oneTwo "+".toList]) = .ok (f, out) ∧
      f.WellTerminated := by
  have generable := oneTwo_generable (rfl : (opMap.lookup "+".toList).isSome = true)
  have value := (getValue_some_iff (chainTree_strict 0 _)).mpr generable
  let llvm : Llvm :=
    { folds := fun _ => true
      verifyFunction := fun _ => .ok ()
      createEngine := fun _ => .ok ()
      compiles := fun _ _ => true
      call := fun _ => .ok 3 }
  refine ⟨llvm, ?_⟩
  apply ((wellTerminated_iff llvm).1 _ _).mpr rfl
  intro t ht
  rw [List.mem_singleton.mp ht]
  exact value

/-- The empty text is parsed to a module, and its method to a block without a terminator;
a method with two trees is built into a block with two. -/
theorem not_wellTerminated_empty :
    ∃ m x, parse [] = .ok (some m) ∧ m.methods.toList = [("__default__".toList, some 0)] ∧
      m.deref (some 0) = .ok x ∧ ∀ llvm, ∃ f out, build llvm x = .ok (f, out) ∧ f.entry = [] ∧
        ¬ f.WellTerminated := by
  have derived : DerivesAll [] [] := .nil rfl
  refine ⟨_, defaultMethod [], derived.parse_nil, rfl, rfl, ?_⟩
  intro llvm
  refine ⟨⟨"__default__".toList, []⟩, [], rfl, rfl, ?_⟩
  rintro ⟨body, v, entry, -⟩
  simp at entry

end Texts

end Amalgam.Codegen
