/- Module: Amalgam/Codegen/Emission
   digest: The builder calls for an expression tree, and the widths of their operands. -/

import Amalgam.Codegen.Generation
import Amalgam.Codegen.Program

set_option autoImplicit false
set_option relaxedAutoImplicit false

namespace Amalgam.Codegen

open Amalgam.Cxx (Fault Str after silently)
open Amalgam.Parser

def Opcode.isComparison : Opcode → Bool
  | .icmpSGE | .icmpSLE | .icmpEQ | .icmpNE | .icmpSLT | .icmpSGT => true
  | _ => false

/-- The width of the integer type of a value, by the rules of the instruction set: a
comparison yields one bit, any other instruction the type of its operands. -/
def Value.width : Value → Nat
  | .constantInt _ => 64
  | .binary op left _ => if op.isComparison then 1 else left.width

def Value.calls : Value → List Call
  | .constantInt _ => []
  | .binary op left right => left.calls ++ right.calls ++ [⟨op, left, right⟩]

/-- Both operands are 64-bit integers. -/
def Call.WellTyped (c : Call) : Prop := c.left.width = 64 ∧ c.right.width = 64

/-- A built-in operator, or a literal that the generator converts. -/
def Generable (type : NodeType) (data : Str) : Prop :=
  type = .op ∧ (opMap.lookup data).isSome = true ∨
    type = .literalInt ∧ ∃ v, constantInt data = .ok v

def Compares (type : NodeType) (data : Str) : Prop :=
  type = .op ∧ ∃ op, opMap.lookup data = some op ∧ op.isComparison = true

section Calls

private theorem emitValue_op (address : Nat) (data : Str) (l r : Ast)
    (semanticType : Option NumericTypeAnnotation) :
    emitValue (.mk address .op data [l, r] semanticType) = (do
      let left ← emitValue l
      let right ← after left.1.printed (emitValue r)
      .ok (combine data left.1 right.1, left.2 ++ right.2 ++ opCalls data left.1 right.1)) := rfl

private theorem emitValue_literal (address : Nat) (data : Str)
    (semanticType : Option NumericTypeAnnotation) :
    emitValue (.mk address .literalInt data [] semanticType) = (do
      let v ← silently (constantInt data)
      .ok (⟨some v, []⟩, [])) := rfl

theorem emitValue_value (t : Ast) : (emitValue t).map Prod.fst = getValue t := by
  induction t using Ast.induct with
  | h address type data children semanticType ih =>
      cases type with
      | literalInt =>
          simp only [emitValue, getValue, bind, Except.bind]
          cases constantInt data <;> rfl
      | identifier => rfl
      | group =>
          cases children with
          | nil => rfl
          | cons c cs => exact ih c List.mem_cons_self
      | op =>
          rcases children with none | ⟨l, none | ⟨r, cs⟩⟩
          · rfl
          · have left := ih l List.mem_cons_self
            simp only [emitValue, getValue, ← left, bind, Except.bind]
            cases emitValue l <;> rfl
          · have left := ih l List.mem_cons_self
            have right := ih r (List.mem_cons_of_mem _ List.mem_cons_self)
            simp only [emitValue, getValue, ← left, ← right, bind, Except.bind]
            cases emitValue l with
            | error e => rfl
            | ok vl => cases emitValue r <;> rfl

theorem getValue_op_some {address : Nat} {data : Str} {l r : Ast}
    {semanticType : Option NumericTypeAnnotation} {v : Value} {out : List Str}
    (h : getValue (.mk address .op data [l, r] semanticType) = .ok ⟨some v, out⟩) :
    ∃ op vl vr outLeft outRight, opMap.lookup data = some op ∧ v = .binary op vl vr ∧
      getValue l = .ok ⟨some vl, outLeft⟩ ∧ getValue r = .ok ⟨some vr, outRight⟩ := by
  rw [getValue_op] at h
  obtain ⟨⟨left, outLeft⟩, valueLeft, h⟩ := bind_ok_iff.mp h
  obtain ⟨⟨right, outRight⟩, afterLeft, h⟩ := bind_ok_iff.mp h
  have valueRight := Cxx.after_ok_iff.mp afterLeft
  have combined := Except.ok.inj h
  cases left with
  | none => simp [combine] at combined
  | some vl =>
      cases right with
      | none => simp [combine] at combined
      | some vr =>
          cases found : opMap.lookup data with
          | none => simp [combine, found] at combined
          | some op =>
              simp only [combine, found, Emitted.mk.injEq, Option.some.injEq] at combined
              exact ⟨op, vl, vr, outLeft, outRight, rfl, combined.1.symm, valueLeft, valueRight⟩

end Calls

section Widths

/-- The value of a tree that the generator can generate comes from the calls it makes; all
of them are over 64-bit integers, as is the value, when there is no comparison. -/
theorem emitValue_generable {t : Ast} (strict : t.Strict)
    (generable : ∀ n ∈ t.nodes, Generable n.type n.data) :
    ∃ v, emitValue t = .ok (⟨some v, []⟩, v.calls) ∧
      (((∀ c ∈ v.calls, c.WellTyped) ∧ v.width = 64) ↔
        ∀ n ∈ t.nodes, ¬ Compares n.type n.data) := by
  induction strict with
  | @op address data l r semanticType _ _ ihl ihr =>
      obtain ⟨root, left, right⟩ := Ast.forall_nodes_op.mp generable
      obtain ⟨vl, emittedLeft, typedLeft⟩ := ihl left
      obtain ⟨vr, emittedRight, typedRight⟩ := ihr right
      have known : (opMap.lookup data).isSome = true := by
        rcases root with ⟨-, known⟩ | ⟨literal, -⟩
        · exact known
        · simp [Ast.type] at literal
      obtain ⟨op, found⟩ := Option.isSome_iff_exists.mp known
      have compares : Compares (Ast.mk address .op data [l, r] semanticType).type
          (Ast.mk address .op data [l, r] semanticType).data ↔ op.isComparison = true := by
        simp [Compares, Ast.type, Ast.data, found]
      refine ⟨.binary op vl vr, ?_, ?_⟩
      · rw [emitValue_op, emittedLeft, emittedRight]
        simp [bind, Except.bind, combine, opCalls, found, Value.calls]
      · rw [Ast.forall_nodes_op, ← typedLeft, ← typedRight, compares]
        simp only [Value.calls, List.forall_mem_append, List.forall_mem_singleton, Call.WellTyped,
          Value.width]
        cases op.isComparison with
        | true => simp
        | false =>
            simp only [Bool.false_eq_true, if_false, not_false_eq_true, true_and]
            constructor
            · rintro ⟨⟨⟨left, right⟩, widthLeft, widthRight⟩, -⟩
              exact ⟨⟨left, widthLeft⟩, right, widthRight⟩
            · rintro ⟨⟨left, widthLeft⟩, right, widthRight⟩
              exact ⟨⟨⟨left, right⟩, widthLeft, widthRight⟩, widthLeft⟩
  | @leaf address type data semanticType other =>
      have only : (Ast.mk address type data [] semanticType).nodes =
          [.mk address type data [] semanticType] := rfl
      rw [only, List.forall_mem_singleton] at generable ⊢
      rcases generable with ⟨isOp, -⟩ | ⟨literal, v, converted⟩
      · exact absurd isOp other
      · obtain rfl : type = .literalInt := literal
        have converted : constantInt data = .ok v := converted
        obtain ⟨z, -, built⟩ := bind_ok_iff.mp converted
        obtain rfl := Except.ok.inj built
        refine ⟨.constantInt (BitVec.ofInt 64 z), ?_, ?_⟩
        · rw [emitValue_literal, converted]
          rfl
        · simp [Value.calls, Value.width, Compares, Ast.type]

theorem statements_singleton (llvm : Llvm) {t : Ast} {value : Emitted} {calls : List Call}
    (emitted : emitValue t = .ok (value, calls)) :
    statements llvm [t] = .ok (llvm.inserted calls ++ [.ret value.value], value.printed) := by
  simp [statements, emitted, bind, Except.bind]

/-- Over built-in operators and literals that the generator converts, all operands and the
value returned are 64-bit integers exactly when no operator is a comparison. -/
theorem emitValue_wellTyped_iff {t : Ast} (strict : t.Strict)
    (generable : ∀ n ∈ t.nodes, Generable n.type n.data) :
    (∃ v out calls, emitValue t = .ok (⟨some v, out⟩, calls) ∧
      (∀ llvm, statements llvm [t] = .ok (llvm.inserted calls ++ [.ret (some v)], out)) ∧
      (∀ c ∈ calls, c.WellTyped) ∧ v.width = 64) ↔
    ∀ n ∈ t.nodes, ¬ Compares n.type n.data := by
  obtain ⟨v, emitted, typed⟩ := emitValue_generable strict generable
  rw [← typed]
  constructor
  · rintro ⟨v', out, calls', emitted', -, operands, result⟩
    rw [emitted] at emitted'
    obtain ⟨value, rfl⟩ := Prod.mk.inj (Except.ok.inj emitted')
    obtain ⟨same, -⟩ := Emitted.mk.inj value
    obtain rfl := Option.some.inj same
    exact ⟨operands, result⟩
  · rintro ⟨operands, result⟩
    exact ⟨v, [], v.calls, emitted, fun llvm => statements_singleton llvm emitted, operands, result⟩

def oneTwo (op : Str) : Ast := chainTree 0 (.link (.literal ['1']) op (.last (.literal ['2'])))

private theorem oneTwo_nodes (op : Str) :
    (oneTwo op).nodes =
      [oneTwo op, Operand.node 0 (.literal ['1']), Operand.node 2 (.literal ['2'])] := rfl

theorem oneTwo_generable {op : Str} (known : (opMap.lookup op).isSome = true) :
    ∀ n ∈ (oneTwo op).nodes, Generable n.type n.data := by
  have one : ShortLiteral ['1'] := shortLiteral_decimal (by simp) (by decide) (by decide)
  have two : ShortLiteral ['2'] := shortLiteral_decimal (by simp) (by decide) (by decide)
  rw [oneTwo_nodes]
  intro n hn
  simp only [List.mem_cons, List.not_mem_nil, or_false] at hn
  rcases hn with rfl | rfl | rfl
  · exact .inl ⟨rfl, known⟩
  · exact .inr ⟨rfl, constantInt_short one⟩
  · exact .inr ⟨rfl, constantInt_short two⟩

private theorem oneTwo_compares {op : Str} {c : Opcode} (found : opMap.lookup op = some c) :
    (∀ n ∈ (oneTwo op).nodes, ¬ Compares n.type n.data) ↔ c.isComparison = false := by
  have root : Compares (oneTwo op).type (oneTwo op).data ↔ c.isComparison = true := by
    have data : (oneTwo op).data = op := rfl
    have type : (oneTwo op).type = .op := rfl
    simp [Compares, type, data, found]
  have operand : ∀ a : Operand, ¬ Compares a.token.type a.token.text := by
    intro a comparison
    exact a.token_type_ne_op comparison.1
  simp [oneTwo_nodes, root, operand]

theorem emitValue_wellTyped_sum :
    ∃ v out calls, emitValue (oneTwo "+".toList) = .ok (⟨some v, out⟩, calls) ∧
      (∀ c ∈ calls, c.WellTyped) ∧ v.width = 64 := by
  have noComparison := (oneTwo_compares (rfl : opMap.lookup "+".toList = some .add)).mpr rfl
  obtain ⟨v, out, calls, emitted, -, typed⟩ :=
    (emitValue_wellTyped_iff (chainTree_strict 0 _) (oneTwo_generable rfl)).mpr noComparison
  exact ⟨v, out, calls, emitted, typed⟩

/-- The function of `1 < 2` returns one bit. -/
theorem emitValue_comparison :
    (∀ n ∈ (oneTwo "<".toList).nodes, Generable n.type n.data) ∧
      ∃ v, emitValue (oneTwo "<".toList) =
          .ok (⟨some v, []⟩, [⟨.icmpSLT, .constantInt 1, .constantInt 2⟩]) ∧
        v.width = 1 := by
  refine ⟨oneTwo_generable rfl, .binary .icmpSLT (.constantInt 1) (.constantInt 2), rfl, rfl⟩

end Widths

end Amalgam.Codegen
