/- Module: Amalgam/Codegen/Words
   digest: The instructions on integers of any width, their types, and what values evaluate to. -/

import Amalgam.Codegen.Meaning
import Amalgam.Terms.Evaluation

set_option autoImplicit false
set_option relaxedAutoImplicit false

namespace Amalgam.Codegen

open Amalgam.Terms (Interpretation Respects Term)

structure Word where
  width : Nat
  bits : BitVec width
  deriving DecidableEq

/-- The result of an instruction on operands of one width. There is none for a division by
zero or out of range, and for a shift by the width or more. -/
def Opcode.compute (op : Opcode) {w : Nat} (x y : BitVec w) : Option Word :=
  match op with
  | .add => some ⟨w, x + y⟩
  | .sub => some ⟨w, x - y⟩
  | .mul => some ⟨w, x * y⟩
  | .sdiv => if y = 0 ∨ x = BitVec.intMin w ∧ y = -1 then none else some ⟨w, x.sdiv y⟩
  | .srem => if y = 0 ∨ x = BitVec.intMin w ∧ y = -1 then none else some ⟨w, x.srem y⟩
  | .and => some ⟨w, x &&& y⟩
  | .or => some ⟨w, x ||| y⟩
  | .xor => some ⟨w, x ^^^ y⟩
  | .shl => if y.toNat < w then some ⟨w, x <<< y⟩ else none
  | .lshr => if y.toNat < w then some ⟨w, x >>> y⟩ else none
  | .icmpSGE => some ⟨1, BitVec.ofBool (y.sle x)⟩
  | .icmpSLE => some ⟨1, BitVec.ofBool (x.sle y)⟩
  | .icmpEQ => some ⟨1, BitVec.ofBool (x == y)⟩
  | .icmpNE => some ⟨1, BitVec.ofBool (x != y)⟩
  | .icmpSLT => some ⟨1, BitVec.ofBool (x.slt y)⟩
  | .icmpSGT => some ⟨1, BitVec.ofBool (y.slt x)⟩

/-- Operands of different widths make no instruction. -/
def Opcode.apply (op : Opcode) (x y : Word) : Option Word :=
  if same : y.width = x.width then op.compute x.bits (y.bits.cast same) else none

def words : Interpretation Opcode Word Word := ⟨id, Opcode.apply⟩

def widths : Interpretation Opcode Word Nat where
  imm := Word.width
  app op w w' := if w' = w then some (if op.isComparison then 1 else w) else none

/-- A value as a term over the builder calls that it comes from. -/
def Value.term : Value → Term Opcode Word
  | .constantInt v => .const ⟨64, v⟩
  | .binary op l r => .app op l.term r.term

section Types

theorem apply_same (op : Opcode) {w : Nat} (x y : BitVec w) :
    op.apply ⟨w, x⟩ ⟨w, y⟩ = op.compute x y := by
  rw [Opcode.apply, dif_pos rfl]
  rfl

theorem apply_other (op : Opcode) {x y : Word} (other : y.width ≠ x.width) :
    op.apply x y = none := dif_neg other

theorem compute_width {op : Opcode} {w : Nat} {x y : BitVec w} {v : Word}
    (value : op.compute x y = some v) : v.width = if op.isComparison then 1 else w := by
  cases op with
  | sdiv | srem | shl | lshr =>
      simp only [Opcode.compute, Option.ite_none_left_eq_some, Option.ite_none_right_eq_some,
        Option.some.injEq] at value
      rw [← value.2]
      rfl
  | _ =>
      rw [← Option.some.inj value]
      rfl

/-- The type rules tell the widths of all results. -/
theorem words_widths : Respects words widths Word.width where
  imm _ := rfl
  app op x y v value := by
    have value : op.apply x y = some v := value
    unfold Opcode.apply at value
    split at value
    · rename_i same
      simp only [widths, if_pos same, compute_width value]
    · simp at value

private theorem term_widths (v : Value) (w : Nat) :
    v.term.eval widths = some w ↔ (∀ c ∈ v.calls, c.left.width = c.right.width) ∧ v.width = w := by
  induction v generalizing w with
  | constantInt v => simp [Value.term, Term.eval, Value.calls, Value.width, widths]
  | binary op l r ihl ihr =>
      simp only [Value.term, Term.eval_app, ihl, ihr, Value.calls, List.forall_mem_append,
        List.forall_mem_singleton]
      constructor
      · rintro ⟨x, y, ⟨left, rfl⟩, ⟨right, rfl⟩, typed⟩
        simp only [widths, Option.ite_none_right_eq_some, Option.some.injEq] at typed
        exact ⟨⟨⟨left, right⟩, typed.1.symm⟩, typed.2⟩
      · rintro ⟨⟨⟨left, right⟩, same⟩, typed⟩
        refine ⟨_, _, ⟨left, rfl⟩, ⟨right, rfl⟩, ?_⟩
        simp only [widths, if_pos same.symm]
        exact congrArg some typed

theorem term_widths_long (v : Value) : v.term.eval widths = some 64 ↔ v.WellTyped :=
  term_widths v 64

end Types

section Results

private theorem long_inj {v w : BitVec 64} (same : (⟨64, v⟩ : Word) = ⟨64, w⟩) : v = w :=
  eq_of_heq (Word.mk.inj same).2

private theorem compute_yields {op : Opcode} (plain : op.isComparison = false) {x y w : BitVec 64}
    (value : op.compute x y = some ⟨64, w⟩) :
    op.Defined x y ∧ ∀ u, op.Yields x y u ↔ u = w := by
  cases op with
  | sdiv | srem =>
      simp only [Opcode.compute, Option.ite_none_left_eq_some, Option.some.injEq, not_or] at value
      obtain ⟨⟨nonzero, inRange⟩, same⟩ := value
      obtain rfl := long_inj same
      exact ⟨fun _ => ⟨nonzero, inRange⟩, fun u => Iff.rfl⟩
  | shl | lshr =>
      simp only [Opcode.compute, Option.ite_none_right_eq_some, Option.some.injEq] at value
      obtain ⟨small, same⟩ := value
      obtain rfl := long_inj same
      exact ⟨by simp [Opcode.Defined], fun u => ⟨fun yields => yields small, fun same _ => same⟩⟩
  | icmpSGE | icmpSLE | icmpEQ | icmpNE | icmpSLT | icmpSGT => simp [Opcode.isComparison] at plain
  | _ =>
      obtain rfl := long_inj (Option.some.inj value)
      exact ⟨by simp [Opcode.Defined], fun u => Iff.rfl⟩

/-- A typed value that evaluates is defined, and yields what it evaluates to. -/
theorem Value.WellTyped.yields {v : Value} (typed : v.WellTyped) {w : BitVec 64}
    (value : v.term.eval words = some ⟨64, w⟩) : v.Defined ∧ ∀ u, v.Yields u ↔ u = w := by
  induction v generalizing w with
  | constantInt v =>
      obtain rfl := long_inj (Option.some.inj value)
      exact ⟨trivial, fun u => Iff.rfl⟩
  | binary op l r ihl ihr =>
      obtain ⟨x, y, valueLeft, valueRight, applied⟩ := (Term.eval_app words op _ _ _).mp value
      have parts := (wellTyped_iff _).mp typed
      obtain ⟨operands, width⟩ := parts
      simp only [calls, List.forall_mem_append, List.forall_mem_singleton] at operands
      obtain ⟨⟨left, right⟩, longLeft, longRight⟩ := operands
      have typedLeft : l.WellTyped := (wellTyped_iff l).mpr ⟨left, longLeft⟩
      have typedRight : r.WellTyped := (wellTyped_iff r).mpr ⟨right, longRight⟩
      have plain : op.isComparison = false := by
        by_contra comparison
        rw [Value.width, if_pos (by simpa using comparison)] at width
        omega
      obtain ⟨widthLeft, a⟩ := x
      obtain rfl : widthLeft = 64 := Option.some.inj
        ((words_widths.eval valueLeft).symm.trans ((term_widths_long l).mpr typedLeft))
      obtain ⟨widthRight, b⟩ := y
      obtain rfl : widthRight = 64 := Option.some.inj
        ((words_widths.eval valueRight).symm.trans ((term_widths_long r).mpr typedRight))
      obtain ⟨definedLeft, yieldsLeft⟩ := ihl typedLeft valueLeft
      obtain ⟨definedRight, yieldsRight⟩ := ihr typedRight valueRight
      obtain ⟨defined, yields⟩ := compute_yields plain ((apply_same op a b).symm.trans applied)
      constructor
      · refine ⟨definedLeft, definedRight, ?_⟩
        intro a' b' left' right'
        rw [(yieldsLeft a').mp left', (yieldsRight b').mp right']
        exact defined
      · intro u
        simp only [Value.Yields, yieldsLeft, yieldsRight]
        constructor
        · rintro ⟨a', b', rfl, rfl, result⟩
          exact (yields u).mp result
        · intro same
          exact ⟨a, b, rfl, rfl, (yields u).mpr same⟩

end Results

end Amalgam.Codegen
