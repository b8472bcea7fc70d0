/- Module: Amalgam/Codegen/Readings
   digest: What a text says, with its groups and without, and what its tree means. -/

import Amalgam.Chain.Fold
import Amalgam.Codegen.Words

set_option autoImplicit false
set_option relaxedAutoImplicit false

namespace Amalgam.Codegen

open Amalgam.Cxx (Fault stoi)
open Amalgam.Pegtl (Str)
open Amalgam.Parser
open Amalgam.Terms (Term)

/-- What a tree means: its operators applied to what their operands mean. An identifier
means nothing. -/
def meaning : Ast → Option Word
  | .mk _ type data children _ =>
      match type with
      | .literalInt =>
          match stoi data with
          | .ok v => some ⟨64, BitVec.ofInt 64 v⟩
          | .error _ => none
      | .op =>
          match children with
          | l :: r :: _ =>
              match meaning l, meaning r, opMap.lookup data with
              | some x, some y, some op => op.apply x y
              | _, _, _ => none
          | _ => none
      | .group =>
          match children with
          | [] => none
          | c :: _ => meaning c
      | .identifier => none

def Operand.meaning : Operand → Option Word
  | .literal text =>
      match stoi text with
      | .ok v => some ⟨64, BitVec.ofInt 64 v⟩
      | .error _ => none
  | .identifier _ => none

def applyNamed (o : Str) : Option Word → Option Word → Option Word
  | some x, some y => (opMap.lookup o).bind fun op => op.apply x y
  | _, _ => none

/-- What a chain says: all operators bind alike, and to the right. -/
def Flat.meaning (c : Flat) : Option Word := c.foldRight applyNamed Operand.meaning

/-- What an expression says: the same inside each of its groups. -/
def Expr.meaning : Expr → Option Word
  | .operand a => Operand.meaning a
  | .group e => Expr.meaning e
  | .binary a op e => applyNamed op (Expr.meaning a) (Expr.meaning e)

section Trees

/-- A tree means what its value evaluates to, and nothing when it has no value. -/
theorem meaning_eq (t : Ast) :
    meaning t = match getValue t with
      | .ok ⟨some v, _⟩ => v.term.eval words
      | _ => none := by
  induction t using Ast.induct with
  | h address type data children semanticType ih =>
      cases type with
      | literalInt =>
          simp only [meaning, getValue, constantInt, bind, Except.bind]
          cases stoi data with
          | error e => rfl
          | ok v => rfl
      | identifier => rfl
      | group =>
          cases children with
          | nil => rfl
          | cons c cs => exact ih c List.mem_cons_self
      | op =>
          rcases children with none | ⟨l, none | ⟨r, cs⟩⟩
          · rfl
          · simp only [meaning, getValue, bind, Except.bind]
            cases getValue l with
            | error e => rfl
            | ok emitted => rfl
          · have left := ih l List.mem_cons_self
            have right := ih r (List.mem_cons_of_mem _ List.mem_cons_self)
            simp only [meaning, getValue, bind, Except.bind, left, right]
            cases getValue l with
            | error e => rfl
            | ok vl =>
                obtain ⟨vl, outLeft⟩ := vl
                cases getValue r with
                | error e => cases vl <;> simp
                | ok vr =>
                    obtain ⟨vr, outRight⟩ := vr
                    simp only [Cxx.after_ok]
                    unfold combine
                    cases vl with
                    | none => simp
                    | some vl =>
                        cases vr with
                        | none => simp
                        | some vr =>
                            cases opMap.lookup data with
                            | none => simp
                            | some op =>
                                simp only [Value.term, Term.eval]
                                cases vl.term.eval words with
                                | none => rfl
                                | some x =>
                                    cases vr.term.eval words with
                                    | none => rfl
                                    | some y => rfl

theorem meaning_some (t : Ast) (w : Word) :
    meaning t = some w ↔ ∃ v printed, getValue t = .ok ⟨some v, printed⟩ ∧
      v.term.eval words = some w := by
  rw [meaning_eq]
  cases getValue t with
  | error e => simp
  | ok emitted =>
      obtain ⟨found, printed⟩ := emitted
      cases found with
      | none => simp
      | some v => simp

private theorem meaning_op (address : Nat) (data : Str) (l r : Ast)
    (semanticType : Option NumericTypeAnnotation) :
    meaning (.mk address .op data [l, r] semanticType) =
      applyNamed data (meaning l) (meaning r) := by
  rw [meaning]
  cases meaning l with
  | none => rfl
  | some x =>
      cases meaning r with
      | none => rfl
      | some y =>
          simp only [applyNamed]
          cases opMap.lookup data with
          | none => rfl
          | some op => rfl

private theorem meaning_operand (k : Nat) (a : Operand) : meaning
    (a.node k) = Operand.meaning a := by
  cases a with
  | literal text => rfl
  | identifier text => rfl

theorem meaning_chainTree (k : Nat) (c : Flat) : meaning (chainTree k c) = Flat.meaning c := by
  induction c generalizing k with
  | last a => exact meaning_operand k a
  | link a o c ih =>
      cases ha : a.isLiteral with
      | true =>
          rw [chainTree_literal k ha, meaning_op, meaning_operand, ih]
          rfl
      | false =>
          rw [chainTree_identifier k ha, meaning_operand]
          cases a with
          | literal text => simp [Operand.isLiteral] at ha
          | identifier text => rfl

theorem meaning_erase {t : Ast} (strict : t.Strict) : meaning t.erase = meaning t := by
  rw [meaning_eq, meaning_eq, getValue_erase strict]

end Trees

section Groups

/-- Pairs of operators of which the second may be moved into the first. -/
def Opcode.reassociates : Opcode → Opcode → Bool
  | .add, .add | .add, .sub | .mul, .mul | .mul, .shl | .and, .and | .or, .or | .xor, .xor => true
  | _, _ => false

/-- In every group that an operator follows, each operator lets that operator in. -/
def Expr.Loose : Expr → Prop
  | .operand _ => True
  | .group e => Expr.Loose e
  | .binary a o e => Expr.Loose a ∧ Expr.Loose e ∧ ∀ p ∈ a.flat.operators,
      ∃ q r, opMap.lookup p = some q ∧ opMap.lookup o = some r ∧ q.reassociates r = true

private theorem reassociates_arithmetic {q r : Opcode} (h : q.reassociates r = true) :
    q.isComparison = false ∧ r.isComparison = false := by
  cases q <;> cases r <;> first | exact absurd h (by decide) | exact ⟨rfl, rfl⟩

private theorem compute_reassociates {q r : Opcode} (h : q.reassociates r = true) {w : Nat}
    (x y z : BitVec w) :
    (q.compute x y).bind (fun xy => r.apply xy ⟨w, z⟩) =
      (r.compute y z).bind fun yz => q.apply ⟨w, x⟩ yz := by
  cases q <;> cases r <;> first | exact absurd h (by decide) | skip
  case mul.shl =>
    simp only [Opcode.compute, Option.bind_some, apply_same]
    by_cases small : z.toNat < w
    · have product : (x * y) <<< z = x * y <<< z := by
        simp only [BitVec.shiftLeft_eq', BitVec.shiftLeft_eq_mul_twoPow, BitVec.mul_assoc]
      rw [if_pos small, if_pos small, Option.bind_some, apply_same, product]
      rfl
    · rw [if_neg small, if_neg small, Option.bind_none]
  all_goals
    simp [Opcode.compute, apply_same, BitVec.sub_eq_add_neg, BitVec.add_assoc, BitVec.mul_assoc,
      BitVec.and_assoc, BitVec.or_assoc, BitVec.xor_assoc]

private theorem bind_apply_other {q r : Opcode} (plain : q.isComparison = false) {w : Nat}
    {x y : BitVec w} {z : Word} (other : z.width ≠ w) :
    (q.compute x y).bind (fun xy => r.apply xy z) = none ∧
      (q.compute x y).bind (fun xy => r.apply z xy) = none := by
  cases value : q.compute x y with
  | none => exact ⟨rfl, rfl⟩
  | some xy =>
      have width : xy.width = w := by rw [compute_width value, plain, if_neg (by simp)]
      rw [← width] at other
      exact ⟨apply_other r other, apply_other r other.symm⟩

private theorem apply_reassociates {q r : Opcode} (h : q.reassociates r = true) (x y z : Word) :
    (q.apply x y).bind (fun xy => r.apply xy z) = (r.apply y z).bind fun yz => q.apply x yz := by
  obtain ⟨plainLeft, plainRight⟩ := reassociates_arithmetic h
  obtain ⟨w, x⟩ := x
  obtain ⟨w', y⟩ := y
  obtain ⟨w'', z⟩ := z
  by_cases first : w' = w
  · subst first
    by_cases second : w'' = w'
    · subst second
      rw [apply_same, apply_same]
      exact compute_reassociates h x y z
    · rw [apply_same, apply_other r second, Option.bind_none]
      exact (bind_apply_other plainLeft second).1
  · rw [apply_other q first, Option.bind_none]
    by_cases second : w'' = w'
    · subst second
      rw [apply_same]
      exact (bind_apply_other plainRight (Ne.symm first)).2.symm
    · rw [apply_other r second, Option.bind_none]

private theorem applyNamed_some {o : Str} {op : Opcode} (found : opMap.lookup o = some op)
    (x y : Option Word) :
    applyNamed o x y = x.bind fun x => y.bind fun y => op.apply x y := by
  cases x with
  | none => rfl
  | some x =>
      cases y with
      | none => rfl
      | some y => exact congrArg (Option.bind · fun op => op.apply x y) found

private theorem applyNamed_reassociates {p o : Str} {q r : Opcode}
    (foundLeft : opMap.lookup p = some q) (foundRight : opMap.lookup o = some r)
    (h : q.reassociates r = true) :
    Chain.Reassociates applyNamed p o := by
  intro x y z
  simp only [applyNamed_some foundLeft, applyNamed_some foundRight]
  cases x with
  | none => rfl
  | some x =>
      cases y with
      | none => rfl
      | some y =>
          cases z with
          | none => simp
          | some z =>
              simp only [Option.bind_some]
              exact apply_reassociates h x y z

private theorem Expr.meaning_flat {e : Expr} (loose : Expr.Loose e) :
    Flat.meaning e.flat = Expr.meaning e := by
  induction e with
  | operand a => rfl
  | group e ih => exact ih loose
  | binary a o e ihAtom ihTail =>
      obtain ⟨atom, tail, moves⟩ := loose
      have reassociates : ∀ p ∈ a.flat.operators, Chain.Reassociates applyNamed p o := by
        intro p hp
        obtain ⟨q, r, foundLeft, foundRight, h⟩ := moves p hp
        exact applyNamed_reassociates foundLeft foundRight h
      rw [Expr.meaning, ← ihAtom atom, ← ihTail tail]
      exact Chain.foldRight_append reassociates e.flat

/-- The tree that is parsed from a text means what its first expression says with all its
groups, when in every group that an operator follows, each operator is one that lets it in:
`+` before `+` and `-`, `*` before `*` and `<<`, and each of `&`, `|` and `^` before itself. -/
theorem parse_meaning {s : Str} {e : Expr} {es : List Expr} {m : Module}
    (derived : DerivesAll s (e :: es)) (loose : Expr.Loose e) (parsed : parse s = .ok (some m)) :
    ∃ t, m.expressionTrees = [t] ∧ meaning t = Expr.meaning e := by
  obtain ⟨t, ts, single, same, rest⟩ := List.map_eq_cons_iff.mp (derived.parse_trees parsed)
  obtain rfl : ts = [] := List.map_eq_nil_iff.mp rest
  have strict : t.Strict := strict_of_erase same (chainTree_strict 0 e.flat)
  refine ⟨t, single, ?_⟩
  rw [← meaning_erase strict, same, meaning_chainTree, Expr.meaning_flat loose]

theorem parse_meaning_group :
    ∃ m t, parse "(1 + 2) - 3".toList = .ok (some m) ∧ m.expressionTrees = [t] ∧
      meaning t = some ⟨64, 0⟩ := by
  have inner : Derives .expr "1 + 2) - 3".toList
      (.binary (.operand (.literal ['1'])) ['+'] (.operand (.literal ['2']))) ") - 3".toList :=
    .binary (.integer rfl) rfl (.single (@Derives.integer _ ") - 3".toList ['2'] rfl) rfl)
  have tail : Derives .expr ['3'] (.operand (.literal ['3'])) [] :=
    .single (@Derives.integer _ [] ['3'] rfl) rfl
  have derived : DerivesAll "(1 + 2) - 3".toList
      [.binary (.group (.binary (.operand (.literal ['1'])) ['+'] (.operand (.literal ['2']))))
        ['-'] (.operand (.literal ['3']))] :=
    .cons rfl (.binary (.group rfl inner) rfl tail) (.nil rfl)
  obtain ⟨m, parsed⟩ := derived.parse_decimal rfl (by decide) (by decide)
  have loose : Expr.Loose
      (.binary (.group (.binary (.operand (.literal ['1'])) ['+'] (.operand (.literal ['2']))))
        ['-'] (.operand (.literal ['3']))) := by
    refine ⟨⟨trivial, trivial, by simp [Expr.flat, Chain.operators]⟩, trivial, ?_⟩
    intro p hp
    rw [List.mem_singleton.mp hp]
    exact ⟨.add, .sub, rfl, rfl, rfl⟩
  obtain ⟨t, single, means⟩ := parse_meaning derived loose parsed
  exact ⟨m, t, parsed, single, means⟩

end Groups

end Amalgam.Codegen
