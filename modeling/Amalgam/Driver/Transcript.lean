/- Module: Amalgam/Driver/Transcript
   digest: Everything a session prints, and the lines that are answered with their value. -/

import Amalgam.Codegen.Readings
import Amalgam.Driver.Loop
import Amalgam.Parser.Dump
import Amalgam.Parser.Messages

set_option autoImplicit false
set_option relaxedAutoImplicit false

namespace Amalgam.Driver

open Amalgam.Cxx (Fault Thrown digitValue isDecimal magnitude silently)
open Amalgam.Pegtl (Str)
open Amalgam.Parser
open Amalgam.Codegen
open Amalgam.Outline (unlines)

/-- `parser::parse` in verbose mode, with what it prints: the listing of the module, then
the messages of the verifier. The log of the match, on the error stream, is left out. -/
def parsePrinted (input : Str) : Str × Except Fault (Option Module) :=
  match matched input with
  | .error e => ([], .error e)
  | .ok st =>
      match st.module.dump with
      | .error e => (unlines '\n' e.printed, .error e.fault)
      | .ok listing =>
          match Verifier.verify st.module with
          | .error e => (listing ++ unlines '\n' e.printed, .error e.fault)
          | .ok verdict =>
              (listing ++ unlines '\n' verdict.2.2,
                .ok (if verdict.1 then some verdict.2.1 else none))

/-- The body of the loop, with what it prints up to its end. The prompt is left out. -/
def turn (llvm : Llvm) (input : Str) : Str × Except Fault Unit :=
  let parsed := parsePrinted input
  match parsed.2 with
  | .error e => (parsed.1, .error e)
  | .ok module =>
      match generate llvm module with
      | .error e => (parsed.1 ++ unlines '\n' e.printed, .error e.fault)
      | .ok cm =>
          match run llvm cm.1 with
          | .error e => (parsed.1 ++ unlines '\n' cm.2, .error e)
          | .ok reply => (parsed.1 ++ unlines '\n' cm.2 ++ unlines '\n' reply, .ok ())

/-- What `main` prints on some lines, and what ended it before the end of input. -/
def transcript (llvm : Llvm) : List Str → Str × Option Fault
  | [] => ([], none)
  | input :: rest =>
      let here := turn llvm input
      match here.2 with
      | .error e => (here.1, some e)
      | .ok _ => (here.1 ++ (transcript llvm rest).1, (transcript llvm rest).2)

def listing (input : Str) : Str :=
  match matched input with
  | .error _ => []
  | .ok st =>
      match st.module.dump with
      | .error _ => []
      | .ok text => text

def answer (n : Int) : Str := unlines '\n' ["[ ".toList ++ (toString n).toList]

/-- The text denotes a number: it has an expression, whose first one denotes a 64-bit integer, and
which is a single literal or has only literals that the verifier converts. -/
def Denotes (s : Str) (n : Int) : Prop :=
  ∃ e es w, DerivesAll s (e :: es) ∧ Flat.meaning e.flat = some ⟨64, w⟩ ∧ n = w.toInt ∧
    (e.tokens.length = 1 ∨ ∀ t ∈ e.tokens, t.type = .literalInt → Converts t.text)

section Parsing

private theorem dump_matched {s : Str} {st : ParseState} (run : matched s = .ok st) :
    ∃ text, st.module.dump = .ok text := by
  obtain ⟨methods, live, -⟩ := matched_onOneLine run
  exact ⟨_, bind_ok_iff.mpr ⟨_, Cxx.after_ok_iff.mpr (dumpMethods_lines live), rfl⟩⟩

private theorem parsePrinted_parse (s : Str) : (parsePrinted s).2 = parse s := by
  unfold parsePrinted parse
  cases run : matched s with
  | error e => rfl
  | ok st =>
      obtain ⟨text, printed⟩ := dump_matched run
      simp only [printed, bind, Except.bind]
      cases Verifier.verify st.module with
      | error e => rfl
      | ok verdict =>
          simp only [Cxx.faults_ok]
          split <;> rfl

/-- A session prints on until what ends it, and it ends as it does without printing. -/
theorem transcript_fault (llvm : Llvm) (lines : List Str) :
    (transcript llvm lines).2 = (main llvm lines).fault := by
  induction lines with
  | nil => rfl
  | cons s lines ih =>
      rw [main_cons, Session.after, body, transcript, turn]
      simp only [parsePrinted_parse]
      cases parse s with
      | error e => rfl
      | ok module =>
          simp only [bind, Except.bind]
          cases generate llvm module with
          | error e => rfl
          | ok cm =>
              simp only [Cxx.faults_ok]
              cases run llvm cm.1 with
              | error e => rfl
              | ok reply => exact ih

private theorem parsePrinted_some {s : Str} {m : Module} (parsed : parse s = .ok (some m)) :
    parsePrinted s = (listing s, .ok (some m)) := by
  obtain ⟨st, run, verdict⟩ := bind_ok_iff.mp parsed
  obtain ⟨⟨passed, after, out⟩, returned, ending⟩ := bind_ok_iff.mp verdict
  have verified := Cxx.faults_ok_iff.mp returned
  obtain ⟨text, printed⟩ := dump_matched run
  unfold parsePrinted listing
  simp only [run, printed, verified]
  cases passed with
  | false => exact absurd ending (by simp)
  | true =>
      obtain rfl := Option.some.inj (Except.ok.inj ending)
      obtain ⟨success, messages, -⟩ := methods_again verified
      have silent : out = [] := by
        rw [messages, List.flatMap_eq_nil_iff]
        exact fun t ht => messages_passed (List.all_eq_true.mp success.symm t ht)
      rw [silent]
      exact Prod.ext (List.append_nil text) rfl

end Parsing

section Answers

variable {llvm : Llvm}

private theorem run_returns (engine : ∀ cm, llvm.createEngine cm = .ok ())
    (compiled : ∀ cm f, llvm.compiles cm f = true) (name : Str) {f : Function}
    (entry : f.name = "__default__".toList) {w : Int} (returns : llvm.call f = .ok w) :
    run llvm ⟨name, [f]⟩ = .ok ["[ ".toList ++ (toString w).toList] := by
  unfold run
  simp only [engine, find_entry entry, compiled, if_true, returns]
  rfl

private theorem generable_of_meaning {c : Flat} {x : Word} (means : Flat.meaning c = some x) :
    ∀ u ∈ Flat.tokens c, Generable u.type u.text := by
  rw [← meaning_chainTree 0] at means
  obtain ⟨v, printed, value, -⟩ := (meaning_some _ _).mp means
  have generable := (getValue_some_iff (chainTree_strict 0 c)).mp ⟨v, printed, value⟩
  exact (forall_chainTree identifier_not_generable 0 c).mp generable

private theorem build_denotes (llvm : Llvm) {x : Method} {e : Expr} {w : BitVec 64}
    (trees : x.expressionList.map Ast.erase = [chainTree 0 e.flat])
    (means : Flat.meaning e.flat = some ⟨64, w⟩) :
    ∃ v, build llvm x = .ok (⟨x.name, llvm.inserted v.calls ++ [.ret (some v)]⟩, []) ∧
      v.WellTyped ∧ v.Defined ∧ ∀ u, v.Yields u ↔ u = w := by
  obtain ⟨t, ts, single, same, rest⟩ := List.map_eq_cons_iff.mp trees
  obtain rfl : ts = [] := List.map_eq_nil_iff.mp rest
  have strict : t.Strict := strict_of_erase same (chainTree_strict 0 e.flat)
  have generable := generable_of_meaning means
  have nodes := (forall_nodes_tokens (Q := Generable) same
    (generable_literal generable)).mpr generable
  obtain ⟨v, emitted, -⟩ := emitValue_generable strict nodes
  have value : v.term.eval words = some ⟨64, w⟩ := by
    have tree : meaning t = some ⟨64, w⟩ := by
      rw [← meaning_erase strict, same, meaning_chainTree, means]
    rw [meaning_eq, getValue_of_emitValue emitted] at tree
    exact tree
  have typed : v.WellTyped := (term_widths_long v).mp (words_widths.eval value)
  obtain ⟨defined, yields⟩ := typed.yields value
  refine ⟨v, ?_, typed, defined, yields⟩
  have block := statements_singleton llvm emitted
  rw [← single] at block
  exact bind_ok_iff.mpr ⟨_, block, rfl⟩

private theorem turn_denotes (documented : Documented llvm)
    (engine : ∀ cm, llvm.createEngine cm = .ok ()) (compiled : ∀ cm f, llvm.compiles cm f = true)
    {s : Str} {n : Int} (denotes : Denotes s n) :
    turn llvm s = (listing s ++ answer n, .ok ()) := by
  obtain ⟨e, es, w, derived, means, rfl, converts⟩ := denotes
  have generable : ∀ u ∈ e.tokens, Generable u.type u.text := by
    rw [Expr.tokens_eq]
    exact generable_of_meaning means
  obtain ⟨m, parsed⟩ := (parse_generable derived generable).mpr converts
  obtain ⟨x, rfl, name, trees⟩ := derived.parse_module parsed
  obtain ⟨v, built, typed, defined, yields⟩ := build_denotes llvm trees means
  rw [documented.inserted typed, List.nil_append] at built
  have wellFormed := wellFormed_constant x.name typed
  obtain ⟨result, returns, value⟩ := documented.returns _ v wellFormed rfl
  obtain ⟨u, yielded, rfl⟩ := value defined
  obtain rfl := (yields u).mp yielded
  have generated := (generate_mainModule llvm x _).mpr
    ⟨_, _, built, (documented.verifies _).mpr wellFormed, rfl⟩
  have ran := run_returns engine compiled "__main__".toList name returns
  unfold turn
  simp only [parsePrinted_some parsed, generated, ran]
  show (listing s ++ [] ++ answer u.toInt, Except.ok ()) =
      (listing s ++ answer u.toInt, Except.ok ())
  rw [List.append_nil]

private theorem denotes_one_two : Denotes "1 + 2".toList 3 := by
  have means : Flat.meaning (.link (.literal ['1']) ['+'] (.last (.literal ['2']))) =
      some ⟨64, 3⟩ := rfl
  have converts := (parse_generable derives_one_two (generable_of_meaning means)).mp parse_one_two
  exact ⟨_, [], 3, derives_one_two, means, rfl, converts⟩

end Answers

section Numbers

private theorem magnitude_toDigits (k : Nat) :
    (∀ c ∈ Nat.toDigits 10 k, isDecimal c = true) ∧ magnitude 10 (Nat.toDigits 10 k) = k := by
  have decimal : ∀ c ∈ Nat.toDigits 10 k, isDecimal c = true := by
    intro c hc
    exact Nat.isDigit_of_mem_toDigits (by omega) (by omega) hc
  refine ⟨decimal, ?_⟩
  have same : ∀ (ds : Str) (acc : Nat), (∀ c ∈ ds, isDecimal c = true) →
      ds.foldl (fun acc c => acc * 10 + digitValue c) acc = Nat.ofDigitChars 10 ds acc := by
    intro ds
    induction ds with
    | nil => intro acc _; rfl
    | cons c ds ih =>
        intro acc digits
        have value : digitValue c = c.toNat - '0'.toNat := by
          have digit := digits c List.mem_cons_self
          rw [isDecimal, Bool.and_eq_true, decide_eq_true_eq, decide_eq_true_eq] at digit
          exact if_pos digit
        rw [List.foldl_cons, Nat.ofDigitChars_cons,
          ih _ fun d hd => digits d (List.mem_cons_of_mem c hd),
          value, Nat.mul_comm]
  rw [magnitude, same _ 0 decimal]
  exact Nat.ofDigitChars_ten_toDigits

private theorem toString_lexeme (n : Int) :
    ∃ x : IntegerLexeme, x.text = (toString n).toList ∧ decimalValue x = n := by
  cases n with
  | ofNat k =>
      obtain ⟨decimal, value⟩ := magnitude_toDigits k
      refine ⟨⟨[], Nat.toDigits 10 k, [], .inl rfl, Nat.toDigits_ne_nil, decimal, by simp⟩, ?_, ?_⟩
      · show [] ++ Nat.toDigits 10 k ++ [] = k.repr.toList
        rw [Nat.toList_repr, List.nil_append, List.append_nil]
      · show ((magnitude 10 (Nat.toDigits 10 k) : Nat) : Int) = k
        rw [value]
  | negSucc k =>
      obtain ⟨decimal, value⟩ := magnitude_toDigits (k + 1)
      refine ⟨⟨['-'], Nat.toDigits 10 (k + 1), [], .inr ⟨'-', rfl, rfl⟩, Nat.toDigits_ne_nil,
        decimal,
        by simp⟩, ?_, ?_⟩
      · show ['-'] ++ Nat.toDigits 10 (k + 1) ++ [] = ("-" ++ (k + 1).repr).toList
        rw [String.toList_append, Nat.toList_repr, List.append_nil]
        rfl
      · show -((magnitude 10 (Nat.toDigits 10 (k + 1)) : Nat) : Int) = Int.negSucc k
        rw [value]
        rfl

private theorem derives_literal {t : Str} (text : IntegerText t) :
    DerivesAll t [.operand (.literal t)] := by
  obtain ⟨x, rest, split, -, lexed⟩ := text.lex []
  obtain ⟨rfl, rfl⟩ := List.append_eq_nil_iff.mp split.symm
  have skipped := text.skip []
  rw [List.append_nil] at lexed skipped
  obtain ⟨c, s, rfl, head⟩ := text.head
  have start : atEol (c :: s) = false := by
    apply atEol_of_not_space
    rcases head with sign | digit
    · exact (opChar_plain (sign_opChar sign)).1
    · exact (identChar_plain (digit_identChar digit)).2.1
  have read : lexInteger (skip (c :: s)) = some (c :: s, []) := by rw [skipped, lexed]
  exact .cons start (.single (.integer read) rfl) (.nil rfl)

private theorem generate_failed (llvm : Llvm) {x : Method} {e : Thrown}
    (failed : build llvm x = .error e) :
    generate llvm (some (mainModule x)) = .error e := by
  have entry : silently ((mainModule x).deref (some 0)) = .ok x := rfl
  have here : method llvm x = .error e := bind_error_iff.mpr (.inl failed)
  rw [generate, mainModule_methods]
  exact bind_error_iff.mpr (.inl (bind_error_iff.mpr
    (.inr ⟨x, entry, bind_error_iff.mpr (.inl here)⟩)))

private theorem denotes_literal {x : IntegerLexeme}
    (range : -(2 ^ 31 : Int) ≤ decimalValue x ∧ decimalValue x < 2 ^ 31) :
    Denotes x.text (decimalValue x) := by
  have constant := constantInt_text x
  rw [if_pos range] at constant
  obtain ⟨v, read, ending⟩ := bind_ok_iff.mp constant
  have bits := Value.constantInt.inj (Except.ok.inj ending)
  refine ⟨_, [], BitVec.ofInt 64 (decimalValue x),
    derives_literal ((integerText_iff _).mpr ⟨x, rfl⟩), ?_, ?_, .inl rfl⟩
  · show Operand.meaning (.literal x.text) = _
    simp only [Operand.meaning, read, bits]
  · rw [BitVec.toInt_ofInt, Int.bmod_eq_of_le]
    · omega
    · omega

private theorem turn_literal_beyond (llvm : Llvm) {x : IntegerLexeme}
    (beyond : ¬ (-(2 ^ 31 : Int) ≤ decimalValue x ∧ decimalValue x < 2 ^ 31)) :
    turn llvm x.text = (listing x.text, .error (.outOfRange "stoi".toList)) := by
  have constant := constantInt_text x
  rw [if_neg beyond] at constant
  have derived := derives_literal ((integerText_iff _).mpr ⟨x, rfl⟩)
  have parsed : parse x.text =
      .ok (some (mainModule (defaultMethod [Operand.node 0 (.literal x.text)]))) :=
        derived.parse_cons
  have built : build llvm (defaultMethod [Operand.node 0 (.literal x.text)]) =
      .error ⟨.outOfRange "stoi".toList, []⟩ := by
    have thrown : silently (constantInt x.text) = .error ⟨.outOfRange "stoi".toList, []⟩ := by
      rw [constant]
      rfl
    refine bind_error_iff.mpr (.inl (bind_error_iff.mpr (.inl ?_)))
    exact bind_error_iff.mpr (.inl thrown)
  unfold turn
  simp only [parsePrinted_some parsed, generate_failed llvm built]
  rw [show unlines '\n' [] = [] from rfl, List.append_nil]

/-- A number that has been printed, entered as a line, is printed again, as long as it has
at most 32 bits. Any other number ends the session. -/
theorem turn_printed {llvm : Llvm} (documented : Documented llvm)
    (engine : ∀ cm, llvm.createEngine cm = .ok ()) (compiled : ∀ cm f, llvm.compiles cm f = true)
    (n : Int) :
    turn llvm (toString n).toList =
      if -(2 ^ 31 : Int) ≤ n ∧ n < 2 ^ 31 then
        (listing (toString n).toList ++ answer n, .ok ())
      else (listing (toString n).toList, .error (.outOfRange "stoi".toList)) := by
  obtain ⟨x, text, value⟩ := toString_lexeme n
  rw [← text, ← value]
  by_cases range : -(2 ^ 31 : Int) ≤ decimalValue x ∧ decimalValue x < 2 ^ 31
  · rw [if_pos range]
    exact turn_denotes documented engine compiled (denotes_literal range)
  · rw [if_neg range]
    exact turn_literal_beyond llvm range

theorem turn_printed_negative :
    turn foldingLibrary (toString (-5 : Int)).toList =
      (listing (toString (-5 : Int)).toList ++ answer (-5), .ok ()) := by
  rw [turn_printed foldingLibrary_documented (fun _ => rfl) (fun _ _ => rfl)]
  rfl

end Numbers

end Amalgam.Driver
