/- Module: Amalgam/Driver/Loop
   digest: The read-eval loop, and the lines that it survives. -/

import Amalgam.Codegen.Meaning

set_option autoImplicit false
set_option relaxedAutoImplicit false

namespace Amalgam.Driver

open Amalgam.Cxx (Fault faults)
open Amalgam.Pegtl (Str)
open Amalgam.Parser
open Amalgam.Codegen

/-- A session: the arguments of `generate` so far, and what ended it before the end of
input, if anything did. -/
structure Session where
  generated : List (Option Module) := []
  fault : Option Fault := none

/-- The body of the loop: the argument of `generate`, if it is called, and how the body
ends. Nothing that a call throws is caught. -/
def body (llvm : Llvm) (input : Str) : List (Option Module) × Except Fault (List Str) :=
  match parse input with
  | .error e => ([], .error e)
  | .ok module =>
      ([module], do
        let cm ← faults (generate llvm module)
        run llvm cm.1)

def Session.after (turn : List (Option Module) × Except Fault (List Str)) (rest : Session) :
    Session :=
  match turn.2 with
  | .error e => ⟨turn.1, some e⟩
  | .ok _ => ⟨turn.1 ++ rest.generated, rest.fault⟩

def main (llvm : Llvm) : List Str → Session
  | [] => {}
  | input :: rest => Session.after (body llvm input) (main llvm rest)

/-- The session takes in all lines, and none leads to the null module. -/
def Session.Survives (session : Session) (lines : List Str) : Prop :=
  session.fault = none ∧ session.generated.length = lines.length ∧
    ∀ m ∈ session.generated, m ≠ none

/-- The block ends in its only return, and keeps the type rules. -/
def WellFormed (f : Function) : Prop :=
  ∃ body v, f.entry = body ++ [.ret (some v)] ∧ (∀ i ∈ body, i.isRet = false) ∧
    (∀ c, .call c ∈ body → c.left.width = c.right.width) ∧ v.WellTyped

/-- What is documented of the library. A function is aborted on when it is broken, and only
then. The builder folds operations on constants, and there are no values but constants. Code
that returns a constant returns a number: that of the constant, if this is defined. -/
structure Documented (llvm : Llvm) : Prop where
  verifies : ∀ f, llvm.verifyFunction f = .ok () ↔ WellFormed f
  folds : ∀ c, Call.WellTyped c → llvm.folds c = true
  returns : ∀ f v, WellFormed f → f.entry = [.ret (some v)] →
    ∃ w, llvm.call f = .ok w ∧ (v.Defined → ∃ u, v.Yields u ∧ w = u.toInt)

/-- The text has an expression, and the first one is built from literals that the
generator converts and built-in operators other than comparisons; unless it is a single
literal, the verifier converts its literals as well. -/
def Good (s : Str) : Prop :=
  ∃ e es, DerivesAll s (e :: es) ∧
    (∀ t ∈ e.tokens, Generable t.type t.text ∧ ¬ Compares t.type t.text) ∧
    (e.tokens.length = 1 ∨ ∀ t ∈ e.tokens, t.type = .literalInt → Converts t.text)

section Session

variable {llvm : Llvm}

def Completes (llvm : Llvm) (s : Str) : Prop :=
  ∃ m cm printed, parse s = .ok (some m) ∧ generate llvm (some m) = .ok cm ∧
    run llvm cm.1 = .ok printed

private theorem body_ok (s : Str) (printed : List Str) :
    (body llvm s).2 = .ok printed ↔ ∃ m cm, (body llvm s).1 = [some m] ∧
      parse s = .ok (some m) ∧ generate llvm (some m) = .ok cm ∧ run llvm cm.1 = .ok printed := by
  unfold body
  cases parse s with
  | error e => simp
  | ok module =>
      simp only
      rw [bind_ok_iff]
      simp only [Cxx.faults_ok_iff]
      cases module with
      | none => simp [generate]
      | some m =>
          constructor
          · rintro ⟨cm, generated, ran⟩
            exact ⟨m, cm, rfl, rfl, generated, ran⟩
          · rintro ⟨m', cm, same, -, generated, ran⟩
            obtain rfl := Option.some.inj (List.singleton_inj.mp same)
            exact ⟨cm, generated, ran⟩

private theorem body_of_completes {s : Str} (h : Completes llvm s) :
    ∃ printed, (body llvm s).2 = .ok printed := by
  obtain ⟨m, cm, printed, parsed, generated, ran⟩ := h
  refine ⟨printed, (body_ok s printed).mpr ⟨m, cm, ?_, parsed, generated, ran⟩⟩
  unfold body
  rw [parsed]

theorem main_cons (s : Str) (lines : List Str) :
    main llvm (s :: lines) = Session.after (body llvm s) (main llvm lines) := rfl

private theorem survives_cons (s : Str) (lines : List Str) :
    (main llvm (s :: lines)).Survives (s :: lines) ↔
      Completes llvm s ∧ (main llvm lines).Survives lines := by
  rw [main_cons, Session.after]
  cases ending : (body llvm s).2 with
  | error e =>
      constructor
      · intro survives
        exact absurd survives.1 (by simp)
      · rintro ⟨completes, -⟩
        obtain ⟨printed, ok⟩ := body_of_completes completes
        rw [ending] at ok
        simp at ok
  | ok printed =>
      obtain ⟨m, cm, given, parsed, generated, ran⟩ := (body_ok s printed).mp ending
      rw [and_iff_right ⟨m, cm, printed, parsed, generated, ran⟩, given]
      simp [Session.Survives]

private theorem survives_iff (lines : List Str) :
    (main llvm lines).Survives lines ↔ ∀ s ∈ lines, Completes llvm s := by
  induction lines with
  | nil => simp [main, Session.Survives]
  | cons s lines ih => rw [survives_cons, ih, List.forall_mem_cons]

end Session

section Turn

/-- Generating the module of a parse is building and checking its only method. -/
theorem generate_mainModule (llvm : Llvm) (x : Method) (cm : Program × List Str) :
    generate llvm (some (mainModule x)) = .ok cm ↔
      ∃ f out, build llvm x = .ok (f, out) ∧ llvm.verifyFunction f = .ok () ∧
        cm = (⟨"__main__".toList, [f]⟩, out) := by
  have entry : (mainModule x).deref (some 0) = .ok x := rfl
  have single : methods llvm (mainModule x) (mainModule x).methods.toList = (do
      let here ← method llvm x
      .ok ([here.1], here.2)) := by
    rw [mainModule_methods]
    simp only [methods, entry, bind, Except.bind, Cxx.silently_ok, Cxx.after_ok]
    cases method llvm x with
    | error e => rfl
    | ok here => simp only [List.append_nil]
  rw [generate, single]
  constructor
  · intro generated
    obtain ⟨functions, listed, same⟩ := bind_ok_iff.mp generated
    obtain ⟨here, built, only⟩ := bind_ok_iff.mp listed
    obtain ⟨⟨f, out⟩, code, checked⟩ := bind_ok_iff.mp built
    obtain ⟨⟨⟩, verified, kept⟩ := bind_ok_iff.mp checked
    obtain rfl := Except.ok.inj kept
    obtain rfl := Except.ok.inj only
    have passed := Cxx.silently_ok_iff.mp (Cxx.after_ok_iff.mp verified)
    exact ⟨f, out, code, passed, (Except.ok.inj same).symm⟩
  · rintro ⟨f, out, code, verified, rfl⟩
    have built : method llvm x = .ok (f, out) :=
      bind_ok_iff.mpr ⟨(f, out), code, bind_ok_iff.mpr
        ⟨(), Cxx.after_ok_iff.mpr (Cxx.silently_ok_iff.mpr verified), rfl⟩⟩
    exact bind_ok_iff.mpr ⟨_, bind_ok_iff.mpr ⟨_, built, rfl⟩, rfl⟩

theorem find_entry {f : Function} (entry : f.name = "__default__".toList) :
    [f].find? (fun f => f.name = "__default__".toList) = some f :=
  List.find?_cons_of_pos (decide_eq_true entry)

private theorem run_single {llvm : Llvm} (name : Str) {f : Function}
    (entry : f.name = "__default__".toList) {w : Int}
    (returns : llvm.call f = .ok w) : ∃ printed, run llvm ⟨name, [f]⟩ = .ok printed := by
  unfold run
  cases llvm.createEngine ⟨name, [f]⟩ with
  | error error => exact ⟨_, rfl⟩
  | ok _ =>
      simp only [find_entry entry, returns]
      by_cases compiled : llvm.compiles ⟨name, [f]⟩ f = true
      · rw [if_pos compiled]
        exact ⟨_, rfl⟩
      · rw [if_neg compiled]
        exact ⟨_, rfl⟩

end Turn

section Lines

theorem generable_literal {c : Flat} (generable : ∀ u ∈ Flat.tokens c, Generable u.type u.text) :
    ∀ u ∈ Flat.tokens c, u.type ≠ .identifier := by
  intro u hu isIdentifier
  have := generable u hu
  rw [isIdentifier] at this
  exact identifier_not_generable u.text this

private theorem build_generable (llvm : Llvm) {x : Method} {e : Expr}
    (trees : x.expressionList.map Ast.erase = [chainTree 0 e.flat])
    (generable : ∀ u ∈ e.tokens, Generable u.type u.text) :
    ∃ v, build llvm x = .ok (⟨x.name, llvm.inserted v.calls ++ [.ret (some v)]⟩, []) ∧
      (v.WellTyped ↔ ∀ u ∈ e.tokens, ¬ Compares u.type u.text) := by
  obtain ⟨t, ts, single, same, rest⟩ := List.map_eq_cons_iff.mp trees
  obtain rfl : ts = [] := List.map_eq_nil_iff.mp rest
  have strict : t.Strict := strict_of_erase same (chainTree_strict 0 e.flat)
  rw [Expr.tokens_eq] at generable ⊢
  have literal := generable_literal generable
  have nodes := (forall_nodes_tokens (Q := Generable) same literal).mpr generable
  obtain ⟨v, emitted, typed⟩ := emitValue_generable strict nodes
  refine ⟨v, ?_, ?_⟩
  · have block := statements_singleton llvm emitted
    rw [← single] at block
    exact bind_ok_iff.mpr ⟨_, block, rfl⟩
  · rw [v.wellTyped_iff, typed]
    exact forall_nodes_tokens (Q := fun type data => ¬ Compares type data) same literal

/-- A text whose first expression can be generated passes the verifier when this is a
single literal, or the verifier converts all its literals. -/
theorem parse_generable {s : Str} {e : Expr} {es : List Expr} (derived : DerivesAll s (e :: es))
    (generable : ∀ u ∈ e.tokens, Generable u.type u.text) :
    (∃ m, parse s = .ok (some m)) ↔
      e.tokens.length = 1 ∨ ∀ u ∈ e.tokens, u.type = .literalInt → Converts u.text := by
  rw [derived.parse_some_iff, Expr.tokens_eq]
  rw [Expr.tokens_eq] at generable
  cases flat : e.flat with
  | last a => simp [Flat.tokens_last]
  | link a o c =>
      rw [flat] at generable
      have several : (Flat.tokens (.link a o c)).length ≠ 1 := by
        simp [Flat.tokens_link]
      have literals : (∀ tok ∈ (chainTree 0 (.link a o c)).literals, Converts tok) ↔
          ∀ u ∈ Flat.tokens (.link a o c), u.type = .literalInt → Converts u.text := by
        simp only [Ast.literals, List.forall_mem_map, List.mem_filter, decide_eq_true_eq, and_imp]
        exact forall_nodes_tokens (Q := fun type data => type = .literalInt → Converts data)
          (chainTree_erase 0 _) (generable_literal generable)
      rw [or_iff_right several, ← literals]
      rw [Flat.tokens_link, List.forall_mem_cons, List.forall_mem_cons] at generable
      obtain ⟨first, known, -⟩ := generable
      cases a with
      | identifier text => exact absurd first (identifier_not_generable text)
      | literal text =>
          constructor
          · intro condition
            exact (condition text o c rfl).2
          · rintro converts text' o' c' same
            obtain ⟨-, rfl, -⟩ := Chain.link.inj same
            refine ⟨?_, converts⟩
            rintro rfl
            rcases known with ⟨-, known⟩ | ⟨literal, -⟩
            · exact absurd known (by decide)
            · simp [opToken] at literal

/-- Values of equal types are folded all the way down: nothing is left to be executed. -/
theorem Documented.inserted {llvm : Llvm} (documented : Documented llvm) {v : Value}
    (typed : v.WellTyped) : llvm.inserted v.calls = [] := by
  obtain ⟨long, -⟩ := v.wellTyped_iff.mp typed
  have folded : v.calls.filter (fun c => !llvm.folds c) = [] := by
    rw [List.filter_eq_nil_iff]
    intro c hc
    rw [documented.folds c (long c hc)]
    simp
  rw [Llvm.inserted, folded]
  rfl

/-- What is well typed is well formed as a function. -/
theorem wellFormed_constant (name : Str) {v : Value} (typed : v.WellTyped) :
    WellFormed ⟨name, [.ret (some v)]⟩ := ⟨[], v, rfl, by simp, by simp, typed⟩

variable {llvm : Llvm}

theorem Good.completes (documented : Documented llvm) {s : Str} (good : Good s) :
    Completes llvm s := by
  obtain ⟨e, es, derived, tokens, converts⟩ := good
  have generable : ∀ u ∈ e.tokens, Generable u.type u.text := fun u hu => (tokens u hu).1
  obtain ⟨m, parsed⟩ := (parse_generable derived generable).mpr converts
  obtain ⟨x, rfl, name, trees⟩ := derived.parse_module parsed
  obtain ⟨v, built, types⟩ := build_generable llvm trees generable
  have typed : v.WellTyped := types.mpr fun u hu => (tokens u hu).2
  rw [documented.inserted typed, List.nil_append] at built
  have wellFormed := wellFormed_constant x.name typed
  obtain ⟨w, returns, -⟩ := documented.returns _ v wellFormed rfl
  obtain ⟨printed, ran⟩ := run_single "__main__".toList name returns
  have generated := (generate_mainModule llvm x _).mpr
    ⟨_, _, built, (documented.verifies _).mpr wellFormed, rfl⟩
  exact ⟨mainModule x, _, printed, parsed, generated, ran⟩

private theorem good_of_completes (documented : Documented llvm) {s : Str}
    (completes : Completes llvm s) : Good s := by
  obtain ⟨m, cm, printed, parsed, generated, -⟩ := completes
  obtain ⟨es, derived⟩ := parse_derives parsed
  obtain ⟨x, rfl, name, trees⟩ := derived.parse_module parsed
  obtain ⟨f, out, built, verified, rfl⟩ := (generate_mainModule llvm x cm).mp generated
  obtain ⟨body, v, entry, plain, -, typed⟩ := (documented.verifies f).mp verified
  obtain ⟨e, others, rfl, generable⟩ :=
    (parse_wellTerminated llvm derived parsed).mp ⟨f, out, built, body, v, entry, plain⟩
  obtain ⟨v', built', types⟩ := build_generable llvm trees generable
  obtain ⟨rfl, -⟩ := Prod.mk.inj (Except.ok.inj (built.symm.trans built'))
  obtain ⟨-, last⟩ := List.append_inj' entry rfl
  obtain rfl := Option.some.inj (Instruction.ret.inj (List.singleton_inj.mp last))
  have converts := (parse_generable derived generable).mp ⟨_, parsed⟩
  exact ⟨e, others, derived, fun u hu => ⟨generable u hu, types.mp typed u hu⟩, converts⟩

private theorem yields_exists (v : Value) : ∃ w, v.Yields w := by
  induction v with
  | constantInt v => exact ⟨v, rfl⟩
  | binary op l r ihl ihr =>
      obtain ⟨a, left⟩ := ihl
      obtain ⟨b, right⟩ := ihr
      have result : ∃ w, op.Yields a b w := by
        cases op with
        | shl => exact ⟨a <<< b, fun _ => rfl⟩
        | lshr => exact ⟨a >>> b, fun _ => rfl⟩
        | _ => exact ⟨_, rfl⟩
      obtain ⟨w, result⟩ := result
      exact ⟨w, a, b, left, right, result⟩

open Classical in
/-- A library that folds everything, and where a value may be many numbers takes one of them. -/
noncomputable def foldingLibrary : Llvm where
  folds _ := true
  verifyFunction f := if WellFormed f then .ok () else .error .assertionFailed
  createEngine _ := .ok ()
  compiles _ _ := true
  call f :=
    match f.entry.getLast? with
    | some (.ret (some v)) => .ok (Classical.choose (yields_exists v)).toInt
    | _ => .error .assertionFailed

theorem foldingLibrary_documented : Documented foldingLibrary where
  verifies f := by
    by_cases wellFormed : WellFormed f
    · simp [foldingLibrary, wellFormed]
    · simp [foldingLibrary, wellFormed]
  folds c _ := rfl
  returns f v _ entry := by
    refine ⟨(Classical.choose (yields_exists v)).toInt, ?_, ?_⟩
    · simp [foldingLibrary, entry]
    · intro _
      exact ⟨_, Classical.choose_spec (yields_exists v), rfl⟩

private theorem not_derives_opened {es : List Expr} : ¬ DerivesAll ['('] es := by
  have atom : ∀ {e rest}, ¬ Derives .atom ['('] e rest := by
    intro e rest derived
    cases derived with
    | integer lexed => simp [(lexemes_opened _).1, skip_cons (c := '(') rfl] at lexed
    | identifier _ lexed => simp [(lexemes_opened _).2, skip_cons (c := '(') rfl] at lexed
    | group opened inside =>
        obtain ⟨-, rfl⟩ := List.cons.inj opened
        have := inside.length_lt
        simp at this
  intro derived
  cases derived with
  | nil stop => exact absurd stop (by decide)
  | cons _ first _ =>
      cases first with
      | single operand _ => exact atom operand
      | binary operand _ _ => exact atom operand

end Lines

end Amalgam.Driver
