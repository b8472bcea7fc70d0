/- Module: Amalgam/Parser/Dump
   digest: The listing of a module, and what can be read back from it. -/

import Amalgam.Codegen.Generator
import Amalgam.Outline.Forest
import Amalgam.Parser.SweptTrees

set_option autoImplicit false
set_option relaxedAutoImplicit false

namespace Amalgam.Parser

open Amalgam.Cxx (Thrown silently after)
open Amalgam.Pegtl (Str)
open Amalgam.Codegen (nodeTypeIndex)
open Amalgam.Outline (Forest unlines linesOf)

def typeText (type : NodeType) : Str := (toString (nodeTypeIndex type)).toList

def childLine (indent : Nat) (type : NodeType) (data : Str) : Str :=
  List.replicate indent ' ' ++ '|' :: (typeText type ++ ": '".toList ++ data ++ ['\''])

mutual

/-- `print_children`: the children, each followed by its own children. -/
def printChildren (indent : Nat) : Ast → List Str
  | .mk _ _ _ children _ => printAll indent children

def printAll (indent : Nat) : List Ast → List Str
  | [] => []
  | c :: cs => childLine indent c.type c.data ::
      (printChildren (indent + 1) c ++ printAll indent cs)

end

def rootLine (type : NodeType) (data : Str) : Str :=
  typeText type ++ ":'".toList ++ data ++ ['\'']

/-- `method::dump`: every tree after an empty line. -/
def Method.dump (m : Method) : List Str :=
  m.expressionList.flatMap fun n => [] :: rootLine n.type n.data :: printChildren 1 n

def Module.dumpMethods (m : Module) : List (Str × Option MethodPtr) → Except Thrown (List Str)
  | [] => .ok []
  | me :: rest => do
      let x ← silently (m.deref me.2)
      let here := ("Method: ".toList ++ x.name) :: x.dump
      let others ← after here (m.dumpMethods rest)
      .ok (here ++ others)

/-- `module::dump`, as the text that is printed. -/
def Module.dump (m : Module) : Except Thrown Str := do
  let header := "Module: ".toList ++ m.name
  let lines ← after [header] (m.dumpMethods m.methods.toList)
  .ok (unlines '\n' (header :: lines))

inductive Heading where
  | module (name : Str)
  | method (name : Str)
  | node (type : NodeType) (data : Str)
  deriving DecidableEq

mutual

/-- A tree without addresses and semantic types, before others. -/
def Ast.graft : Ast → Forest Heading → Forest Heading
  | .mk _ type data children _, rest => .cons (.node type data) (graftAll children) rest

def graftAll : List Ast → Forest Heading
  | [] => .nil
  | c :: cs => c.graft (graftAll cs)

end

def methodsForest : List Method → Forest Heading
  | [] => .nil
  | x :: xs => .cons (.method x.name) (graftAll x.expressionList) (methodsForest xs)

/-- The name of a module over its methods, each over its trees. -/
def contents (name : Str) (methods : List Method) : Forest Heading :=
  .cons (.module name) (methodsForest methods) .nil

section Reading

def typeOf : Char → Option NodeType
  | '0' => some .literalInt
  | '1' => some .identifier
  | '2' => some .op
  | '3' => some .group
  | _ => none

def readNode (separator : Str) : Str → Option Heading
  | [] => none
  | c :: rest =>
      match typeOf c, rest.dropPrefix? separator with
      | some type, some quoted => some (.node type quoted.dropLast)
      | _, _ => none

def readTree (line : Str) : Option (Nat × Heading) :=
  match line.dropWhile (· == ' ') with
  | '|' :: rest =>
      (readNode ": '".toList rest).map fun h => ((line.takeWhile (· == ' ')).length + 2, h)
  | rest => (readNode ":'".toList rest).map fun h => (2, h)

/-- The heading of a line and its depth. Empty lines have none. -/
def readLine (line : Str) : Option (Nat × Heading) :=
  match line.dropPrefix? "Module: ".toList with
  | some name => some (0, .module name)
  | none =>
      match line.dropPrefix? "Method: ".toList with
      | some name => some (1, .method name)
      | none => readTree line

/-- Read a listing. -/
def undump (text : Str) : Forest Heading :=
  let entries := (linesOf '\n' text).filterMap readLine
  (Forest.read entries.length 0 entries).1

end Reading

section Lines

def headingLines : Nat × Heading → List Str
  | (_, .module name) => ["Module: ".toList ++ name]
  | (_, .method name) => ["Method: ".toList ++ name]
  | (depth, .node type data) =>
      if depth = 2 then [[], rootLine type data] else [childLine (depth - 2) type data]

private theorem readNode_text (type : NodeType) (separator data : Str) :
    readNode separator (typeText type ++ separator ++ data ++ ['\'']) = some (.node type data) := by
  have dropped : (separator ++ (data ++ ['\''])).dropPrefix? separator = some (data ++ ['\'']) :=
    List.dropPrefix?_append_of_beq _ BEq.rfl
  have one : ∃ c, typeText type = [c] ∧ typeOf c = some type := by
    cases type with
    | literalInt => exact ⟨'0', rfl, rfl⟩
    | identifier => exact ⟨'1', rfl, rfl⟩
    | op => exact ⟨'2', rfl, rfl⟩
    | group => exact ⟨'3', rfl, rfl⟩
  obtain ⟨c, digit, known⟩ := one
  rw [digit, List.append_assoc, List.append_assoc, List.singleton_append, readNode, known, dropped]
  simp only [List.dropLast_concat]

private theorem typeText_head (type : NodeType) (rest : Str) :
    ∃ c s, typeText type ++ rest = c :: s ∧ c ≠ ' ' ∧ c ≠ '|' ∧ c ≠ 'M' := by
  cases type with
  | literalInt => exact ⟨'0', rest, rfl, by decide⟩
  | identifier => exact ⟨'1', rest, rfl, by decide⟩
  | op => exact ⟨'2', rest, rfl, by decide⟩
  | group => exact ⟨'3', rest, rfl, by decide⟩

private theorem dropPrefix_other {c d : Char} (other : c ≠ d) (p s : Str) :
    (c :: s).dropPrefix? (d :: p) = none := by
  cases found : (c :: s).dropPrefix? (d :: p) with
  | none => rfl
  | some rest =>
      obtain ⟨front, split, same⟩ := List.dropPrefix?_eq_some_iff.mp found
      rw [beq_iff_eq.mp same] at split
      exact absurd (List.cons.inj split).1 other

private theorem readLine_tree {c : Char} (other : c ≠ 'M') (s : Str) :
    readLine (c :: s) = readTree (c :: s) := by
  have noModule : (c :: s).dropPrefix? "Module: ".toList = none := dropPrefix_other other _ s
  have noMethod : (c :: s).dropPrefix? "Method: ".toList = none := dropPrefix_other other _ s
  rw [readLine, noModule]
  simp only [noMethod]

private theorem readLine_root (type : NodeType) (data : Str) :
    readLine (rootLine type data) = some (2, .node type data) := by
  obtain ⟨c, s, head, noSpace, noBar, noLetter⟩ :=
    typeText_head type (":'".toList ++ data ++ ['\''])
  have shape : rootLine type data = c :: s := by
    rw [rootLine, ← head]
    simp only [List.append_assoc]
  have node := readNode_text type ":'".toList data
  have same : typeText type ++ ":'".toList ++ data ++ ['\''] = c :: s := shape
  rw [same] at node
  rw [shape, readLine_tree noLetter, readTree, List.dropWhile_cons_of_neg (by simpa using noSpace)]
  split
  · rename_i bar
    exact absurd (List.cons.inj bar).1 noBar
  · rw [node]
    rfl

private theorem readLine_child (indent : Nat) (type : NodeType) (data : Str) :
    readLine (childLine (indent + 1) type data) = some (indent + 3, .node type data) := by
  have spaces : ∀ c ∈ List.replicate (indent + 1) ' ', (c == ' ') = true := by
    intro c hc
    rw [List.eq_of_mem_replicate hc]
    rfl
  have head : childLine (indent + 1) type data = ' ' :: (List.replicate indent ' ' ++
      '|' :: (typeText type ++ ": '".toList ++ data ++ ['\''])) := rfl
  have split : (childLine (indent + 1) type data).dropWhile (· == ' ') =
      '|' :: (typeText type ++ ": '".toList ++ data ++ ['\'']) := by
    rw [childLine, List.dropWhile_append_of_pos spaces]
    rfl
  have front : (childLine (indent + 1) type data).takeWhile (· == ' ') =
      List.replicate (indent + 1) ' ' := by
    rw [childLine, List.takeWhile_append_of_pos spaces]
    simp
  have node := readNode_text type ": '".toList data
  rw [head, readLine_tree (by decide), ← head, readTree, split]
  simp only [node, front, List.length_replicate]
  rfl

end Lines

section Listings

private theorem graft_eq (t : Ast) (rest : Forest Heading) :
    t.graft rest = .cons (.node t.type t.data) (graftAll t.children) rest := by
  cases t
  rfl

private theorem printChildren_eq (indent : Nat) (t : Ast) :
    printChildren indent t = printAll indent t.children := by
  cases t
  rfl

private theorem printAll_lines {cs : List Ast} (below : ∀ c ∈ cs, ∀ indent,
      printAll (indent + 1) c.children =
        ((graftAll c.children).outline (indent + 3)).flatMap headingLines) (indent : Nat) :
    printAll (indent + 1) cs = ((graftAll cs).outline (indent + 3)).flatMap headingLines := by
  induction cs with
  | nil => rfl
  | cons c cs ih =>
      have others := ih fun d hd => below d (List.mem_cons_of_mem c hd)
      have inside := below c List.mem_cons_self (indent + 1)
      rw [printAll, printChildren_eq, inside, others, graftAll, graft_eq, Forest.outline,
        List.flatMap_cons, List.flatMap_append]
      rfl

private theorem printChildren_lines (t : Ast) (indent : Nat) :
    printAll (indent + 1) t.children =
      ((graftAll t.children).outline (indent + 3)).flatMap headingLines := by
  induction t using Ast.induct generalizing indent with
  | h address type data children semanticType ih => exact printAll_lines ih indent

private theorem Method.dump_lines (m : Method) :
    m.dump = ((graftAll m.expressionList).outline 2).flatMap headingLines := by
  rw [Method.dump]
  induction m.expressionList with
  | nil => rfl
  | cons t ts ih =>
      rw [List.flatMap_cons, ih, printChildren_eq, printChildren_lines, graftAll, graft_eq,
        Forest.outline, List.flatMap_cons, List.flatMap_append]
      rfl

/-- The listing of all entries of a method map that lead to methods. -/
theorem dumpMethods_lines {m : Module} {entries : List (Str × Option MethodPtr)}
    {methods : List Method} (live : entries.mapM (fun me => m.deref me.2) = .ok methods) :
    m.dumpMethods entries = .ok (((methodsForest methods).outline 1).flatMap headingLines) := by
  induction entries generalizing methods with
  | nil =>
      obtain rfl := Except.ok.inj live
      rfl
  | cons me entries ih =>
      rw [List.mapM_cons] at live
      obtain ⟨x, object, live⟩ := bind_ok_iff.mp live
      obtain ⟨xs, others, live⟩ := bind_ok_iff.mp live
      obtain rfl := Except.ok.inj live
      apply bind_ok_iff.mpr
      refine ⟨x, Cxx.silently_ok_iff.mpr object, bind_ok_iff.mpr
        ⟨_, Cxx.after_ok_iff.mpr (ih others), ?_⟩⟩
      rw [methodsForest, Forest.outline, List.flatMap_cons, List.flatMap_append, ← x.dump_lines]
      rfl

end Listings

section RoundTrip

def Placed : Nat × Heading → Prop
  | (depth, .module _) => depth = 0
  | (depth, .method _) => depth = 1
  | (depth, .node _ _) => 2 ≤ depth

def Heading.Plain : Heading → Prop
  | .module name => '\n' ∉ name
  | .method name => '\n' ∉ name
  | .node _ data => '\n' ∉ data

private theorem readLine_headingLines {entry : Nat × Heading} (placed : Placed entry) :
    (headingLines entry).filterMap readLine = [entry] := by
  obtain ⟨depth, heading⟩ := entry
  cases heading with
  | module name =>
      obtain rfl : depth = 0 := placed
      have named : ("Module: ".toList ++ name).dropPrefix? "Module: ".toList = some name :=
        List.dropPrefix?_append_of_beq _ BEq.rfl
      have line : readLine ("Module: ".toList ++ name) = some (0, .module name) := by
        rw [readLine, named]
      rw [headingLines, List.filterMap_cons_some line, List.filterMap_nil]
  | method name =>
      obtain rfl : depth = 1 := placed
      have named : ("Method: ".toList ++ name).dropPrefix? "Method: ".toList = some name :=
        List.dropPrefix?_append_of_beq _ BEq.rfl
      have other : ("Method: ".toList ++ name).dropPrefix? "Module: ".toList = none := by
        cases found : ("Method: ".toList ++ name).dropPrefix? "Module: ".toList with
        | none => rfl
        | some rest =>
            obtain ⟨front, split, same⟩ := List.dropPrefix?_eq_some_iff.mp found
            rw [beq_iff_eq.mp same] at split
            exact absurd (List.cons.inj (List.cons.inj split).2).1 (by decide)
      have line : readLine ("Method: ".toList ++ name) = some (1, .method name) := by
        rw [readLine, other]
        simp only [named]
      rw [headingLines, List.filterMap_cons_some line, List.filterMap_nil]
  | node type data =>
      have deep : 2 ≤ depth := placed
      rw [headingLines]
      by_cases root : depth = 2
      · rw [if_pos root, List.filterMap_cons_none rfl,
          List.filterMap_cons_some (readLine_root type data),
          List.filterMap_nil, root]
      · obtain ⟨k, rfl⟩ : ∃ k, depth = k + 3 := ⟨depth - 3, by omega⟩
        rw [if_neg root]
        exact List.filterMap_cons_some (readLine_child k type data)

private theorem headingLines_plain {entry : Nat × Heading} (plain : entry.2.Plain) :
    ∀ line ∈ headingLines entry, '\n' ∉ line := by
  have digits : ∀ type, '\n' ∉ typeText type := by
    intro type
    cases type <;> decide
  obtain ⟨depth, heading⟩ := entry
  intro line member
  cases heading with
  | module name =>
      rw [List.mem_singleton.mp member]
      have name : '\n' ∉ name := plain
      simp [name]
  | method name =>
      rw [List.mem_singleton.mp member]
      have name : '\n' ∉ name := plain
      simp [name]
  | node type data =>
      have text : '\n' ∉ data := plain
      rw [headingLines] at member
      split at member
      · rcases List.mem_cons.mp member with rfl | member
        · exact List.not_mem_nil
        · rw [List.mem_singleton.mp member, rootLine]
          simp [digits, text]
      · rw [List.mem_singleton.mp member, childLine]
        simp [digits, text]

private theorem readLine_lines {entries : List (Nat × Heading)} (placed : ∀ e ∈ entries, Placed e) :
    (entries.flatMap headingLines).filterMap readLine = entries := by
  induction entries with
  | nil => rfl
  | cons e entries ih =>
      obtain ⟨first, others⟩ := List.forall_mem_cons.mp placed
      rw [List.flatMap_cons, List.filterMap_append, readLine_headingLines first, ih others]
      rfl

private theorem outline_graftAll {cs : List Ast} (below : ∀ c ∈ cs, ∀ depth,
      ∀ e ∈ (graftAll c.children).outline depth, depth ≤ e.1 ∧
        ∃ n ∈ Ast.nodesAll c.children, e.2 = .node n.type n.data) (depth : Nat) :
    ∀ e ∈ (graftAll cs).outline depth, depth ≤ e.1 ∧
      ∃ n ∈ Ast.nodesAll cs, e.2 = .node n.type n.data := by
  induction cs with
  | nil => simp [graftAll, Forest.outline]
  | cons c cs ih =>
      have others := ih fun d hd => below d (List.mem_cons_of_mem c hd)
      have inside := below c List.mem_cons_self (depth + 1)
      have nodes : c.nodes = c :: Ast.nodesAll c.children := by
        cases c
        rfl
      intro e he
      rw [graftAll, graft_eq, Forest.outline] at he
      rw [Ast.nodesAll_cons, nodes]
      rcases List.mem_cons.mp he with rfl | he
      · exact ⟨Nat.le_refl _, c, by simp, rfl⟩
      · rcases List.mem_append.mp he with he | he
        · obtain ⟨deeper, n, hn, same⟩ := inside e he
          exact ⟨by omega, n, by simp [hn], same⟩
        · obtain ⟨deep, n, hn, same⟩ := others e he
          exact ⟨deep, n, by simp [hn], same⟩

private theorem outline_graftAll_nodes (cs : List Ast) (depth : Nat) :
    ∀ e ∈ (graftAll cs).outline depth, depth ≤ e.1 ∧
      ∃ n ∈ Ast.nodesAll cs, e.2 = .node n.type n.data := by
  have below : ∀ (c : Ast) depth, ∀ e ∈ (graftAll c.children).outline depth, depth ≤ e.1 ∧
      ∃ n ∈ Ast.nodesAll c.children, e.2 = .node n.type n.data := by
    intro c
    induction c using Ast.induct with
    | h address type data children semanticType ih => exact outline_graftAll ih
  exact outline_graftAll (fun c _ => below c) depth

def OnOneLine (name : Str) (methods : List Method) : Prop :=
  '\n' ∉ name ∧ ∀ x ∈ methods, '\n' ∉ x.name ∧ ∀ t ∈ x.expressionList, ∀ n ∈ t.nodes, '\n' ∉ n.data

private theorem mem_nodesAll {n : Ast} {cs : List Ast} :
    n ∈ Ast.nodesAll cs ↔ ∃ c ∈ cs, n ∈ c.nodes := by
  induction cs with
  | nil => simp
  | cons c cs ih => simp [ih]

private theorem outline_methodsForest {methods : List Method}
    (plain : ∀ x ∈ methods, '\n' ∉ x.name ∧
      ∀ t ∈ x.expressionList, ∀ n ∈ t.nodes, '\n' ∉ n.data) :
    ∀ e ∈ (methodsForest methods).outline 1, Placed e ∧ e.2.Plain := by
  induction methods with
  | nil => simp [methodsForest, Forest.outline]
  | cons x xs ih =>
      obtain ⟨⟨name, texts⟩, others⟩ := List.forall_mem_cons.mp plain
      intro e he
      rw [methodsForest, Forest.outline] at he
      rcases List.mem_cons.mp he with rfl | he
      · exact ⟨rfl, name⟩
      · rcases List.mem_append.mp he with he | he
        · obtain ⟨deep, n, hn, same⟩ := outline_graftAll_nodes x.expressionList 2 e he
          obtain ⟨t, ht, inside⟩ := mem_nodesAll.mp hn
          obtain ⟨depth, heading⟩ := e
          obtain rfl : heading = .node n.type n.data := same
          exact ⟨deep, texts t ht n inside⟩
        · exact ih others e he

private theorem dump_readBack {m : Module} {methods : List Method}
    (live : m.methods.toList.mapM (fun me => m.deref me.2) = .ok methods)
    (plain : OnOneLine m.name methods) :
    ∃ text, m.dump = .ok text ∧ undump text = contents m.name methods := by
  have listed : ("Module: ".toList ++ m.name) ::
      ((methodsForest methods).outline 1).flatMap headingLines =
      ((contents m.name methods).outline 0).flatMap headingLines := by
    simp [contents, Forest.outline, headingLines]
  have entries : ∀ e ∈ (contents m.name methods).outline 0, Placed e ∧ e.2.Plain := by
    rw [contents, Forest.outline, List.forall_mem_cons, Forest.outline, List.append_nil]
    exact ⟨⟨rfl, plain.1⟩, outline_methodsForest plain.2⟩
  refine ⟨unlines '\n' (((contents m.name methods).outline 0).flatMap headingLines), ?_, ?_⟩
  · rw [← listed]
    exact bind_ok_iff.mpr ⟨_, Cxx.after_ok_iff.mpr (dumpMethods_lines live), rfl⟩
  · have lines : ∀ line ∈ ((contents m.name methods).outline 0).flatMap headingLines,
        '\n' ∉ line := by
      intro line member
      obtain ⟨e, he, member⟩ := List.mem_flatMap.mp member
      exact headingLines_plain (entries e he).2 line member
    have nothing : Forest.Ends 0 ([] : List (Nat × Heading)) := by simp [Forest.Ends]
    have read := Forest.read_outline (contents m.name methods) nothing (Nat.le_refl _)
    rw [List.append_nil] at read
    rw [undump, Outline.linesOf_unlines lines, readLine_lines fun e he => (entries e he).1]
    simp only [read]

private theorem Derives.texts_plain {nt : Nonterminal} {s rest : Pegtl.Input} {e : Expr}
    (h : Derives nt s e rest) : ∀ t ∈ e.tokens, '\n' ∉ t.text := by
  have word : isIdentChar '\n' = false := by decide
  have operator : isOpChar '\n' = false := by decide
  have start : isIdentStart '\n' = false := by decide
  have sign : isSign '\n' = false := by decide
  have digit : isDigit '\n' = false := by decide
  have alpha : isAlpha '\n' = false := by decide
  induction h with
  | integer lexed =>
      intro t ht feed
      rw [List.mem_singleton.mp ht] at feed
      obtain ⟨front, digits, suffix, rfl, signed, -, decimal, letters⟩ := IntegerText.of_lex lexed
      rcases List.mem_append.mp feed with feed | feed
      · rcases List.mem_append.mp feed with feed | feed
        · rcases signed with rfl | ⟨c, isSigned, rfl⟩
          · simp at feed
          · rw [← List.mem_singleton.mp feed, sign] at isSigned
            simp at isSigned
        · have := decimal _ feed
          simp [digit] at this
      · have := letters _ feed
        simp [alpha] at this
  | identifier _ lexed =>
      intro t ht feed
      rw [List.mem_singleton.mp ht] at feed
      obtain ⟨front, back, rfl, -, starts, others⟩ := IdentifierText.of_lex lexed
      rcases List.mem_append.mp feed with feed | feed
      · have := starts _ feed
        simp [start] at this
      · have := others _ feed
        simp [word] at this
  | group _ _ ih => exact ih
  | single _ _ ih => exact ih
  | binary _ lexed _ ihAtom ihExpr =>
      intro t ht
      rcases List.mem_append.mp ht with first | second
      · exact ihAtom t first
      · rcases List.mem_cons.mp second with rfl | second
        · intro feed
          have := (OperatorText.of_lex lexed).2 _ feed
          simp [operator] at this
        · exact ihExpr t second

private theorem chainTree_texts {P : Str → Prop} {c : Flat}
    (lexemes : ∀ t ∈ Flat.tokens c, P t.text)
    (k : Nat) : ∀ n ∈ (chainTree k c).nodes, P n.data := by
  induction c generalizing k with
  | last a =>
      intro n hn
      rw [List.mem_singleton.mp hn]
      exact lexemes _ List.mem_cons_self
  | link a o c ih =>
      rw [Flat.tokens_link, List.forall_mem_cons, List.forall_mem_cons] at lexemes
      obtain ⟨operand, operator, others⟩ := lexemes
      cases ha : a.isLiteral with
      | true =>
          rw [nodes_chainTree k ha, List.forall_mem_cons, List.forall_mem_cons]
          refine ⟨?_, operand, ih others (k + 2)⟩
          rw [chainTree_literal k ha]
          exact operator
      | false =>
          rw [chainTree_identifier k ha]
          intro n hn
          rw [List.mem_singleton.mp hn]
          exact operand

theorem matched_onOneLine {s : Str} {st : ParseState} (run : matched s = .ok st) :
    ∃ methods, st.module.methods.toList.mapM (fun me => st.module.deref me.2) = .ok methods ∧
      OnOneLine st.module.name methods := by
  have run' : ∃ rest, matchGrammar s = .ok rest st := by
    unfold matched at run
    cases outcome : matchGrammar s with
    | ok rest st' =>
        rw [outcome] at run
        obtain rfl := Except.ok.inj run
        exact ⟨rest, rfl⟩
    | parseError l => simp [outcome] at run
    | raised e => simp [outcome] at run
    | fail rest st' => simp [outcome] at run
    | diverged => simp [outcome] at run
  obtain ⟨rest, run'⟩ := run'
  obtain ⟨es, derived, rfl⟩ := matchGrammar_derives run'
  refine ⟨[defaultMethod (treesOf (flats es))], rfl, ?_⟩
  have main : '\n' ∉ "__main__".toList := by decide
  have default : '\n' ∉ "__default__".toList := by decide
  refine ⟨main, List.forall_mem_singleton.mpr ⟨default, ?_⟩⟩
  cases derived with
  | nil _ =>
      have none : (defaultMethod (treesOf (flats []))).expressionList = [] := rfl
      rw [none]
      simp
  | @cons _ _ e _ _ first _ =>
      intro t ht
      obtain rfl := List.mem_singleton.mp ht
      have lexemes : ∀ u ∈ Flat.tokens e.flat, '\n' ∉ u.text := by
        rw [← Expr.tokens_eq]
        exact first.texts_plain
      exact chainTree_texts (P := fun text => '\n' ∉ text) lexemes 0

/-- The listing of a module without null entries, whose names and node texts have no line
feeds, tells everything about it but addresses and semantic types: its name, its methods in
order, and the shape, node types and texts of all their trees. The modules that the grammar
builds, whose listing the parser prints, are always such. -/
theorem undump_dump :
    (∀ (m : Module) methods, m.methods.toList.mapM (fun me => m.deref me.2) = .ok methods →
      OnOneLine m.name methods →
      ∃ text, m.dump = .ok text ∧ undump text = contents m.name methods) ∧
    ∀ s st, matched s = .ok st → ∃ methods text,
      st.module.methods.toList.mapM (fun me => st.module.deref me.2) = .ok methods ∧
      st.module.dump = .ok text ∧ undump text = contents st.module.name methods := by
  refine ⟨fun m methods live plain => dump_readBack live plain, ?_⟩
  intro s st run
  obtain ⟨methods, live, plain⟩ := matched_onOneLine run
  obtain ⟨text, printed, read⟩ := dump_readBack live plain
  exact ⟨methods, text, live, printed, read⟩

end RoundTrip

end Amalgam.Parser
