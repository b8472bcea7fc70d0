/- Module: Amalgam/Parser/Trees
   digest: Traversals of expression trees, strict binary trees, and erasure of types. -/

import Amalgam.Parser.Derivation

set_option autoImplicit false
set_option relaxedAutoImplicit false

namespace Amalgam.Parser.Ast

mutual

/-- The node, and all nodes below it; each stands for the subtree it roots. -/
def nodes : Ast → List Ast
  | .mk address type data children semanticType =>
      .mk address type data children semanticType :: nodesAll children

def nodesAll : List Ast → List Ast
  | [] => []
  | c :: cs => c.nodes ++ nodesAll cs

end

mutual

/-- The tokens of a tree: the first child, the node, the other children. -/
def inorder : Ast → List Token
  | .mk _ type data [] _ => [⟨type, data⟩]
  | .mk _ type data (c :: cs) _ => c.inorder ++ ⟨type, data⟩ :: inorderAll cs

def inorderAll : List Ast → List Token
  | [] => []
  | c :: cs => c.inorder ++ inorderAll cs

end

mutual

def erase : Ast → Ast
  | .mk address type data children _ => .mk address type data (eraseAll children) none

def eraseAll : List Ast → List Ast
  | [] => []
  | c :: cs => c.erase :: eraseAll cs

end

/-- Every operator has two children, and every other node none. -/
inductive Strict : Ast → Prop
  | op {address : Nat} {data : List Char} {l r : Ast}
      {semanticType : Option NumericTypeAnnotation} : l.Strict → r.Strict →
      Strict (.mk address .op data [l, r] semanticType)
  | leaf {address : Nat} {type : NodeType} {data : List Char}
      {semanticType : Option NumericTypeAnnotation} : type ≠ .op →
      Strict (.mk address type data [] semanticType)

def addresses (t : Ast) : List Nat := t.nodes.map address

def literals (t : Ast) : List (List Char) :=
  (t.nodes.filter (fun n => n.type = .literalInt)).map data

@[simp] theorem nodesAll_nil : nodesAll [] = [] := rfl

@[simp] theorem nodesAll_cons (c : Ast) (cs : List Ast) :
    nodesAll (c :: cs) = c.nodes ++ nodesAll cs := rfl

@[simp] theorem eraseAll_nil : eraseAll [] = [] := rfl

@[simp] theorem eraseAll_cons (c : Ast) (cs : List Ast) :
    eraseAll (c :: cs) = c.erase :: eraseAll cs := rfl

private theorem eraseAll_eq_map (cs : List Ast) : eraseAll cs = cs.map erase := by
  induction cs with
  | nil => rfl
  | cons c cs ih => simp [ih]

@[simp] theorem erase_type (t : Ast) : t.erase.type = t.type := by cases t; rfl

@[simp] theorem erase_data (t : Ast) : t.erase.data = t.data := by cases t; rfl

@[simp] theorem erase_address (t : Ast) : t.erase.address = t.address := by cases t; rfl

@[simp] theorem erase_children (t : Ast) : t.erase.children = t.children.map erase := by
  cases t
  simp [erase, children, eraseAll_eq_map]

@[simp] theorem erase_annotate (t : Ast) (a : NumericTypeAnnotation) :
    (t.annotate a).erase = t.erase := by
  cases t
  rfl

theorem mem_nodes_self (t : Ast) : t ∈ t.nodes := by
  cases t
  exact List.mem_cons_self

theorem nodes_op (address : Nat) (data : List Char) (l r : Ast)
    (semanticType : Option NumericTypeAnnotation) :
    (Ast.mk address .op data [l, r] semanticType).nodes =
      .mk address .op data [l, r] semanticType :: (l.nodes ++ r.nodes) := by
  simp [nodes]

theorem forall_nodes_op {P : Ast → Prop} {address : Nat} {data : List Char} {l r : Ast}
    {semanticType : Option NumericTypeAnnotation} :
    (∀ n ∈ (Ast.mk address .op data [l, r] semanticType).nodes, P n) ↔
      P (.mk address .op data [l, r] semanticType) ∧ (∀ n ∈ l.nodes, P n) ∧
        ∀ n ∈ r.nodes, P n := by
  rw [nodes_op, List.forall_mem_cons, List.forall_mem_append]

/-- Induction over trees with any number of children. -/
theorem induct {P : Ast → Prop}
    (h : ∀ address type data children semanticType, (∀ c ∈ children, P c) →
      P (.mk address type data children semanticType)) (t : Ast) : P t := by
  refine @Ast.rec P (fun cs => ∀ c ∈ cs, P c) ?_ ?_ ?_ t
  · exact fun address type data children semanticType ih =>
      h address type data children semanticType ih
  · simp
  · intro c cs hc hcs d hd
    rcases List.mem_cons.mp hd with rfl | hd
    · exact hc
    · exact hcs d hd

private theorem nodesAll_eraseAll {cs : List Ast}
    (h : ∀ c ∈ cs, c.erase.nodes = c.nodes.map erase) :
    nodesAll (eraseAll cs) = (nodesAll cs).map erase := by
  induction cs with
  | nil => rfl
  | cons c cs ih =>
      simp only [eraseAll_cons, nodesAll_cons, List.map_append, h c List.mem_cons_self,
        ih fun d hd => h d (List.mem_cons_of_mem c hd)]

theorem nodes_erase (t : Ast) : t.erase.nodes = t.nodes.map erase := by
  induction t using induct with
  | h address type data children semanticType ih =>
      simp only [erase, nodes, List.map_cons, nodesAll_eraseAll ih]

theorem strict_erase (t : Ast) : t.erase.Strict ↔ t.Strict := by
  constructor
  · intro h
    generalize he : t.erase = e at h
    induction h generalizing t with
    | op _ _ ihl ihr =>
        obtain ⟨address, type, data, children, semanticType⟩ := t
        simp only [erase, mk.injEq, eraseAll_eq_map] at he
        obtain ⟨rfl, rfl, rfl, hc, -⟩ := he
        match children, hc with
        | [l, r], hc =>
            simp only [List.map_cons, List.map_nil, List.cons.injEq, and_true] at hc
            exact .op (ihl l hc.1) (ihr r hc.2)
    | leaf other =>
        obtain ⟨address, type, data, children, semanticType⟩ := t
        simp only [erase, mk.injEq, eraseAll_eq_map, List.map_eq_nil_iff] at he
        obtain ⟨rfl, rfl, rfl, rfl, -⟩ := he
        exact .leaf other
  · intro h
    induction h with
    | op _ _ ihl ihr => exact .op ihl ihr
    | leaf other => exact .leaf other

end Amalgam.Parser.Ast
