/- Module: Amalgam/Outline/Forest
   digest: Forests written as lines with depths, read back, and lines joined to a text. -/

import Mathlib.Data.List.Basic
import Mathlib.Tactic.Common

set_option autoImplicit false
set_option relaxedAutoImplicit false

namespace Amalgam.Outline

/-- A list of trees: the label of the first root, the trees below it, the other trees. -/
inductive Forest (α : Type) where
  | nil
  | cons (label : α) (below rest : Forest α)
  deriving DecidableEq

variable {α : Type}

namespace Forest

/-- All labels with their depths, each before those below it. -/
def outline : Nat → Forest α → List (Nat × α)
  | _, nil => []
  | depth, cons label below rest =>
      (depth, label) :: (outline (depth + 1) below ++ outline depth rest)

/-- Read trees whose roots have a given depth, and what comes after them. -/
def read : Nat → Nat → List (Nat × α) → Forest α × List (Nat × α)
  | 0, _, entries => (nil, entries)
  | _ + 1, _, [] => (nil, [])
  | n + 1, depth, (d, label) :: entries =>
      if d = depth then
        let below := read n (depth + 1) entries
        let rest := read n depth below.2
        (cons label below.1 rest.1, rest.2)
      else (nil, (d, label) :: entries)

def Ends (depth : Nat) (entries : List (Nat × α)) : Prop := ∀ x ∈ entries.head?, x.1 < depth

private theorem read_ends {depth : Nat} {entries : List (Nat × α)} (ends : Ends depth entries)
    (n : Nat) :
    read n depth entries = (nil, entries) := by
  cases n with
  | zero => rfl
  | succ n =>
      cases entries with
      | nil => rfl
      | cons entry entries =>
          have shallow : entry.1 < depth := ends entry rfl
          obtain ⟨d, label⟩ := entry
          rw [read, if_neg (Nat.ne_of_lt shallow)]

/-- A forest is read back from its outline, up to something less deep. -/
theorem read_outline (f : Forest α) {depth n : Nat} {after : List (Nat × α)}
    (ends : Ends depth after) (enough : (f.outline depth).length ≤ n) :
    read n depth (f.outline depth ++ after) = (f, after) := by
  induction f generalizing depth n after with
  | nil => exact read_ends ends n
  | cons label below rest ihBelow ihRest =>
      simp only [outline, List.length_cons, List.length_append] at enough
      obtain ⟨n, rfl⟩ : ∃ m, n = m + 1 := ⟨n - 1, by omega⟩
      have deeper : Ends (depth + 1) (rest.outline depth ++ after) := by
        cases rest with
        | nil =>
            intro x hx
            have := ends x hx
            omega
        | cons label' below' rest' =>
            intro x hx
            obtain rfl := Option.some.inj hx
            exact Nat.lt_succ_self depth
      have inside := ihBelow deeper (n := n) (by omega)
      have beside := ihRest ends (n := n) (by omega)
      simp only [outline, List.cons_append, List.append_assoc, read, if_true, inside, beside]

end Forest

section Lines

def unlines (newline : α) (lines : List (List α)) : List α := lines.flatMap (· ++ [newline])

def linesOf [BEq α] (newline : α) (text : List α) : List (List α) :=
  (text.splitOn newline).dropLast

private theorem unlines_eq_intercalate (newline : α) (lines : List (List α)) :
    unlines newline lines = [newline].intercalate (lines ++ [[]]) := by
  induction lines with
  | nil => simp [unlines]
  | cons line lines ih =>
      rw [unlines, List.flatMap_cons, ← unlines, ih]
      cases lines with
      | nil => simp [List.intercalate]
      | cons line' lines => simp [List.intercalate]

theorem linesOf_unlines [BEq α] [LawfulBEq α] {newline : α} {lines : List (List α)}
    (plain : ∀ line ∈ lines, newline ∉ line) : linesOf newline (unlines newline lines) = lines := by
  have each : ∀ line ∈ lines ++ [[]], newline ∉ line := by
    intro line member
    rcases List.mem_append.mp member with member | member
    · exact plain line member
    · rw [List.mem_singleton.mp member]
      exact List.not_mem_nil
  rw [linesOf, unlines_eq_intercalate, List.splitOn_intercalate newline each (by simp),
    List.dropLast_concat]

end Lines

end Amalgam.Outline
