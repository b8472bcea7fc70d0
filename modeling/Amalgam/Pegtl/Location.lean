/- Module: Amalgam/Pegtl/Location
   digest: What line and column tell about the text in front of a location. -/

import Amalgam.Pegtl.Scan
import Mathlib.Data.List.Induction

set_option autoImplicit false
set_option relaxedAutoImplicit false

namespace Amalgam.Pegtl

def lastLine (s : Str) : Str := (s.reverse.takeWhile fun c => c != '\n').reverse

/-- Of two locations, the one that is reached later. -/
def Location.Before (l l' : Location) : Prop :=
  l.line < l'.line ∨ l.line = l'.line ∧ l.column < l'.column

section Advance

private theorem lastLine_concat (s : Str) (c : Char) :
    lastLine (s ++ [c]) = if c = '\n' then [] else lastLine s ++ [c] := by
  rw [lastLine, List.reverse_append, List.reverse_singleton, List.singleton_append,
    List.takeWhile_cons]
  by_cases newline : c = '\n'
  · rw [if_pos newline, newline]
    rfl
  · rw [if_neg newline, if_pos (by simpa using newline), List.reverse_cons]
    rfl

private theorem advance_eq (w : Str) :
    w.foldl Location.advance {} = ⟨1 + w.count '\n', 1 + (lastLine w).length⟩ := by
  induction w using List.reverseRecOn with
  | nil => rfl
  | append_singleton w c ih =>
      rw [List.foldl_concat, ih, lastLine_concat, List.count_append, Location.advance]
      by_cases newline : c = '\n'
      · rw [if_pos newline, if_pos newline, newline]
        rfl
      · have none : [c].count '\n' = 0 := List.count_eq_zero.mpr (by simpa using Ne.symm newline)
        rw [if_neg newline, if_neg newline, none, List.length_append]
        rfl

theorem locate_eq (w rest : Str) :
    locate (w ++ rest) rest = ⟨1 + w.count '\n', 1 + (lastLine w).length⟩ := by
  rw [locate, consumed_append, advance_eq]

private theorem advance_before (l : Location) (c : Char) : l.Before (l.advance c) := by
  rw [Location.advance]
  by_cases newline : c = '\n'
  · rw [if_pos newline]
    exact .inl (Nat.lt_succ_self _)
  · rw [if_neg newline]
    exact .inr ⟨rfl, Nat.lt_succ_self _⟩

private theorem before_trans {l l' l'' : Location} (first : l.Before l') (second : l'.Before l'') :
    l.Before l'' := by
  unfold Location.Before at *
  omega

private theorem advance_more (l : Location) (w : Str) :
    w.foldl Location.advance l = l ∨ l.Before (w.foldl Location.advance l) := by
  induction w generalizing l with
  | nil => exact .inl rfl
  | cons c w ih =>
      right
      rw [List.foldl_cons]
      rcases ih (l.advance c) with same | later
      · rw [same]
        exact advance_before l c
      · exact before_trans (advance_before l c) later

theorem locate_before (w : Str) {v rest : Str} (some : v ≠ []) :
    (locate (w ++ (v ++ rest)) (v ++ rest)).Before (locate (w ++ (v ++ rest)) rest) := by
  obtain ⟨c, v, rfl⟩ := List.exists_cons_of_ne_nil some
  have later : locate (w ++ (c :: v ++ rest)) rest =
      v.foldl Location.advance ((w.foldl Location.advance {}).advance c) := by
    rw [← List.append_assoc, locate, consumed_append, List.foldl_append, List.foldl_cons]
  rw [later, locate, consumed_append]
  rcases advance_more ((w.foldl Location.advance {}).advance c) v with same | more
  · rw [same]
    exact advance_before _ c
  · exact before_trans (advance_before _ c) more

end Advance

end Amalgam.Pegtl
