/- Module: Amalgam/Cxx/Algorithm
   digest: The scan for the first difference between two sequences. -/

import Amalgam.Cxx.Integer

set_option autoImplicit false
set_option relaxedAutoImplicit false

namespace Amalgam.Cxx

variable {α : Type} [DecidableEq α]

/-- `std::mismatch` with an end for the first sequence only. An iterator is what it has
ahead of it; the second one is read without a check. -/
def mismatch : List α → List α → Except Fault (List α × List α)
  | [], ys => .ok ([], ys)
  | _ :: _, [] => .error .outOfBounds
  | x :: xs, y :: ys => if x = y then mismatch xs ys else .ok (x :: xs, y :: ys)

private theorem mismatch_common (common xs ys : List α) :
    mismatch (common ++ xs) (common ++ ys) = mismatch xs ys := by
  induction common with
  | nil => rfl
  | cons c common ih =>
      rw [List.cons_append, List.cons_append, mismatch, if_pos rfl]
      exact ih

private theorem parting (xs ys : List α) :
    (∃ rest, ys = xs ++ rest) ∨ (∃ x rest, xs = ys ++ x :: rest) ∨
      ∃ common x y rest others,
        x ≠ y ∧ xs = common ++ x :: rest ∧ ys = common ++ y :: others := by
  induction xs generalizing ys with
  | nil => exact .inl ⟨ys, rfl⟩
  | cons x xs ih =>
      cases ys with
      | nil => exact .inr (.inl ⟨x, xs, rfl⟩)
      | cons y ys =>
          by_cases same : x = y
          · subst same
            rcases ih ys with ⟨rest, rfl⟩ | ⟨z, rest, rfl⟩ |
              ⟨common, z, y, rest, others, h, rfl, rfl⟩
            · exact .inl ⟨rest, rfl⟩
            · exact .inr (.inl ⟨z, rest, rfl⟩)
            · exact .inr (.inr ⟨x :: common, z, y, rest, others, h, rfl, rfl⟩)
          · exact .inr (.inr ⟨[], x, y, xs, ys, same, rfl, rfl⟩)

/-- The first iterator reaches its end exactly on a prefix of the second sequence. -/
theorem mismatch_end_iff (xs ys rest : List α) :
    mismatch xs ys = .ok ([], rest) ↔ ys = xs ++ rest := by
  rcases parting xs ys with ⟨others, rfl⟩ | ⟨x, others, rfl⟩ |
    ⟨common, x, y, others, others', differ, rfl, rfl⟩
  · have scan : mismatch xs (xs ++ others) = .ok ([], others) := by
      have skip := mismatch_common xs [] others
      rw [List.append_nil] at skip
      exact skip
    rw [scan]
    simp
  · have scan : mismatch (ys ++ x :: others) ys = .error .outOfBounds := by
      have skip := mismatch_common ys (x :: others) []
      rw [List.append_nil] at skip
      exact skip
    rw [scan]
    simp
  · have scan : mismatch (common ++ x :: others) (common ++ y :: others') =
        .ok (x :: others, y :: others') := by
      rw [mismatch_common, mismatch, if_neg differ]
    rw [scan]
    simp [differ.symm]

theorem mismatch_outOfBounds_iff (xs ys : List α) :
    mismatch xs ys = .error .outOfBounds ↔ ∃ x rest, xs = ys ++ x :: rest := by
  rcases parting xs ys with ⟨others, rfl⟩ | ⟨x, others, rfl⟩ |
    ⟨common, x, y, others, others', differ, rfl, rfl⟩
  · rw [(mismatch_end_iff xs (xs ++ others) others).mpr rfl]
    simp
  · have skip := mismatch_common ys (x :: others) []
    rw [List.append_nil] at skip
    exact iff_of_true skip ⟨x, others, rfl⟩
  · rw [mismatch_common, mismatch, if_neg differ]
    simp [differ]

theorem mismatch_error {xs ys : List α} {e : Fault} (failed : mismatch xs ys = .error e) :
    e = .outOfBounds := by
  induction xs generalizing ys with
  | nil => simp [mismatch] at failed
  | cons x xs ih =>
      cases ys with
      | nil => exact (Except.error.inj failed).symm
      | cons y ys =>
          rw [mismatch] at failed
          split at failed
          · exact ih failed
          · simp at failed

end Amalgam.Cxx
