/- Module: Amalgam/Util/Strings
   digest: The suffix test answers the opposite question, and may read in front of the string. -/

import Amalgam.Cxx.Algorithm

set_option autoImplicit false
set_option relaxedAutoImplicit false

namespace Amalgam.Util

open Amalgam.Cxx

/-- `ends_with`: the iterator at which the backward scan of the pattern stops is compared
with `pattern.rend()`. -/
def endsWith (s pattern : Str) : Except Fault Bool := do
  let stop ← mismatch pattern.reverse s.reverse
  .ok (!stop.1.isEmpty)

section Scan

variable (s pattern : Str)

private theorem reverse_eq_iff (whole part rest : Str) :
    whole.reverse = part.reverse ++ rest ↔ whole = rest.reverse ++ part := by
  rw [← List.reverse_inj, List.reverse_reverse, List.reverse_append, List.reverse_reverse]

private theorem endsWith_false_iff : endsWith s pattern = .ok false ↔ ∃ p, s = p ++ pattern := by
  rw [endsWith, bind_ok_iff]
  constructor
  · rintro ⟨⟨stop, rest⟩, scan, answer⟩
    obtain rfl : stop = [] := by simpa using answer
    exact ⟨rest.reverse, (reverse_eq_iff s pattern rest).mp ((mismatch_end_iff _ _ _).mp scan)⟩
  · rintro ⟨p, rfl⟩
    exact ⟨([], p.reverse), (mismatch_end_iff _ _ _).mpr List.reverse_append, rfl⟩

private theorem endsWith_outOfBounds_iff :
    endsWith s pattern = .error .outOfBounds ↔ ∃ p, p ≠ [] ∧ pattern = p ++ s := by
  have scan : endsWith s pattern = .error .outOfBounds ↔
      mismatch pattern.reverse s.reverse = .error .outOfBounds := by
    rw [endsWith, bind_error_iff]
    apply or_iff_left
    rintro ⟨stop, -, failed⟩
    cases failed
  rw [scan, mismatch_outOfBounds_iff]
  constructor
  · rintro ⟨c, rest, split⟩
    exact ⟨(c :: rest).reverse, by simp, (reverse_eq_iff pattern s (c :: rest)).mp split⟩
  · rintro ⟨p, nonempty, rfl⟩
    obtain ⟨c, rest, backwards⟩ := List.exists_cons_of_ne_nil (List.reverse_ne_nil_iff.mpr nonempty)
    use c, rest
    rw [List.reverse_append, backwards]

theorem endsWith_true_iff :
    endsWith s pattern = .ok true ↔
      (¬ ∃ p, s = p ++ pattern) ∧ ¬ ∃ p, p ≠ [] ∧ pattern = p ++ s := by
  rw [← endsWith_false_iff, ← endsWith_outOfBounds_iff, endsWith]
  cases scan : mismatch pattern.reverse s.reverse with
  | error e => simp [bind, Except.bind, mismatch_error scan]
  | ok stop => simp [bind, Except.bind]

/-- For no string and no pattern does the test stay inside the string and answer whether
the pattern is its suffix. -/
theorem endsWith_wrong :
    ¬ ∃ answer, endsWith s pattern = .ok answer ∧ (answer = true ↔ ∃ p, s = p ++ pattern) := by
  rintro ⟨answer, run, meaning⟩
  cases answer with
  | false =>
      have suffix := (endsWith_false_iff s pattern).mp run
      exact Bool.false_ne_true (meaning.mpr suffix)
  | true =>
      have rejected := (endsWith_false_iff s pattern).mpr (meaning.mp rfl)
      rw [run] at rejected
      simp at rejected

/-- A proper suffix is denied, and a pattern longer than the string leads out of it. -/
theorem endsWith_abc :
    (endsWith "abc".toList "bc".toList = .ok false ∧ "abc".toList = ['a'] ++ "bc".toList) ∧
      endsWith "c".toList "bc".toList = .error .outOfBounds := by
  have denied := (endsWith_false_iff "abc".toList "bc".toList).mpr ⟨['a'], by decide⟩
  have outside := (endsWith_outOfBounds_iff "c".toList "bc".toList).mpr
    ⟨['b'], by decide, by decide⟩
  exact ⟨⟨denied, by decide⟩, outside⟩

end Scan

end Amalgam.Util
