/- Module: Amalgam/Cxx/Digits
   digest: Digit strings read in several bases, and conversions of decimal digits. -/

import Amalgam.Cxx.Integer
import Mathlib.Algebra.Order.BigOperators.Group.List
import Mathlib.Data.List.Induction
import Mathlib.Data.List.TakeWhile
import Mathlib.Data.Nat.Digits.Defs

set_option autoImplicit false
set_option relaxedAutoImplicit false

namespace Amalgam.Cxx

def isDecimal (c : Char) : Bool := '0' ≤ c && c ≤ '9'

section Characters

theorem decimal_toNat {c : Char} (h : isDecimal c = true) : 48 ≤ c.toNat ∧ c.toNat ≤ 57 := by
  simp only [isDecimal, Bool.and_eq_true, decide_eq_true_eq, Char.le_def,
    UInt32.le_iff_toNat_le] at h
  exact h

theorem digitValue_decimal {c : Char} (h : isDecimal c = true) : digitValue c < 10 := by
  have range := decimal_toNat h
  have isDigit : '0' ≤ c ∧ c ≤ '9' := by
    simpa only [isDecimal, Bool.and_eq_true, decide_eq_true_eq] using h
  rw [digitValue, if_pos isDigit]
  omega

theorem digitValue_other {c : Char} (h : isDecimal c = false) : 10 ≤ digitValue c := by
  have notDigit : ¬ ('0' ≤ c ∧ c ≤ '9') := by
    intro digit
    simp [isDecimal, digit] at h
  rw [digitValue, if_neg notDigit]
  split
  · rename_i lower
    have bound : 97 ≤ c.toNat := by
      have := lower.1
      rwa [Char.le_def, UInt32.le_iff_toNat_le] at this
    omega
  · split
    · rename_i upper
      have bound : 65 ≤ c.toNat := by
        have := upper.1
        rwa [Char.le_def, UInt32.le_iff_toNat_le] at this
      omega
    · omega

theorem decimal_ne_space {c : Char} (h : isDecimal c = true) : isSpace c = false := by
  by_contra space
  have spaces : ∀ d ∈ [' ', '\n', '\r', '\t', '\x0b', '\x0c'], isDecimal d = false := by decide
  have isSpace : isSpace c = true := by simpa using space
  have := spaces c (List.contains_iff_mem.mp isSpace)
  simp [h] at this

end Characters

section Magnitudes

private theorem magnitude_append (b : Nat) (xs ys : Str) :
    magnitude b (xs ++ ys) = ys.foldl (fun acc c => acc * b + digitValue c) (magnitude b xs) :=
  List.foldl_append

theorem magnitude_concat (b : Nat) (xs : Str) (c : Char) :
    magnitude b (xs ++ [c]) = magnitude b xs * b + digitValue c := magnitude_append b xs [c]

private theorem magnitude_eq_ofDigits (b : Nat) (xs : Str) :
    magnitude b xs = Nat.ofDigits b (xs.map digitValue).reverse := by
  induction xs using List.reverseRecOn with
  | nil => rfl
  | append_singleton xs c ih =>
      rw [magnitude_concat, ih, List.map_append, List.reverse_append]
      simp only [List.map_cons, List.map_nil, List.reverse_singleton, List.singleton_append,
        Nat.ofDigits_cons]
      rw [Nat.mul_comm, Nat.add_comm]

private theorem magnitude_le_of_base {b b' : Nat} (h : b ≤ b') (xs : Str) :
    magnitude b xs ≤ magnitude b' xs := by
  rw [magnitude_eq_ofDigits, magnitude_eq_ofDigits]
  exact Nat.ofDigits_monotone _ h

theorem digitValue_le_magnitude {b : Nat} (hb : 1 ≤ b) {xs : Str} {c : Char} (hc : c ∈ xs) :
    digitValue c ≤ magnitude b xs := by
  have member : digitValue c ∈ (xs.map digitValue).reverse := by
    rw [List.mem_reverse]
    exact List.mem_map_of_mem hc
  rw [magnitude_eq_ofDigits]
  exact (List.le_sum_of_mem member).trans (Nat.sum_le_ofDigits _ hb)

theorem magnitude_eq_zero {b b' : Nat} (hb : 1 ≤ b) {xs : Str} (h : magnitude b xs = 0) :
    magnitude b' xs = 0 := by
  have zeros : ∀ c ∈ xs, digitValue c = 0 := by
    intro c hc
    have := digitValue_le_magnitude hb hc
    omega
  induction xs using List.reverseRecOn with
  | nil => rfl
  | append_singleton xs c ih =>
      have front : magnitude b xs = 0 := by
        rw [magnitude_concat] at h
        have : magnitude b xs * b = 0 := by omega
        rcases Nat.mul_eq_zero.mp this with zero | zero
        · exact zero
        · omega
      rw [magnitude_concat, ih front fun d hd => zeros d (List.mem_append_left _ hd),
        zeros c (List.mem_append_right _ (List.mem_singleton_self c))]
      omega

theorem magnitude_eq_iff {b b' : Nat} (hb : 1 ≤ b) (h : b < b') (xs : Str) (c : Char) :
    magnitude b (xs ++ [c]) = magnitude b' (xs ++ [c]) ↔ magnitude b xs = 0 := by
  rw [magnitude_concat, magnitude_concat]
  constructor
  · intro same
    by_contra nonzero
    have le := magnitude_le_of_base h.le xs
    have strict : magnitude b xs * b < magnitude b xs * b' :=
      Nat.mul_lt_mul_of_pos_left h (by omega)
    have mono : magnitude b xs * b' ≤ magnitude b' xs * b' := Nat.mul_le_mul_right b' le
    omega
  · intro zero
    have zero' : magnitude b' xs = 0 := magnitude_eq_zero hb zero
    rw [zero, zero']
    omega

theorem magnitude_concat_lt {b : Nat} {xs : Str} {c : Char} (hc : digitValue c < b) :
    magnitude b (xs ++ [c]) < b ↔ magnitude b xs = 0 := by
  rw [magnitude_concat]
  constructor
  · intro small
    by_contra nonzero
    have : 1 * b ≤ magnitude b xs * b := Nat.mul_le_mul_right b (by omega)
    omega
  · intro zero
    rw [zero]
    omega

private theorem magnitude_le_append {b : Nat} (hb : 1 ≤ b) (xs ys : Str) :
    magnitude b xs ≤ magnitude b (xs ++ ys) := by
  induction ys using List.reverseRecOn with
  | nil => rw [List.append_nil]
  | append_singleton ys c ih =>
      rw [← List.append_assoc, magnitude_concat]
      have : magnitude b (xs ++ ys) * 1 ≤ magnitude b (xs ++ ys) * b := Nat.mul_le_mul_left _ hb
      omega

end Magnitudes

section Prefixes

theorem validDigits_eq_self {b : Nat} {s : Str} (h : ∀ c ∈ s, digitValue c < b) :
    validDigits b s = s := by
  rw [validDigits, List.takeWhile_eq_self_iff]
  intro c hc
  simpa using h c hc

theorem validDigits_decimal {s : Str} (h : ∀ c ∈ s, isDecimal c = true) : validDigits 10 s = s :=
  validDigits_eq_self fun c hc => digitValue_decimal (h c hc)

theorem validDigits_append {b : Nat} {ds s : Str} (digits : ∀ c ∈ ds, digitValue c < b)
    (stop : ∀ c ∈ s, b ≤ digitValue c) : validDigits b (ds ++ s) = ds := by
  rw [validDigits, List.takeWhile_append_of_pos (by simpa using digits)]
  cases s with
  | nil => simp
  | cons c s =>
      have first := stop c List.mem_cons_self
      simp [Nat.not_lt.mpr first]

theorem magnitude_cut_lt {b b' : Nat} (hb : 1 ≤ b) (h : b ≤ b') {ds : Str}
    (cut : validDigits b ds ≠ ds) : magnitude b (validDigits b ds) < magnitude b' ds := by
  have split : validDigits b ds ++ ds.dropWhile (fun c => digitValue c < b) = ds :=
    List.takeWhile_append_dropWhile
  cases hrest : ds.dropWhile (fun c => digitValue c < b) with
  | nil =>
      rw [hrest, List.append_nil] at split
      exact absurd split cut
  | cons c rest =>
      have beyond : b ≤ digitValue c := by
        have first := List.head?_dropWhile_not (fun c => decide (digitValue c < b)) ds
        rw [hrest] at first
        simpa using first
      rw [hrest] at split
      have whole : validDigits b ds ++ [c] ++ rest = ds := by
        rw [List.append_assoc]
        exact split
      have smaller := magnitude_le_of_base h (validDigits b ds)
      have grows := magnitude_le_append (hb.trans h) (validDigits b ds ++ [c]) rest
      rw [whole, magnitude_concat] at grows
      have : magnitude b' (validDigits b ds) * 1 ≤ magnitude b' (validDigits b ds) * b' :=
        Nat.mul_le_mul_left _ (hb.trans h)
      omega

end Prefixes

section Conversions

theorem readSign_decimal {c : Char} (h : isDecimal c = true) (s : Str) :
    readSign (c :: s) = (false, c :: s) := by
  unfold readSign
  split
  · rename_i same
    obtain ⟨rfl, -⟩ := List.cons.inj same
    simp [isDecimal] at h
  · rename_i same
    obtain ⟨rfl, -⟩ := List.cons.inj same
    simp [isDecimal] at h
  · rfl

private theorem dropHexPrefix_decimal (base : Nat) {ds : Str} (h : ∀ c ∈ ds, isDecimal c = true) :
    dropHexPrefix base ds = ds := by
  unfold dropHexPrefix
  split
  · rename_i x d s
    have digit : isDecimal x = true := h x (by simp)
    have notX : ¬ (x = 'x' ∨ x = 'X') := by
      rintro (rfl | rfl)
      · simp [isDecimal] at digit
      · simp [isDecimal] at digit
    rw [if_neg fun prefixed => notX prefixed.2.1]
  · rfl

theorem dropHexPrefix_other {base : Nat} (h : base ≠ 16) (s : Str) : dropHexPrefix base s = s := by
  unfold dropHexPrefix
  split
  · rw [if_neg fun prefixed => h prefixed.1]
  · rfl

/-- A string of decimal digits is converted up to the first digit beyond the base. -/
theorem strto_decimal (base : Nat) {ds : Str} (nonempty : ds ≠ [])
    (h : ∀ c ∈ ds, isDecimal c = true) :
    strto base ds = if (validDigits base ds).isEmpty then none
      else some (false, magnitude base (validDigits base ds)) := by
  obtain ⟨c, s, rfl⟩ := List.exists_cons_of_ne_nil nonempty
  have first : isDecimal c = true := h c List.mem_cons_self
  have noSpace : (c :: s).dropWhile isSpace = c :: s := by simp [decimal_ne_space first]
  simp only [strto, noSpace, readSign_decimal first, dropHexPrefix_decimal base h]

end Conversions

end Amalgam.Cxx
