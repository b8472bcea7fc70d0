/- Module: Amalgam/Cxx/Search
   digest: The halving search for the first element that is not before a value. -/

import Amalgam.Cxx.Integer

set_option autoImplicit false
set_option relaxedAutoImplicit false

namespace Amalgam.Cxx

variable {α : Type}

/-- The loop of `std::lower_bound`: a first position and how many from it are left. -/
def lowerBoundFrom (before : α → Bool) (l : List α) : Nat → Nat → Nat → Except Fault Nat
  | _, first, 0 => .ok first
  | 0, _, _ + 1 => .error .divergence
  | n + 1, first, left + 1 =>
      let half := (left + 1) / 2
      match l[first + half]? with
      | none => .error .outOfBounds
      | some x =>
          if before x then lowerBoundFrom before l n (first + half + 1) (left + 1 - half - 1)
          else lowerBoundFrom before l n first half

/-- `std::lower_bound`, by what it asks of each element; the position, the length for the
end. Each iteration leaves fewer elements, so the length bounds them. -/
def lowerBound (before : α → Bool) (l : List α) : Except Fault Nat :=
  lowerBoundFrom before l l.length 0 l.length

/-- A place where the search may end: what is in front of it is before the value, and what
is there is not. -/
structure Parts (before : α → Bool) (l : List α) (lo hi : Nat) : Prop where
  inside : hi ≤ l.length
  below : ∀ x, 0 < lo → l[lo - 1]? = some x → before x = true
  above : ∀ x, l[hi]? = some x → before x = false

private theorem lowerBoundFrom_ok {before : α → Bool} {l : List α} {n first left : Nat}
    (fuel : left ≤ n) (parts : Parts before l first (first + left)) :
    ∃ r, lowerBoundFrom before l n first left = .ok r ∧ Parts before l r r := by
  induction n generalizing first left with
  | zero =>
      obtain rfl : left = 0 := by omega
      exact ⟨first, rfl, parts⟩
  | succ n ih =>
      cases left with
      | zero => exact ⟨first, rfl, parts⟩
      | succ left =>
          have within : first + (left + 1) / 2 < l.length := by
            have := parts.inside
            omega
          have found := List.getElem?_eq_getElem within
          rw [lowerBoundFrom]
          simp only [found]
          cases asked : before l[first + (left + 1) / 2] with
          | true =>
              refine ih (by omega) ⟨?_, ?_, ?_⟩
              · have := parts.inside
                omega
              · intro x _ here
                rw [Nat.add_sub_cancel, found] at here
                rw [← Option.some.inj here]
                exact asked
              · intro x here
                refine parts.above x ?_
                rw [← here]
                congr 1
                omega
          | false =>
              refine ih (by omega) ⟨?_, ?_, ?_⟩
              · omega
              · exact parts.below
              · intro x here
                rw [found] at here
                rw [← Option.some.inj here]
                exact asked

/-- On any list the search ends, inside the list, at a place in front of which there is
nothing or an element before the value, and behind which there is nothing or one that is
not. -/
theorem lowerBound_ok (before : α → Bool) (l : List α) :
    ∃ r, lowerBound before l = .ok r ∧ Parts before l r r := by
  refine lowerBoundFrom_ok (Nat.le_refl _) ⟨?_, ?_, ?_⟩
  · rw [Nat.zero_add]
  · exact fun x positive => absurd positive (Nat.lt_irrefl 0)
  · intro x here
    rw [Nat.zero_add, List.getElem?_eq_none (Nat.le_refl _)] at here
    cases here

theorem Parts.split {before : α → Bool} {front back : List α}
    (parts : Parts before (front ++ back) front.length front.length)
    (ordered : (front ++ back).Pairwise fun x y => before y = true → before x = true) :
    (∀ x ∈ front, before x = true) ∧ ∀ x ∈ back, before x = false := by
  obtain ⟨orderedFront, orderedBack, -⟩ := List.pairwise_append.mp ordered
  constructor
  · rcases List.eq_nil_or_concat' front with rfl | ⟨init, last, rfl⟩
    · exact fun x member => absurd member List.not_mem_nil
    · have lastBefore : before last = true := by
        refine parts.below last (by simp) ?_
        simp
      intro x member
      rcases List.mem_append.mp member with earlier | same
      · have step := (List.pairwise_append.mp orderedFront).2.2 x earlier last List.mem_cons_self
        exact step lastBefore
      · rw [List.mem_singleton.mp same]
        exact lastBefore
  · cases back with
    | nil => exact fun x member => absurd member List.not_mem_nil
    | cons y others =>
        have firstNot : before y = false := parts.above y (by simp)
        intro x member
        rcases List.mem_cons.mp member with rfl | later
        · exact firstNot
        · have step := List.rel_of_pairwise_cons orderedBack later
          cases asked : before x with
          | false => rfl
          | true =>
              rw [step asked] at firstNot
              cases firstNot

theorem lowerBound_ordered {before : α → Bool} {l : List α}
    (ordered : l.Pairwise fun x y => before y = true → before x = true) :
    ∃ front back, l = front ++ back ∧ lowerBound before l = .ok front.length ∧
      (∀ x ∈ front, before x = true) ∧ ∀ x ∈ back, before x = false := by
  obtain ⟨r, run, parts⟩ := lowerBound_ok before l
  have length : (l.take r).length = r := by
    rw [List.length_take]
    exact Nat.min_eq_left parts.inside
  have whole : l.take r ++ l.drop r = l := List.take_append_drop r l
  refine ⟨l.take r, l.drop r, whole.symm, ?_, ?_⟩
  · rw [length]
    exact run
  · refine Parts.split ?_ ?_
    · rw [whole, length]
      exact parts
    · rw [whole]
      exact ordered

end Amalgam.Cxx
