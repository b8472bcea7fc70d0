/- Module: Amalgam/Util/Switch
   digest: A switch over a sorted list of keys and what is called for each of them. -/

import Amalgam.Cxx.Search

set_option autoImplicit false
set_option relaxedAutoImplicit false

namespace Amalgam.Util

open Amalgam.Cxx

section Switch

variable {κ ρ : Type} {comp : κ → κ → Bool} {value : κ} {sws : List (κ × (κ → ρ))} {unmatched : ρ}

def equivalent (comp : κ → κ → Bool) (a b : κ) : Bool := !comp a b && !comp b a

/-- `Switch`, by what a call of each function gives. An entry is called with its own key;
`unmatched` is the value that `RetType()` makes. -/
def switch (comp : κ → κ → Bool) (value : κ) (sws : List (κ × (κ → ρ))) (unmatched : ρ) :
    Except Fault ρ := do
  let r ← lowerBound (fun entry => comp entry.1 value) sws
  match sws[r]? with
  | some entry => if !comp value entry.1 then .ok (entry.2 entry.1) else .ok unmatched
  | none => .ok unmatched

private theorem switch_of_lowerBound {r : Nat}
    (found : lowerBound (fun entry => comp entry.1 value) sws = .ok r) :
    switch comp value sws unmatched =
      match sws[r]? with
      | some entry => if !comp value entry.1 then .ok (entry.2 entry.1) else .ok unmatched
      | none => .ok unmatched := by
  rw [switch, found]
  rfl

private theorem switch_calls (comp : κ → κ → Bool) (value : κ) (sws : List (κ × (κ → ρ)))
    (unmatched : ρ) :
    switch comp value sws unmatched = .ok unmatched ∨
      ∃ entry ∈ sws, equivalent comp entry.1 value = true ∧
        switch comp value sws unmatched = .ok (entry.2 entry.1) := by
  obtain ⟨r, found, parts⟩ := lowerBound_ok (fun entry : κ × (κ → ρ) => comp entry.1 value) sws
  rw [switch_of_lowerBound found]
  cases here : sws[r]? with
  | none => exact .inl rfl
  | some entry =>
      cases beyond : comp value entry.1 with
      | true => exact .inl (by simp [beyond])
      | false =>
          have notBefore : comp entry.1 value = false := parts.above entry here
          refine .inr ⟨entry, List.mem_of_getElem? here, ?_, ?_⟩
          · simp [equivalent, notBefore, beyond]
          · simp [beyond]

private theorem switch_sorted
    (order : ∀ a b c, comp a b = false → comp b c = false → comp a c = false)
    (sorted : sws.Pairwise fun entry later => comp later.1 entry.1 = false) (unmatched : ρ) :
    switch comp value sws unmatched =
      .ok (match sws.find? fun entry => equivalent comp entry.1 value with
        | some entry => entry.2 entry.1
        | none => unmatched) := by
  have ordered : sws.Pairwise fun entry later =>
      comp later.1 value = true → comp entry.1 value = true := by
    refine sorted.imp ?_
    intro entry later inOrder before
    cases behind : comp entry.1 value with
    | true => rfl
    | false =>
        rw [order later.1 entry.1 value inOrder behind] at before
        exact before
  obtain ⟨front, back, rfl, found, low, high⟩ := lowerBound_ordered ordered
  have skipped : front.find? (fun entry => equivalent comp entry.1 value) = none := by
    refine List.find?_eq_none.mpr ?_
    intro entry member
    simp [equivalent, low entry member]
  rw [switch_of_lowerBound found, List.find?_append, skipped, Option.none_or]
  cases back with
  | nil => simp
  | cons entry others =>
      have notBefore : comp entry.1 value = false := high entry List.mem_cons_self
      have inOrder := (List.pairwise_append.mp sorted).2.1
      cases beyond : comp value entry.1 with
      | false =>
          have same : equivalent comp entry.1 value = true := by
            simp [equivalent, notBefore, beyond]
          simp [same, beyond]
      | true =>
          -- What comes behind an entry that is behind the value is behind it too.
          have none : (entry :: others).find? (fun entry =>
            equivalent comp entry.1 value) = none := by
            refine List.find?_eq_none.mpr ?_
            intro other member
            have further : comp value other.1 = true := by
              rcases List.mem_cons.mp member with rfl | later
              · exact beyond
              · cases ahead : comp value other.1 with
                | true => rfl
                | false =>
                    have step := List.rel_of_pairwise_cons inOrder later
                    rw [order value other.1 entry.1 ahead step] at beyond
                    cases beyond
            simp [equivalent, further]
          rw [none]
          simp [beyond]

/-- What is called: on any list nothing but an entry for the value, and on a sorted list the
first of these, where there is one. -/
theorem switch_selects (comp : κ → κ → Bool) (value : κ) (sws : List (κ × (κ → ρ)))
    (unmatched : ρ) :
    (switch comp value sws unmatched = .ok unmatched ∨
      ∃ entry ∈ sws, equivalent comp entry.1 value = true ∧
        switch comp value sws unmatched = .ok (entry.2 entry.1)) ∧
    ((∀ a b c, comp a b = false → comp b c = false → comp a c = false) →
      sws.Pairwise (fun entry later => comp later.1 entry.1 = false) →
        switch comp value sws unmatched =
          .ok (match sws.find? fun entry => equivalent comp entry.1 value with
            | some entry => entry.2 entry.1
            | none => unmatched)) :=
  ⟨switch_calls comp value sws unmatched, fun order sorted => switch_sorted order sorted unmatched⟩

def sortedEntries : List (Nat × (Nat → Nat)) := [(35, (· + 1)), (234, (· + 2)), (234, (· + 3))]

theorem switch_selects_first :
    switch (fun a b : Nat => decide (a < b)) 234 sortedEntries 0 = .ok 236 := by
  have order : ∀ a b c : Nat, decide (a < b) = false → decide (b < c) = false →
      decide (a < c) = false := by
    intro a b c ab bc
    simp only [decide_eq_false_iff_not] at ab bc ⊢
    omega
  have sorted : sortedEntries.Pairwise fun entry later =>
      decide (later.1 < entry.1) = false := by decide
  exact (switch_selects (fun a b : Nat => decide (a < b)) 234 sortedEntries 0).2 order sorted

end Switch

end Amalgam.Util
