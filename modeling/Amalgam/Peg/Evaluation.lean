/- Module: Amalgam/Peg/Evaluation
   digest: An evaluator of parsing expressions, which finds with enough fuel what they make
   of an input. -/

import Amalgam.Peg.Basic

set_option autoImplicit false
set_option relaxedAutoImplicit false

namespace Amalgam.Peg

section Evaluator

variable {ι κ : Type} (rules : ι → Expression ι κ)

/-- What an expression makes of an input, if the fuel is enough to tell. -/
def eval : Nat → Expression ι κ → List κ → Option (Result κ)
  | 0, _, _ => none
  | _ + 1, .empty, s => some (.ok s)
  | _ + 1, .char _, [] => some .fail
  | _ + 1, .char p, c :: s => some (if p c then .ok s else .fail)
  | n + 1, .call i, s => eval n (rules i) s
  | n + 1, .seq a b, s => (eval n a s).bind fun q =>
      match q with
      | .ok t => eval n b t
      | q => some q
  | n + 1, .choice a b, s => (eval n a s).bind fun q =>
      match q with
      | .fail => eval n b s
      | q => some q
  | n + 1, .star a, s => (eval n a s).bind fun q =>
      match q with
      | .ok t => eval n (.star a) t
      | .fail => some (.ok s)
      | q => some q
  | n + 1, .not a, s => (eval n a s).bind fun q =>
      match q with
      | .ok _ => some .fail
      | .fail => some (.ok s)
      | q => some q
  | n + 1, .commit a, s => (eval n a s).bind fun q =>
      match q with
      | .fail => some .abort
      | q => some q

end Evaluator

section Fuel

variable {ι κ : Type} {rules : ι → Expression ι κ} {e : Expression ι κ} {s : List κ} {r : Result κ}

private theorem eval_succ {n : Nat} (h : eval rules n e s = some r) : eval rules
    (n + 1) e s = some r := by
  induction n generalizing e s r with
  | zero => cases h
  | succ n ih =>
      cases e with
      | empty => exact h
      | char p =>
          cases s with
          | nil => exact h
          | cons c s => exact h
      | call i =>
          rw [eval] at h ⊢
          exact ih h
      | seq a b =>
          rw [eval] at h ⊢
          obtain ⟨q, first, h⟩ := Option.bind_eq_some_iff.mp h
          rw [ih first, Option.bind_some]
          cases q with
          | ok t => exact ih h
          | _ => exact h
      | choice a b =>
          rw [eval] at h ⊢
          obtain ⟨q, first, h⟩ := Option.bind_eq_some_iff.mp h
          rw [ih first, Option.bind_some]
          cases q with
          | fail => exact ih h
          | _ => exact h
      | star a =>
          rw [eval] at h ⊢
          obtain ⟨q, first, h⟩ := Option.bind_eq_some_iff.mp h
          rw [ih first, Option.bind_some]
          cases q with
          | ok t => exact ih h
          | _ => exact h
      | not a =>
          rw [eval] at h ⊢
          obtain ⟨q, first, h⟩ := Option.bind_eq_some_iff.mp h
          rw [ih first, Option.bind_some]
          exact h
      | commit a =>
          rw [eval] at h ⊢
          obtain ⟨q, first, h⟩ := Option.bind_eq_some_iff.mp h
          rw [ih first, Option.bind_some]
          exact h

theorem eval_le {n m : Nat} (hnm : n ≤ m) (h : eval rules n e s = some r) :
    eval rules m e s = some r := by
  induction hnm with
  | refl => exact h
  | step _ ih => exact eval_succ ih

/-- What is found is what the expression makes of the input. -/
theorem eval_sound {n : Nat} (h : eval rules n e s = some r) : Parses rules e s r := by
  induction n generalizing e s r with
  | zero => cases h
  | succ n ih =>
      cases e with
      | empty => cases h; exact .empty s
      | char p =>
          cases s with
          | nil => cases h; exact .charEnd p
          | cons c s =>
              rw [eval] at h
              cases h
              cases holds : p c with
              | true => exact .char s holds
              | false => exact .charNot s holds
      | call i =>
          rw [eval] at h
          exact .call (ih h)
      | seq a b =>
          rw [eval] at h
          obtain ⟨q, first, h⟩ := Option.bind_eq_some_iff.mp h
          cases q with
          | ok t => exact .seq (ih first) (ih h)
          | fail => cases h; exact .seqFail b (ih first)
          | abort => cases h; exact .seqAbort b (ih first)
      | choice a b =>
          rw [eval] at h
          obtain ⟨q, first, h⟩ := Option.bind_eq_some_iff.mp h
          cases q with
          | ok t => cases h; exact .choice b (ih first)
          | fail => exact .choiceNext (ih first) (ih h)
          | abort => cases h; exact .choiceAbort b (ih first)
      | star a =>
          rw [eval] at h
          obtain ⟨q, first, h⟩ := Option.bind_eq_some_iff.mp h
          cases q with
          | ok t => exact .starNext (ih first) (ih h)
          | fail => cases h; exact .starEnd (ih first)
          | abort => cases h; exact .starAbort (ih first)
      | not a =>
          rw [eval] at h
          obtain ⟨q, first, h⟩ := Option.bind_eq_some_iff.mp h
          cases q with
          | ok t => cases h; exact .not (ih first)
          | fail => cases h; exact .notFail (ih first)
          | abort => cases h; exact .notAbort (ih first)
      | commit a =>
          rw [eval] at h
          obtain ⟨q, first, h⟩ := Option.bind_eq_some_iff.mp h
          cases q with
          | ok t => cases h; exact .commit (ih first)
          | fail => cases h; exact .commitFail (ih first)
          | abort => cases h; exact .commitAbort (ih first)

end Fuel

section Enough

variable {ι κ : Type} {rules : ι → Expression ι κ} {a b e : Expression ι κ} {s t : List κ}
  {q r : Result κ}

def Found (rules : ι → Expression ι κ) (e : Expression ι κ) (s : List κ) (r : Result κ) : Prop :=
  ∃ n, eval rules n e s = some r

theorem Found.one (h : Found rules a s q)
    (step : ∀ n, eval rules n a s = some q → eval rules (n + 1) e s = some r) :
    Found rules e s r := by
  obtain ⟨n, h⟩ := h
  exact ⟨n + 1, step n h⟩

theorem Found.two (h : Found rules a s q) (h' : Found rules b t r)
    (step : ∀ n, eval rules n a s = some q → eval rules n b t = some r →
      eval rules (n + 1) e s = some r) :
    Found rules e s r := by
  obtain ⟨n, h⟩ := h
  obtain ⟨m, h'⟩ := h'
  exact ⟨max n m + 1, step (max n m) (eval_le (by omega) h) (eval_le (by omega) h')⟩

/-- With enough fuel the evaluator finds what an expression makes of an input. -/
theorem eval_complete (h : Parses rules e s r) : Found rules e s r := by
  induction h with
  | empty s => exact ⟨1, rfl⟩
  | char s holds => exact ⟨1, by rw [eval, if_pos holds]⟩
  | charNot s no => exact ⟨1, by rw [eval, no]; rfl⟩
  | charEnd p => exact ⟨1, rfl⟩
  | call _ ih => exact ih.one fun n h => by rw [eval, h]
  | seq _ _ ih ihSecond => exact ih.two ihSecond fun n h h' => by rw [eval, h]; exact h'
  | seqFail b _ ih => exact ih.one fun n h => by rw [eval, h]; rfl
  | seqAbort b _ ih => exact ih.one fun n h => by rw [eval, h]; rfl
  | choice b _ ih => exact ih.one fun n h => by rw [eval, h]; rfl
  | choiceNext _ _ ih ihSecond => exact ih.two ihSecond fun n h h' => by rw [eval, h]; exact h'
  | choiceAbort b _ ih => exact ih.one fun n h => by rw [eval, h]; rfl
  | starEnd _ ih => exact ih.one fun n h => by rw [eval, h]; rfl
  | starNext _ _ ih ihOthers => exact ih.two ihOthers fun n h h' => by rw [eval, h]; exact h'
  | starAbort _ ih => exact ih.one fun n h => by rw [eval, h]; rfl
  | not _ ih => exact ih.one fun n h => by rw [eval, h]; rfl
  | notFail _ ih => exact ih.one fun n h => by rw [eval, h]; rfl
  | notAbort _ ih => exact ih.one fun n h => by rw [eval, h]; rfl
  | commit _ ih => exact ih.one fun n h => by rw [eval, h]; rfl
  | commitFail _ ih => exact ih.one fun n h => by rw [eval, h]; rfl
  | commitAbort _ ih => exact ih.one fun n h => by rw [eval, h]; rfl

end Enough

section Parts

variable {ι κ : Type} {rules : ι → Expression ι κ} {a b : Expression ι κ} {s : List κ}
  {r : Result κ} {n : Nat}

theorem eval_seq (h : eval rules n (.seq a b) s = some r) :
    ∃ q, eval rules n a s = some q ∧ ∀ t, q = .ok t → eval rules n b t = some r := by
  cases n with
  | zero => cases h
  | succ n =>
      rw [eval] at h
      obtain ⟨q, first, h⟩ := Option.bind_eq_some_iff.mp h
      refine ⟨q, eval_succ first, ?_⟩
      rintro t rfl
      exact eval_succ h

theorem eval_choice (h : eval rules n (.choice a b) s = some r) :
    ∃ q, eval rules n a s = some q ∧ (q = .fail → eval rules n b s = some r) := by
  cases n with
  | zero => cases h
  | succ n =>
      rw [eval] at h
      obtain ⟨q, first, h⟩ := Option.bind_eq_some_iff.mp h
      refine ⟨q, eval_succ first, ?_⟩
      rintro rfl
      exact eval_succ h

theorem eval_star (h : eval rules (n + 1) (.star a) s = some r) :
    ∃ q, eval rules n a s = some q ∧ ∀ t, q = .ok t → eval rules n (.star a) t = some r := by
  rw [eval] at h
  obtain ⟨q, first, h⟩ := Option.bind_eq_some_iff.mp h
  refine ⟨q, first, ?_⟩
  rintro t rfl
  exact h

theorem eval_not (h : eval rules n (.not a) s = some r) : ∃ q, eval rules n a s = some q := by
  cases n with
  | zero => cases h
  | succ n =>
      rw [eval] at h
      obtain ⟨q, first, _⟩ := Option.bind_eq_some_iff.mp h
      exact ⟨q, eval_succ first⟩

theorem eval_commit (h : eval rules n (.commit a) s = some r) :
    ∃ q, eval rules n a s = some q := by
  cases n with
  | zero => cases h
  | succ n =>
      rw [eval] at h
      obtain ⟨q, first, _⟩ := Option.bind_eq_some_iff.mp h
      exact ⟨q, eval_succ first⟩

end Parts

end Amalgam.Peg
