/- Module: Amalgam/Pegtl/Parametric
   digest: What every rule template keeps holds of every rule. -/

import Mathlib.Data.List.Forall2
import Amalgam.Pegtl.Rule

set_option autoImplicit false
set_option relaxedAutoImplicit false

namespace Amalgam.Pegtl

section Upright

variable {ι α : Type}

mutual

/-- No rule is looked for under the opposite of `Must`: there is no `not_at`, and no
`rep2`, which ends with one. -/
def Rule.upright : Rule ι α → Bool
  | .notAt _ => false
  | .rep2 _ _ _ => false
  | .seq rs => uprights rs
  | .opt rs => uprights rs
  | .star rs => uprights rs
  | .plus rs => uprights rs
  | .sor rs => uprights rs
  | .atRule r => r.upright
  | .rep _ rs => uprights rs
  | .mustRule rs => uprights rs
  | .untilAny cond => cond.upright
  | .untilRule cond rs => cond.upright && uprights rs
  | .cond2impl _ cond thens => cond.upright && uprights thens
  | .cond3impl _ cond thenRule elseRule =>
      cond.upright && (thenRule.upright && elseRule.upright)
  | .ifapply r _ => r.upright
  | _ => true

def uprights : List (Rule ι α) → Bool
  | [] => true
  | r :: rs => r.upright && uprights rs

end

end Upright

section Closure

variable {ι α σ σ' ε ε' : Type}

/-- A relation between matchers that each template hands on from the rules in it. On the
two sides the actions and the bounds of the loops may differ. -/
structure Closed (act : α → Str → σ → Except ε σ) (act' : α → Str → σ' → Except ε' σ')
    (n n' : Nat) (inverts : Prop) (R : Matcher σ ε → Matcher σ' ε' → Prop) : Prop where
  success : R success success
  failure : R failure failure
  eof : R eof eof
  character : ∀ p, R (character p) (character p)
  string : ∀ s, R (string s) (string s)
  seq : ∀ {rs rs'}, List.Forall₂ R rs rs' → R (seq rs) (seq rs')
  opt : ∀ {rs rs'}, List.Forall₂ R rs rs' → R (opt rs) (opt rs')
  star : ∀ {rs rs'}, List.Forall₂ R rs rs' → R (starFor n rs) (starFor n' rs')
  plus : ∀ {rs rs'}, List.Forall₂ R rs rs' → R (plusFor n rs) (plusFor n' rs')
  sor : ∀ {rs rs'}, List.Forall₂ R rs rs' → R (sor rs) (sor rs')
  atRule : ∀ {r r'}, R r r' → R (atRule r) (atRule r')
  notAt : inverts → ∀ {r r'}, R r r' → R (notAt r) (notAt r')
  rep : ∀ k {rs rs'}, List.Forall₂ R rs rs' → R (rep k rs) (rep k rs')
  rep2 : inverts → ∀ k m {rs rs'}, List.Forall₂ R rs rs' → R (rep2 k m rs) (rep2 k m rs')
  mustRule : ∀ {rs rs'}, List.Forall₂ R rs rs' → R (mustRule rs) (mustRule rs')
  untilAny : ∀ {c c'}, R c c' → R (untilFor n c any) (untilFor n' c' any)
  untilRule : ∀ {c c' rs rs'}, R c c' → List.Forall₂ R rs rs' →
    R (untilFor n c (seqMatch rs)) (untilFor n' c' (seqMatch rs'))
  cond2impl : ∀ own {c c' rs rs'}, R c c' → List.Forall₂ R rs rs' →
    R (cond2impl own c rs) (cond2impl own c' rs')
  cond3impl : ∀ own {c c' r r' s s'}, R c c' → R r r' → R s s' →
    R (cond3impl own c r s) (cond3impl own c' r' s')
  apply : ∀ fs, R (apply (applyHelper act fs)) (apply (applyHelper act' fs))
  ifapply : ∀ fs {r r'}, R r r' →
    R (ifapply r (applyHelper act fs)) (ifapply r' (applyHelper act' fs))

variable {act : α → Str → σ → Except ε σ} {act' : α → Str → σ' → Except ε' σ'} {n n' : Nat}
  {inverts : Prop} {R : Matcher σ ε → Matcher σ' ε' → Prop}
  {calls : ι → Matcher σ ε} {calls' : ι → Matcher σ' ε'}

theorem forall_of_forall₂ {β : Type} {P : Matcher σ ε → Prop} {rs : List (Matcher σ ε)}
    {bs : List β} (h : List.Forall₂ (fun r (_ : β) => P r) rs bs) : ∀ r ∈ rs, P r := by
  induction h with
  | nil => exact fun r member => absurd member List.not_mem_nil
  | cons first _ ih =>
      intro r member
      rcases List.mem_cons.mp member with rfl | other
      · exact first
      · exact ih r other

private theorem both_of_and {b c : Bool} (h : inverts ∨ (b && c) = true) :
    (inverts ∨ b = true) ∧ (inverts ∨ c = true) := by
  rcases h with free | both
  · exact ⟨.inl free, .inl free⟩
  · have parts := Bool.and_eq_true_iff.mp both
    exact ⟨.inr parts.1, .inr parts.2⟩

mutual

theorem Closed.meaning (closed : Closed act act' n n' inverts R)
    (called : ∀ i, R (calls i) (calls' i)) :
    ∀ r : Rule ι α, (inverts ∨ r.upright = true) →
      R (r.meaning act calls n) (r.meaning act' calls' n')
  | .success, _ => closed.success
  | .failure, _ => closed.failure
  | .eof, _ => closed.eof
  | .character p, _ => closed.character p
  | .string s, _ => closed.string s
  | .seq rs, h => closed.seq (closed.meanings called rs h)
  | .opt rs, h => closed.opt (closed.meanings called rs h)
  | .star rs, h => closed.star (closed.meanings called rs h)
  | .plus rs, h => closed.plus (closed.meanings called rs h)
  | .sor rs, h => closed.sor (closed.meanings called rs h)
  | .atRule r, h => closed.atRule (closed.meaning called r h)
  | .notAt r, h =>
      have free := h.resolve_right Bool.false_ne_true
      closed.notAt free (closed.meaning called r (.inl free))
  | .rep k rs, h => closed.rep k (closed.meanings called rs h)
  | .rep2 k m rs, h =>
      have free := h.resolve_right Bool.false_ne_true
      closed.rep2 free k m (closed.meanings called rs (.inl free))
  | .mustRule rs, h => closed.mustRule (closed.meanings called rs h)
  | .untilAny c, h => closed.untilAny (closed.meaning called c h)
  | .untilRule c rs, h =>
      have both := both_of_and h
      closed.untilRule (closed.meaning called c both.1) (closed.meanings called rs both.2)
  | .cond2impl own c rs, h =>
      have both := both_of_and h
      closed.cond2impl own (closed.meaning called c both.1) (closed.meanings called rs both.2)
  | .cond3impl own c r s, h =>
      have both := both_of_and h
      have branches := both_of_and both.2
      closed.cond3impl own (closed.meaning called c both.1) (closed.meaning called r branches.1)
        (closed.meaning called s branches.2)
  | .apply fs, _ => closed.apply fs
  | .ifapply r fs, h => closed.ifapply fs (closed.meaning called r h)
  | .call i, _ => called i

theorem Closed.meanings (closed : Closed act act' n n' inverts R)
    (called : ∀ i, R (calls i) (calls' i)) :
    ∀ rs : List (Rule ι α), (inverts ∨ uprights rs = true) →
      List.Forall₂ R (Rule.meanings act calls n rs) (Rule.meanings act' calls' n' rs)
  | [], _ => .nil
  | r :: rs, h =>
      have both := both_of_and h
      .cons (closed.meaning called r both.1) (closed.meanings called rs both.2)

end

theorem Closed.called (closed : ∀ n, Closed act act' n n inverts R)
    (ended : R divergence divergence) {rules : ι → Rule ι α}
    (hrules : ∀ i, inverts ∨ (rules i).upright = true) (n : Nat) (i : ι) :
    R (Rule.calls act rules n i) (Rule.calls act' rules n i) := by
  induction n generalizing i with
  | zero => exact ended
  | succ n ih => exact (closed n).meaning ih (rules i) (hrules i)

/-- A relation that each template hands on, and that holds between matches that do not end,
holds between what any rule does on the two sides. -/
theorem Closed.run (closed : ∀ n, Closed act act' n n inverts R) (ended : R divergence divergence)
    {rules : ι → Rule ι α} (hrules : ∀ i, inverts ∨ (rules i).upright = true) (n : Nat)
    {r : Rule ι α} (h : inverts ∨ r.upright = true) :
    R (Rule.run act rules n r) (Rule.run act' rules n r) :=
  (closed n).meaning (Closed.called closed ended hrules n) r h

end Closure

end Amalgam.Pegtl
