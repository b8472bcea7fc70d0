/- Module: Amalgam/Parser/Runs
   digest: A run of the grammar succeeds exactly on derivable texts, with their pushes. -/

import Amalgam.Parser.Derivation

set_option autoImplicit false
set_option relaxedAutoImplicit false

namespace Amalgam.Parser

open Amalgam.Pegtl
open Amalgam.Cxx (isSpace)

variable {σ ε : Type} (A : Actions σ ε)

def pushAll (st : σ) (ts : List Token) : σ := ts.foldl (fun st t => A.push t.type t.text st) st

@[simp] theorem pushAll_nil (st : σ) : pushAll A st [] = st := rfl

@[simp] theorem pushAll_cons (st : σ) (t : Token) (ts : List Token) :
    pushAll A st (t :: ts) = pushAll A (A.push t.type t.text st) ts := rfl

@[simp] theorem pushAll_append (st : σ) (ts us : List Token) :
    pushAll A st (ts ++ us) = pushAll A (pushAll A st ts) us := List.foldl_append

/-- What a group makes of the outcome of the expression inside it. -/
def closeGroup (inp : Input) : Outcome σ ε → Outcome σ ε
  | .ok (')' :: rest) st => .ok (skip rest) st
  | .ok _ st => .fail inp st
  | .fail _ st => .fail inp st
  | o => o

private theorem closeGroup_ok {inp rest : Input} {o : Outcome σ ε} {st : σ}
    (h : closeGroup inp o = .ok rest st) : ∃ r, o = .ok (')' :: r) st ∧ rest = skip r := by
  unfold closeGroup at h
  split at h
  · obtain ⟨rfl, rfl⟩ := Outcome.ok.inj h
    exact ⟨_, rfl, rfl⟩
  · simp at h
  · simp at h
  · rename_i notOk _
    exact absurd h (notOk _ _)

private theorem oneChar_scans (c : Char) : Scans (one [c] : Matcher σ ε)
    (charStep (fun d => d == c)) := by
  intro inp st
  rw [one, character_eq]
  congr 2
  funext d
  exact Bool.eq_iff_iff.mpr (by simp)

theorem pushGroup_open (e : Matcher σ ε) {inp inner : Input} (h : skip inp = '(' :: inner)
    (st : σ) : Rules.pushGroup e false inp st = closeGroup inp (e false inner st) := by
  have skipped : inp.dropWhile isSpace = skip inp := rfl
  rw [Rules.pushGroup, pad_char space_scans, skipped]
  simp only [seq, h, (oneChar_scans '(').seqMatch_cons, charStep, beq_self_eq_true, if_true]
  rw [seqMatch_cons, guarded_false]
  cases e false inner st with
  | ok rest st' =>
      simp only [(oneChar_scans ')').seqMatch_cons]
      cases rest with
      | nil => rfl
      | cons c rest =>
          by_cases hc : c = ')'
          · subst hc
            rfl
          · have other : closeGroup inp (.ok (c :: rest) st' : Outcome σ ε) = .fail inp st' := by
              simp [closeGroup, hc]
            simp [charStep, hc, other, marker]
  | fail rest st' => rfl
  | parseError l => rfl
  | raised x => rfl
  | diverged => rfl

theorem pushGroup_closed (e : Matcher σ ε) {inp : Input} (h : ∀ inner, skip inp ≠ '(' :: inner)
    (st : σ) : Rules.pushGroup e false inp st = .fail inp st := by
  have skipped : inp.dropWhile isSpace = skip inp := rfl
  rw [Rules.pushGroup, pad_char space_scans, skipped]
  simp only [seq, (oneChar_scans '(').seqMatch_cons]
  cases hs : skip inp with
  | nil => rfl
  | cons c rest =>
      have hc : c ≠ '(' := fun hc => h rest (hc ▸ hs)
      simp [charStep, hc, marker]

theorem exprAtom_eq (e : Matcher σ ε) (must : Bool) (inp : Input) (st : σ) :
    Rules.exprAtom A e must inp st =
      match lexInteger (skip inp), lexIdentifier (skip inp) with
      | some (tok, rest), _ => .ok (skip rest) (A.push .literalInt tok st)
      | none, some (tok, rest) => .ok (skip rest) (A.push .identifier tok st)
      | none, none => Rules.pushGroup e false inp st := by
  simp only [Rules.exprAtom, sor, guarded_false, pushInteger_eq, pushIdentifier_eq]
  cases hi : lexInteger (skip inp) with
  | some found => rfl
  | none =>
      cases hd : lexIdentifier (skip inp) with
      | some found => simp only [hd]
      | none =>
          simp only [hd]
          cases Rules.pushGroup e false inp st <;> rfl

def tailBody (n : Nat) : Matcher σ ε :=
  seq [ifmust (Rules.pushOp A) [Rules.exprAtom A (Rules.expr A n)]]

theorem tailBody_eq (n : Nat) (inp : Input) (st : σ) :
    tailBody A n false inp st =
      match lexOp (skip inp) with
      | some (op, rest) =>
          guarded (Rules.exprAtom A (Rules.expr A n)) true (skip rest) (A.push .op op st)
      | none => .fail inp st := by
  simp only [tailBody, seq_singleton, ifmust, cond2impl, guarded_false, pushOp_eq, marker_true]
  cases lexOp (skip inp) with
  | none => rfl
  | some found => simp only [seqMatch_singleton]

theorem starLoop_ne_fail (r : Matcher σ ε) (n : Nat) (inp rest : Input) (st st' : σ) :
    starLoop r n inp st ≠ .fail rest st' := by
  induction n generalizing inp st with
  | zero => simp [starLoop]
  | succ n ih =>
      simp only [starLoop]
      split
      · simp
      · cases r false inp st with
        | ok rest' st'' => exact ih rest' st''
        | _ => simp

theorem tailLoop_succ (n k : Nat) (inp : Input) (st : σ) :
    starLoop (tailBody A n) (k + 1) inp st =
      match lexOp (skip inp) with
      | some (op, rest) =>
          match guarded (Rules.exprAtom A (Rules.expr A n)) true (skip rest)
              (A.push .op op st) with
          | .ok rest' st' => starLoop (tailBody A n) k rest' st'
          | .fail rest' st' => .ok rest' st'
          | o => o
      | none => .ok inp st := by
  simp only [starLoop, tailBody_eq]
  cases inp with
  | nil => rfl
  | cons c inp =>
      simp only [List.isEmpty_cons, Bool.false_eq_true, if_false]
      cases lexOp (skip (c :: inp)) with
      | none => rfl
      | some found => rfl

theorem expr_succ (n : Nat) (must : Bool) (inp : Input) (st : σ) :
    Rules.expr A (n + 1) must inp st =
      match Rules.exprAtom A (Rules.expr A n) must inp st with
      | .ok rest st' => starLoop (tailBody A n) (rest.length + 1) rest st'
      | .fail _ st' => if must then .parseError inp else .fail inp st'
      | o => o := by
  have loop : ∀ rest st', star [ifmust (Rules.pushOp A) [Rules.exprAtom A (Rules.expr A n)]]
      must rest st' = starLoop (tailBody A n) (rest.length + 1) rest st' := fun _ _ => rfl
  simp only [Rules.expr, list, seq, seqMatch_cons, guarded, loop]
  cases Rules.exprAtom A (Rules.expr A n) must inp st with
  | ok rest st' =>
      simp only
      cases h : starLoop (tailBody A n) (rest.length + 1) rest st' with
      | fail r s => exact absurd h (starLoop_ne_fail _ _ _ _ _ _)
      | _ => rfl
  | fail rest st' => cases must <;> rfl
  | parseError l => rfl
  | raised x => rfl
  | diverged => rfl

section Soundness

/-- A successful atom has a derivation, when successful runs of `e` have one. -/
theorem exprAtom_sound {e : Matcher σ ε}
    (he : ∀ inp st rest st', e false inp st = .ok rest st' →
      ∃ x, Derives .expr inp x rest ∧ st' = pushAll A st x.tokens)
    {must : Bool} {inp rest : Input} {st st' : σ}
    (run : Rules.exprAtom A e must inp st = .ok rest st') :
    ∃ x, Derives .atom inp x rest ∧ st' = pushAll A st x.tokens := by
  rw [exprAtom_eq] at run
  cases hi : lexInteger (skip inp) with
  | some found =>
      simp only [hi, Outcome.ok.injEq] at run
      obtain ⟨rfl, rfl⟩ := run
      exact ⟨_, .integer hi, rfl⟩
  | none =>
      cases hd : lexIdentifier (skip inp) with
      | some found =>
          simp only [hi, hd, Outcome.ok.injEq] at run
          obtain ⟨rfl, rfl⟩ := run
          exact ⟨_, .identifier hi hd, rfl⟩
      | none =>
          simp only [hi, hd] at run
          by_cases opened : ∃ inner, skip inp = '(' :: inner
          · obtain ⟨inner, opened⟩ := opened
            rw [pushGroup_open e opened] at run
            obtain ⟨r, inside, rfl⟩ := closeGroup_ok run
            obtain ⟨x, derived, rfl⟩ := he inner st _ _ inside
            exact ⟨.group x, .group opened derived, rfl⟩
          · rw [pushGroup_closed e (fun inner h => opened ⟨inner, h⟩)] at run
            simp at run

private theorem tailLoop_sound {n : Nat}
    (he : ∀ inp st rest st', Rules.expr A n false inp st = .ok rest st' →
      ∃ x, Derives .expr inp x rest ∧ st' = pushAll A st x.tokens)
    {k : Nat} {s inp rest : Input} {st st' : σ} {a : Expr} (atom : Derives .atom s a inp)
    (run : starLoop (tailBody A n) k inp (pushAll A st a.tokens) = .ok rest st') :
    ∃ x, Derives .expr s x rest ∧ st' = pushAll A st x.tokens := by
  induction k generalizing s inp st a with
  | zero => simp [starLoop] at run
  | succ k ih =>
      rw [tailLoop_succ] at run
      cases ho : lexOp (skip inp) with
      | none =>
          simp only [ho, Outcome.ok.injEq] at run
          obtain ⟨rfl, rfl⟩ := run
          exact ⟨a, .single atom ho, rfl⟩
      | some found =>
          obtain ⟨op, tail⟩ := found
          simp only [ho, guarded] at run
          cases ha : Rules.exprAtom A (Rules.expr A n) true (skip tail)
              (A.push .op op (pushAll A st a.tokens)) with
          | ok r s' =>
              obtain ⟨b, next, rfl⟩ := exprAtom_sound A he ha
              rw [ha] at run
              obtain ⟨x, derived, rfl⟩ := ih next run
              exact ⟨.binary a op x, .binary atom ho derived, by simp [Expr.tokens]⟩
          | _ => simp [ha] at run

theorem expr_sound (n : Nat) {must : Bool} {inp rest : Input} {st st' : σ}
    (run : Rules.expr A n must inp st = .ok rest st') :
    ∃ x, Derives .expr inp x rest ∧ st' = pushAll A st x.tokens := by
  induction n generalizing must inp rest st st' with
  | zero => simp [Rules.expr] at run
  | succ n ih =>
      rw [expr_succ] at run
      cases ha : Rules.exprAtom A (Rules.expr A n) must inp st with
      | ok r s =>
          rw [ha] at run
          obtain ⟨a, atom, rfl⟩ := exprAtom_sound A (fun _ _ _ _ h => ih h) ha
          exact tailLoop_sound A (fun _ _ _ _ h => ih h) atom run
      | fail r s =>
          rw [ha] at run
          cases must <;> simp at run
      | _ => simp [ha] at run

end Soundness

section Completeness

/-- What a derivation says about runs with enough fuel. For an expression the run is
cut after its first atom, so that the repetition can be resumed there. -/
def Runs (nt : Nonterminal) (s : Input) (e : Expr) (rest : Input) : Prop :=
  ∀ n, s.length ≤ n → ∀ (must : Bool) (st : σ),
    match nt with
    | .atom => Rules.exprAtom A (Rules.expr A n) must s st = .ok rest (pushAll A st e.tokens)
    | .expr => ∃ mid st', Rules.exprAtom A (Rules.expr A n) must s st = .ok mid st' ∧
        mid.length < s.length ∧ ∀ k, mid.length < k →
          starLoop (tailBody A n) k mid st' = .ok rest (pushAll A st e.tokens)

variable {A} in
theorem Runs.expr {s rest : Input} {e : Expr} (h : Runs A .expr s e rest) {n : Nat}
    (hn : s.length < n) (must : Bool) (st : σ) :
    Rules.expr A n must s st = .ok rest (pushAll A st e.tokens) := by
  cases n with
  | zero => omega
  | succ n =>
      obtain ⟨mid, st', atom, -, loop⟩ := h n (Nat.lt_succ_iff.mp hn) must st
      rw [expr_succ, atom]
      exact loop (mid.length + 1) (Nat.lt_succ_self _)

theorem Derives.runs {nt : Nonterminal} {s rest : Input} {e : Expr} (h : Derives nt s e rest) :
    Runs A nt s e rest := by
  induction h with
  | integer lexed =>
      intro n _ must st
      simp only [exprAtom_eq, lexed]
      rfl
  | identifier noInteger lexed =>
      intro n _ must st
      simp only [exprAtom_eq, noInteger, lexed]
      rfl
  | @group s inner rest e opened _ ih =>
      intro n hn must st
      have shorter : inner.length < n := by
        have := length_skip_le s
        simp only [opened, List.length_cons] at this
        omega
      have noInteger : lexInteger (skip s) = none := by
        rw [opened]
        rfl
      have noIdentifier : lexIdentifier (skip s) = none := by
        rw [opened]
        rfl
      simp only [exprAtom_eq, noInteger, noIdentifier, pushGroup_open _ opened,
        ih.expr shorter false st]
      rfl
  | @single s rest a atom stop ih =>
      intro n hn must st
      refine ⟨rest, _, ih n hn must st, atom.length_lt, fun k hk => ?_⟩
      cases k with
      | zero => omega
      | succ k => simp only [tailLoop_succ, stop]
  | @binary s mid tail rest a e op atom lexed derived ihAtom ihExpr =>
      intro n hn must st
      refine ⟨mid, _, ihAtom n hn must st, atom.length_lt, fun k hk => ?_⟩
      cases k with
      | zero => omega
      | succ k =>
          have shorter : (skip tail).length < mid.length := by
            have := lexOp_length lexed
            have := length_skip_le mid
            have := length_skip_le tail
            omega
          have := atom.length_lt
          obtain ⟨mid', st', next, shorter', loop⟩ := ihExpr n (by omega) true
            (A.push .op op (pushAll A st a.tokens))
          simp only [tailLoop_succ, lexed, guarded, next, loop k (by omega), Expr.tokens,
            pushAll_append, pushAll_cons]

end Completeness

section Totality

/-- The outcome is one that the source code can reach: no fuel ran out, and no push
threw. -/
def Settled : Outcome σ ε → Prop
  | .raised _ => False
  | .diverged => False
  | _ => True

private theorem exprAtom_settled {e : Matcher σ ε} {inp : Input}
    (he : ∀ s st, s.length < inp.length → Settled (e false s st)) (must : Bool) (st : σ) :
    Settled (Rules.exprAtom A e must inp st) := by
  rw [exprAtom_eq]
  split
  · trivial
  · trivial
  · by_cases opened : ∃ inner, skip inp = '(' :: inner
    · obtain ⟨inner, opened⟩ := opened
      have shorter : inner.length < inp.length := by
        have := length_skip_le inp
        simp only [opened, List.length_cons] at this
        omega
      have inside := he inner st shorter
      rw [pushGroup_open e opened]
      unfold closeGroup
      split <;> simp_all [Settled]
    · rw [pushGroup_closed e (fun inner h => opened ⟨inner, h⟩)]
      trivial

private theorem tailLoop_settled {n : Nat}
    (hatom : ∀ s must st, s.length ≤ n → Settled (Rules.exprAtom A (Rules.expr A n) must s st))
    (k : Nat) (inp : Input) (st : σ) (hk : inp.length < k) (hn : inp.length ≤ n) :
    Settled (starLoop (tailBody A n) k inp st) := by
  induction k generalizing inp st with
  | zero => omega
  | succ k ih =>
      rw [tailLoop_succ]
      cases ho : lexOp (skip inp) with
      | none => trivial
      | some found =>
          obtain ⟨op, tail⟩ := found
          have shorter : (skip tail).length < inp.length := by
            have := lexOp_length ho
            have := length_skip_le inp
            have := length_skip_le tail
            omega
          have next := hatom (skip tail) true (A.push .op op st) (by omega)
          simp only [guarded]
          cases ha : Rules.exprAtom A (Rules.expr A n) true (skip tail) (A.push .op op st) with
          | ok r s =>
              obtain ⟨x, derived, -⟩ :=
                exprAtom_sound A (fun _ _ _ _ h => expr_sound A n h) ha
              have := derived.length_lt
              exact ih r s (by omega) (by omega)
          | fail r s => trivial
          | _ => simpa [ha] using next

private theorem expr_settled (n : Nat) (must : Bool) (inp : Input) (st : σ) (hn : inp.length < n) :
    Settled (Rules.expr A n must inp st) := by
  induction n generalizing must inp st with
  | zero => omega
  | succ n ih =>
      have hatom : ∀ s must st, s.length ≤ n →
          Settled (Rules.exprAtom A (Rules.expr A n) must s st) := fun s must st hs =>
        exprAtom_settled A (fun s' st' hs' => ih false s' st' (by omega)) must st
      have first := hatom inp must st (Nat.lt_succ_iff.mp hn)
      rw [expr_succ]
      cases ha : Rules.exprAtom A (Rules.expr A n) must inp st with
      | ok r s =>
          obtain ⟨x, derived, -⟩ := exprAtom_sound A (fun _ _ _ _ h => expr_sound A n h) ha
          have := derived.length_lt
          exact tailLoop_settled A hatom (r.length + 1) r s (Nat.lt_succ_self _) (by omega)
      | fail r s => cases must <;> trivial
      | _ => simpa [ha] using first

end Totality

section Grammar

def dropEol : Input → Input
  | '\r' :: '\n' :: s => s
  | _ :: s => s
  | [] => []

private theorem eof_scans : Scans (eof : Matcher σ ε)
    (fun s => if s.isEmpty then some s else none) := by
  intro inp st
  cases inp <;> rfl

private theorem eol_eq (must : Bool) (inp : Input) (st : σ) :
    (eol must inp st : Outcome σ ε) =
      if atEol inp then .ok (dropEol inp) st else .fail inp st := by
  have crlf_scans : Scans (crlf : Matcher σ ε) _ :=
      (oneChar_scans '\r').seq_two (oneChar_scans '\n')
  have lf_scans : Scans (lf : Matcher σ ε) _ := oneChar_scans '\n'
  have cr_scans : Scans (cr : Matcher σ ε) _ := oneChar_scans '\r'
  rw [eol, eof_scans.sor_cons, crlf_scans.sor_cons, lf_scans.sor_cons, cr_scans.sor_cons]
  cases inp with
  | nil => rfl
  | cons c s =>
      by_cases hcr : c = '\r'
      · subst hcr
        cases s with
        | nil => rfl
        | cons d s =>
            by_cases hlf : d = '\n'
            · subst hlf
              rfl
            · simp [charStep, atEol, dropEol, hlf]
      · by_cases hlf : c = '\n'
        · subst hlf
          rfl
        · simp [charStep, atEol, hcr, hlf, sor]

def listLoop (n m : Nat) : Input → σ → Outcome σ ε :=
  untilLoop eol (seqMatch [Rules.expr A m]) true n

theorem listLoop_succ (n m : Nat) (inp : Input) (st : σ) :
    listLoop A (n + 1) m inp st =
      if atEol inp then .ok (dropEol inp) st else
        match guarded (Rules.expr A m) true inp st with
        | .ok rest st' => listLoop A n m rest st'
        | o => o := by
  simp only [listLoop, untilLoop, guarded_false, eol_eq]
  cases inp with
  | nil => rfl
  | cons c s =>
      cases h : atEol (c :: s) with
      | true => rfl
      | false =>
          have body := seqMatch_singleton (Rules.expr A m) true (c :: s) st
          cases run : guarded (Rules.expr A m) true (c :: s) st with
          | _ => simp only [List.isEmpty_cons, Bool.false_eq_true, if_false, body, run]

theorem listLoop_sound {n m : Nat} {inp rest : Input} {st st' : σ}
    (run : listLoop A n m inp st = .ok rest st') :
    ∃ es, DerivesAll inp es ∧ st' = pushAll A st (allTokens es) := by
  induction n generalizing inp st with
  | zero => simp [listLoop, untilLoop] at run
  | succ n ih =>
      rw [listLoop_succ] at run
      cases h : atEol inp with
      | true =>
          simp only [h, if_true, Outcome.ok.injEq] at run
          exact ⟨[], .nil h, run.2.symm⟩
      | false =>
          simp only [h, Bool.false_eq_true, if_false, guarded] at run
          cases he : Rules.expr A m true inp st with
          | ok r s =>
              obtain ⟨x, derived, rfl⟩ := expr_sound A m he
              rw [he] at run
              obtain ⟨es, others, rfl⟩ := ih run
              exact ⟨x :: es, .cons h derived others, by simp [allTokens]⟩
          | _ => simp [he] at run

theorem DerivesAll.run {inp : Input} {es : List Expr} (h : DerivesAll inp es) :
    ∃ rest, ∀ {σ ε : Type} (A : Actions σ ε) (n m : Nat) (st : σ), inp.length < n →
      inp.length < m → listLoop A n m inp st = .ok rest (pushAll A st (allTokens es)) := by
  induction h with
  | @nil s stop =>
      refine ⟨dropEol s, ?_⟩
      intro σ ε A n m st hn _
      obtain ⟨n, rfl⟩ : ∃ k, n = k + 1 := ⟨n - 1, by omega⟩
      rw [listLoop_succ, stop]
      rfl
  | @cons s next e es go derived _ ih =>
      obtain ⟨rest, run⟩ := ih
      refine ⟨rest, ?_⟩
      intro σ ε A n m st hn hm
      obtain ⟨n, rfl⟩ : ∃ k, n = k + 1 := ⟨n - 1, by omega⟩
      have shorter := derived.length_lt
      have first : Rules.expr A m true s st = .ok next (pushAll A st e.tokens) :=
        (derived.runs A).expr hm true st
      rw [listLoop_succ, go]
      simp only [Bool.false_eq_true, if_false, guarded, first]
      rw [run A n m _ (by omega) (by omega)]
      simp only [allTokens, List.flatMap_cons, pushAll_append]

theorem listLoop_total {n m : Nat} {inp : Input} (hn : inp.length < n) (hm : inp.length < m)
    (st : σ) : (∃ rest st', listLoop A n m inp st = .ok rest st') ∨
      ∃ l, listLoop A n m inp st = .parseError l := by
  induction n generalizing inp st with
  | zero => omega
  | succ n ih =>
      rw [listLoop_succ]
      cases h : atEol inp with
      | true => exact .inl ⟨_, _, rfl⟩
      | false =>
          have settled := expr_settled A m true inp st hm
          simp only [Bool.false_eq_true, if_false, guarded]
          cases he : Rules.expr A m true inp st with
          | ok r s =>
              obtain ⟨x, derived, -⟩ := expr_sound A m he
              have := derived.length_lt
              exact ih (by omega) (by omega) s
          | fail r s => exact .inr ⟨_, rfl⟩
          | parseError l => exact .inr ⟨_, rfl⟩
          | raised x => simp [he, Settled] at settled
          | diverged => simp [he, Settled] at settled

theorem grammar_eq (s : Str) (st : σ) :
    Pegtl.parse (Rules.grammar A) s st =
      match listLoop A (s.length + 1) (s.length + 1) s st with
      | .ok rest st' =>
          match A.sweep (consumed s rest) st' with
          | .ok st'' => .ok rest st''
          | .error x => .raised x
      | .fail _ _ => .parseError s
      | o => o := by
  have loop : untilRule eol [Rules.expr A (s.length + 1)] true s st =
      listLoop A (s.length + 1) (s.length + 1) s st := by
    simp [untilRule, listLoop]
  simp only [Pegtl.parse, guarded, Rules.grammar, Rules.exprList, ifapply, loop]
  cases listLoop A (s.length + 1) (s.length + 1) s st with
  | ok rest st' =>
      simp only
      cases A.sweep (consumed s rest) st' <;> rfl
  | _ => rfl

/-- A derivable text is matched, with the pushes of its tokens in source order and
one sweep after them. -/
theorem DerivesAll.grammar {s : Str} {es : List Expr} (h : DerivesAll s es) :
    ∃ rest, ∀ {σ ε : Type} (A : Actions σ ε) (st : σ), Pegtl.parse (Rules.grammar A) s st =
      match A.sweep (consumed s rest) (pushAll A st (allTokens es)) with
      | .ok st' => .ok rest st'
      | .error x => .raised x := by
  obtain ⟨rest, run⟩ := h.run
  refine ⟨rest, ?_⟩
  intro σ ε A st
  rw [grammar_eq, run A _ _ st (Nat.lt_succ_self _) (Nat.lt_succ_self _)]

/-- Any other text ends in a parse error. -/
theorem grammar_parseError {s : Str} (h : ∀ es, ¬ DerivesAll s es) (st : σ) :
    ∃ l, Pegtl.parse (Rules.grammar A) s st = .parseError l := by
  rcases listLoop_total A (Nat.lt_succ_self s.length) (Nat.lt_succ_self s.length) st with
    ⟨rest, st', run⟩ | ⟨l, run⟩
  · obtain ⟨es, derived, -⟩ := listLoop_sound A run
    exact absurd derived (h es)
  · exact ⟨l, by rw [grammar_eq, run]⟩

end Grammar

end Amalgam.Parser
