/- Module: Amalgam/Pegtl/Scan
   digest: Rules that leave the states alone are partial functions on the input. -/

import Amalgam.Pegtl.Matcher

set_option autoImplicit false
set_option relaxedAutoImplicit false

namespace Amalgam.Pegtl

variable {σ ε : Type}

def scanned (inp : Input) (st : σ) : Option Input → Outcome σ ε
  | some rest => .ok rest st
  | none => .fail inp st

@[simp] theorem scanned_some (inp rest : Input) (st : σ) :
    (scanned inp st (some rest) : Outcome σ ε) = .ok rest st := rfl

@[simp] theorem scanned_none (inp : Input) (st : σ) :
    (scanned inp st none : Outcome σ ε) = .fail inp st := rfl

/-- Without `Must` the rule is the given partial scan. -/
def Scans (r : Matcher σ ε) (f : Input → Option Input) : Prop :=
  ∀ inp st, r false inp st = scanned inp st (f inp)

def charStep (p : Char → Bool) : Input → Option Input
  | [] => none
  | c :: rest => if p c then some rest else none

def charRun (p : Char → Bool) (inp : Input) : Option Input :=
  (charStep p inp).map (List.dropWhile p)

@[simp] theorem guarded_false (r : Matcher σ ε) : guarded r false = r false := by
  funext inp st
  unfold guarded
  cases r false inp st <;> simp

@[simp] theorem marker_true (inp : Input) (o : Outcome σ ε) : marker true inp o = o := by
  cases o <;> rfl

@[simp] theorem marker_ok (must : Bool) (inp rest : Input) (st : σ) :
    marker must inp (.ok rest st : Outcome σ ε) = .ok rest st := rfl

@[simp] theorem marker_false_fail (inp rest : Input) (st : σ) :
    marker false inp (.fail rest st : Outcome σ ε) = .fail inp st := rfl

@[simp] theorem seqMatch_nil (must : Bool) (inp : Input) (st : σ) :
    seqMatch ([] : List (Matcher σ ε)) must inp st = .ok inp st := rfl

theorem seqMatch_cons (r : Matcher σ ε) (rs : List (Matcher σ ε)) (must : Bool) (inp : Input)
    (st : σ) :
    seqMatch (r :: rs) must inp st =
      match guarded r must inp st with
      | .ok rest st' => seqMatch rs must rest st'
      | o => o := rfl

theorem seqMatch_singleton (r : Matcher σ ε) (must : Bool) (inp : Input) (st : σ) :
    seqMatch [r] must inp st = guarded r must inp st := by
  simp only [seqMatch]
  cases guarded r must inp st <;> rfl

theorem seq_singleton (r : Matcher σ ε) (inp : Input) (st : σ) :
    seq [r] false inp st = r false inp st := by
  simp [seq, seqMatch_singleton]

theorem Scans.seqMatch_cons {r : Matcher σ ε} {f : Input → Option Input} (hr : Scans r f)
    (rs : List (Matcher σ ε)) (inp : Input) (st : σ) :
    seqMatch (r :: rs) false inp st =
      match f inp with
      | some rest => seqMatch rs false rest st
      | none => .fail inp st := by
  simp only [seqMatch, guarded_false, hr inp st]
  cases f inp <;> rfl

theorem Scans.sor_cons {r : Matcher σ ε} {f : Input → Option Input} (hr : Scans r f)
    (rs : List (Matcher σ ε)) (must : Bool) (inp : Input) (st : σ) :
    sor (r :: rs) must inp st =
      match f inp with
      | some rest => .ok rest st
      | none => sor rs false inp st := by
  simp only [sor, guarded_false, hr inp st]
  cases f inp <;> rfl

private theorem Scans.seq_one {r : Matcher σ ε} {f : Input → Option Input} (hr : Scans r f) :
    Scans (seq [r]) f := by
  intro inp st
  rw [seq_singleton, hr]

theorem Scans.seq_two {r s : Matcher σ ε} {f g : Input → Option Input} (hr : Scans r f)
    (hs : Scans s g) : Scans (seq [r, s]) (fun inp => (f inp).bind g) := by
  intro inp st
  simp only [seq, hr.seqMatch_cons]
  cases f inp with
  | none => rfl
  | some mid =>
      simp only [Option.bind_some, hs.seqMatch_cons]
      cases g mid <;> rfl

theorem Scans.seq_three {r s t : Matcher σ ε} {f g h : Input → Option Input} (hr : Scans r f)
    (hs : Scans s g) (ht : Scans t h) :
    Scans (seq [r, s, t]) (fun inp => ((f inp).bind g).bind h) := by
  intro inp st
  simp only [seq, hr.seqMatch_cons]
  cases f inp with
  | none => rfl
  | some mid =>
      simp only [Option.bind_some, hs.seqMatch_cons]
      cases g mid with
      | none => rfl
      | some mid' =>
          simp only [Option.bind_some, ht.seqMatch_cons]
          cases h mid' <;> rfl

private theorem Scans.sor_two {r s : Matcher σ ε} {f g : Input → Option Input} (hr : Scans r f)
    (hs : Scans s g) : Scans (sor [r, s]) (fun inp => (f inp).or (g inp)) := by
  intro inp st
  simp only [hr.sor_cons, hs.sor_cons]
  cases f inp with
  | none => cases g inp <;> rfl
  | some rest => rfl

theorem Scans.congr {r : Matcher σ ε} {f g : Input → Option Input} (hr : Scans r f)
    (h : ∀ inp, f inp = g inp) : Scans r g := by
  intro inp st
  rw [hr, h]

theorem Scans.opt {r : Matcher σ ε} {f : Input → Option Input} (hr : Scans r f)
    (h : f [] = none) : Scans (opt [r]) (fun inp => some ((f inp).getD inp)) := by
  intro inp st
  cases inp with
  | nil => simp [Pegtl.opt, h]
  | cons c inp =>
      simp only [Pegtl.opt, hr.seq_one (c :: inp) st]
      cases f (c :: inp) <;> rfl

theorem character_eq (p : Char → Bool) (must : Bool) (inp : Input) (st : σ) :
    (character p must inp st : Outcome σ ε) = scanned inp st (charStep p inp) := by
  cases inp with
  | nil => rfl
  | cons c rest =>
      simp only [character, charStep]
      split <;> rfl

theorem character_scans (p : Char → Bool) : Scans (character p : Matcher σ ε) (charStep p) :=
  character_eq p false

private theorem charStep_or (p q : Char → Bool) (inp : Input) :
    (charStep p inp).or (charStep q inp) = charStep (fun c => p c || q c) inp := by
  cases inp with
  | nil => rfl
  | cons c rest => cases hp : p c <;> simp [charStep, hp]

theorem Scans.sor_char {r s : Matcher σ ε} {p q : Char → Bool} (hr : Scans r (charStep p))
    (hs : Scans s (charStep q)) : Scans (sor [r, s]) (charStep (fun c => p c || q c)) :=
  (hr.sor_two hs).congr (charStep_or p q)

private theorem starLoop_char {r : Matcher σ ε} {p : Char → Bool} (hr : Scans r (charStep p))
    (st : σ) :
    ∀ (inp : Input) (n : Nat), inp.length < n →
      starLoop r n inp st = .ok (inp.dropWhile p) st := by
  intro inp
  induction inp with
  | nil =>
      intro n hn
      cases n with
      | zero => simp at hn
      | succ n => simp [starLoop]
  | cons c rest ih =>
      intro n hn
      cases n with
      | zero => simp at hn
      | succ n =>
          have hlt : rest.length < n := by simp only [List.length_cons] at hn; omega
          simp only [starLoop, List.isEmpty_cons, Bool.false_eq_true, if_false, hr (c :: rest) st]
          cases hp : p c with
          | false => simp [charStep, hp]
          | true => simp [charStep, hp, ih n hlt]

private theorem star_char {r : Matcher σ ε} {p : Char → Bool} (hr : Scans r (charStep p))
    (must : Bool) (inp : Input) (st : σ) : star [r] must inp st = .ok (inp.dropWhile p) st :=
  starLoop_char hr.seq_one st inp (inp.length + 1) (Nat.lt_succ_self _)

theorem Scans.star {r : Matcher σ ε} {p : Char → Bool} (hr : Scans r (charStep p)) :
    Scans (star [r]) (fun inp => some (inp.dropWhile p)) :=
  fun inp st => star_char hr false inp st

theorem Scans.plus {r : Matcher σ ε} {p : Char → Bool} (hr : Scans r (charStep p)) :
    Scans (plus [r]) (charRun p) := by
  intro inp st
  simp only [Pegtl.plus, hr.seq_one inp st, charRun]
  cases charStep p inp with
  | none => rfl
  | some rest => simp [star_char hr]

private theorem seqMatch_star_char {r : Matcher σ ε} {p : Char → Bool} (hr : Scans r (charStep p))
    (rs : List (Matcher σ ε)) (inp : Input) (st : σ) :
    seqMatch (Pegtl.star [r] :: rs) false inp st = seqMatch rs false (inp.dropWhile p) st := by
  rw [hr.star.seqMatch_cons]

theorem pad_char {r s : Matcher σ ε} {p : Char → Bool} (hs : Scans s (charStep p)) (inp : Input)
    (st : σ) :
    pad r s false inp st =
      match r false (inp.dropWhile p) st with
      | .ok rest st' => .ok (rest.dropWhile p) st'
      | .fail _ st' => .fail inp st'
      | o => o := by
  simp only [pad, seq, seqMatch_star_char hs]
  rw [seqMatch_cons, guarded_false]
  cases r false (inp.dropWhile p) st with
  | ok rest st' => simp [seqMatch_star_char hs]
  | fail rest st' => rfl
  | parseError l => rfl
  | raised e => rfl
  | diverged => rfl

theorem Scans.ifapply {r : Matcher σ ε} {f : Input → Option Input} (hr : Scans r f)
    (act : Str → σ → σ) (inp : Input) (st : σ) :
    ifapply r (fun s st => .ok (act s st)) false inp st =
      match f inp with
      | some rest => .ok rest (act (consumed inp rest) st)
      | none => .fail inp st := by
  simp only [Pegtl.ifapply, hr inp st]
  cases f inp <;> rfl

theorem charRun_eq (p : Char → Bool) (inp : Input) :
    charRun p inp = if (inp.takeWhile p).isEmpty then none else some (inp.dropWhile p) := by
  cases inp with
  | nil => rfl
  | cons c rest => cases hp : p c <;> simp [charRun, charStep, hp]

theorem charRun_getD (p : Char → Bool) (inp : Input) :
    (charRun p inp).getD inp = inp.dropWhile p := by
  cases inp with
  | nil => rfl
  | cons c rest => cases hp : p c <;> simp [charRun, charStep, hp]

theorem consumed_append (tok rest : Input) : consumed (tok ++ rest) rest = tok := by
  simp [consumed]

end Amalgam.Pegtl
