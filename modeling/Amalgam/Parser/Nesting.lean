/- Module: Amalgam/Parser/Nesting
   digest: The current method and the stack of nested methods under well-nested calls. -/

import Amalgam.Parser.Tables

set_option autoImplicit false
set_option relaxedAutoImplicit false

namespace Amalgam.Parser

open Amalgam.Machine

/-- Every push is followed by its own pop, and every pop preceded by its own push. -/
inductive Nested : List Operation → Prop
  | nil : Nested []
  | other {a : Operation} {ops : List Operation} : a.isPush = false → a.isPop = false →
      Nested ops → Nested (a :: ops)
  | nest {name : Pegtl.Str} {inner ops : List Operation} : Nested inner → Nested ops →
      Nested (.pushCurrentMethod name :: (inner ++ .popCurrentMethod :: ops))

section Restoring

private theorem perform_other {m m' : Module} {a : Operation} (push : a.isPush = false)
    (pop : a.isPop = false) (taken : m.perform a = .ok m') :
    m'.currentMethod = m.currentMethod ∧ m'.nestedMethodStack = m.nestedMethodStack := by
  cases a with
  | pushCurrentMethod name => simp [Operation.isPush] at push
  | popCurrentMethod => simp [Operation.isPop] at pop
  | addMethod p =>
      obtain rfl := Except.ok.inj taken
      unfold Module.addMethod
      split <;> exact ⟨rfl, rfl⟩
  | _ =>
      obtain rfl := Except.ok.inj taken
      exact ⟨rfl, rfl⟩

private theorem pop_after_push {m t m' : Module} (name : Pegtl.Str)
    (stack : t.nestedMethodStack = (m.pushCurrentMethod name).nestedMethodStack)
    (popped : t.popCurrentMethod = .ok m') :
    m'.currentMethod = m.currentMethod ∧ m'.nestedMethodStack = m.nestedMethodStack := by
  have pushed : t.nestedMethodStack = m.nestedMethodStack ++ [m.currentMethod] := stack
  rw [popCurrentMethod_eq pushed] at popped
  obtain rfl := Except.ok.inj popped
  exact ⟨rfl, rfl⟩

private theorem Nested.restores {ops : List Operation} (nested : Nested ops) {m m' : Module}
    (run : ops.foldlM Module.perform m = .ok m') :
    m'.currentMethod = m.currentMethod ∧ m'.nestedMethodStack = m.nestedMethodStack := by
  induction nested generalizing m m' with
  | nil =>
      obtain rfl := Except.ok.inj run
      exact ⟨rfl, rfl⟩
  | other push pop _ ih =>
      obtain ⟨t, taken, rest⟩ := (run_cons _ _ m m').mp run
      obtain ⟨current, stack⟩ := perform_other push pop taken
      obtain ⟨current', stack'⟩ := ih rest
      exact ⟨current'.trans current, stack'.trans stack⟩
  | @nest name inner ops _ _ ihInner ihRest =>
      obtain ⟨t, taken, rest⟩ := (run_cons _ _ m m').mp run
      obtain rfl := Except.ok.inj taken
      obtain ⟨u, inside, rest⟩ := (run_append _ _ _ m').mp rest
      obtain ⟨v, popped, rest⟩ := (run_cons _ _ u m').mp rest
      obtain ⟨current, stack⟩ := pop_after_push name (ihInner inside).2 popped
      obtain ⟨current', stack'⟩ := ihRest rest
      exact ⟨current'.trans current, stack'.trans stack⟩

end Restoring

section Focus

variable {before : List Operation} {m : Module} {a : Operation}

def Module.Live (m : Module) (e : Option MethodPtr) : Prop := ∃ x, m.deref e = .ok x

/-- The current method exists, and so do all on the stack but the one that the constructor
left at the bottom. -/
structure Module.Focused (m : Module) (before : List Operation) : Prop where
  kept : m.Kept before
  current : m.Live m.currentMethod
  frames : ∃ rest, m.nestedMethodStack = none :: rest ∧ ∀ e ∈ rest, m.Live e

theorem Module.Live.mono {m' : Module} {e : Option MethodPtr} (live : m.Live e)
    (more : m.objects.length ≤ m'.objects.length) : m'.Live e := by
  obtain ⟨p, owned, inside⟩ := deref_isOk.mp live
  exact deref_isOk.mpr ⟨p, owned, inside.trans_le more⟩

private theorem Module.Kept.objects_le {m' : Module} (kept : m.Kept before)
    (kept' : m'.Kept (before ++ [a])) :
    m.objects.length ≤ m'.objects.length := by
  rw [kept.objects, kept'.objects, objectsAfter_concat, List.length_append]
  exact Nat.le_add_right _ _

private theorem new_focused (name : Pegtl.Str) : (Module.new name).Focused [] where
  kept := new_kept name
  current := ⟨_, rfl⟩
  frames := ⟨[], rfl, by simp⟩

def Module.OnObjects (m : Module) : Prop :=
  m.Live m.currentMethod ∧
    ∃ rest, m.nestedMethodStack = none :: rest ∧ ∀ e ∈ rest, m.Live e

theorem Module.Focused.push (focused : m.Focused before) {name : Pegtl.Str}
    (registered : name = "__default__".toList ∨ MethodAdded name before) :
    (m.pushCurrentMethod name).OnObjects := by
  obtain ⟨p, x, object, found⟩ := focused.kept.subscript_method registered
  obtain ⟨rest, stack, live⟩ := focused.frames
  have pushed := pushCurrentMethod_eq found
  have same : m.objects.length ≤ (m.pushCurrentMethod name).objects.length := by rw [pushed]
  have current : (m.pushCurrentMethod name).currentMethod = some p := by rw [pushed]
  have longer : (m.pushCurrentMethod name).nestedMethodStack =
      none :: (rest ++ [m.currentMethod]) := by
    rw [pushed, stack]
    rfl
  constructor
  · have inside := (List.getElem?_eq_some_iff.mp object).1
    rw [current]
    exact deref_isOk.mpr ⟨p, rfl, inside.trans_le same⟩
  · refine ⟨_, longer, ?_⟩
    intro e member
    rcases List.mem_append.mp member with old | new
    · exact (live e old).mono same
    · rw [List.mem_singleton.mp new]
      exact focused.current.mono same

theorem Module.Focused.pop {m' : Module} (focused : m.Focused before)
    (matched : before.countP Operation.isPop < before.countP Operation.isPush)
    (popped : m.popCurrentMethod = .ok m') : m'.OnObjects := by
  obtain ⟨rest, stack, live⟩ := focused.frames
  have depth := focused.kept.depth
  rw [stack, List.length_cons] at depth
  have some : rest ≠ [] := by
    intro empty
    rw [empty, List.length_nil] at depth
    omega
  obtain ⟨lower, top, rfl⟩ := (List.eq_nil_or_concat rest).resolve_left some
  rw [List.concat_eq_append] at stack live
  have frames : m.nestedMethodStack = (none :: lower) ++ [top] := stack
  rw [popCurrentMethod_eq frames] at popped
  obtain rfl := Except.ok.inj popped
  constructor
  · exact live top (by simp)
  · exact ⟨lower, rfl, fun e member => live e (by simp [member])⟩

/-- Every allowed call of a registered name keeps the focus on an object. -/
theorem Module.Focused.perform (focused : m.Focused before) (allowed : Allowed before a)
    (registered : Registered before a) :
    ∃ m', m.perform a = .ok m' ∧ m'.Focused (before ++ [a]) := by
  obtain ⟨m', taken, kept'⟩ := focused.kept.perform allowed registered
  suffices focus : m'.OnObjects by
    exact ⟨m', taken, kept', focus.1, focus.2⟩
  have other : a.isPush = false → a.isPop = false → m'.OnObjects := by
    intro push pop
    have more := focused.kept.objects_le kept'
    obtain ⟨rest, stack, live⟩ := focused.frames
    obtain ⟨current, same⟩ := perform_other push pop taken
    rw [Module.OnObjects, current, same]
    exact ⟨focused.current.mono more, rest, stack, fun e member => (live e member).mono more⟩
  cases a with
  | pushCurrentMethod name =>
      obtain rfl := Except.ok.inj taken
      exact focused.push registered
  | popCurrentMethod => exact focused.pop allowed taken
  | _ => exact other rfl rfl

/-- Let a history of calls of registered names end in well-nested ones. There is a current
method after each of its calls, and the well-nested ones at the end leave the current method
and the stack of nested methods as they found them. -/
theorem current_restored (name : Pegtl.Str) {before inside : List Operation}
    (allowed : Along Allowed (before ++ inside)) (registered : Along Registered (before ++ inside))
    (nested : Nested inside) :
    (∀ first rest, before ++ inside = first ++ rest → ∃ t p x,
      first.foldlM Module.perform (Module.new name) = .ok t ∧ t.getCurrentMethod = some p ∧
        t.objects[p]? = some x) ∧
    ∃ m m', before.foldlM Module.perform (Module.new name) = .ok m ∧
      inside.foldlM Module.perform m = .ok m' ∧ m'.getCurrentMethod = m.getCurrentMethod ∧
        m'.nestedMethodStack = m.nestedMethodStack := by
  have reached : ∀ first rest, before ++ inside = first ++ rest → ∃ t,
      first.foldlM Module.perform (Module.new name) = .ok t ∧ t.Focused first := by
    intro first rest split
    rw [split] at allowed registered
    apply run_history (fun before (m : Module) => m.Focused before) (new_focused name) ?_
      (allowed.front.and registered.front)
    intro before m a focused condition
    exact focused.perform condition.1 condition.2
  constructor
  · intro first rest split
    obtain ⟨t, run, focused⟩ := reached first rest split
    obtain ⟨p, owned, inside⟩ := deref_isOk.mp focused.current
    exact ⟨t, p, _, run, owned, List.getElem?_eq_getElem inside⟩
  · obtain ⟨m', run, -⟩ := reached (before ++ inside) [] (List.append_nil _).symm
    obtain ⟨m, earlier, later⟩ := (run_append before inside _ m').mp run
    obtain ⟨current, stack⟩ := nested.restores later
    exact ⟨m, m', earlier, later, current, stack⟩

theorem current_restored_readded :
    ∃ m m', [.create { name := ['f'] }, .addMethod 1].foldlM Module.perform
        (Module.new "__main__".toList) = .ok m ∧
      [.pushCurrentMethod ['f'], .addMethod 1, .popCurrentMethod].foldlM Module.perform m = .ok m' ∧
        m'.getCurrentMethod = m.getCurrentMethod ∧ m'.nestedMethodStack = m.nestedMethodStack := by
  let before : List Operation := [.create { name := ['f'] }, .addMethod 1]
  let pushed : List Operation := before ++ [.pushCurrentMethod ['f']]
  let readded : List Operation := pushed ++ [.addMethod 1]
  let inside : List Operation :=
    [.pushCurrentMethod ['f'], .addMethod 1, .popCurrentMethod]
  have added : MethodAdded ['f'] before := ⟨[_], _, [], rfl, 1, _, rfl, rfl, rfl⟩
  have allowed : Along Allowed (before ++ inside) := by
    have created : Along Allowed [.create { name := ['f'] }] :=
      (along_concat [] _).mpr ⟨along_nil, trivial⟩
    have two : Along Allowed before := (along_concat [_] _).mpr ⟨created, Nat.lt_add_one 1⟩
    have three : Along Allowed pushed := (along_concat before _).mpr ⟨two, trivial⟩
    have four : Along Allowed readded := (along_concat pushed _).mpr ⟨three, Nat.lt_add_one 1⟩
    exact (along_concat readded _).mpr ⟨four, Nat.zero_lt_one⟩
  have registered : Along Registered (before ++ inside) := by
    have created : Along Registered [.create { name := ['f'] }] :=
      (along_concat [] _).mpr ⟨along_nil, trivial⟩
    have two : Along Registered before := (along_concat [_] _).mpr ⟨created, trivial⟩
    have three : Along Registered pushed := (along_concat before _).mpr ⟨two, .inr added⟩
    have four : Along Registered readded := (along_concat pushed _).mpr ⟨three, trivial⟩
    exact (along_concat readded _).mpr ⟨four, trivial⟩
  have nested : Nested inside := .nest (.other rfl rfl .nil) .nil
  exact (current_restored "__main__".toList allowed registered nested).2

end Focus

end Amalgam.Parser
