import Mathlib
import Reclamation.Plan.Placement
import Reclamation.Proofs.Program.Store

/-!
# Executing planned calls

Along a path through a body the calls of a plan are made at their points, in the order of the plan where
several fall on one point. `actionsAlong` lists the instructions and calls of a path in this order, and
`Execution` keeps the counts that the calls give to objects next to the store on which the
instructions work: making an object sets its count to one, taking a reference adds one, and giving one up
takes one away.

`Guarded` says of a list of actions that no call is passed an object that has been given up: the call that
makes the object comes first, and every other finds a count of at least one. So a count stays at least one
until the last call that is passed the object (`Guarded.one_le`).
-/

set_option autoImplicit false

namespace Reclamation

/-! ## The order of execution -/

/-- An instruction that is executed, or a planned call that is made. -/
inductive Action where
  | exec (loc : Location) (i : Instruction)
  | call (c : PlannedCall)
  deriving DecidableEq, Repr

/-- The locals that an action uses. -/
def Action.uses : Action → List LocalId
  | .exec _ i => i.effects.uses
  | .call c => c.subject.toList

def callsAt (calls : List PlannedCall) (point : ProgramPoint) : List PlannedCall :=
  calls.filter (·.point == point)

namespace Body.Step

/-- The calls that are made before a step. -/
def callsBefore (calls : List PlannedCall) : Step → List PlannedCall
  | exec loc _ => callsAt calls (.before loc)
  | jump source target => callsAt calls (.edge source target)

/-- The instruction that a step executes and the calls made for it and after it. A call in place of a
statement makes the object to which the statement then makes its place refer. -/
def restActions (calls : List PlannedCall) : Step → List Action
  | exec loc i => .exec loc i :: (callsAt calls (.instead loc) ++ callsAt calls (.after loc)).map .call
  | jump _ _ => []

def actions (calls : List PlannedCall) (step : Step) : List Action :=
  (step.callsBefore calls).map .call ++ step.restActions calls

end Body.Step

/-- The instructions and calls along the steps of a path, in order. -/
def actionsAlong (calls : List PlannedCall) (steps : List Body.Step) : List Action :=
  (callsAt calls .entry).map .call ++ steps.flatMap (Body.Step.actions calls)

/-- Instructions pass, and calls if a condition holds. -/
def Action.passes (P : PlannedCall → Bool) : Action → Bool
  | .exec _ _ => true
  | .call c => P c

theorem filter_map_call (P : PlannedCall → Bool) (calls : List PlannedCall) :
    (calls.map Action.call).filter (Action.passes P) = (calls.filter P).map .call := by
  rw [List.filter_map]
  rfl

theorem filter_callsAt (P : PlannedCall → Bool) (calls : List PlannedCall) (point : ProgramPoint) :
    (callsAt calls point).filter P = callsAt (calls.filter P) point := by
  rw [callsAt, callsAt, List.filter_filter, List.filter_filter]
  exact List.filter_congr fun c _ => Bool.and_comm ..

/-- The actions along a path with some of the calls are some of the actions. -/
theorem filter_actionsAlong (P : PlannedCall → Bool) (calls : List PlannedCall) (steps : List Body.Step) :
    (actionsAlong calls steps).filter (Action.passes P) = actionsAlong (calls.filter P) steps := by
  have hstep : ∀ step : Body.Step, (step.actions calls).filter (Action.passes P) =
      step.actions (calls.filter P) := by
    intro step
    rw [Body.Step.actions, Body.Step.actions, List.filter_append, filter_map_call]
    cases step with
    | exec loc i =>
      rw [Body.Step.restActions, Body.Step.restActions, List.filter_cons_of_pos rfl, filter_map_call,
        List.filter_append, Body.Step.callsBefore, Body.Step.callsBefore, filter_callsAt, filter_callsAt,
        filter_callsAt]
    | jump source target =>
      rw [Body.Step.callsBefore, Body.Step.callsBefore, filter_callsAt]
      rfl
  rw [actionsAlong, actionsAlong, List.filter_append, filter_map_call, filter_callsAt, List.filter_flatMap]
  exact congrArg _ (List.flatMap_congr fun step _ => hstep step)

theorem mem_of_exec_mem_actionsAlong {calls : List PlannedCall} {steps : List Body.Step} {loc : Location}
    {i : Instruction} (h : .exec loc i ∈ actionsAlong calls steps) : .exec loc i ∈ steps := by
  rw [actionsAlong, List.mem_append] at h
  rcases h with h | h
  · simp at h
  · obtain ⟨step, hstep, h⟩ := List.mem_flatMap.1 h
    rw [Body.Step.actions, List.mem_append] at h
    rcases h with h | h
    · simp at h
    · cases step with
      | exec loc' i' =>
        rw [Body.Step.restActions, List.mem_cons] at h
        rcases h with h | h
        · obtain ⟨rfl, rfl⟩ := Action.exec.inj h
          exact hstep
        · simp at h
      | jump source target => exact absurd h (by simp [Body.Step.restActions])

theorem mem_of_call_mem_actionsAlong {calls : List PlannedCall} {steps : List Body.Step} {c : PlannedCall}
    (h : .call c ∈ actionsAlong calls steps) : c ∈ calls := by
  have hat : ∀ {point}, .call c ∈ (callsAt calls point).map Action.call → c ∈ calls := by
    intro point hmem
    obtain ⟨d, hd, he⟩ := List.mem_map.1 hmem
    exact Action.call.inj he ▸ (List.mem_filter.1 hd).1
  rw [actionsAlong, List.mem_append] at h
  rcases h with h | h
  · exact hat h
  · obtain ⟨step, -, h⟩ := List.mem_flatMap.1 h
    rw [Body.Step.actions, List.mem_append] at h
    cases step with
    | exec loc i =>
      rw [Body.Step.restActions, List.mem_cons, List.map_append, List.mem_append] at h
      rcases h with h | h | h | h
      · exact hat h
      · exact absurd h (by simp)
      · exact hat h
      · exact hat h
    | jump source target =>
      rcases h with h | h
      · exact hat h
      · exact absurd h (by simp [Body.Step.restActions])

theorem actionsAlong_append (calls : List PlannedCall) (xs ys : List Body.Step) :
    actionsAlong calls (xs ++ ys) = actionsAlong calls xs ++ ys.flatMap (Body.Step.actions calls) := by
  rw [actionsAlong, actionsAlong, List.flatMap_append, List.append_assoc]

theorem actionsAlong_exec (calls : List PlannedCall) (steps : List Body.Step) (loc : Location)
    (i : Instruction) : actionsAlong calls (steps ++ [.exec loc i]) =
      actionsAlong calls steps ++ (callsAt calls (.before loc)).map .call ++
        .exec loc i :: (callsAt calls (.instead loc) ++ callsAt calls (.after loc)).map .call := by
  rw [actionsAlong_append, List.flatMap_singleton, Body.Step.actions, List.append_assoc]
  rfl

/-! ## Counts -/

namespace EntryPoint

/-- Whether a call makes the object that is passed to it. -/
def makes : EntryPoint → Bool
  | alloc | slotPoolAlloc | symAlloc | arenaAlloc => true
  | _ => false

/-- How a call changes the count of the object that is passed to it. -/
def change : EntryPoint → Int
  | incRef | symAcquire => 1
  | freeTree | decRef | sccRelease | symRelease => -1
  | _ => 0

def recount (f : EntryPoint) (count : Option Int) : Option Int :=
  if f.makes then some 1 else count.map (· + f.change)

end EntryPoint

/-- The references of a program, the counts of its objects and which of them are freed as trees. -/
structure Execution where
  store : Store
  count : Nat → Option Int
  freed : Nat → Bool

namespace Execution

/-- The store of the caller, in which no object has a count yet. -/
def start (σ : Store) : Execution :=
  { store := σ, count := fun _ => none, freed := fun _ => false }

/-- The object that is passed to a call. -/
def object (e : Execution) (c : PlannedCall) : Option Nat :=
  c.subject.bind e.store.locals

def perform (e : Execution) : Action → Execution
  | .exec loc i => { e with store := e.store.exec loc i }
  | .call c =>
    match e.object c with
    | some x =>
      { e with
        count := Function.update e.count x (c.call.recount (e.count x))
        freed := if c.call = .freeTree then Function.update e.freed x true else e.freed }
    | none => e

def performAll (e : Execution) (actions : List Action) : Execution :=
  actions.foldl perform e

variable {e : Execution} {origin : Location}

@[simp] theorem performAll_nil (e : Execution) : e.performAll [] = e := rfl

@[simp] theorem performAll_cons (e : Execution) (a : Action) (actions : List Action) :
    e.performAll (a :: actions) = (e.perform a).performAll actions := rfl

theorem performAll_append (e : Execution) (xs ys : List Action) :
    e.performAll (xs ++ ys) = (e.performAll xs).performAll ys :=
  List.foldl_append

@[simp] theorem store_call (e : Execution) (c : PlannedCall) : (e.perform (.call c)).store = e.store := by
  rw [perform]
  split <;> rfl

theorem count_call_of_ne {c : PlannedCall} {x : Nat} (h : e.object c ≠ some x) :
    (e.perform (.call c)).count x = e.count x := by
  rw [perform]
  split
  · next y hy => exact Function.update_of_ne (fun hxy : x = y => h (hxy ▸ hy)) ..
  · rfl

theorem count_call {c : PlannedCall} {x : Nat} (h : e.object c = some x) :
    (e.perform (.call c)).count = Function.update e.count x (c.call.recount (e.count x)) := by
  rw [perform, h]

theorem freed_call (c : PlannedCall) (x : Nat) : (e.perform (.call c)).freed x = true ↔
    e.freed x = true ∨ c.call = .freeTree ∧ e.object c = some x := by
  rw [perform]
  split
  · next y hy =>
    rw [hy]
    by_cases hfree : c.call = .freeTree
    · by_cases hxy : x = y
      · simp [hfree, hxy]
      · simp [hfree, hxy, Ne.symm hxy]
    · simp [hfree]
  · next hnone => simp [hnone]

/-- Calls change no reference. -/
@[simp] theorem store_calls (e : Execution) (calls : List PlannedCall) :
    (e.performAll (calls.map .call)).store = e.store := by
  induction calls generalizing e with
  | nil => rfl
  | cons c calls ih => exact (ih _).trans (store_call e c)

/-- The instructions work on the store as if no call were made. -/
theorem store_performAll_actions (e : Execution) (calls : List PlannedCall) (steps : List Body.Step) :
    (e.performAll (steps.flatMap (Body.Step.actions calls))).store = e.store.after steps := by
  induction steps generalizing e with
  | nil => rfl
  | cons step steps ih =>
    have hstep : (e.performAll (step.actions calls)).store = e.store.step step := by
      rw [Body.Step.actions, performAll_append]
      cases step with
      | exec loc i =>
        rw [Body.Step.restActions, performAll_cons, store_calls]
        show (e.performAll _).store.exec loc i = e.store.exec loc i
        rw [store_calls]
      | jump source target => exact store_calls ..
    rw [List.flatMap_cons, performAll_append, ih, hstep]
    rfl

theorem store_performAll (e : Execution) (calls : List PlannedCall) (steps : List Body.Step) :
    (e.performAll (actionsAlong calls steps)).store = e.store.after steps := by
  rw [actionsAlong, performAll_append, store_performAll_actions, store_calls]

theorem freed_performAll {x : Nat} (hx : e.freed x = true) (actions : List Action) :
    (e.performAll actions).freed x = true := by
  induction actions generalizing e with
  | nil => exact hx
  | cons a actions ih =>
    refine ih ?_
    cases a with
    | exec loc i => exact hx
    | call c => exact (freed_call c x).2 (.inl hx)

theorem freed_of_mem_calls {calls : List PlannedCall} {c : PlannedCall} (hc : c ∈ calls)
    (hfree : c.call = .freeTree) {x : Nat} (hx : e.object c = some x) :
    (e.performAll (calls.map .call)).freed x = true := by
  obtain ⟨before, after, rfl⟩ := List.append_of_mem hc
  rw [List.map_append, List.map_cons, performAll_append, performAll_cons]
  refine freed_performAll ((freed_call c x).2 (.inr ⟨hfree, ?_⟩)) _
  rw [object, store_calls]
  exact hx

/-- What a local refers to when a call after an instruction frees it stays freed. -/
theorem freed_after {calls : List PlannedCall} (steps rest : List Body.Step) {loc : Location} {i : Instruction}
    {c : PlannedCall} (hc : c ∈ callsAt calls (.after loc)) (hfree : c.call = .freeTree) {σ : Store} {x : Nat}
    (hx : c.subject.bind (σ.after (steps ++ [.exec loc i])).locals = some x) :
    ((start σ).performAll (actionsAlong calls (steps ++ [.exec loc i] ++ rest))).freed x = true := by
  rw [actionsAlong_append, performAll_append]
  refine freed_performAll ?_ _
  rw [actionsAlong_append, List.flatMap_singleton, performAll_append, Body.Step.actions, performAll_append,
    Body.Step.restActions, performAll_cons]
  refine freed_of_mem_calls (List.mem_append_right _ hc) hfree ?_
  show c.subject.bind (((_ : Execution).performAll _).store.exec loc i).locals = some x
  rw [store_calls, store_performAll]
  rw [Store.after_exec] at hx
  exact hx

theorem sound_perform (h : e.store.Sound) (a : Action) : (e.perform a).store.Sound := by
  cases a with
  | exec loc i => exact h.exec loc i
  | call c =>
    rw [store_call]
    exact h

theorem sound_performAll (h : e.store.Sound) (actions : List Action) : (e.performAll actions).store.Sound := by
  induction actions generalizing e with
  | nil => exact h
  | cons a actions ih => exact ih (sound_perform h a)

/-! ## Guarded calls -/

/-- Each action of a list is executed in a state in which a condition holds. -/
def Throughout (P : Execution → Action → Prop) : Execution → List Action → Prop
  | _, [] => True
  | e, a :: actions => P e a ∧ (e.perform a).Throughout P actions

namespace Throughout

variable {P : Execution → Action → Prop} {xs ys : List Action}

theorem append (hxs : e.Throughout P xs) (hys : (e.performAll xs).Throughout P ys) :
    e.Throughout P (xs ++ ys) := by
  induction xs generalizing e with
  | nil => exact hys
  | cons a xs ih => exact ⟨hxs.1, ih hxs.2 hys⟩

theorem right (h : e.Throughout P (xs ++ ys)) : (e.performAll xs).Throughout P ys := by
  induction xs generalizing e with
  | nil => exact h
  | cons a xs ih => exact ih h.2

end Throughout

/-- If a call is passed an object of an allocation, it makes this object, or the object has been made and
has not been given up. -/
def Ready (e : Execution) (origin : Location) : Action → Prop
  | .exec _ _ => True
  | .call c => ∀ x, e.object c = some x → e.store.origin x = some origin →
      if c.call.makes then e.count x = none else ∃ n, e.count x = some n ∧ 1 ≤ n

/-- Every action of a list comes when it may. -/
def Guarded (origin : Location) (e : Execution) (actions : List Action) : Prop :=
  e.Throughout (fun e' => e'.Ready origin) actions

/-- An object that a later call is passed, and that has been made, has a count of at least one. -/
theorem Guarded.one_le {x : Nat} {n : Int} {mid rest : List Action} {c : PlannedCall}
    (h : e.Guarded origin (mid ++ .call c :: rest)) (hsound : e.store.Sound)
    (horigin : e.store.origin x = some origin) (hcount : e.count x = some n)
    (hc : (e.performAll mid).object c = some x) : 1 ≤ n := by
  induction mid generalizing e with
  | nil =>
    have hready := h.1 x hc horigin
    split at hready
    · simp [hcount] at hready
    · obtain ⟨m, hm, hle⟩ := hready
      exact Option.some.inj (hm.symm.trans hcount) ▸ hle
  | cons a mid ih =>
    cases a with
    | exec loc i =>
      refine ih h.2 (sound_perform hsound _) ?_ hcount hc
      exact (Store.origin_exec (hsound.origin_lt x origin horigin)).trans horigin
    | call d =>
      by_cases hd : e.object d = some x
      · have hready := h.1 x hd horigin
        split at hready
        · simp [hcount] at hready
        · obtain ⟨m, hm, hle⟩ := hready
          exact Option.some.inj (hm.symm.trans hcount) ▸ hle
      · refine ih h.2 (sound_perform hsound _) ?_ ((count_call_of_ne hd).trans hcount) hc
        rw [store_call]
        exact horigin

end Execution

end Reclamation
