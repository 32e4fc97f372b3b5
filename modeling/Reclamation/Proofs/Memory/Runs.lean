import Mathlib
import Reclamation.Proofs.Memory.Operations

/-!
# What a program can get to

A state is reachable if a program gets there from empty memory with operations that are allowed, be
they carried out or refused. In every reachable state all references are accounted for
(`Reachable.consistent`), so counts are numbers of references and what is referred to is there
(`counted_and_safe`).
-/

set_option autoImplicit false

namespace Reclamation

/-- The states that a program can get to, with what it holds there. -/
inductive Reachable (config : Config) (secret : UInt64) : Memory → Multiset Ref → Prop
  | start (machine : Machine) : Reachable config secret (.ofConfigOn config secret machine) 0
  | done {m m' : Memory} {held : Multiset Ref} {made : Option Ref} (op : Operation) :
      Reachable config secret m held → op.Allowed m held → op.outcome m = .done m' made →
        Reachable config secret m' (op.heldAfter m held made)
  | refused {m m' : Memory} {held : Multiset Ref} {fault : Fault} (op : Operation) :
      Reachable config secret m held → op.Allowed m held → op.outcome m = .refused m' fault →
        Reachable config secret m' held

variable {config : Config} {secret : UInt64} {m : Memory} {held : Multiset Ref}

/-- All references are accounted for, whatever a program does. -/
theorem Reachable.consistent (h : Reachable config secret m held) :
    ∃ lost, m.Consistent held lost := by
  induction h with
  | start machine => exact ⟨0, .ofConfigOn config secret machine⟩
  | done op _ hop hout ih =>
    obtain ⟨lost, hm⟩ := ih
    have haccounted := (Operation.sound hm hop).accounted
    rwa [hout] at haccounted
  | refused op _ hop hout ih =>
    obtain ⟨lost, hm⟩ := ih
    have haccounted := (Operation.sound hm hop).accounted
    rwa [hout] at haccounted

/-! ## Counts -/

/-- Counts are the numbers of references of their kind, and all that is referred to is there. -/
structure Memory.Counted (m : Memory) (held : Multiset Ref) : Prop where
  plain : ∀ r o, m.object? r = some o → o.symmetric = false → m.countingComponent? o = none →
    o.count.toNat = held.count r + m.deferred.count r + m.references.count r
  symmetric : ∀ r o, m.object? r = some o → o.symmetric = true →
    o.internal.toNat = m.references.count r
  component : ∀ id e, m.components.entry? id = some e → e.external =
    (held + ↑m.deferred).countP (· ∈ e.members) +
      (m.referencesOutside e.members).countP (· ∈ e.members)
  fields : ∀ r, ∀ x ∈ m.strongTargets r, m.isLive x = true
  owners : ∀ x ∈ held + ↑m.deferred + m.scopeRefs, m.isLive x = true

theorem Memory.Consistent.counted {lost : Multiset Ref} (h : m.Consistent held lost) :
    m.Counted held where
  plain r o ho hsym hcomp := by
    rw [h.balanced.countingComponent?_eq ho] at hcomp
    obtain ⟨hlost, hscopes⟩ := h.not_mem_of_not_symmetric ho hsym
    have hcount := h.balanced.plain r o ho hsym hcomp (by simp)
    simp only [Multiset.count_add, Multiset.count_eq_zero.2 hlost, Multiset.count_eq_zero.2 hscopes,
      Multiset.count_zero, Multiset.coe_count, Nat.add_zero] at hcount
    exact hcount
  symmetric r o ho hsym := by
    have hcount := (h.balanced.symmetric r o ho hsym).2.2
    rwa [zero_add] at hcount
  component id e he := by
    have hplain : ∀ x ∈ e.members, ∃ o, m.object? x = some o ∧ o.symmetric = false := fun x hx => by
      obtain ⟨o, ho, hsym, -⟩ := (h.balanced.component id e he).frozen x hx
      exact ⟨o, ho, hsym⟩
    have hlost : lost.countP (· ∈ e.members) = 0 := Multiset.countP_eq_zero.2 fun x hx hmem => by
      obtain ⟨o, ho, hsym⟩ := hplain x hmem
      exact (h.not_mem_of_not_symmetric ho hsym).1 hx
    have hscopes : m.scopeRefs.countP (· ∈ e.members) = 0 :=
      Multiset.countP_eq_zero.2 fun x hx hmem => by
        obtain ⟨o, ho, hsym⟩ := hplain x hmem
        exact (h.not_mem_of_not_symmetric ho hsym).2 hx
    have hcount := h.balanced.external id e he
    simp only [Multiset.countP_add, hlost, hscopes, Multiset.countP_zero, Nat.add_zero] at hcount
    rw [hcount, Multiset.countP_add]
  fields := h.balanced.targets_live
  owners x hx := by
    refine h.isLive_of_mem ?_
    simp only [Multiset.mem_add] at hx ⊢
    tauto

/-- In every state that a program can get to all counts are right, and an operation that is allowed
there does not break off, takes no count below zero and reads and takes out only what is there. -/
theorem counted_and_safe (h : Reachable config secret m held) :
    m.Counted held ∧ ∀ op : Operation, op.Allowed m held → op.outcome m ≠ .broken ∧ op.Safe m := by
  obtain ⟨lost, hm⟩ := h.consistent
  refine ⟨hm.counted, fun op hop => ?_⟩
  have hsound := Operation.sound hm hop
  refine ⟨fun hout => ?_, hsound.safe⟩
  have haccounted := hsound.accounted
  rw [hout] at haccounted
  exact haccounted

/-! ## A short program -/

/-- An object with one strong field and nothing in it. -/
def cell : ObjectSpec :=
  { tag := 0, payload := .ofFlags [false] }

/-- Two objects, the first of which refers to the second. -/
def Memory.pair (count : UInt32) : Memory :=
  { (((Memory.ofConfig {} 0).allocate cell).1.allocate cell).1 with
    cells := #[some { cell with payload := .record [{ weak := false, target := some 1 }] },
      some { cell with count }] }

theorem outcome_of_finished {α : Type} {value : Release → α} {op : Operation} {s : Release}
    (hout : op.outcome m = (Outcome.ofRelease value s.run).bind fun m _ => .done m none)
    (hs : s.Finished) : op.outcome m = .done s.memory none := by
  rw [hout, Release.run_of_finished hs]
  rfl

/-- Two objects are allocated, and the first is made to refer to the second. -/
theorem reachable_linked : Reachable {} 0 (.pair 2) (1 ::ₘ {0}) := by
  have hblank : cell.IsBlank := ObjectSpec.isBlank_ofFlags 0 [false] false false
  have hone := (@Reachable.start {} 0 .flat).done (.allocate cell) hblank rfl
  have htwo := hone.done (.allocate cell) hblank rfl
  refine htwo.done (.setField 0 0 (some 1)) ⟨rfl, fun t ht => ?_⟩
    (outcome_of_finished (s := { memory := .pair 2 }) rfl ⟨rfl, rfl⟩)
  obtain rfl := Option.some.inj ht
  refine ⟨rfl, fun _ _ _ _ _ _ o ho _ => ?_⟩
  obtain rfl := Option.some.inj ho
  decide

/-- After that the reference to the second is given up. -/
theorem reachable_pair : Reachable {} 0 (.pair 1) {0} :=
  reachable_linked.done (.release 1) (Multiset.mem_cons_self 1 {0})
    (outcome_of_finished (s := { memory := .pair 1 }) rfl ⟨rfl, rfl⟩)

theorem counted_and_safe_pair : (Memory.pair 1).Counted {0} ∧
    (Operation.release 0).outcome (.pair 1) ≠ .broken ∧ (Operation.release 0).Safe (.pair 1) := by
  obtain ⟨hcounted, hsafe⟩ := counted_and_safe reachable_pair
  exact ⟨hcounted, hsafe (.release 0) (Multiset.mem_singleton_self 0)⟩

end Reclamation
