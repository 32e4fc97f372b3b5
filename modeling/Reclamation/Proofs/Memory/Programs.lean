import Mathlib
import Reclamation.Proofs.Memory.Commands
import Reclamation.Proofs.Memory.Runs

/-!
# Programs and where they get

A state is attained if a program gets there from empty memory with commands that are allowed, be they carried out or
refused. In every such state memory is divided into the part that is counted and the objects of arenas beside it
(`Attained.divided`), and what every change of the counted part keeps holds of it wherever a program gets
(`Attained.induction`).
-/

set_option autoImplicit false

namespace Reclamation

open Memory

/-- The states that a program can get to, arenas included, with what it holds there. -/
inductive Attained (config : Config) (secret : UInt64) : Memory → Multiset Ref → Prop
  | start (machine : Machine) : Attained config secret (.ofConfigOn config secret machine) 0
  | done {m m' : Memory} {held : Multiset Ref} {made : Option Ref} (c : Command) :
      Attained config secret m held → c.Allowed m held → c.outcome m = .done m' made →
        Attained config secret m' (c.heldAfter m held made)
  | refused {m m' : Memory} {held : Multiset Ref} {fault : Fault} (c : Command) :
      Attained config secret m held → c.Allowed m held → c.outcome m = .refused m' fault →
        Attained config secret m' held

/-- What holds of memory without arenas, and is kept by whatever a command does to it, holds wherever a program
gets. -/
theorem Attained.induction {config : Config} {secret : UInt64} {m : Memory} {held : Multiset Ref} {P : Memory → Prop}
    (h : Attained config secret m held) (hstart : ∀ machine, P (.ofConfigOn config secret machine))
    (hadvance : ∀ {c : Command} {n n' : Memory} {held held' lost lost' : Multiset Ref}, n.Consistent held lost →
      n'.Consistent held' lost' → c.Advance n n' → P n → P n') :
    ∃ n regions lost, m = Memory.joined n regions ∧ Divided n regions held lost ∧ P n := by
  induction h with
  | start machine => exact ⟨_, _, 0, rfl, .ofConfigOn config secret machine, hstart machine⟩
  | @done m m' held made c _ hc hout ih =>
    obtain ⟨n, regions, lost, rfl, hdivided, hn⟩ := ih
    have haccounted := Command.sound hdivided hc
    rw [hout] at haccounted
    obtain ⟨n', regions', lost', rfl, hdivided', hadv⟩ := haccounted
    exact ⟨n', regions', lost', rfl, hdivided', hadvance hdivided.consistent hdivided'.consistent hadv hn⟩
  | @refused m m' held fault c _ hc hout ih =>
    obtain ⟨n, regions, lost, rfl, hdivided, hn⟩ := ih
    have haccounted := Command.sound hdivided hc
    rw [hout] at haccounted
    obtain ⟨n', regions', lost', rfl, hdivided', hadv⟩ := haccounted
    exact ⟨n', regions', lost', rfl, hdivided', hadvance hdivided.consistent hdivided'.consistent hadv hn⟩

/-- Wherever a program gets, the parts of memory fit. -/
theorem Attained.divided {config : Config} {secret : UInt64} {m : Memory} {held : Multiset Ref}
    (h : Attained config secret m held) :
    ∃ n regions lost, m = Memory.joined n regions ∧ Divided n regions held lost := by
  obtain ⟨n, regions, lost, he, hdivided, -⟩ := h.induction (P := fun _ => True) (fun _ => trivial) fun _ _ _ _ => trivial
  exact ⟨n, regions, lost, he, hdivided⟩

/-- A program without arenas is one of those that may use them. -/
theorem Reachable.attained {config : Config} {secret : UInt64} {m : Memory} {held : Multiset Ref}
    (h : Reachable config secret m held) : Attained config secret m held := by
  have hoff : ∀ {m : Memory} {held : Multiset Ref} (op : Operation), Reachable config secret m held →
      op.isOnArena m = false := by
    intro m held op hm
    obtain ⟨lost, hconsistent⟩ := hm.consistent
    unfold Operation.isOnArena
    cases op.subject? with
    | none => rfl
    | some r =>
      cases ho : m.object? r with
      | none => simp [ho]
      | some o => simp [ho, hconsistent.tidy.no_arena r o ho]
  induction h with
  | start machine => exact .start machine
  | @done m m' held made op hm hop hout ih =>
    have hdone := ih.done (.operation op) (.inr hop) hout
    rwa [Command.heldAfter, hoff op hm] at hdone
  | refused op _ hop hout ih => exact ih.refused (.operation op) (.inr hop) hout

/-! ## A short program -/

/-- An object that refers to itself. -/
def Memory.loop : Memory :=
  { ((Memory.ofConfig {} 0).allocate cell).1 with
    cells := #[some { cell with payload := .record [{ weak := false, target := some 0 }], count := 2 }] }

theorem reachable_loop : Reachable {} 0 .loop {0} := by
  have hblank : cell.IsBlank := ObjectSpec.isBlank_ofFlags 0 [false] false false
  have hone := (@Reachable.start {} 0 .flat).done (.allocate cell) hblank rfl
  refine hone.done (.setField 0 0 (some 0)) ⟨rfl, fun t ht => ?_⟩
    (outcome_of_finished (s := { memory := .loop }) rfl ⟨rfl, rfl⟩)
  obtain rfl := Option.some.inj ht
  refine ⟨rfl, fun _ _ _ _ _ _ o ho _ => ?_⟩
  obtain rfl := Option.some.inj ho
  decide

theorem innerReferences_loop : Memory.loop.innerReferences [0] = 1 := by
  rw [innerReferences_eq_countP]
  rfl

theorem cyclesFrom_loop : Memory.loop.cyclesFrom 0 = [[0]] := by
  have hcycle : Memory.loop.isCycle [0] = true := by
    rw [isCycle, innerReferences_loop]
    rfl
  have heligible : Memory.loop.isEligible 0 = true := rfl
  rw [cyclesFrom, if_pos heligible, Links.components_of_size_one rfl, List.filter_cons_of_pos hcycle]
  rfl

/-- The registry with the loop as its only component. -/
def ComponentRegistry.withLoop : ComponentRegistry :=
  { capacity := Memory.loop.components.capacity, entries := #[.renew {} [0] 1], liveCount := 1 }

/-- The loop as a component. -/
def Memory.frozenLoop : Memory :=
  (({ memory := .loop } : Release).frozen [0] .withLoop (.ofParts 0 1)).memory

theorem freeze_loop : Memory.loop.freeze 0 = .done .frozenLoop [.ofParts 0 1] := by
  have hexternal : Memory.loop.externalCount [0] = 1 := by
    rw [externalCount, innerReferences_loop]
    rfl
  have hreg : Memory.loop.components.register? [0] (Memory.loop.externalCount [0]) =
      some (.withLoop, .ofParts 0 1) := by
    rw [hexternal]
    rfl
  have hwork : (({ memory := .loop } : Release).frozen [0] .withLoop (.ofParts 0 1)).Finished := by
    unfold Release.frozen
    dsimp only
    rw [hexternal]
    exact ⟨rfl, rfl⟩
  rw [Memory.freeze, cyclesFrom_loop, Release.freezeAll_cons_of_register (s := { memory := .loop }) hreg]
  dsimp only [Release.freezeAll]
  rw [Release.run_of_finished hwork]
  rfl

theorem allowed_freeze_loop : (Operation.freeze 0).Allowed .loop {0} := by
  refine ⟨rfl, fun g hg => ?_, .inl (by decide)⟩
  rw [cyclesFrom_loop] at hg
  obtain rfl := List.mem_singleton.1 hg
  rw [innerReferences_loop]
  decide

theorem attained_frozenLoop : Attained {} 0 .frozenLoop {0} := by
  have hout : (Command.operation (.freeze 0)).outcome .loop = .done .frozenLoop none := by
    rw [Command.outcome, Operation.outcome, freeze_loop]
    rfl
  exact reachable_loop.attained.done (.operation (.freeze 0)) (.inr allowed_freeze_loop) hout

end Reclamation
