import Reclamation.Graph.Components
import Reclamation.Memory.Release

/-!
# Freezing

Objects that refer to each other in a cycle never lose their last reference one by one. Freezing
finds the cycles behind an object and makes each a component: its members can no longer be written
and are counted together. The count starts with what the members' own counts hold beyond the
references they have to each other. A component to which nothing refers from outside is released at
once.

Only objects that are counted alike take part: not symmetric ones, not those of arenas, and not
members of earlier components.
-/

set_option autoImplicit false

namespace Reclamation

namespace Memory

/-- Whether an object can become the member of a component. -/
def isEligible (m : Memory) (r : Ref) : Bool :=
  (m.object? r).any fun o => !o.symmetric && o.arena?.isNone && o.component.isNone

/-- The fields of the objects, followed where they are strong and refer to one that can become a
member. -/
def eligibleLinks (m : Memory) : Links RefField where
  size := m.cells.size
  fields r := (m.object? r).elim [] (·.fields)
  target? _ f := if f.weak then none else f.target.filter m.isEligible

/-- How often the strong fields of the members of a group refer to members. -/
def innerReferences (m : Memory) (members : List Ref) : Nat :=
  let group := Std.HashSet.ofList members
  (members.flatMap m.strongTargets).countP group.contains

/-- The sum of the counts of the members of a group. -/
def totalCount (m : Memory) (members : List Ref) : Nat :=
  members.foldl (fun n r => n + (m.object? r).elim 0 (·.count.toNat)) 0

/-- Whether a group of objects that reach each other is a cycle: more than one object, or one that
refers to itself. -/
def isCycle (m : Memory) (members : List Ref) : Bool :=
  members.length != 1 || m.innerReferences members != 0

/-- The references to a group from outside, as far as a word can count them. -/
def externalCount (m : Memory) (members : List Ref) : Nat :=
  min (m.totalCount members - m.innerReferences members) (0xffffffff)

/-- The cycles behind an object, sinks first. -/
def cyclesFrom (m : Memory) (root : Ref) : List (List Ref) :=
  if m.isEligible root then (m.eligibleLinks.components [root]).filter m.isCycle else []

/-- Make the members of a group one component. -/
def markFrozen (m : Memory) (members : List Ref) (id : ComponentId) : Memory :=
  members.foldl
    (fun m r => m.update r fun o => { o with component := some id, frozen := true }) m

end Memory

namespace Release

/-- Make each group of objects a component, until the registry is full. The ids are those of the
groups that were frozen, in order. -/
def freezeAll : List (List Ref) → Release → Release × List ComponentId × Option Fault
  | [], s => (s, [], none)
  | members :: rest, s =>
    let external := s.memory.externalCount members
    match s.memory.components.register? members external with
    | none => (s, [], some (.componentsExhausted s.memory.components.capacity))
    | some (components, id) =>
      let s := { s with memory := { s.memory with components }.markFrozen members id }
      let s :=
        { s with memory.stats.componentsFrozen := s.memory.stats.componentsFrozen + 1 }
      let s := if external = 0 then { s with work := .component id :: s.work } else s
      let (s, ids, fault?) := freezeAll rest s
      (s, id :: ids, fault?)

end Release

namespace Memory

/-- Freeze the cycles behind an object; the value is the ids of their components. If the registry is
full the components made so far stay. -/
def freeze (m : Memory) (root : Ref) : Outcome (List ComponentId) :=
  let (s, ids, fault?) := Release.freezeAll (m.cyclesFrom root) { memory := m }
  match s.run, fault? with
  | none, _ => .broken
  | some s, none => .done s.memory ids
  | some s, some f => .refused s.memory f

/-- Take one more reference to the component of an object. -/
def acquireComponent (m : Memory) (r : Ref) : Outcome Unit :=
  match (m.object? r).bind m.countingComponent? with
  | none => .refused m .notInComponent
  | some _ => .done (m.acquire r) ()

end Memory

end Reclamation
