import Reclamation.Analysis.Liveness
import Reclamation.Plan.Route

/-!
# Memory plans

The plan of a body: its allocations, each with the decision how it is reclaimed, and the calls of the
runtime that have to be made, each at a point of the body.
-/

set_option autoImplicit false

namespace Reclamation

/-- Where a planned call is made. -/
inductive ProgramPoint where
  /-- Where the body starts. -/
  | entry
  /-- In place of a statement. -/
  | instead (loc : Location)
  /-- Right before an instruction. -/
  | before (loc : Location)
  /-- Right after an instruction. -/
  | after (loc : Location)
  /-- On the way from one block to another. -/
  | edge (source target : BlockId)
  deriving DecidableEq, Repr

/-- The text of a point in reports. -/
def ProgramPoint.text : ProgramPoint → String
  | .entry => "entry"
  | .instead loc => "at " ++ loc.text
  | .before loc => "before " ++ loc.text
  | .after loc => "after " ++ loc.text
  | .edge source target => "edge " ++ BlockId.text source ++ "->" ++ BlockId.text target

/-- The point at which a local dies. -/
def DeathPoint.point : DeathPoint → ProgramPoint
  | .after loc => .after loc
  | .edge source target => .edge source target

/-- An allocation and what has been decided about it. -/
structure AllocationSite where
  id : SiteId
  type : TypeId
  /-- The bytes that the object is expected to take. -/
  size : Nat
  loc : Location
  /-- Where the new object is written. -/
  place : Place
  /-- The locals that own the object; none if an enclosing object does. -/
  owners : List LocalId
  frozen : Bool
  fact : ShapeFact
  escape : EscapeState
  decision : Decision
  deriving DecidableEq, Repr

namespace AllocationSite

/-- The strategy that has been chosen. -/
def strategy (s : AllocationSite) : Strategy :=
  s.decision.strategy

/-- Whether the object is owned by the object into which it is written. -/
def isEmbedded (s : AllocationSite) : Bool :=
  s.owners.isEmpty

/-- The local that owns the object first. -/
def firstOwner? (s : AllocationSite) : Option LocalId :=
  s.owners.head?

/-- The entry point that makes the object. -/
def allocator (s : AllocationSite) : EntryPoint :=
  if s.decision.needsHandle then .slotPoolAlloc
  else
    match s.strategy with
    | .arena => .arenaAlloc
    | .symmetric => .symAlloc
    | .asap | .rc | .scc => .alloc

end AllocationSite

/-- A call of the runtime that a plan makes. -/
structure PlannedCall where
  point : ProgramPoint
  call : EntryPoint
  /-- The allocation for which it is made; none if it is made for the whole body. -/
  site : Option SiteId := none
  /-- The local that is passed to it, if one is. -/
  subject : Option LocalId := none
  deriving DecidableEq, Repr

/-- The plan of a body. -/
structure Plan where
  body : String
  /-- The allocations, in the order of the program. -/
  sites : List AllocationSite
  /-- The calls, in the order in which they are made where several fall on one point. -/
  calls : List PlannedCall
  deriving DecidableEq, Repr

namespace Plan

/-- The allocation of a given number. -/
def site? (p : Plan) (id : SiteId) : Option AllocationSite :=
  p.sites.find? (·.id == id)

/-- The calls made for an allocation. -/
def callsFor (p : Plan) (id : SiteId) : List PlannedCall :=
  p.calls.filter (·.site == some id)

/-- The calls of an entry point. -/
def callsTo (p : Plan) (f : EntryPoint) : List PlannedCall :=
  p.calls.filter (·.call == f)

/-- How many allocations have a strategy. -/
def count (p : Plan) (s : Strategy) : Nat :=
  p.sites.countP (·.strategy == s)

end Plan

end Reclamation
