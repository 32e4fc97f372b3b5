import Reclamation.Analysis.Escape
import Reclamation.Plan.Basic
import Reclamation.Plan.Ownership
import Reclamation.TypeGraph.BackEdge

/-!
# Placement

The planning of a body: each allocation is routed by what shape, escape analysis and ownership say of
it, and the calls that its strategy asks for are put where its owners come and go.

* The allocation itself takes the place of the statement, followed by making a handle if one is
  needed.
* A counted reference is taken at each copy of an owner, and given up where an owner dies, unless it
  dies by being moved to another owner.
* What is to be frozen is frozen after the last assignment to a part of it.
* A value whose ownership leaves the body is not released here. Under symmetric counting it gets a
  reference of its own before each return, since its scope takes one back.
* A body has at most one arena and one scope, opened at the entry and closed before each return.
-/

set_option autoImplicit false

namespace Reclamation

/-! ## Allocations of a body -/

/-- An allocation as the body states it. -/
structure Allocation where
  loc : Location
  place : Place
  site : SiteId
  type : TypeId
  frozen : Bool
  deriving DecidableEq, Repr

/-- The allocation that a statement is, if it is one. -/
def Statement.allocation? (s : Statement) (loc : Location) : Option Allocation :=
  match s with
  | .assign place (.alloc site type frozen _) => some { loc, place, site, type, frozen }
  | _ => none

/-- The allocations of a body, in order. -/
def Body.allocations (b : Body) : List Allocation :=
  b.statements.filterMap fun (loc, s) => s.allocation? loc

/-! ## What is known of an allocation -/

/-- What the analyses of a body have found. -/
structure BodyFacts where
  escape : EscapeFacts
  liveness : Liveness
  ownership : Ownership
  returns : List Location

/-- Analyse a body. -/
def Body.facts (b : Body) (o : AnalysisOptions) : BodyFacts where
  escape := b.escape o
  liveness := .ofBody b
  ownership := b.ownership
  returns := b.returnLocations

namespace BodyFacts

/-- How far the value of an allocation escapes: as far as one of its owners. What is written into a
part of another value goes by the local from which that part is found. -/
def escapeOf (f : BodyFacts) (a : Allocation) (owners : List LocalId) : EscapeState :=
  if owners.isEmpty then f.escape.state a.place.base
  else owners.foldl (fun s l => s.join (f.escape.state l)) .none

/-- Whether the value of an allocation crosses to another thread. -/
def crossesOf (f : BodyFacts) (a : Allocation) (owners : List LocalId) : Bool :=
  if owners.isEmpty then f.escape.crosses a.place.base else owners.any f.escape.crosses

/-- What is known of an allocation, given its shape. -/
def routeInput (f : BodyFacts) (a : Allocation) (owners : List LocalId) (fact : ShapeFact) :
    RouteInput where
  fact
  escape := f.escapeOf a owners
  frozen := a.frozen
  captured := owners.any f.escape.isCaptured
  crosses := f.crossesOf a owners
  aliased := owners.any fun l => !(f.ownership.copiesOf l).isEmpty

end BodyFacts

/-- The allocation with what is decided about it. -/
def Allocation.plan (a : Allocation) (f : BodyFacts) (g : TypeGraph) (o : AnalysisOptions) :
    Except AnalysisError AllocationSite := do
  let owners := f.ownership.ownersOf a.place
  let fact ← g.classify a.type
  let size ← g.estimatedSize a.type
  let input := f.routeInput a owners fact
  return { id := a.site, type := a.type, size, loc := a.loc, place := a.place, owners
           frozen := a.frozen, fact, escape := input.escape
           decision := input.route o.arenaOptIn }

/-! ## The calls for an allocation -/

namespace AllocationSite

/-- A call made for an allocation. -/
def callAt (s : AllocationSite) (point : ProgramPoint) (f : EntryPoint) (l : Option LocalId) :
    PlannedCall :=
  { point, call := f, site := some s.id, subject := l }

/-- Making the object, and a handle to it if one is needed and some local holds it. -/
def allocCalls (s : AllocationSite) : List PlannedCall :=
  s.callAt (.instead s.loc) s.allocator s.firstOwner? ::
    if s.decision.needsHandle && !s.isEmbedded then
      [s.callAt (.after s.loc) .makeHandle s.firstOwner?]
    else []

/-- A reference for whoever receives the value, before each return. -/
def handOverCalls (s : AllocationSite) (returns : List Location) : List PlannedCall :=
  if s.strategy = .symmetric then
    returns.map fun loc => s.callAt (.before loc) .symAcquire s.firstOwner?
  else []

/-- Freezing what has been built. -/
def freezeCalls (s : AllocationSite) (own : Ownership) : List PlannedCall :=
  if s.strategy = .scc then
    let loc := (own.lastFieldWrite? s.owners).getD s.loc
    [s.callAt (.after loc) .sccFreeze s.firstOwner?]
  else []

/-- A reference for each copy of an owner, under a strategy that counts them. -/
def acquireCalls (s : AllocationSite) (own : Ownership) : List PlannedCall :=
  match s.strategy.acquire? with
  | some f => s.owners.flatMap fun l =>
      (own.copiesOf l).map fun (loc, dest) => s.callAt (.after loc) f (some dest)
  | none => []

/-- Whether a local gives its reference up where it dies: it does unless it is moved away there. -/
def releasesAt (own : Ownership) (l : LocalId) : DeathPoint → Bool
  | .after loc => !own.isMovedAt l loc
  | .edge _ _ => true

/-- Giving up the reference of each owner where it dies. What is in an arena goes with the arena. -/
def releaseCalls (s : AllocationSite) (own : Ownership) (live : Liveness) : List PlannedCall :=
  if s.strategy = .arena then []
  else s.owners.flatMap fun l =>
    ((live.deathPoints l).filter (releasesAt own l)).map fun d =>
      s.callAt d.point s.strategy.release (some l)

/-- All calls made for an allocation. -/
def calls (s : AllocationSite) (f : BodyFacts) : List PlannedCall :=
  s.allocCalls ++
    if s.isEmbedded then []
    else if s.decision.transfers then s.handOverCalls f.returns
    else s.freezeCalls f.ownership ++ s.acquireCalls f.ownership
      ++ s.releaseCalls f.ownership f.liveness

end AllocationSite

/-! ## The plan -/

/-- Opening what a strategy needs in a body that uses it: its entry point, and the one that closes it
again. -/
def bracket (sites : List AllocationSite) (s : Strategy) (opening closing : EntryPoint)
    (returns : List Location) : List PlannedCall × List PlannedCall :=
  if sites.any (·.strategy == s) then
    ([{ point := .entry, call := opening }],
      returns.map fun loc => { point := .before loc, call := closing })
  else ([], [])

namespace TypeGraph

/-- The plan of a body. Back edges have to be decided before. Closing calls come last, so that a
reference taken before a return is counted before the scope gives up its own. -/
def plan (g : TypeGraph) (b : Body) (o : AnalysisOptions) : Except AnalysisError Plan := do
  b.check
  let f := b.facts o
  let sites ← b.allocations.mapM fun a => a.plan f g o
  let (openArena, closeArena) := bracket sites .arena .arenaCreate .arenaDestroy f.returns
  let (openScope, closeScope) := bracket sites .symmetric .symEnterScope .symExitScope f.returns
  return { body := b.name, sites
           calls := openArena ++ openScope ++ sites.flatMap (·.calls f) ++ closeArena ++ closeScope }

/-- Decide the back edges of a type graph, and plan each body. -/
def planUnit (g : TypeGraph) (bodies : List Body) (o : AnalysisOptions) :
    Except AnalysisError (TypeGraph × BackEdgeReport × List Plan) := do
  let (g, report) := g.detectBackEdges o
  let plans ← bodies.mapM fun b => g.plan b o
  return (g, report, plans)

end TypeGraph

end Reclamation
