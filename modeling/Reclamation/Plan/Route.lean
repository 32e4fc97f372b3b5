import Reclamation.Analysis.Options
import Reclamation.Strategy
import Reclamation.TypeGraph.Shape

/-!
# Routes

How one allocation is reclaimed, given what is known of it. The table (`Strategy.choose`) goes by the
shape alone:

| shape  | cycles  | frozen | strategy  |
|--------|---------|--------|-----------|
| tree   |         |        | asap      |
| dag    |         |        | rc        |
| cyclic | broken  |        | rc        |
| cyclic | remain  | yes    | scc       |
| cyclic | remain  | no     | symmetric |

A shape that is not fully known is treated as a changing cycle. `route` then takes into account where
the value goes: into an arena if that is allowed and the value stays, to counting if a tree has more
than one owner, to a handle if a closure or another thread may hold on to it.
-/

set_option autoImplicit false

namespace Reclamation

/-! ## The table -/

/-- The strategy for a shape. -/
def Strategy.choose (shape : Shape) (broken frozen : Bool) : Strategy :=
  match shape with
  | .tree => .asap
  | .dag => .rc
  | .cyclic => if broken then .rc else if frozen then .scc else .symmetric

/-- The strategy for what is known of a shape. -/
def ShapeFact.strategy (f : ShapeFact) (frozen : Bool) : Strategy :=
  if f.unknown then .symmetric else .choose f.shape f.broken frozen

/-! ## Decisions -/

/-- What is known of an allocation. -/
structure RouteInput where
  fact : ShapeFact := {}
  escape : EscapeState := .none
  /-- The value does not change once it is built. -/
  frozen : Bool := false
  captured : Bool := false
  crosses : Bool := false
  /-- Some owner of the value is copied. -/
  aliased : Bool := false
  deriving DecidableEq, Repr

/-- What bore on a decision. -/
inductive RouteReason where
  | unknownShape
  | arena
  | arenaDeclined
  | escapingTree
  | aliasedTree
  | ownershipTransferred
  | closureCapture
  | crossesThread
  deriving DecidableEq, Repr

/-- The text of a reason in reports. -/
def RouteReason.text : RouteReason → String
  | .unknownShape => "shape unknown"
  | .arena => "arena opt-in"
  | .arenaDeclined => "arena opt-in ignored"
  | .escapingTree => "tree escapes via argument"
  | .aliasedTree => "tree is aliased"
  | .ownershipTransferred => "ownership transferred"
  | .closureCapture => "captured by closure"
  | .crossesThread => "crosses thread"

/-- How an allocation is reclaimed. -/
structure Decision where
  strategy : Strategy
  /-- The value lives in the slot pool, so that it can be named by a handle. -/
  needsHandle : Bool
  /-- Counts are changed by several threads. -/
  atomic : Bool
  /-- Whoever receives the value frees it, not this body. -/
  transfers : Bool
  reasons : List RouteReason
  deriving DecidableEq, Repr

namespace RouteInput

/-- Whether the value may be put into the arena of its body: it is known to be cyclic, and it
stays in the body. -/
def fitsArena (i : RouteInput) : Bool :=
  !i.fact.unknown && i.fact.shape == .cyclic && i.escape == .none && !i.captured && !i.crosses

/-- Whether a tree has to be counted after all, and why. -/
def promotion? (i : RouteInput) : Option RouteReason :=
  if i.escape = .arg then some .escapingTree
  else if i.aliased then some .aliasedTree
  else none

/-- Whether ownership leaves the body. -/
def transfers (i : RouteInput) : Bool :=
  i.escape == .global || i.captured

/-- The strategy before escape is looked at, and what bore on it. -/
def baseRoute (i : RouteInput) (arenaOptIn : Bool) : Strategy × List RouteReason :=
  let unknown := if i.fact.unknown then [RouteReason.unknownShape] else []
  if !arenaOptIn then (i.fact.strategy i.frozen, unknown)
  else if i.fitsArena then (.arena, unknown ++ [.arena])
  else (i.fact.strategy i.frozen, unknown ++ [.arenaDeclined])

/-- The strategy once the owners of trees are looked at, and what bore on it. -/
def fullRoute (i : RouteInput) (arenaOptIn : Bool) : Strategy × List RouteReason :=
  let (strategy, reasons) := i.baseRoute arenaOptIn
  match strategy, i.promotion? with
  | .asap, some reason => (.rc, reasons ++ [reason])
  | _, _ => (strategy, reasons)

/-- The decision for an allocation. -/
def route (i : RouteInput) (arenaOptIn : Bool) : Decision :=
  let (strategy, reasons) := i.fullRoute arenaOptIn
  { strategy
    needsHandle := i.captured || i.crosses
    atomic := i.crosses && strategy.isCounted
    transfers := i.transfers
    reasons := reasons
      ++ (if i.transfers then [.ownershipTransferred] else [])
      ++ (if i.captured then [.closureCapture] else [])
      ++ (if i.crosses then [.crossesThread] else []) }

end RouteInput

end Reclamation
