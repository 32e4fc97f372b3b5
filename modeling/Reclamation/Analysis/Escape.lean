import Reclamation.Analysis.Options
import Reclamation.Program.Body

/-!
# Escape analysis

How far the value of each local may get out of the body. Each statement says something about the
locals it mentions (`EscapeConstraint`): a local escapes at least so far, or at least as far as
another one, because its value is put where the other's is. The analysis gives each local the least
state that satisfies all of it. The same goes for crossing to another thread.

The least state is a matter of reachability: a local escapes globally when what is said of it leads,
from local to local, to one that is said to.
-/

set_option autoImplicit false

namespace Reclamation

/-! ## What a body says of its locals -/

/-- A condition on how far locals escape. -/
inductive EscapeConstraint where
  /-- The local escapes at least this far. -/
  | atLeast (l : LocalId) (s : EscapeState)
  /-- The local escapes at least as far as the other. -/
  | follows (l other : LocalId)
  /-- The local crosses to another thread. -/
  | crosses (l : LocalId)
  /-- The local crosses if the other does. -/
  | crossesWith (l other : LocalId)
  deriving DecidableEq, Repr

/-- The conditions on a value that is put into a place. Behind a pointer there may be anything, so
there the value escapes globally. -/
def Place.holds (p : Place) (l : LocalId) : List EscapeConstraint :=
  [if p.isIndirect then .atLeast l .global else .follows l p.base, .crossesWith l p.base]

/-- The conditions on a value that reaches another thread. -/
def handedOver (l : LocalId) : List EscapeConstraint :=
  [.atLeast l .global, .crosses l]

/-- The conditions that a statement sets. Plain arithmetic hands on no reference. -/
def Statement.escapeConstraints : Statement → List EscapeConstraint
  | .assign p (.use op) => (operandBases [op]).flatMap p.holds
  | .assign p (.alloc _ _ _ fields) => (operandBases fields).flatMap p.holds
  | .assign p (.closure captures) =>
    (operandBases captures).flatMap fun l => [.atLeast l .global, .crossesWith l p.base]
  | .assign p (.ref q) => p.holds q.base
  | .assign _ (.binary _ _ _) => []
  | .storeGlobal _ value => (operandBases [value]).map (.atLeast · .global)
  | .send _ value => (operandBases [value]).flatMap handedOver
  | .spawn captures => (operandBases captures).flatMap handedOver
  | .storageLive _ | .storageDead _ | .nop => []

/-- How far the argument at a place of a call escapes. -/
def Callee.escape (c : Callee) (unknown : EscapeState) (index : Nat) : EscapeState :=
  match c.mode? index with
  | some .borrow => .none
  | some .retain => .arg
  | none => unknown

/-- The conditions that a terminator sets. -/
def Terminator.escapeConstraints (unknown : EscapeState) : Terminator → List EscapeConstraint
  | .call callee args _ _ =>
    args.zipIdx.filterMap fun (arg, i) => arg.base?.map (.atLeast · (callee.escape unknown i))
  | .goto _ | .switch _ _ _ | .ret | .unreachable => []

namespace Body

/-- All conditions on the locals of a body: what is returned escapes globally, and a parameter is
known to the caller. -/
def escapeConstraints (b : Body) (o : AnalysisOptions) : List EscapeConstraint :=
  .atLeast returnLocal .global :: b.params.map (.atLeast · .arg)
    ++ b.statements.flatMap (·.2.escapeConstraints)
    ++ b.terminators.flatMap (·.2.escapeConstraints o.unknownCallee)

end Body

/-! ## The least solution -/

namespace EscapeConstraint

/-- The locals that a condition mentions. -/
def locals : EscapeConstraint → List LocalId
  | atLeast l _ | crosses l => [l]
  | follows l other | crossesWith l other => [l, other]

/-- The local that escapes at least so far, by the condition alone. -/
def seed? (s : EscapeState) : EscapeConstraint → Option LocalId
  | atLeast l t => if s.rank ≤ t.rank then some l else none
  | follows _ _ | crosses _ | crossesWith _ _ => none

/-- The local that crosses by the condition alone. -/
def crossingSeed? : EscapeConstraint → Option LocalId
  | crosses l => some l
  | atLeast _ _ | follows _ _ | crossesWith _ _ => none

/-- The local that a condition makes escape as far as the given one. -/
def follower? (other : LocalId) : EscapeConstraint → Option LocalId
  | follows l o => if o = other then some l else none
  | atLeast _ _ | crosses _ | crossesWith _ _ => none

/-- The local that a condition makes cross with the given one. -/
def companion? (other : LocalId) : EscapeConstraint → Option LocalId
  | crossesWith l o => if o = other then some l else none
  | atLeast _ _ | follows _ _ | crosses _ => none

/-- One more than every local that the conditions mention. -/
def bound (cs : List EscapeConstraint) : Nat :=
  ((cs.flatMap locals).foldl max 0) + 1

/-- The graph in which an edge leads from a local to each one that escapes as far. -/
def followGraph (cs : List EscapeConstraint) : Digraph Unit where
  size := bound cs
  out other := (cs.filterMap (follower? other)).map fun l => ((), l)

/-- The graph in which an edge leads from a local to each one that crosses with it. -/
def companionGraph (cs : List EscapeConstraint) : Digraph Unit where
  size := bound cs
  out other := (cs.filterMap (companion? other)).map fun l => ((), l)

/-- The locals that escape at least so far. -/
def reached (cs : List EscapeConstraint) (s : EscapeState) : List LocalId :=
  (followGraph cs).preorder (cs.filterMap (seed? s))

/-- The locals that cross to another thread. -/
def crossing (cs : List EscapeConstraint) : List LocalId :=
  (companionGraph cs).preorder (cs.filterMap crossingSeed?)

end EscapeConstraint

/-- What the analysis finds. -/
structure EscapeFacts where
  /-- The locals that escape globally. -/
  global : List LocalId
  /-- The locals that escape at least as arguments. -/
  arg : List LocalId
  /-- The locals that cross to another thread. -/
  crossing : List LocalId
  /-- Each closure with the locals it captures. -/
  closures : List (LocalId × List LocalId)

namespace EscapeFacts

/-- How far a local escapes. -/
def state (f : EscapeFacts) (l : LocalId) : EscapeState :=
  if f.global.contains l then .global else if f.arg.contains l then .arg else .none

/-- Whether a local crosses to another thread. -/
def crosses (f : EscapeFacts) (l : LocalId) : Bool :=
  f.crossing.contains l

/-- Whether a closure captures a local. -/
def isCaptured (f : EscapeFacts) (l : LocalId) : Bool :=
  f.closures.any (·.2.contains l)

/-- What the closure last written to a local captures, if there is one. -/
def captures? (f : EscapeFacts) (l : LocalId) : Option (List LocalId) :=
  (f.closures.reverse.find? (·.1 == l)).map (·.2)

end EscapeFacts

namespace Body

/-- The closures of a body, each with the locals it captures, in order. -/
def closures (b : Body) : List (LocalId × List LocalId) :=
  b.statements.filterMap fun (_, s) =>
    match s with
    | .assign p (.closure captures) => some (p.base, operandBases captures)
    | _ => none

/-- How far the locals of a body escape. -/
def escape (b : Body) (o : AnalysisOptions) : EscapeFacts :=
  let cs := b.escapeConstraints o
  { global := EscapeConstraint.reached cs .global
    arg := EscapeConstraint.reached cs .arg
    crossing := EscapeConstraint.crossing cs
    closures := b.closures }

/-- The locals about which escape analysis has something to say, ascending: those declared and those
that escape. -/
def escapeLocals (b : Body) (f : EscapeFacts) : List LocalId :=
  let undeclared := f.arg.filter fun l => decide (b.locals.size ≤ l)
  List.range b.locals.size ++ undeclared.mergeSort

end Body

end Reclamation
