import Reclamation.Analysis.LiveSets

/-!
# Liveness

A local is live at a place of a body when some path from there reads it before it is assigned as a
whole. At the starts and ends of the blocks the analysis has found this out by sweeps over the body.

A local dies where it stops being live: after an instruction that touches it last, or on the jump
into a block that no longer needs it. Blocks that the entry does not reach have no live locals and
no deaths.
-/

set_option autoImplicit false

namespace Reclamation

/-! ## Deaths -/

/-- Where a local stops being live. -/
inductive DeathPoint where
  /-- Right after an instruction. -/
  | after (loc : Location)
  /-- On the way from one block to another. -/
  | edge (source target : BlockId)
  deriving DecidableEq, Repr

namespace DeathPoint

/-- The text of a point in reports. -/
def text : DeathPoint → String
  | after loc => "after " ++ loc.text
  | edge source target => "edge " ++ BlockId.text source ++ "->" ++ BlockId.text target

/-- The instruction after which the local dies, if it is one. -/
def location? : DeathPoint → Option Location
  | after loc => some loc
  | edge _ _ => none

end DeathPoint

/-- Whether a local is live at the end of the first instructions of a block, for each number of
them from none on, given whether it is live at the end of the block. -/
def liveAlong (l : LocalId) (atEnd : Bool) : List Effects → List Bool
  | [] => [atEnd]
  | fx :: rest =>
    let after := liveAlong l atEnd rest
    fx.liveBefore l (after.headD atEnd) :: after

/-- The instructions of a block after which a local dies, in order, given whether it is live at the
end of the block. -/
def Block.deathsAt (b : Block) (id : BlockId) (l : LocalId) (atEnd : Bool) : List DeathPoint :=
  let after := (liveAlong l atEnd b.effects).tail
  ((b.effects.zip after).zipIdx.filter fun ((fx, live), _) => fx.touches l && !live).map
    fun (_, i) => .after ⟨id, i⟩

/-- The liveness of a body: its blocks, which of them the entry reaches, and the live locals. -/
structure Liveness where
  body : Body
  /-- The blocks that the entry reaches, ascending. -/
  reached : List BlockId
  sets : LiveSets

namespace Liveness

/-- Analyse a body. -/
def ofBody (b : Body) : Liveness where
  body := b
  reached := b.reversePostorder.mergeSort
  sets := b.liveSets

/-- Whether a local is live at the start of a block. -/
def isLiveIn (v : Liveness) (l : LocalId) (id : BlockId) : Bool :=
  (v.sets.before id).contains l

/-- Whether a local is live at the end of a block. -/
def isLiveOut (v : Liveness) (l : LocalId) (id : BlockId) : Bool :=
  (v.sets.after id).contains l

/-- The blocks at whose start a local is live, ascending. -/
def liveIn (v : Liveness) (l : LocalId) : List BlockId :=
  (List.range v.body.blocks.size).filter (v.isLiveIn l)

/-- The blocks at whose end a local is live, ascending. -/
def liveOut (v : Liveness) (l : LocalId) : List BlockId :=
  (List.range v.body.blocks.size).filter (v.isLiveOut l)

/-- The jumps out of a block on which a local dies. -/
def edgeDeaths (v : Liveness) (l : LocalId) (id : BlockId) : List DeathPoint :=
  if v.isLiveOut l id then
    let targets := (v.body.successors id).filter fun s =>
      decide (s < v.body.blocks.size) && !v.isLiveIn l s
    targets.mergeSort.eraseDups.map (.edge id)
  else []

/-- Where a local dies: first the instructions and then the jumps, each in order of position. -/
def deathPoints (v : Liveness) (l : LocalId) : List DeathPoint :=
  let within (id : BlockId) : List DeathPoint :=
    match v.body.blocks[id]? with
    | some data => data.deathsAt id l (v.isLiveOut l id)
    | none => []
  v.reached.flatMap within ++ v.reached.flatMap (v.edgeDeaths l)

/-- The instructions that use a local last. -/
def lastUses (v : Liveness) (l : LocalId) : List Location :=
  (v.deathPoints l).filterMap DeathPoint.location?

/-- The locals that the body reads somewhere, ascending. -/
def readLocals (v : Liveness) : List LocalId :=
  v.body.reads.mergeSort.eraseDups

end Liveness

end Reclamation
