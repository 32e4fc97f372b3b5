import Reclamation.Analysis.Error
import Reclamation.Graph.Walk
import Reclamation.Program.Instruction

/-!
# Bodies

The body of a function: its locals and its blocks, the first block being the entry. The return local
comes first, the parameters next and all other locals after them.

A body can be built step by step and need not be complete; `violation?` says what is missing from
it. The questions about the flow of control that the analyses ask are answered here, over the graph
of blocks (`flow`).
-/

set_option autoImplicit false

namespace Reclamation

/-! ## Locals and blocks -/

/-- What a local is for. -/
inductive LocalKind where
  | returnPlace
  | arg
  | var
  | temp
  deriving DecidableEq, Repr

/-- The declaration of a local. -/
structure LocalDecl where
  kind : LocalKind
  /-- The type of the object it refers to, if it holds a reference. -/
  type : Option TypeId := none
  name : Option String := none
  deriving DecidableEq, Repr

/-- A block: statements and, once it is complete, a terminator. -/
structure Block where
  statements : List Statement := []
  terminator : Option Terminator := none
  deriving DecidableEq, Repr

namespace Block

/-- The blocks to which control may go, in order. -/
def successors (b : Block) : List BlockId :=
  match b.terminator with
  | some t => t.successors
  | none => []

/-- The effects of the statements and of the terminator, in order. -/
def effects (b : Block) : List Effects :=
  b.statements.map Statement.effects ++ (b.terminator.map Terminator.effects).toList

/-- Whether the block returns to the caller. -/
def returns (b : Block) : Bool :=
  b.terminator == some .ret

end Block

/-- The body of a function. -/
structure Body where
  name : String
  locals : Array LocalDecl
  paramCount : Nat
  blocks : Array Block := #[]
  deriving DecidableEq, Repr

namespace Body

/-! ## Building -/

/-- A body without blocks, with its return local and its parameters. -/
def empty (name : String) (paramCount : Nat) : Body :=
  { name, paramCount
    locals := #[{ kind := .returnPlace }] ++ Array.replicate paramCount { kind := .arg } }

/-- Declare a local. -/
def addLocal (b : Body) (d : LocalDecl) : Body × LocalId :=
  ({ b with locals := b.locals.push d }, b.locals.size)

/-- Add an empty block. -/
def addBlock (b : Body) : Body × BlockId :=
  ({ b with blocks := b.blocks.push {} }, b.blocks.size)

/-- Add a statement to a block. In a missing block it has no effect, and its position is given as
the first. -/
def addStatement (b : Body) (block : BlockId) (s : Statement) : Body × Location :=
  match b.blocks[block]? with
  | some data =>
    ({ b with blocks := b.blocks.modify block fun d => { d with statements := d.statements ++ [s] } },
      ⟨block, data.statements.length⟩)
  | none => (b, ⟨block, 0⟩)

/-- Set the terminator of a block; a missing block has none to set. -/
def setTerminator (b : Body) (block : BlockId) (t : Terminator) : Body :=
  { b with blocks := b.blocks.modify block fun d => { d with terminator := some t } }

/-! ## Looking up -/

/-- The declaration of a local. -/
def localDecl (b : Body) (l : LocalId) : Except AnalysisError LocalDecl :=
  match b.locals[l]? with
  | some d => .ok d
  | none => .error (.unknownLocal b.name l)

/-- The parameters. -/
def params (b : Body) : List LocalId :=
  (List.range b.paramCount).map (· + 1)

/-- The blocks with their numbers, in order. -/
def numberedBlocks (b : Body) : List (BlockId × Block) :=
  b.blocks.toList.zipIdx.map fun (data, i) => (i, data)

/-- The statements with their positions, in order. -/
def statements (b : Body) : List (Location × Statement) :=
  b.numberedBlocks.flatMap fun (id, data) =>
    data.statements.zipIdx.map fun (s, i) => (⟨id, i⟩, s)

/-- The terminators with their positions, in order. -/
def terminators (b : Body) : List (Location × Terminator) :=
  b.numberedBlocks.filterMap fun (id, data) =>
    data.terminator.map fun t => (⟨id, data.statements.length⟩, t)

/-- Where control returns to the caller, in order. -/
def returnLocations (b : Body) : List Location :=
  (b.terminators.filter (·.2 == .ret)).map (·.1)

/-- The blocks to which control may go from a block, in order; none from a missing block. -/
def successors (b : Body) (id : BlockId) : List BlockId :=
  match b.blocks[id]? with
  | some data => data.successors
  | none => []

/-! ## Completeness -/

/-- What a block lacks: a terminator, or a block to which it jumps. -/
def blockViolation? (b : Body) (id : BlockId) (data : Block) : Option AnalysisError :=
  match data.terminator with
  | none => some (.unterminatedBlock b.name id)
  | some t =>
    (t.successors.find? fun s => decide (b.blocks.size ≤ s)).map (.invalidSuccessor b.name id)

/-- What a body lacks first, if it is not complete. -/
def violation? (b : Body) : Option AnalysisError :=
  if b.blocks.isEmpty then some (.emptyBody b.name)
  else b.numberedBlocks.findSome? fun (id, data) => b.blockViolation? id data

/-- Refuses a body that is not complete. -/
def check (b : Body) : Except AnalysisError Unit :=
  match b.violation? with
  | some e => .error e
  | none => .ok ()

/-! ## The flow of control -/

/-- The blocks and the jumps between them. -/
def flow (b : Body) : Digraph Unit where
  size := b.blocks.size
  out id := (b.successors id).map fun s => ((), s)

/-- The blocks that can be reached from the entry, so that each comes before those it leads to
unless they are on a cycle. -/
def reversePostorder (b : Body) : List BlockId :=
  (b.flow.postorder [entryBlock]).reverse

/-- The blocks that may jump to a block, in order, each as often as it names it. -/
def predecessors (b : Body) (id : BlockId) : List BlockId :=
  (List.range b.blocks.size).flatMap fun p =>
    ((b.successors p).filter (· == id)).map fun _ => p

/-- The numbers that are a block or are named by a jump, ascending. -/
def knownBlocks (b : Body) : List BlockId :=
  let named := (List.range b.blocks.size).flatMap b.successors
  let missing := (named.filter fun s => decide (b.blocks.size ≤ s)).mergeSort
  List.range b.blocks.size ++ missing.eraseDups

end Body

end Reclamation
