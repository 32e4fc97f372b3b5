import Reclamation.Program.Place

/-!
# Statements and terminators

What a block of a body does: statements one after the other and then a terminator, which alone
decides where control goes. The language is what the memory analyses need to know of a program: where
values are made, where references are copied, moved, stored and handed on.
-/

set_option autoImplicit false

namespace Reclamation

/-! ## Operands -/

/-- A value that is read. -/
inductive Operand where
  /-- Another reference to the same object is made. -/
  | copy (place : Place)
  /-- The reference itself changes hands. -/
  | move (place : Place)
  | const (value : Int)
  deriving DecidableEq, Repr

/-- The place that an operand reads. -/
def Operand.place? : Operand → Option Place
  | .copy p | .move p => some p
  | .const _ => none

/-- The local from which an operand is read. -/
def Operand.base? (op : Operand) : Option LocalId :=
  op.place?.map (·.base)

/-- The locals from which operands are read, in order. -/
def operandBases (ops : List Operand) : List LocalId :=
  ops.filterMap Operand.base?

/-- An operator on plain values. -/
inductive BinaryOperator where
  | add
  | sub
  | mul
  | eq
  | lt
  deriving DecidableEq, Repr

/-! ## Statements -/

/-- The right side of an assignment. -/
inductive Rvalue where
  | use (op : Operand)
  /-- A new object of a type, with the values of its fields. A frozen one does not change once it
  is built. -/
  | alloc (site : SiteId) (type : TypeId) (frozen : Bool) (fields : List Operand)
  /-- A closure over values. -/
  | closure (captures : List Operand)
  /-- A reference to a place. -/
  | ref (place : Place)
  | binary (op : BinaryOperator) (left right : Operand)
  deriving DecidableEq, Repr

/-- A statement. -/
inductive Statement where
  | assign (place : Place) (value : Rvalue)
  | storeGlobal (target : GlobalId) (value : Operand)
  /-- Send a value to another thread. -/
  | send (channel value : Operand)
  /-- Start a thread that owns values. -/
  | spawn (captures : List Operand)
  | storageLive (l : LocalId)
  | storageDead (l : LocalId)
  | nop
  deriving DecidableEq, Repr

/-! ## Terminators -/

/-- What a called function does with an argument. -/
inductive ArgMode where
  /-- It reads through the argument and keeps nothing. -/
  | borrow
  /-- It may keep the argument. -/
  | retain
  deriving DecidableEq, Repr

/-- A called function; nothing is known of one without modes. -/
structure Callee where
  name : String
  modes : Option (List ArgMode) := none
  deriving DecidableEq, Repr

/-- What the function does with the argument at a place, if that is known. -/
def Callee.mode? (c : Callee) (index : Nat) : Option ArgMode :=
  c.modes.bind (·[index]?)

/-- The end of a block. -/
inductive Terminator where
  | goto (target : BlockId)
  /-- Go to the block that the value of an operand selects. -/
  | switch (discriminant : Operand) (targets : List BlockId) (otherwise : BlockId)
  /-- Call a function; without a target it does not come back. -/
  | call (callee : Callee) (args : List Operand) (dest : Place) (target : Option BlockId)
  /-- Return what the return local holds. -/
  | ret
  | unreachable
  deriving DecidableEq, Repr

/-- The blocks to which control may go, in order. -/
def Terminator.successors : Terminator → List BlockId
  | .goto target => [target]
  | .switch _ targets otherwise => targets ++ [otherwise]
  | .call _ _ _ target => target.toList
  | .ret | .unreachable => []

/-! ## What is read and written -/

/-- The locals that an instruction reads and those that it assigns as a whole. -/
structure Effects where
  uses : List LocalId := []
  defs : List LocalId := []
  deriving DecidableEq, Repr

namespace Effects

/-- The effects of reading operands and then writing a place. Writing a part of a value reads the
local from which the part is found. -/
def write (uses : List LocalId) (p : Place) : Effects :=
  match p.local? with
  | some l => { uses, defs := [l] }
  | none => { uses := uses ++ [p.base] }

/-- Whether a local is read or assigned. -/
def touches (fx : Effects) (l : LocalId) : Bool :=
  fx.uses.contains l || fx.defs.contains l

/-- Whether a local is live before an instruction, given whether it is after it. -/
def liveBefore (fx : Effects) (l : LocalId) (after : Bool) : Bool :=
  fx.uses.contains l || (after && !fx.defs.contains l)

end Effects

/-- The locals that the right side of an assignment reads. -/
def Rvalue.uses : Rvalue → List LocalId
  | .use op => operandBases [op]
  | .alloc _ _ _ fields => operandBases fields
  | .closure captures => operandBases captures
  | .ref p => [p.base]
  | .binary _ left right => operandBases [left, right]

/-- What a statement reads and writes. -/
def Statement.effects : Statement → Effects
  | .assign p value => .write value.uses p
  | .storeGlobal _ value => { uses := operandBases [value] }
  | .send channel value => { uses := operandBases [channel, value] }
  | .spawn captures => { uses := operandBases captures }
  | .storageLive _ | .storageDead _ | .nop => {}

/-- What a terminator reads and writes. -/
def Terminator.effects : Terminator → Effects
  | .switch discriminant _ _ => { uses := operandBases [discriminant] }
  | .call _ args dest _ => .write (operandBases args) dest
  | .ret => { uses := [returnLocal] }
  | .goto _ | .unreachable => {}

end Reclamation
