import Reclamation.Plan.Basic

/-!
# Lowering

A planned call as a C statement. Which arguments a call has follows from its entry point; their
number is checked against the signature, so that a call whose arguments a plan does not know is
refused and not printed short.
-/

set_option autoImplicit false

namespace Reclamation

/-- The C variable that holds the arena of a body. -/
def arenaVariable : String := "__vein_arena"

/-- A call with its arguments as C text. -/
structure LoweredCall where
  point : ProgramPoint
  call : EntryPoint
  args : List String
  /-- Where the result is put, if it is kept. -/
  result : Option String
  deriving DecidableEq, Repr

namespace LoweredCall

/-- The C statement. -/
def statement (c : LoweredCall) : String :=
  let call := c.call.symbol ++ "(" ++ ", ".intercalate c.args ++ ");"
  match c.result with
  | some dest => dest ++ " = " ++ call
  | none => call

/-- The text of a call in reports: where it is made, and the statement. -/
def text (c : LoweredCall) : String :=
  c.point.text ++ ": " ++ c.statement

end LoweredCall

/-- Refuses a number of arguments that an entry point does not take. -/
def EntryPoint.checkArity (f : EntryPoint) (found : Nat) : Except AnalysisError Unit :=
  if f.signature.arity = found then .ok ()
  else .error (.arity f.symbol f.signature.arity found)

namespace PlannedCall

/-- The flag that C code passes for a truth value. -/
def flag (b : Bool) : String :=
  if b then "1" else "0"

/-- The local that is passed to a call. -/
def subjectText (c : PlannedCall) : String :=
  match c.subject with
  | some l => LocalId.text l
  | none => "NULL"

/-- The allocation for which a call that makes an object is made. -/
def requireSite (p : Plan) (c : PlannedCall) : Except AnalysisError AllocationSite :=
  match c.site.bind p.site? with
  | some s => .ok s
  | none => .error (.arity c.call.symbol c.call.signature.arity 0)

/-- The arguments of a call, and where its result is put. -/
def operands (p : Plan) (c : PlannedCall) : Except AnalysisError (List String × Option String) :=
  match c.call with
  | .alloc => do
    let s ← c.requireSite p
    return ([toString s.type, flag s.decision.atomic], some s.place.text)
  | .slotPoolAlloc => do
    let s ← c.requireSite p
    return ([toString s.type, flag s.decision.atomic, flag (s.strategy == .symmetric)],
      some s.place.text)
  | .symAlloc => do
    let s ← c.requireSite p
    return ([toString s.type], some s.place.text)
  | .arenaAlloc => do
    let s ← c.requireSite p
    return ([arenaVariable, toString s.type], some s.place.text)
  | .arenaCreate => .ok ([], some arenaVariable)
  | .arenaDestroy => .ok ([arenaVariable], none)
  | .makeHandle => .ok ([c.subjectText], some (c.subjectText ++ "_handle"))
  | .freeTree | .incRef | .decRef | .sccFreeze | .sccRelease | .symAcquire | .symRelease
  | .slotPoolFree => .ok ([c.subjectText], none)
  | .symEnterScope | .symExitScope | .safePoint | .runtimeInit | .registerType | .setField
  | .arenaRegisterExternal | .arenaResolveExternal | .symLink | .handleIsValid
  | .handleDeref => .ok ([], none)

/-- A planned call with its arguments. A result is kept only if there is one. -/
def lower (p : Plan) (c : PlannedCall) : Except AnalysisError LoweredCall := do
  let (args, result) ← c.operands p
  c.call.checkArity args.length
  return { point := c.point, call := c.call, args
           result := if c.call.signature.result = .void then none else result }

end PlannedCall

namespace Plan

/-- All calls of a plan with their arguments. -/
def lower (p : Plan) : Except AnalysisError (List LoweredCall) :=
  p.calls.mapM (·.lower p)

/-- A plan as C text, one call a line, each after a comment that says where it is made. -/
def render (p : Plan) : Except AnalysisError String := do
  let calls ← p.lower
  let line (c : LoweredCall) : String := "/* " ++ c.point.text ++ " */ " ++ c.statement ++ "\n"
  return "/* " ++ p.body ++ " */\n" ++ String.join (calls.map line)

end Plan

end Reclamation
