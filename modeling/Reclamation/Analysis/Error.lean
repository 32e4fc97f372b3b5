import Reclamation.Ident

/-!
# Errors of the analyses

An analysis that cannot tell falls back to the most cautious answer, which is no error. The errors
here are about malformed input only: a type graph or a body that refers to what it does not
declare, or a lowered call that does not fit its entry point.
-/

set_option autoImplicit false

namespace Reclamation

/-- Why a type graph or a body is refused. -/
inductive AnalysisError where
  | unknownType (id : TypeId)
  | unknownField (field : FieldId)
  | duplicateField (type field : String)
  | unknownLocal (body : String) (id : LocalId)
  | unterminatedBlock (body : String) (block : BlockId)
  | invalidSuccessor (body : String) (block target : BlockId)
  | emptyBody (body : String)
  /-- A lowered call has another number of arguments than its entry point takes. -/
  | arity (symbol : String) (expected found : Nat)
  deriving DecidableEq, Repr

/-- A name between the marks that set it off in messages. -/
def quoted (name : String) : String :=
  "\x60" ++ name ++ "\x60"

/-- The text of an error. -/
def AnalysisError.message : AnalysisError → String
  | .unknownType id => "unknown type id " ++ id.text
  | .unknownField field => "unknown field " ++ field.text
  | .duplicateField type field =>
    "type " ++ quoted type ++ " already declares a field named " ++ quoted field
  | .unknownLocal body id => "local " ++ id.text ++ " is not declared in " ++ quoted body
  | .unterminatedBlock body block =>
    "block " ++ block.text ++ " in " ++ quoted body ++ " has no terminator"
  | .invalidSuccessor body block target =>
    "block " ++ block.text ++ " in " ++ quoted body ++ " jumps to missing block " ++ target.text
  | .emptyBody body => "body " ++ quoted body ++ " has no blocks"
  | .arity symbol expected found =>
    quoted symbol ++ " takes " ++ toString expected ++ " arguments, lowering produced "
      ++ toString found

end Reclamation
