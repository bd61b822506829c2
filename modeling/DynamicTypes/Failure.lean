import DynamicTypes.Diagnostic
import DynamicTypes.Ty.Basic

/-!
# Why a check fails
-/

namespace DynamicTypes

/-- Why a check fails, before it is put into words. -/
inductive Failure where
  /-- The value is not a member of the type at the position. -/
  | invalidValue (locus : Locus) (value : Value) (type : Ty)
  /-- The values seen for the variable have no type in common. -/
  | typeVariableViolation (name : String) (observations : List (Locus × List Value))
  /-- The value does not satisfy a type class required of its variable. -/
  | typeClassViolation (name : String) (required : TypeClass) (locus : Locus) (value : Value)
  /-- The value has no type in the environment. -/
  | unrecognizedValue (locus : Locus) (value : Value)
  /-- A callback was called with the wrong number of arguments. -/
  | callbackArity (locus : Locus) (expected : Nat) (args : List Value)
  /-- A function was applied to the wrong number of arguments. -/
  | argumentCount (expected : Nat) (args : List Value)

namespace Failure

/-- The positions that the failure implicates. -/
def loci : Failure → List Locus
  | invalidValue locus _ _ => [locus]
  | typeVariableViolation _ observations => observations.map (·.1)
  | typeClassViolation _ _ locus _ => [locus]
  | unrecognizedValue locus _ => [locus]
  | callbackArity locus _ _ => [locus]
  | argumentCount .. => []

def category : Failure → Category
  | invalidValue .. => .invalidValue
  | typeVariableViolation .. => .typeVariableViolation
  | typeClassViolation .. => .typeClassViolation
  | unrecognizedValue .. => .unrecognizedValue
  | callbackArity .. => .arityViolation
  | argumentCount .. => .arityViolation

end Failure

end DynamicTypes
