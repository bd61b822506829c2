import DynamicTypes.Host.Evaluation
import DynamicTypes.Ty.Builtin

/-!
# Checkers

A checker holds the types that variables may stand for, and whether functions
defined with it are checked at all.
-/

namespace DynamicTypes

/-- An environment of types, and whether to check. -/
structure Checker where
  checked : Bool
  env : List Ty

namespace Checker

/-- The checker for the builtin types. -/
def standard : Checker := ⟨true, Builtin.environment⟩

/-- Defines a checked function; the last of the types is that of its result. -/
def define (c : Checker) (name : String) (constraints : Constraints) (types : List Ty)
    (body : Body) :
    Action Diagnostic Value :=
  Application.declare name constraints types c.env c.checked body

/-- Why a value does not satisfy a type, nothing if it does. -/
def failure? (c : Checker) (h : Heap) (t : Ty) (v : Value) : Option Failure :=
  t.failure? h c.env v

/-- Whether a value satisfies a type. -/
def test (c : Checker) (h : Heap) (t : Ty) (v : Value) : Bool :=
  (c.failure? h t v).isNone

/-- Begins to check a call against a signature. -/
def begin (c : Checker) (name : String) (constraints : Constraints) (types : List Ty) :
    Action Diagnostic Session :=
  match Signature.declare name constraints types with
  | .error d => .fail d
  | .ok signature => .make (Session.start signature c.env default)

end Checker

end DynamicTypes
