import DynamicTypes.Host.Syntax
import DynamicTypes.Ty.Builtin

/-!
# Shorthand for literals and types

Values and types of a regular shape, written out.
-/

namespace DynamicTypes

namespace Literal

/-- The number with a given whole value. -/
def whole (n : Nat) : Literal := value (.number (.ofNat n))

/-- A new array of the numbers below `n`. -/
def range (label : Option String) (n : Nat) : Literal :=
  array label ((List.range n).map whole)

/-- A text, so many times. -/
def repeated (n : Nat) (text : String) : Literal :=
  value (.string (String.join (List.replicate n text)))

/-- A value wrapped so many times in an array of its own. -/
def inArrays (n : Nat) (l : Literal) : Literal :=
  Nat.repeat (fun l => array none [l]) n l

/-- A value wrapped so many times in an object of its own, under the same key. -/
def inObjects (n : Nat) (key : String) (tag : Option String) (l : Literal) : Literal :=
  Nat.repeat (fun l => object none tag none [(key, l)]) n l

/-- A value with a label, if there is one. -/
def labelledWith (label : Option String) (l : Literal) : Literal :=
  match label with
  | some name => labelled name l
  | none => l

end Literal

namespace TypeExpr

/-- The constructor of a type, applied to other parameters. -/
def applied (t : Ty) (params : List TypeExpr) : TypeExpr :=
  match t with
  | .con c supers _ => con c (supers.map type) params
  | t => type t

def array (t : TypeExpr) : TypeExpr := applied (Builtin.array .unknown) [t]

def array1 (t : TypeExpr) : TypeExpr := applied (Builtin.array1 .unknown) [t]

def array2 (t u : TypeExpr) : TypeExpr :=
  applied (Builtin.array2 .unknown .unknown) [t, u]

def strMap (t : TypeExpr) : TypeExpr := applied (Builtin.strMap .unknown) [t]

def nullable (t : TypeExpr) : TypeExpr := applied (Builtin.nullable .unknown) [t]

/-- A function that takes nothing. -/
def thunk (t : TypeExpr) : TypeExpr := bareFunction [t]

/-- A function that tells which values have a property. -/
def predicate (t : TypeExpr) : TypeExpr := bareFunction [t, type Builtin.boolean]

/-- The builtin environment. -/
def builtins : List TypeExpr := Builtin.environment.map type

end TypeExpr

end DynamicTypes
