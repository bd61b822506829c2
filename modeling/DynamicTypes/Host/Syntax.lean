import DynamicTypes.Diagnostic
import DynamicTypes.Ty.Basic

/-!
# The host language

Functions that are checked are written in a small expression language, in which
values can be built, mutated, looked at and called, and failures raised and caught.
A literal builds its value anew each time it is evaluated, and may declare types
and checked functions on the way, so the three kinds of syntax are defined
together.
-/

namespace DynamicTypes

mutual

/-- A value to be built. -/
inductive Literal where
  /-- A value that is there already, such as a number. -/
  | value (v : Value)
  /-- A new array. It can be referred to by its label while its items are built. -/
  | array (label : Option String) (items : List Literal)
  /-- A new object, likewise. A hook counts only where there is a tag. -/
  | object (label : Option String) (tag : Option String) (hook : Option Hook)
      (fields : List (String × Literal))
  /-- A new function of the host. -/
  | function (info : FunctionInfo) (body : Expr)
  /-- A new checked function. -/
  | definition (name : String) (types : List TypeExpr) (constraints : Constraints) (body : Expr)
      (env : List TypeExpr) (checked : Bool)
  /-- The value with that label. -/
  | reference (label : String)
  /-- A value that gets a label once it is built. -/
  | labelled (label : String) (l : Literal)

/-- A type to be declared. -/
inductive TypeExpr where
  /-- A type that is there already. -/
  | type (t : Ty)
  | con (c : Constructor) (supers params : List TypeExpr)
  | enumeration (name url : String) (members : List Literal)
  | record (fields : List (String × TypeExpr))
  | namedRecord (name url : String) (supers : List TypeExpr) (fields : List (String × TypeExpr))
  | function (types : List TypeExpr)
  /-- A function type as it stands, even without a result. -/
  | bareFunction (types : List TypeExpr)
  | var (name : String) (params : List TypeExpr)

/-- An expression. -/
inductive Expr where
  /-- An argument of the function that the expression is in, or of one `outer` levels
  further out. -/
  | arg (index outer : Nat)
  /-- A new array of all arguments. -/
  | allArgs
  | literal (l : Literal)
  /-- The sum of two numbers; anything else counts as zero. -/
  | add (a b : Expr)
  /-- Calls a function; anything else gives undefined. -/
  | call (f : Expr) (args : List Expr)
  /-- A new array of the results of calling a function on each item. -/
  | map (f items : Expr)
  /-- Calls a function on what there is so far and each item in turn. -/
  | fold (f initial items : Expr)
  | array (items : List Expr)
  | object (fields : List (String × Expr))
  /-- The text of a value. -/
  | print (e : Expr)
  /-- A new array of the items of two. -/
  | concat (a b : Expr)
  | length (items : Expr)
  | field (e : Expr) (key : String)
  | item (e : Expr) (index : Nat)
  /-- Appends to an array and gives the array. -/
  | push (items e : Expr)
  /-- The last of several values. -/
  | sequence (es : List Expr)
  | ite (test : Test) (e yes no : Expr)
  /-- A new function that sees the arguments of the functions around it. -/
  | function (name : String) (arity : Nat) (body : Expr)
  | raise (category : Category) (message : String)
  /-- A value, or an error value with the message of the failure. -/
  | attempt (e : Expr)

end

end DynamicTypes
