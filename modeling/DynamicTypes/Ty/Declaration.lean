import DynamicTypes.Diagnostic
import DynamicTypes.Ty.Layout
import DynamicTypes.Value.Printer

/-!
# Declaring types

Some declarations are refused: a record names each of its fields once and in a way
that cannot be taken for the key of a parameter, an enumeration has members, a
function type has at least a result. Fields are checked one by one in the order in
which they are given, so the first one at fault decides which refusal is reported.
-/

namespace DynamicTypes

/-- Why a declaration is refused. -/
inductive DeclarationError where
  | emptyName
  | emptyFunction
  | duplicateField (field : String)
  | invalidFieldName (field : String)
  | invalidFieldType (field type : String)
  | emptyEnumeration (name : String)
  deriving Repr, DecidableEq

namespace DeclarationError

def message : DeclarationError → String
  | emptyName => "type names must not be empty"
  | emptyFunction => "a function type must declare at least a return type"
  | duplicateField field => "record field ‘" ++ field ++ "’ is declared more than once"
  | invalidFieldName field => "‘" ++ field ++ "’ is not a valid record field name"
  | invalidFieldType field type =>
    "record field ‘" ++ field ++ "’ cannot have type ‘" ++ type ++ "’"
  | emptyEnumeration name => "enumeration ‘" ++ name ++ "’ must have at least one member"

def diagnostic (e : DeclarationError) : Diagnostic :=
  .error .construction ("Invalid type declaration\n\n" ++ e.message ++ ".\n")

end DeclarationError

namespace Ty

/-- A field name is not empty and does not start like the key of a parameter. -/
def isFieldName (name : String) : Bool :=
  match name.toList with
  | [] => false
  | '$' :: _ => false
  | _ => true

/-- Whether a field can be declared to have the type. -/
def isFieldType : Ty → Bool
  | inconsistent | noArguments => false
  | _ => true

/-- Adds a field to those declared so far. -/
def declareField (declared : SortedMap String Ty) (name : String) (t : Ty) :
    Except DeclarationError (SortedMap String Ty) :=
  if !isFieldName name then .error (.invalidFieldName name)
  else if !t.isFieldType then .error (.invalidFieldType name t.format)
  else if declared.contains name then .error (.duplicateField name)
  else .ok (declared.insert name t)

/-- Adds fields, one by one, to those declared so far. -/
def declareFields (declared : SortedMap String Ty) :
    List (String × Ty) → Except DeclarationError (SortedMap String Ty)
  | [] => .ok declared
  | (name, t) :: rest =>
    match declareField declared name t with
    | .error e => .error e
    | .ok declared => declareFields declared rest

/-- The record type with the given fields. -/
def declareRecord (fields : List (String × Ty)) : Except DeclarationError Ty :=
  match declareFields ∅ fields with
  | .error e => .error e
  | .ok declared => .ok (record ⟨none, ""⟩ [] declared.entries)

/-- The record type with the given name and fields. -/
def declareNamedRecord (name url : String) (supers : List Ty)
    (fields : List (String × Ty)) :
    Except DeclarationError Ty :=
  if name.isEmpty then .error .emptyName
  else
    match declareFields ∅ fields with
    | .error e => .error e
    | .ok declared => .ok (record ⟨some name, url⟩ supers declared.entries)

/-- The type of the given values and of all that print like them in the heap of the
declaration. -/
def declareEnumeration (h : Heap) (name url : String) (members : List Value) :
    Except DeclarationError Ty :=
  if name.isEmpty then .error .emptyName
  else if members.isEmpty then .error (.emptyEnumeration name)
  else .ok (enumeration ⟨name, url, members, .ofList (members.map fun v => (h.print v, ()))⟩)

/-- The function type with the given parameters and, last, the given result. -/
def declareFunction : List Ty → Except DeclarationError Ty
  | [] => .error .emptyFunction
  | [noArguments, result] => .ok (function [result])
  | types => .ok (function types)

/-- The objects with the given tag. -/
def foreign (tag : String) : Ty :=
  con ⟨tag, "", fun h v => v.tag? h == some tag, []⟩ [] []

end Ty

end DynamicTypes
