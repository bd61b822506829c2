import DynamicTypes.Locus
import DynamicTypes.Text.Blank

/-!
# Diagnostics

Every failure surfaces as one diagnostic: what kind of failure it is, the
positions of the signature that it implicates, and the whole report as text.
-/

namespace DynamicTypes

/-- The kinds of failure. -/
inductive Category where
  | construction
  | invalidValue
  | typeVariableViolation
  | typeClassViolation
  | unrecognizedValue
  | arityViolation
  | range
  deriving Repr, DecidableEq

namespace Category

def all : List Category :=
  [construction, invalidValue, typeVariableViolation, typeClassViolation, unrecognizedValue,
    arityViolation, range]

def name : Category → String
  | construction => "construction"
  | invalidValue => "invalid_value"
  | typeVariableViolation => "type_variable_violation"
  | typeClassViolation => "type_class_violation"
  | unrecognizedValue => "unrecognized_value"
  | arityViolation => "arity_violation"
  | range => "range"

def ofName? (name : String) : Option Category := all.find? (·.name == name)

def description : Category → String
  | construction => "A type or signature declaration is malformed."
  | invalidValue => "A value is not a member of the type declared at its position."
  | typeVariableViolation => "Values observed for one type variable have no type in common."
  | typeClassViolation => "A value does not satisfy a type-class constraint on its type variable."
  | unrecognizedValue => "A value is not a member of any type in the environment."
  | arityViolation => "A function was applied to the wrong number of arguments."
  | range => "A signature declares too many parameters."

/-- Whether the failure lies in a declaration and not in a call. -/
def isDeclarationTime : Category → Bool
  | construction | range => true
  | _ => false

end Category

/-- A failure, as it is reported. -/
structure Diagnostic where
  category : Category
  message : String
  positions : List Locus
  /-- A page that helps. -/
  help : Option String
  deriving Repr, DecidableEq

namespace Diagnostic

/-- A diagnostic that implicates no position. -/
def error (category : Category) (message : String) : Diagnostic :=
  ⟨category, message, [], none⟩

/-- Implicates more positions. -/
def withPositions (d : Diagnostic) (positions : List Locus) : Diagnostic :=
  { d with positions := d.positions ++ positions }

def withHelp (d : Diagnostic) (help : String) : Diagnostic :=
  { d with help := some help }

/-- The first line of the message. -/
def title (d : Diagnostic) : String :=
  String.ofList ((Text.lines d.message.toList).headD [])

end Diagnostic

end DynamicTypes
