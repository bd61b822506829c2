import DynamicTypes.Ty.Declaration

/-!
# Signatures

A signature names a function, says which type classes its variables need, and
declares the types of its parameters and of its result. Positions are counted over
the parameters, with the result last.

The text of a signature comes with the columns of its positions and of each
requirement in front of them, so a report can point into it.
-/

namespace DynamicTypes

/-- The largest number of parameters that a signature can declare. -/
def maxArity : Nat := 9

/-- What a function is declared to take and to give. -/
structure Signature where
  name : String
  constraints : Constraints
  params : List Ty
  result : Ty
  arity_le : params.length ≤ maxArity

namespace Signature

def arity (s : Signature) : Nat := s.params.length

/-- The types at all positions. -/
def types (s : Signature) : List Ty := s.params ++ [s.result]

/-- The signature with the given types, of which the last is that of the result. -/
def declare (name : String) (constraints : Constraints) (types : List Ty) :
    Except Diagnostic Signature :=
  match types.getLast? with
  | none => .error DeclarationError.emptyFunction.diagnostic
  | some result =>
    if h : types.dropLast.length ≤ maxArity then
      .ok ⟨name, constraints, types.dropLast, result, h⟩
    else
      .error <| .error .range <|
        "‘" ++ name ++ "’ cannot define a function with arity greater than nine\n"

/-- The type at a position. -/
def typeAt? (s : Signature) (locus : Locus) : Option Ty :=
  locus.path.foldl (fun t? key => t?.bind fun t => (t.children.find? (·.1 == key)).map (·.2))
    s.types[locus.index]?

/-! ## Layout -/

/-- Variables and the short names of the classes required of them, in the order of the
text. -/
def requirements (s : Signature) : List (String × String) :=
  s.constraints.entries.flatMap fun (name, classes) => classes.map fun c => (name, c.shortName)

/-- The text of one requirement. -/
def requirementText (requirement : String × String) : String :=
  requirement.2 ++ " " ++ requirement.1

/-- Everything before the types. -/
def head (s : Signature) : String :=
  let listed := ", ".intercalate (s.requirements.map requirementText)
  let required :=
    match s.requirements.length with
    | 0 => ""
    | 1 => listed ++ " => "
    | _ => "(" ++ listed ++ ") => "
  s.name ++ " :: " ++ required ++ (if s.arity = 0 then "() -> " else "")

/-- The layout of the type at a position. -/
def typeLayout (t : Ty) : Layout := t.layout t.isFunction

/-- The text of a signature. -/
def format (s : Signature) : String :=
  s.head ++ " -> ".intercalate (s.types.map fun t => (typeLayout t).text)

/-- Layouts and the columns where they start, the first one at `column`, with arrows
between them. -/
def place (column : Nat) : List Ty → List (Nat × Layout)
  | [] => []
  | t :: ts =>
    let layout := typeLayout t
    (column, layout) :: place (column + layout.width + " -> ".length) ts

/-- The columns of a position, or of the innermost displayed type around it. -/
def span? (s : Signature) (locus : Locus) : Option Span :=
  match (place s.head.length s.types)[locus.index]? with
  | none => none
  | some (column, layout) => (layout.span? locus.path).map (·.shift column)

/-- Requirements and their columns, the first one at `column`, with commas between
them. -/
def placeRequirements (column : Nat) :
    List (String × String) → List ((String × String) × Span)
  | [] => []
  | requirement :: rest =>
    let stop := column + (requirementText requirement).length
    (requirement, ⟨column, stop⟩) :: placeRequirements (stop + ", ".length) rest

/-- The columns of the first requirement of a class on a variable. -/
def requirementSpan? (s : Signature) (name shortName : String) : Option Span :=
  let opening := if 1 < s.requirements.length then "(" else ""
  let placed := placeRequirements (s.name ++ " :: " ++ opening).length s.requirements
  (placed.find? (·.1 == (name, shortName))).map (·.2)

end Signature

end DynamicTypes
