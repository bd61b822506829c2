import DynamicTypes.Classification
import DynamicTypes.Failure
import DynamicTypes.Signature

/-!
# Reports

A failure is put into words by a report: a title, the signature with carets under
every implicated position and a number below each, one numbered block per position
that lists the values seen there with their types, an explanation, and possibly a
page to read on.
-/

namespace DynamicTypes

/-- A marked stretch of the signature, and the label below it if it has one. -/
structure Mark where
  span : Span
  label : Option String
  deriving Repr, DecidableEq

/-- The parts of a report. -/
structure Report where
  title : String
  marks : List Mark
  blocks : List String
  explanation : String
  /-- A page and what it is about. -/
  reading : Option (String × String)

namespace Report

/-! ## Marking the signature -/

/-- A line with a character put at a column, filled up with blanks if it is too
short. -/
def put (line : List Char) (column : Nat) (c : Char) : List Char :=
  if column < line.length then line.set column c
  else line ++ List.replicate (column - line.length) ' ' ++ [c]

/-- A line with a text put at a column. -/
def putText (line : List Char) (column : Nat) : List Char → List Char
  | [] => line
  | c :: cs => putText (put line column c) (column + 1) cs

/-- Carets under a mark. -/
def putCarets (line : List Char) (mark : Mark) : List Char :=
  putText line mark.span.start (List.replicate (mark.span.stop - mark.span.start) '^')

/-- The label of a mark, centred below it. -/
def putLabel (line : List Char) (mark : Mark) : List Char :=
  match mark.label with
  | none => line
  | some label =>
    let spare := mark.span.stop - mark.span.start - label.length
    putText line (mark.span.start + spare / 2) label.toList

/-- The signature with a line of carets and a line of labels, as far as there are
any. -/
def annotate (text : String) (marks : List Mark) : String :=
  if marks.isEmpty then text
  else
    let carets := marks.foldl putCarets []
    let labels := marks.foldl putLabel []
    let below := if labels.isEmpty then "" else "\n" ++ String.ofList labels
    text ++ "\n" ++ String.ofList carets ++ below

/-- A mark for each position that is displayed, numbered from one. -/
def marksAt (signature : Signature) (loci : List Locus) : List Mark :=
  (loci.filterMap signature.span?).zipIdx.map fun (span, i) => ⟨span, some (toString (i + 1))⟩

/-! ## Describing values -/

/-- A value and its types. -/
def describe (h : Heap) (env : List Ty) (v : Value) : String :=
  let types := Classification.loose h env [v]
  let listed := if types.isEmpty then "(no types)" else ", ".intercalate (types.map Ty.format)
  h.print v ++ " :: " ++ listed

/-- The numbered block of the values seen at a position. -/
def block (h : Heap) (env : List Ty) (number : Nat) (values : List Value) : String :=
  toString number ++ ")  " ++ "\n    ".intercalate (values.map (describe h env))

/-- One block for each list of values, numbered from one. -/
def blocksOf (h : Heap) (env : List Ty) (seen : List (List Value)) : List String :=
  seen.zipIdx.map fun (values, i) => block h env (i + 1) values

/-- Numbers below ten as words. -/
def numberWords : List String :=
  ["zero", "one", "two", "three", "four", "five", "six", "seven", "eight", "nine"]

/-- A number of arguments, in words. -/
def countArguments (n : Nat) : String :=
  (numberWords[n]?.getD (toString n)) ++ " argument" ++ (if n = 1 then "" else "s")

/-- How many arguments were expected, and the ones that came. -/
def argumentsReceived (h : Heap) (expected : Nat) (args : List Value) : String :=
  "Expected " ++ countArguments expected ++ " but received " ++ countArguments args.length
    ++ (if args.isEmpty then "."
        else ":\n" ++ String.join (args.map fun arg => "\n  - " ++ h.print arg))

/-! ## Putting it together -/

/-- The lines of a text, each without the blanks at its end and with a line feed behind
it. -/
def tidy (text : String) : String :=
  String.ofList ((Text.lines text.toList).flatMap fun line => Text.trimEnd line ++ ['\n'])

/-- The sections of a report, with empty lines between them. -/
def text (r : Report) (signature : Signature) : String :=
  let reading := r.reading.map fun (url, subject) =>
    "See " ++ url ++ " for information about " ++ subject ++ "."
  let sections :=
    [r.title, annotate signature.format r.marks] ++ r.blocks ++ [r.explanation] ++ reading.toList
  tidy ("\n\n".intercalate sections)

end Report

namespace Failure

open Report

/-- What to read about a type. -/
def readingOn (t : Ty) : Option (String × String) :=
  t.url?.map fun url =>
    let kind := if 0 < t.arity then "type constructor" else "type"
    (url, "the " ++ t.name?.getD t.format ++ " " ++ kind)

/-- Why a value has no type. -/
def unrecognizedText (env : List Ty) : String :=
  if env.isEmpty then
    "The environment is empty! Polymorphic functions require a non-empty environment."
  else
    "The value at position 1 is not a member of any type in the environment.\n\n"
      ++ "The environment contains the following types:\n\n"
      ++ "\n".intercalate (env.map fun t => "  - " ++ t.format)

/-- The parts of the report on a failure. -/
def report (h : Heap) (signature : Signature) (env : List Ty) : Failure → Report
  | .invalidValue locus v t =>
    { title := "Invalid value"
      marks := marksAt signature [locus]
      blocks := blocksOf h env [[v]]
      explanation := "The value at position 1 is not a member of ‘" ++ t.format ++ "’."
      reading := readingOn t }
  | .typeVariableViolation _ observations =>
    { title := "Type-variable constraint violation"
      marks := marksAt signature (observations.map (·.1))
      blocks := blocksOf h env (observations.map (·.2))
      explanation := "Since there is no type of which all the above values are members, "
        ++ "the type-variable constraint has been violated."
      reading := none }
  | .typeClassViolation name required locus v =>
    let requirement := (signature.requirementSpan? name required.shortName).toList
    { title := "Type-class constraint violation"
      marks := requirement.map (⟨·, none⟩) ++ marksAt signature [locus]
      blocks := blocksOf h env [[v]]
      explanation := "‘" ++ signature.name ++ "’ requires ‘" ++ name ++ "’ to satisfy the "
        ++ required.shortName ++ " type-class constraint; the value at position 1 does not."
      reading := required.url?.map fun url =>
        (url, "the " ++ required.shortName ++ " type class") }
  | .unrecognizedValue locus v =>
    { title := "Unrecognized value"
      marks := marksAt signature [locus]
      blocks := blocksOf h env [[v]]
      explanation := unrecognizedText env
      reading := none }
  | .callbackArity locus expected args =>
    let callback := ((signature.typeAt? locus).map Ty.format).getD ""
    { title := "‘" ++ signature.name ++ "’ applied ‘" ++ callback
        ++ "’ to the wrong number of arguments"
      marks := marksAt signature [locus]
      blocks := []
      explanation := argumentsReceived h expected args
      reading := none }
  | .argumentCount expected args =>
    { title := "‘" ++ signature.name ++ "’ applied to the wrong number of arguments"
      marks := []
      blocks := []
      explanation := argumentsReceived h expected args
      reading := none }

/-- The diagnostic for a failure of a check against a signature. -/
def diagnostic (h : Heap) (signature : Signature) (env : List Ty) (f : Failure) :
    Diagnostic :=
  let report := f.report h signature env
  { category := f.category
    message := report.text signature
    positions := f.loci
    help := report.reading.map (·.1) }

end Failure

end DynamicTypes
