import DynamicTypes.Calendar
import DynamicTypes.Number.Style
import DynamicTypes.Text.Quoted
import DynamicTypes.Value.Basic

/-!
# How values print

`Heap.print` gives the text that stands for a value in every report. A container
met again while it is being printed prints as a mark, so a cyclic value has a
finite text; a container met twice side by side is printed twice.

An object with a hook is printed by its hook, which prints one field from the
start, with no container open. Each container opened on the way costs one of
`depth`. No container is opened inside itself, and no hook is used inside itself
unless it leads back to its own object, so the depth `Heap.print` starts from, the
square of what one printing without hooks can take, is never used up otherwise.
-/

namespace DynamicTypes

namespace Value

/-- Numbers are written in full up to twenty-one digits before the point and six places
behind it. -/
def numberStyle : NumberStyle where
  scientificFrom := 21
  scientificBelow := -6
  mark := "e"
  plus := "+"
  minus := "-"
  infinity := "Infinity"
  nan := "NaN"

def numberText (x : Float) : String := numberStyle.write (.ofFloat x)

/-- The last instant a timestamp can denote, a hundred million days from the start of
1970. -/
def maxTimestamp : Nat := 8640000000000000

/-- Whether a timestamp denotes an instant. -/
def isInstant (ms : Float) : Bool := (Binary64.ofFloat ms).magnitudeLe maxTimestamp

/-- The instant of a timestamp, a fraction of a millisecond dropped. -/
def instantText? (ms : Float) : Option String :=
  if isInstant ms then
    (Binary64.ofFloat ms).truncate?.map fun whole => (Civil.ofMilliseconds whole).text
  else none

def dateText (ms : Float) : String :=
  match instantText? ms with
  | some iso => "new Date (" ++ Text.quoted iso ++ ")"
  | none => "new Date (NaN)"

/-- What a container prints as while it is open. -/
def circularMark : String := "<Circular>"

end Value

def FunctionInfo.text (f : FunctionInfo) : String :=
  match f.display with
  | some display => display
  | none => if f.name.isEmpty then "[Function]" else "[Function " ++ f.name ++ "]"

namespace Heap

/-- The text of a value inside the containers `path`, with `depth` more to open. -/
def printWithin (h : Heap) : Nat → List Ref → Value → String
  | _, _, .undefined => "undefined"
  | _, _, .null => "null"
  | _, _, .bool b => if b then "true" else "false"
  | _, _, .number x => Value.numberText x
  | _, _, .string s => Text.quoted s
  | _, _, .date ms => Value.dateText ms
  | _, _, .regExp source flags => "/" ++ source ++ "/" ++ flags
  | _, _, .error message => "new Error (" ++ Text.quoted message ++ ")"
  | _, _, .placeholder => "__"
  | _, _, .function _ info => info.text
  | 0, _, _ => Value.circularMark
  | depth + 1, path, .array a =>
    if path.contains (.array a) then Value.circularMark
    else
      let parts := (h.items a).map (h.printWithin depth (.array a :: path))
      "[" ++ ", ".intercalate parts ++ "]"
  | depth + 1, path, .object o =>
    let object := h.object o
    match object.hook with
    | some hook =>
      let shown := (object.fields.find? hook.field).getD .undefined
      hook.label ++ " (" ++ h.printWithin depth [] shown ++ ")"
    | none =>
      if path.contains (.object o) then Value.circularMark
      else
        let parts := object.fields.entries.map fun (key, v) =>
          Text.quoted key ++ ": " ++ h.printWithin depth (.object o :: path) v
        "\x7b" ++ ", ".intercalate parts ++ "\x7d"

/-- The text of a value. -/
def print (h : Heap) (v : Value) : String :=
  h.printWithin ((h.containers + 1) * (h.containers + 1)) [] v

/-- Values with the same text are equal. -/
def equal (h : Heap) (a b : Value) : Bool := h.print a == h.print b

end Heap

end DynamicTypes
