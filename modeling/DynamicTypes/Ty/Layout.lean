import DynamicTypes.Ty.Basic

/-!
# The text of a type, and where its parts stand

A report points into the text of a type, so the text comes with the columns of
every component. Layouts are put together from smaller ones: setting one behind
another shifts the columns of the second, setting one under a key makes its paths
longer, and `marked` records the columns of the whole. Parentheses are set around
a layout after it is marked, so no component's columns ever include them.
-/

namespace DynamicTypes

/-- Columns, the last one excluded. -/
structure Span where
  start : Nat
  stop : Nat
  deriving Repr, DecidableEq

def Span.shift (n : Nat) (s : Span) : Span := ⟨s.start + n, s.stop + n⟩

/-- A text and the columns of the components in it, each after its own components. -/
structure Layout where
  text : String
  spans : List (List String × Span)
  deriving Repr, DecidableEq

namespace Layout

def width (l : Layout) : Nat := l.text.length

/-- A text without components. -/
def plain (text : String) : Layout := ⟨text, []⟩

/-- One layout right behind another. -/
def append (a b : Layout) : Layout :=
  ⟨a.text ++ b.text, a.spans ++ b.spans.map fun (path, span) => (path, span.shift a.width)⟩

instance : Append Layout := ⟨append⟩

/-- The layout as that of the component under `key`. -/
def under (key : String) (l : Layout) : Layout :=
  ⟨l.text, l.spans.map fun (path, span) => (key :: path, span)⟩

/-- Records the columns of the whole. -/
def marked (l : Layout) : Layout := ⟨l.text, l.spans ++ [([], ⟨0, l.width⟩)]⟩

/-- In parentheses, if asked for. -/
def wrapped (wrap : Bool) (l : Layout) : Layout :=
  if wrap then plain "(" ++ l ++ plain ")" else l

/-- The columns of the component at a path, or else of the innermost component on the
way to it. -/
def span? (l : Layout) (path : List String) : Option Span :=
  (List.range (path.length + 1)).reverse.findSome? fun n =>
    (l.spans.find? fun entry => entry.1 == path.take n).map (·.2)

end Layout

namespace Ty

/-- Whether the type stands in parentheses as a parameter. -/
def isCompound : Ty → Bool
  | con _ _ params => !params.isEmpty
  | var _ params => !params.isEmpty
  | function _ => true
  | _ => false

mutual

/-- The layout of a type, its own columns not yet recorded. -/
def inner : Ty → Layout
  | unknown => .plain "???"
  | inconsistent => .plain "???"
  | noArguments => .plain "()"
  | any => .plain "Any"
  | con c _ params => .plain c.name ++ innerParams 1 params
  | enumeration e => .plain e.name
  | record r _ fields =>
    match r.name with
    | some name => .plain name
    | none =>
      if fields.isEmpty then .plain "\x7b\x7d"
      else .plain "\x7b " ++ innerFields fields ++ .plain " \x7d"
  | function types =>
    if types.length ≤ 1 then .plain "() -> " ++ innerTypes 1 types else innerTypes 1 types
  | var name params => .plain name ++ innerParams 1 params

/-- Parameters, each behind a blank. -/
def innerParams (n : Nat) : List Ty → Layout
  | [] => .plain ""
  | t :: ts =>
    .plain " " ++ ((inner t).marked.wrapped t.isCompound).under (paramKey n)
      ++ innerParams (n + 1) ts

/-- Fields with their names, between commas. -/
def innerFields : List (String × Ty) → Layout
  | [] => .plain ""
  | (key, t) :: rest =>
    .plain (key ++ " :: ") ++ (inner t).marked.under key
      ++ (if rest.isEmpty then .plain "" else .plain ", ") ++ innerFields rest

/-- The types of a function, between arrows; a result that is not declared shows as
nothing. -/
def innerTypes (n : Nat) : List Ty → Layout
  | [] => (Layout.plain "()").marked.under (paramKey n)
  | t :: ts =>
    let first := ((inner t).marked.wrapped t.isFunction).under (paramKey n)
    if ts.isEmpty then first else first ++ .plain " -> " ++ innerTypes (n + 1) ts

end

/-- The layout of a type, in parentheses if asked for. -/
def layout (t : Ty) (wrap : Bool) : Layout := t.inner.marked.wrapped wrap

/-- The text of a type. -/
def format (t : Ty) : String := t.inner.text

end Ty

end DynamicTypes
