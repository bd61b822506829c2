import DynamicTypes.Ty.Basic

/-!
# What two types say together

An unknown parameter leaves room for anything, so what is known of one type can
fill what is unknown in another: `Array ???` and `Array String` together say
`Array String`. Types that say different things have nothing in common.
-/

namespace DynamicTypes.Ty

def isUnknown : Ty → Bool
  | unknown => true
  | _ => false

mutual

/-- The type that says what two types say, if they agree. -/
def merge? : Ty → Ty → Option Ty
  | unknown, u => some u
  | t, unknown => some t
  | con c supers ps, con d _ qs =>
    if c.name == d.name then (mergeAll? ps qs).map (con c supers) else none
  | var a ps, var b qs => if a == b then (mergeAll? ps qs).map (var a) else none
  | t, u => if t == u then some t else none

def mergeAll? : List Ty → List Ty → Option (List Ty)
  | [], [] => some []
  | t :: ts, u :: us =>
    match merge? t u, mergeAll? ts us with
    | some m, some ms => some (m :: ms)
    | _, _ => none
  | _, _ => none

end

/-- A list of types with one more at the end, unless it is there already. -/
def addUnique (types : List Ty) (t : Ty) : List Ty :=
  if types.contains t then types else types ++ [t]

/-- The list without repetitions, in the order of first occurrences. -/
def unique (types : List Ty) : List Ty := types.foldl addUnique []

/-- What each type of one list and each of another say together. -/
def intersect (ts us : List Ty) : List Ty :=
  unique (ts.flatMap fun t => us.filterMap (t.merge? ·))

/-- All ways to choose one type from each list, those of the first list varying
slowest. -/
def choices : List (List Ty) → List (List Ty)
  | [] => [[]]
  | options :: rest => options.flatMap fun t => (choices rest).map (t :: ·)

end DynamicTypes.Ty
