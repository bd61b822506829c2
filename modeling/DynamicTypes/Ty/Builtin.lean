import DynamicTypes.Ty.Basic
import DynamicTypes.Value.Printer

/-!
# The types every environment can use

One type for each kind of value, arrays of a fixed length, and a hierarchy of
refinements of numbers. A refinement states only what it adds to its supertypes:
a positive integer is an integer that is greater than zero.
-/

namespace DynamicTypes.Builtin

/-- The page of a builtin type. -/
def page (item : String) : String :=
  "https://docs.rs/tydef-types/latest/tydef_types/builtins/fn." ++ item ++ ".html"

/-- A type without parameters. -/
def nullary (name item : String) (supers : List Ty) (test : Test) : Ty :=
  .con ⟨name, page item, test, []⟩ supers []

/-- The items of an array, nothing for other values. -/
def items (h : Heap) (v : Value) : List Value := (v.items? h).getD []

/-- The item with index `i`, if there is one. -/
def item (i : Nat) (h : Heap) (v : Value) : List Value := (items h v)[i]?.toList

/-- The field values of an object in key order, nothing for other values. -/
def fieldValues (h : Heap) (v : Value) : List Value :=
  ((v.object? h).map (·.fields.values)).getD []

def isArray (h : Heap) (v : Value) : Bool := (v.items? h).isSome

/-- Whether the value is an array of `n` items. -/
def isArrayOf (n : Nat) (h : Heap) (v : Value) : Bool :=
  (v.items? h).any (·.length == n)

/-- Whether the value is a number that passes the predicate. -/
def isNumber (test : Float → Bool) (_ : Heap) : Value → Bool
  | .number x => test x
  | _ => false

/-- The largest integer below which no integer shares its double with another. -/
def maxInteger : Nat := 9007199254740991

/-! ## Kinds of values -/

def anyFunction : Ty := nullary "Function" "any_function" [] fun _ v => v.isFunction

def array (t : Ty) : Ty := .con ⟨"Array", page "array", isArray, [items]⟩ [] [t]

def array0 : Ty := nullary "Array0" "array0" [array .unknown] (isArrayOf 0)

def array1 (t : Ty) : Ty :=
  .con ⟨"Array1", page "array1", isArrayOf 1, [items]⟩ [array .unknown] [t]

def array2 (t u : Ty) : Ty :=
  .con ⟨"Array2", page "array2", isArrayOf 2, [item 0, item 1]⟩ [array .unknown] [t, u]

def boolean : Ty := nullary "Boolean" "boolean" [] fun
  | _, .bool _ => true
  | _, _ => false

def date : Ty := nullary "Date" "date" [] fun
  | _, .date _ => true
  | _, _ => false

def validDate : Ty := nullary "ValidDate" "valid_date" [date] fun
  | _, .date ms => Value.isInstant ms
  | _, _ => false

def error : Ty := nullary "Error" "error" [] fun
  | _, .error _ => true
  | _, _ => false

def null : Ty := nullary "Null" "null" [] fun
  | _, .null => true
  | _, _ => false

def undefined : Ty := nullary "Undefined" "undefined" [] fun
  | _, .undefined => true
  | _, _ => false

def regExp : Ty := nullary "RegExp" "reg_exp" [] fun
  | _, .regExp .. => true
  | _, _ => false

def string : Ty := nullary "String" "string" [] fun
  | _, .string _ => true
  | _, _ => false

/-- The objects without a tag. -/
def object : Ty := nullary "Object" "object" [] fun h v => (v.object? h).any (·.tag.isNone)

/-- The objects without a tag, by the type of their fields. -/
def strMap (t : Ty) : Ty :=
  .con ⟨"StrMap", page "str_map", fun _ _ => true, [fieldValues]⟩ [object] [t]

/-- Null, and the members of the given type. -/
def nullable (t : Ty) : Ty :=
  let held : Extractor := fun
    | _, .null => []
    | _, v => [v]
  .con ⟨"Nullable", page "nullable", fun _ _ => true, [held]⟩ [] [t]

/-! ## Numbers -/

def number : Ty := nullary "Number" "number" [] (isNumber fun _ => true)

def validNumber : Ty :=
  nullary "ValidNumber" "valid_number" [number] (isNumber fun x => !(Binary64.ofFloat x).isNaN)

def finiteNumber : Ty :=
  nullary "FiniteNumber" "finite_number" [validNumber]
    (isNumber fun x => (Binary64.ofFloat x).isFinite)

def positiveNumber : Ty :=
  nullary "PositiveNumber" "positive_number" [number] (isNumber fun x => 0 < x)

def negativeNumber : Ty :=
  nullary "NegativeNumber" "negative_number" [number] (isNumber fun x => x < 0)

def nonZeroFiniteNumber : Ty :=
  nullary "NonZeroFiniteNumber" "non_zero_finite_number" [finiteNumber] (isNumber fun x => x != 0)

def integer : Ty :=
  nullary "Integer" "integer" [validNumber] <| isNumber fun x =>
    let exact := Binary64.ofFloat x
    exact.integer?.isSome && exact.magnitudeLe maxInteger

def nonNegativeInteger : Ty :=
  nullary "NonNegativeInteger" "non_negative_integer" [integer] (isNumber fun x => 0 ≤ x)

def positiveInteger : Ty :=
  nullary "PositiveInteger" "positive_integer" [integer] (isNumber fun x => 0 < x)

def nonZeroInteger : Ty :=
  nullary "NonZeroInteger" "non_zero_integer" [integer] (isNumber fun x => x != 0)

/-! ## Sets of types -/

/-- The types that values are classified by unless others are given. -/
def environment : List Ty :=
  [anyFunction, array .unknown, boolean, date, error, null, number, object, regExp,
    strMap .unknown, string, undefined]

/-- The types without parameters that have a name of their own. -/
def nullaries : List Ty :=
  [anyFunction, array0, boolean, date, validDate, error, null, undefined, number, validNumber,
    finiteNumber, positiveNumber, negativeNumber, nonZeroFiniteNumber, integer, nonNegativeInteger,
    positiveInteger, nonZeroInteger, object, regExp, string]

end DynamicTypes.Builtin
