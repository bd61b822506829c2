import DynamicTypes.SortedMap

/-!
# Dynamic values and the heap they live in

Arrays, objects and functions have an identity: two values may hold the very same
array, and what is pushed through one is seen through the other. So a value holds
the number of an array or object, and a `Heap` says what is in it at one moment.
Cycles need nothing special: an array is on its own list of items when its number
is.

Functions never change, so all that can be seen of a function without calling it
stands in the value. That keeps functions out of the heap: making a new one leaves
the heap as it was, and nothing that looks at values can tell the difference.
-/

namespace DynamicTypes

/-- The identity of an array, an object or a function. -/
inductive Ref where
  | array (index : Nat)
  | object (index : Nat)
  | function (index : Nat)
  deriving Repr, DecidableEq

/-- What can be seen of a function without calling it. -/
structure FunctionInfo where
  name : String
  arity : Nat
  display : Option String
  deriving Repr, DecidableEq

/-- A dynamic value. -/
inductive Value where
  | undefined
  | null
  | bool (b : Bool)
  | number (x : Float)
  | string (s : String)
  /-- A timestamp in milliseconds, which need not denote an instant. -/
  | date (ms : Float)
  | regExp (source flags : String)
  | error (message : String)
  | array (index : Nat)
  | object (index : Nat)
  | function (index : Nat) (info : FunctionInfo)
  /-- Stands for an argument to be supplied later. -/
  | placeholder
  deriving DecidableEq

namespace Value

instance : Inhabited Value := ⟨undefined⟩

def identity? : Value → Option Ref
  | array a => some (.array a)
  | object o => some (.object o)
  | function f _ => some (.function f)
  | _ => none

def isPlaceholder : Value → Bool
  | placeholder => true
  | _ => false

def isNil : Value → Bool
  | null | undefined => true
  | _ => false

def isFunction : Value → Bool
  | function .. => true
  | _ => false

def function? : Value → Option FunctionInfo
  | function _ info => some info
  | _ => none

end Value

/-- How an object that prints in a form of its own prints: the label, then one field in
parentheses. -/
structure Hook where
  label : String
  field : String
  deriving Repr, DecidableEq

/-- An object: fields in key order, and possibly a tag that names the kind of thing it
is. -/
structure Obj where
  tag : Option String
  hook : Option Hook
  fields : SortedMap String Value

/-- What is in the arrays and objects. -/
structure Heap where
  arrays : Array (List Value)
  objects : Array Obj

namespace Heap

def empty : Heap := ⟨#[], #[]⟩

instance : Inhabited Heap := ⟨empty⟩

/-- The items of an array. -/
def items (h : Heap) (a : Nat) : List Value := h.arrays[a]?.getD []

/-- An object; one that the heap does not know has no tag and no fields. -/
def object (h : Heap) (o : Nat) : Obj := h.objects[o]?.getD ⟨none, none, ∅⟩

def newArray (h : Heap) (items : List Value) : Value × Heap :=
  (.array h.arrays.size, { h with arrays := h.arrays.push items })

def newObject (h : Heap) (o : Obj) : Value × Heap :=
  (.object h.objects.size, { h with objects := h.objects.push o })

/-- Appends to an array. -/
def push (h : Heap) (a : Nat) (v : Value) : Heap :=
  { h with arrays := h.arrays.setIfInBounds a (h.items a ++ [v]) }

/-- Sets a field of an object. -/
def setField (h : Heap) (o : Nat) (key : String) (v : Value) : Heap :=
  let object := h.object o
  { h with
    objects := h.objects.setIfInBounds o { object with fields := object.fields.insert key v } }

/-- The number of arrays and objects. -/
def containers (h : Heap) : Nat := h.arrays.size + h.objects.size

/-- Every value that an array or an object holds. -/
def stored (h : Heap) : List Value :=
  h.arrays.toList.flatten ++ h.objects.toList.flatMap (·.fields.values)

/-- A bound on the number of identities in the heap: its arrays and objects, and the
functions that they hold. -/
def size (h : Heap) : Nat := h.containers + h.stored.countP Value.isFunction

end Heap

namespace Value

/-- The items of an array, nothing for any other value. -/
def items? (h : Heap) : Value → Option (List Value)
  | array a => some (h.items a)
  | _ => none

/-- The object behind a value. -/
def object? (h : Heap) : Value → Option Obj
  | object o => some (h.object o)
  | _ => none

/-- The tag of a tagged object. -/
def tag? (h : Heap) (v : Value) : Option String := (v.object? h).bind (·.tag)

/-- The name of the kind of value; a tagged object is of the kind its tag names. -/
def kind (h : Heap) : Value → String
  | undefined => "Undefined"
  | null => "Null"
  | bool _ => "Boolean"
  | number _ => "Number"
  | string _ => "String"
  | date _ => "Date"
  | regExp .. => "RegExp"
  | error _ => "Error"
  | array _ => "Array"
  | object o => (h.object o).tag.getD "Object"
  | function .. => "Function"
  | placeholder => "Placeholder"

/-- A field, if the value is an object that has it. -/
def field? (h : Heap) (v : Value) (name : String) : Option Value :=
  (v.object? h).bind (·.fields.find? name)

/-- A field, or undefined. -/
def field (h : Heap) (v : Value) (name : String) : Value :=
  (v.field? h name).getD undefined

end Value

end DynamicTypes
