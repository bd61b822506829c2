import DynamicTypes.Value.Basic

/-!
# Types of dynamic values

A type is a descriptor: it has a name to be shown under, possibly a page that
documents it, supertypes whose values it is a part of, a predicate that says what
it adds to them, and the types of what its values hold.

What a value holds is told by *extractors*, one for each parameter. Predicates and
extractors are arbitrary functions of the heap, so they cannot be compared; two
types are the same when their names and their components are, which is `Ty.beq`.
-/

namespace DynamicTypes

/-- A predicate on values. -/
abbrev Test := Heap → Value → Bool

/-- The values held by a value at one parameter of its type. -/
abbrev Extractor := Heap → Value → List Value

/-- What distinguishes a type constructor, its supertypes and parameters apart. -/
structure Constructor where
  name : String
  /-- The page that documents it, empty if there is none. -/
  url : String
  test : Test
  /-- One for each parameter. -/
  extractors : List Extractor

/-- The values held at the parameter with index `i`. -/
def Constructor.held (c : Constructor) (i : Nat) : Extractor :=
  c.extractors[i]?.getD fun _ _ => []

/-- A type given by its members. -/
structure Enumeration where
  name : String
  url : String
  members : List Value
  /-- The texts of the members at the time of the declaration. -/
  texts : SortedMap String Unit

/-- The name of a record type, if it has one, and its page. -/
structure RecordName where
  name : Option String
  url : String
  deriving DecidableEq

/-- A type. -/
inductive Ty where
  /-- The type of nothing in particular, printed `???`: every value is a member. -/
  | unknown
  /-- The type of values that have no type in common: no value is a member. -/
  | inconsistent
  /-- Stands where a function takes nothing. -/
  | noArguments
  | any
  /-- A constructor applied to as many parameters as it has extractors. -/
  | con (c : Constructor) (supers params : List Ty)
  | enumeration (e : Enumeration)
  /-- An object with certain fields, and possibly others; the fields are sorted. -/
  | record (r : RecordName) (supers : List Ty) (fields : List (String × Ty))
  /-- The types of the parameters, then the type of the result. -/
  | function (types : List Ty)
  /-- A type variable, applied to parameters if it stands for a constructor. -/
  | var (name : String) (params : List Ty)

namespace Ty

instance : Inhabited Ty := ⟨unknown⟩

/-- The key of the `n`-th parameter, counted from one. -/
def paramKey (n : Nat) : String := "$" ++ toString n

/-- Types with their keys `$1`, `$2`, …, the first one with number `n`. -/
def keyed (n : Nat) : List Ty → List (String × Ty)
  | [] => []
  | t :: ts => (paramKey n, t) :: keyed (n + 1) ts

/-! ## Looking at a type -/

def name? : Ty → Option String
  | con c _ _ => some c.name
  | enumeration e => some e.name
  | record r _ _ => r.name
  | var name _ => some name
  | any => some "Any"
  | unknown | inconsistent | noArguments | function _ => none

/-- The page that documents the type. -/
def url? (t : Ty) : Option String :=
  let url := match t with
    | con c _ _ => c.url
    | enumeration e => e.url
    | record r _ _ => r.url
    | _ => ""
  if url.isEmpty then none else some url

def isVariable : Ty → Bool
  | var .. => true
  | _ => false

def isFunction : Ty → Bool
  | function _ => true
  | _ => false

def supertypes : Ty → List Ty
  | con _ supers _ => supers
  | record _ supers _ => supers
  | _ => []

/-- The parameters of an applied constructor or variable. -/
def params : Ty → List Ty
  | con _ _ params => params
  | var _ params => params
  | _ => []

def arity (t : Ty) : Nat := t.params.length

/-- The component types, each under the key that leads to it. -/
def children : Ty → List (String × Ty)
  | record _ _ fields => fields
  | function types => keyed 1 types
  | t => keyed 1 t.params

/-- The type with its parameters replaced in order; those left over keep their place. -/
def withParams (t : Ty) (new : List Ty) : Ty :=
  let replaced (old : List Ty) : List Ty := new.take old.length ++ old.drop new.length
  match t with
  | con c supers old => con c supers (replaced old)
  | var name old => var name (replaced old)
  | t => t

/-- The type declared for a field of a record type. -/
def fieldType? (name : String) : Ty → Option Ty
  | record _ _ fields => (fields.find? (·.1 == name)).map (·.2)
  | _ => none

mutual

/-- Whether no parameter, however deep, is inconsistent. -/
def isConsistent : Ty → Bool
  | inconsistent => false
  | con _ _ params => allConsistent params
  | _ => true

def allConsistent : List Ty → Bool
  | [] => true
  | t :: ts => isConsistent t && allConsistent ts

end

/-! ## Comparing types -/

mutual

/-- Types are equal when they have the same names and equal components. -/
def beq : Ty → Ty → Bool
  | unknown, unknown => true
  | inconsistent, inconsistent => true
  | noArguments, noArguments => true
  | any, any => true
  | con c _ ps, con d _ qs => c.name == d.name && beqAll ps qs
  | enumeration e, enumeration f => e.name == f.name && e.texts.keys == f.texts.keys
  | record r _ fs, record s _ gs => r.name == s.name && beqFields fs gs
  | function ts, function us => beqAll ts us
  | var a ps, var b qs => a == b && beqAll ps qs
  | _, _ => false

def beqAll : List Ty → List Ty → Bool
  | [], [] => true
  | t :: ts, u :: us => beq t u && beqAll ts us
  | _, _ => false

def beqFields : List (String × Ty) → List (String × Ty) → Bool
  | [], [] => true
  | (k, t) :: fs, (l, u) :: gs => k == l && beq t u && beqFields fs gs
  | _, _ => false

end

instance : BEq Ty := ⟨beq⟩

/-- Whether two types are applications of one constructor or variable, their parameters
aside. -/
def sameConstructor : Ty → Ty → Bool
  | con c _ ps, con d _ qs => c.name == d.name && ps.length == qs.length
  | var a ps, var b qs => a == b && ps.length == qs.length
  | t, u => t == u

end Ty

/-! ## Type classes -/

/-- A requirement on the values of a type variable. -/
structure TypeClass where
  name : String
  url : String
  test : Test

namespace TypeClass

/-- The name without the package it comes from. -/
def shortName (c : TypeClass) : String :=
  String.ofList (c.name.toList.reverse.takeWhile (· != '/')).reverse

def url? (c : TypeClass) : Option String := if c.url.isEmpty then none else some c.url

instance : BEq TypeClass := ⟨fun c d => c.name == d.name⟩

end TypeClass

/-- The type classes required of each variable. -/
abbrev Constraints := SortedMap String (List TypeClass)

end DynamicTypes
