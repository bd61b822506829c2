import DynamicTypes.Ty.Builtin

/-!
# Predicates and extractors put together from parts

The predicate of a type is any function of the heap and a value. These are the
parts that predicates and extractors of declared types are made of.
-/

namespace DynamicTypes

namespace Test

def always (b : Bool) : Test := fun _ _ => b

/-- Values of a kind. -/
def kind (name : String) : Test := fun h v => v.kind h == name

/-- Objects with a tag. -/
def tag (name : String) : Test := fun h v => v.tag? h == some name

/-- Objects with a field. -/
def has (key : String) : Test := fun h v => (v.field? h key).isSome

/-- Values whose field passes; a field that is not there is undefined. -/
def field (key : String) (test : Test) : Test := fun h v => test h (v.field h key)

/-- Values with a text. -/
def prints (text : String) : Test := fun h v => h.print v == text

/-- Arrays of a length. -/
def length (n : Nat) : Test := Builtin.isArrayOf n

/-- Numbers below a bound. -/
def below (bound : Float) : Test := Builtin.isNumber fun x => x < bound

def not (test : Test) : Test := fun h v => !test h v

def all (tests : List Test) : Test := fun h v => tests.all fun test => test h v

def any (tests : List Test) : Test := fun h v => tests.any fun test => test h v

end Test

namespace Extractor

def none : Extractor := fun _ _ => []

/-- The value itself. -/
def self : Extractor := fun _ v => [v]

/-- The items of an array. -/
def items : Extractor := Builtin.items

/-- The field values of an object, in key order. -/
def values : Extractor := Builtin.fieldValues

/-- The keys of an object, in order. -/
def keys : Extractor := fun h v => ((v.object? h).map (·.fields.keys.map .string)).getD []

/-- One item of an array, if it is there. -/
def item (index : Nat) : Extractor := Builtin.item index

/-- One field of an object, if it is there. -/
def field (key : String) : Extractor := fun h v => (v.field? h key).toList

end Extractor

end DynamicTypes
