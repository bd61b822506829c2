import DynamicTypes.Locus
import DynamicTypes.Ty.Basic

/-!
# What is known of type variables

A variable is bound to the types that it may still stand for, and keeps every value
seen at each of its positions.
-/

namespace DynamicTypes

/-- What is known of one variable. -/
structure Binding where
  types : List Ty
  observations : SortedMap Locus (List Value)

instance : Inhabited Binding := ⟨⟨[], ∅⟩⟩

/-- What is known of each variable that has been met. -/
abbrev Bindings := SortedMap String Binding

namespace Bindings

def types? (b : Bindings) (name : String) : Option (List Ty) :=
  (b.find? name).map (·.types)

/-- The values seen for a variable, by position. -/
def observations (b : Bindings) (name : String) : List (Locus × List Value) :=
  ((b.find? name).map (·.observations.entries)).getD []

/-- Adds values to those seen for a variable at a position. -/
def observe (b : Bindings) (name : String) (locus : Locus) (values : List Value) :
    Bindings :=
  let binding := (b.find? name).getD default
  let earlier := (binding.observations.find? locus).getD []
  b.insert name
    { binding with observations := binding.observations.insert locus (earlier ++ values) }

/-- Replaces the types that a variable may stand for. -/
def bind (b : Bindings) (name : String) (types : List Ty) : Bindings :=
  b.insert name { (b.find? name).getD default with types }

end Bindings

end DynamicTypes
