/-!
# Positions in a signature

A position is one of the types of a signature, counted from zero with the result
last, and a path into it. Positions are ordered by index, then by path, key by
key.
-/

namespace DynamicTypes

/-- A position in a signature. -/
structure Locus where
  index : Nat
  path : List String
  deriving Repr, DecidableEq

namespace Locus

/-- The position of a whole parameter or result. -/
def root (index : Nat) : Locus := ⟨index, []⟩

/-- The position of a component. -/
def child (l : Locus) (key : String) : Locus := ⟨l.index, l.path ++ [key]⟩

instance : Ord Locus := ⟨compareLex (compareOn index) (compareOn path)⟩

instance : Std.TransOrd Locus :=
  inferInstanceAs (Std.TransCmp (compareLex (compareOn index) (compareOn path)))

theorem eq_of_compare {a b : Locus} (h : compare a b = .eq) : a = b := by
  obtain ⟨hi, hp⟩ := compareLex_eq_eq.1 h
  have hi : a.index = b.index := Std.LawfulEqCmp.eq_of_compare hi
  have hp : a.path = b.path := Std.LawfulEqCmp.eq_of_compare hp
  cases a
  cases b
  cases hi
  cases hp
  rfl

instance : Std.LawfulEqOrd Locus where
  compare_self := Std.ReflCmp.compare_self
  eq_of_compare := eq_of_compare

/-- Inserts a position before the first one that is not smaller. -/
def insertSorted (l : Locus) : List Locus → List Locus
  | [] => [l]
  | m :: rest => if (compare l m).isLE then l :: m :: rest else m :: insertSorted l rest

/-- Positions in order. -/
def sort (loci : List Locus) : List Locus := loci.foldr insertSorted []

/-- The index and the keys, between dots. -/
def text (l : Locus) : String := ".".intercalate (toString l.index :: l.path)

end Locus

end DynamicTypes
