import DynamicTypes.Ty.Declaration
import DynamicTypes.Ty.Membership
import DynamicTypes.Ty.Merge

/-!
# Which types a set of values has in common

Each value is classified on its own: the types of the environment that it is a
member of, where an unknown parameter is filled by classifying in turn what the
value holds there. What several values have in common is found by merging.

A value that is being classified further out has no types of its own, so a cycle
ends where it closes. The identities on the way down are `seen`, and each level of
`depth` opens one more value. No identity is opened twice: there are at most
`h.size` of them in the heap, the value that is classified may be a function that
the heap does not hold, and a value without identity comes last. So `h.size + 2`
levels are enough for types that find nothing in values without identity, and in
others nothing but what the heap holds. Types that find other values can use up all
levels; what lies deeper then has no types, where without a bound the classification
would go on.
-/

namespace DynamicTypes

namespace Classification

/-- The tag that all values carry. -/
def commonTag? (h : Heap) : List Value → Option String
  | [] => none
  | v :: vs => (v.tag? h).filter fun tag => vs.all fun w => w.tag? h == some tag

/-- The place of a type's constructor in the environment, after all others if it has
none. -/
def rank (env : List Ty) (t : Ty) : Nat := env.findIdx (·.sameConstructor t)

/-- Types are listed in the order of the environment, and by their texts where that does
not tell. -/
def precedes (env : List Ty) (t u : Ty) : Bool :=
  rank env t < rank env u || (rank env t == rank env u && (compare t.format u.format).isLE)

/-- Inserts a type before the first one that it precedes. -/
def insertSorted (env : List Ty) (t : Ty) : List Ty → List Ty
  | [] => [t]
  | u :: us => if precedes env t u then t :: u :: us else u :: insertSorted env t us

/-- The types in the order of the environment. -/
def sort (env : List Ty) (types : List Ty) : List Ty :=
  types.foldr (insertSorted env) []

/-- The types that values have in common, given how each one is classified. -/
def determineBy (h : Heap) (env : List Ty) (classify : Value → List Ty) :
    List Value → List Ty
  | [] => [.unknown]
  | v :: vs =>
    match vs.foldl (fun types w => Ty.intersect types (classify w)) (classify v) with
    | [] =>
      match commonTag? h (v :: vs) with
      | some tag => [.foreign tag]
      | none => [.inconsistent]
    | types => sort env types

/-- The type with its unknown parameters filled from what the value holds, in all
possible ways. The last `keep` parameters stay as they are. -/
def expandBy (h : Heap) (determine : List Value → List Ty) (keep : Nat) (t : Ty)
    (v : Value) :
    List Ty :=
  let filled := t.params.zipIdx.map fun (p, i) =>
    if i + keep < t.arity && p.isUnknown then determine (t.extract h i v) else [p]
  (Ty.choices filled).map t.withParams

/-- The types of one value inside the values `seen`, with `depth` more to open. -/
def classify (h : Heap) (env : List Ty) : Nat → List Ref → Value → List Ty
  | 0, _, _ => []
  | depth + 1, seen, v =>
    if v.identity?.any seen.contains then []
    else
      let inside := v.identity?.toList ++ seen
      let determine := determineBy h env (classify h env depth inside)
      Ty.unique ((env.filter (·.isMember h v)).flatMap (expandBy h determine 0 · v))

/-- The type with its unknown parameters filled from what the value holds, the last
`keep` aside. -/
def expand (h : Heap) (env : List Ty) (keep : Nat) (t : Ty) (v : Value) : List Ty :=
  expandBy h (determineBy h env (classify h env (h.size + 1) v.identity?.toList)) keep t v

/-- The types that values have in common, whether consistent or not. -/
def determine (h : Heap) (env : List Ty) (values : List Value) : List Ty :=
  determineBy h env (classify h env (h.size + 2) []) values

/-- The types that all values are members of. -/
def strict (h : Heap) (env : List Ty) (values : List Value) : List Ty :=
  (determine h env values).filter (·.isConsistent)

/-- The types of values for a reader, who may see that they are inconsistent further
in. -/
def loose (h : Heap) (env : List Ty) (values : List Value) : List Ty :=
  (determine h env values).filter fun
    | .inconsistent => false
    | _ => true

end Classification

end DynamicTypes
