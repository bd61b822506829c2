import DynamicTypes.Ty.Basic
import DynamicTypes.Value.Printer

/-!
# Which values belong to a type

A value passes the *chain* of a type when it passes the predicates of all
supertypes and then the type's own. It is a member when it passes the chain and
everything it holds, component by component, is a member in turn; the first
violation on the way is kept, with the path that leads to it.

What a function takes and gives cannot be seen on the function, and what a
variable stands for cannot be seen on the variable, so neither is looked into.
-/

namespace DynamicTypes

/-- A value where it does not belong, and the path to it. -/
structure Violation where
  path : List String
  value : Value

def Violation.under (key : String) (bad : Violation) : Violation :=
  ⟨key :: bad.path, bad.value⟩

namespace Ty

/-- The values held at the component with index `i`. -/
def extract (h : Heap) (t : Ty) (i : Nat) (v : Value) : List Value :=
  match t with
  | con c _ _ => c.held i h v
  | record _ _ fields => (fields[i]?.map fun (key, _) => v.field h key).toList
  | _ => []

/-- Whether the component with index `i` is there: a record has to have its fields. -/
def holdsChild (h : Heap) (t : Ty) (i : Nat) (v : Value) : Bool :=
  match t with
  | record _ _ fields => fields[i]?.any fun (key, _) => (v.field? h key).isSome
  | _ => true

/-- The predicate of the type alone. -/
def test (h : Heap) : Ty → Value → Bool
  | unknown, _ => true
  | any, _ => true
  | inconsistent, _ => false
  | noArguments, _ => false
  | con c _ _, v => c.test h v
  | enumeration e, v => e.texts.contains (h.print v)
  | record .., v => (v.object? h).isSome
  | function _, v => v.isFunction
  | var .., _ => true

mutual

/-- The predicates of all supertypes, and then the type's own. -/
def testChain (h : Heap) : Ty → Value → Bool
  | con c supers _, v => testChains h supers v && c.test h v
  | record _ supers _, v => testChains h supers v && (v.object? h).isSome
  | t, v => t.test h v

def testChains (h : Heap) : List Ty → Value → Bool
  | [], _ => true
  | t :: ts, v => testChain h t v && testChains h ts v

end

mutual

/-- The first violation of a type by a value, nothing for a member. -/
def violation? (h : Heap) : Ty → Value → Option Violation
  | con c supers params, v =>
    if testChain h (con c supers params) v then paramViolation? h (fun i => c.held i h v) 0 params
    else some ⟨[], v⟩
  | record r supers fields, v =>
    if testChain h (record r supers fields) v then fieldViolation? h v fields else some ⟨[], v⟩
  | t, v => if testChain h t v then none else some ⟨[], v⟩

/-- The first violation among what is held at parameters, the first one with index
`i`. -/
def paramViolation? (h : Heap) (held : Nat → List Value) (i : Nat) :
    List Ty → Option Violation
  | [] => none
  | t :: ts =>
    match (held i).findSome? (violation? h t) with
    | some bad => some (bad.under (paramKey (i + 1)))
    | none => paramViolation? h held (i + 1) ts

/-- The first violation among the fields; a field that is not there is one. -/
def fieldViolation? (h : Heap) (v : Value) : List (String × Ty) → Option Violation
  | [] => none
  | (key, t) :: rest =>
    match v.field? h key with
    | none => some ⟨[key], .undefined⟩
    | some x =>
      match violation? h t x with
      | some bad => some (bad.under key)
      | none => fieldViolation? h v rest

end

/-- Whether a value belongs to a type. -/
def isMember (h : Heap) (t : Ty) (v : Value) : Bool := (t.violation? h v).isNone

end Ty

end DynamicTypes
