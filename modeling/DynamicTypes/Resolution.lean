import DynamicTypes.Binding
import DynamicTypes.Classification
import DynamicTypes.Failure

/-!
# Checking values against a declared type

`satisfy` checks the values at one position of a signature. A concrete type is
checked value by value, and what the values hold is gathered, component by
component, and checked in turn. A variable looks at all its values together: it is
bound to the types they may have in common, narrowed from the types it was bound
to before.

The answer is a `Verdict`. It carries the bindings even when the check fails,
because a failed check still leaves behind what it has observed, and the steps by
which it was reached.
-/

namespace DynamicTypes

/-- What a step of a check does. -/
inductive Decision where
  | accept
  | descend
  | bind
  | narrow
  | classCheck
  | reject
  deriving Repr, DecidableEq

/-- One decision on the way through a type. -/
structure Step where
  locus : Locus
  /-- The text of the type at the position. -/
  type : String
  decision : Decision
  detail : String
  deriving Repr, DecidableEq

/-- The outcome of a check: the bindings it leaves, the steps it took, and its failure
if it failed. -/
structure Verdict where
  bindings : Bindings
  steps : List Step
  failure? : Option Failure

namespace Verdict

/-- Goes on with another check, unless this one failed. -/
def andThen (v : Verdict) (next : Bindings → Verdict) : Verdict :=
  match v.failure? with
  | some _ => v
  | none =>
    let rest := next v.bindings
    { rest with steps := v.steps ++ rest.steps }

end Verdict

/-- What a check depends on apart from the type and the values: the heap, the types that
variables may stand for, and the type classes required of them. -/
structure Scope where
  heap : Heap
  env : List Ty
  constraints : Constraints

namespace Scope

/-- A step at a position. -/
def step (decision : Decision) (locus : Locus) (t : Ty) (detail : String) : Step :=
  ⟨locus, t.format, decision, detail⟩

/-- The candidates that accept a value, with what it tells about their open
parameters. -/
def refine (s : Scope) (arity : Nat) (candidates : List Ty) (v : Value) : List Ty :=
  Ty.unique <| (candidates.filter (·.isMember s.heap v)).flatMap fun t =>
    (Classification.expand s.heap s.env arity t v).filter (·.isConsistent)

/-- The first type class required of a variable that a value does not satisfy, and the
value. -/
def classViolation? (s : Scope) (name : String) (values : List Value) :
    Option (TypeClass × Value) :=
  ((s.constraints.find? name).getD []).findSome? fun required =>
    (values.find? fun v => !required.test s.heap v).map (required, ·)

/-- The types a variable may stand for before it has been met. -/
def candidates (s : Scope) (arity : Nat) : List Ty := s.env.filter (arity ≤ ·.arity)

/-- The types a variable may stand for once it has taken the values: what is left of the
types it is bound to. Tagged values that the environment has no type for make a type of
their own when they are the first. -/
def narrowed (s : Scope) (name : String) (arity : Nat) (values : List Value)
    (b : Bindings) :
    List Ty :=
  let left := values.foldl (s.refine arity) ((b.types? name).getD (s.candidates arity))
  if left.isEmpty && !b.contains name && arity == 0 then
    ((Classification.commonTag? s.heap values).map Ty.foreign).toList
  else left

/-- Checks values against the variable `name`, declared as `t` with `arity`
parameters. -/
def satisfyVariable (s : Scope) (t : Ty) (name : String) (arity : Nat) (locus : Locus)
    (values : List Value) (b : Bindings) : Verdict :=
  match s.classViolation? name values with
  | some (required, v) =>
    let detail := s.heap.print v ++ " fails " ++ required.shortName
    ⟨b, [step .classCheck locus t detail], some (.typeClassViolation name required locus v)⟩
  | none =>
    if values.isEmpty then ⟨b, [], none⟩
    else
      let observed := b.observe name locus values
      match s.narrowed name arity values b with
      | [] =>
        match values.find? fun v => (Classification.loose s.heap s.env [v]).isEmpty with
        | some v =>
          ⟨observed, [step .reject locus t (s.heap.print v ++ " unrecognised")],
            some (.unrecognizedValue locus v)⟩
        | none =>
          ⟨observed, [step .reject locus t ("‘" ++ name ++ "’ has no type left")],
            some (.typeVariableViolation name (observed.observations name))⟩
      | types =>
        let decision := if b.contains name then Decision.narrow else Decision.bind
        let detail := name ++ " := " ++ " | ".intercalate (types.map Ty.format)
        ⟨observed.bind name types, [step decision locus t detail], none⟩

/-- What values hold at the `i`-th of `arity` declared parameters of a variable, each
value by the first of its bound types that accepts it. The declared parameters are the
last ones of that type. -/
def heldByBound (s : Scope) (bound : List Ty) (arity : Nat) (values : List Value)
    (i : Nat) :
    List Value :=
  values.flatMap fun v =>
    match bound.find? (·.testChain s.heap v) with
    | none => []
    | some shape =>
      if arity ≤ shape.arity + i then shape.extract s.heap (shape.arity + i - arity) v else []

/-- A check of the predicates of a type: either the first value that fails them is
rejected, or the check goes on. -/
@[macro_inline]
def guardChain (s : Scope) (t : Ty) (locus : Locus) (values : List Value) (b : Bindings)
    (next : Verdict) : Verdict :=
  match values.find? fun v => !t.testChain s.heap v with
  | some v =>
    ⟨b, [step .reject locus t (s.heap.print v ++ " is not a member")],
      some (.invalidValue locus v t)⟩
  | none => next

mutual

/-- Checks the values at a position against its type. -/
def satisfy (s : Scope) : Ty → Locus → List Value → Bindings → Verdict
  | .unknown, locus, _, b => ⟨b, [step .accept locus .unknown "matches any value"], none⟩
  | .any, locus, _, b => ⟨b, [step .accept locus .any "matches any value"], none⟩
  | .var name params, locus, values, b =>
    (s.satisfyVariable (.var name params) name params.length locus values b).andThen fun b =>
      satisfyParams s (s.heldByBound ((b.types? name).getD []) params.length values) 0 params
        locus b
  | .function types, locus, values, b =>
    s.guardChain (.function types) locus values b
      ⟨b, [step .accept locus (.function types) "callback deferred"], none⟩
  | .con c supers params, locus, values, b =>
    let t := Ty.con c supers params
    s.guardChain t locus values b <|
      if params.isEmpty then ⟨b, [step .accept locus t "member"], none⟩
      else
        (Verdict.mk b [step .descend locus t (toString params.length ++ " nested")] none).andThen
          (satisfyParams s (fun i => values.flatMap (c.held i s.heap)) 0 params locus)
  | .record r supers fields, locus, values, b =>
    let t := Ty.record r supers fields
    s.guardChain t locus values b <|
      if fields.isEmpty then ⟨b, [step .accept locus t "member"], none⟩
      else
        (Verdict.mk b [step .descend locus t (toString fields.length ++ " nested")] none).andThen
          (satisfyFields s values fields locus)
  | t, locus, values, b => s.guardChain t locus values b ⟨b, [step .accept locus t "member"], none⟩

/-- Checks what is held at parameters, the first one with index `i`. -/
def satisfyParams (s : Scope) (held : Nat → List Value) (i : Nat) :
    List Ty → Locus → Bindings → Verdict
  | [], _, b => ⟨b, [], none⟩
  | t :: ts, locus, b =>
    (satisfy s t (locus.child (Ty.paramKey (i + 1))) (held i) b).andThen
      (satisfyParams s held (i + 1) ts locus)

/-- Checks the fields of objects; a field that one of them lacks is undefined there. -/
def satisfyFields (s : Scope) (values : List Value) :
    List (String × Ty) → Locus → Bindings → Verdict
  | [], _, b => ⟨b, [], none⟩
  | (key, t) :: rest, locus, b =>
    if values.all fun v => (v.field? s.heap key).isSome then
      (satisfy s t (locus.child key) (values.map (·.field s.heap key)) b).andThen
        (satisfyFields s values rest locus)
    else
      let place := locus.child key
      ⟨b, [step .reject place t "field missing"], some (.invalidValue place .undefined t)⟩

end

end Scope

/-- Whether a value satisfies a type outside any signature, and if not why. -/
def Ty.failure? (h : Heap) (env : List Ty) (t : Ty) (v : Value) : Option Failure :=
  (Scope.satisfy ⟨h, env, ∅⟩ t (.root 0) [v] ∅).failure?

end DynamicTypes
