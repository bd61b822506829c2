import DynamicTypes.Application

/-!
# Building values and types

A literal is built from left to right. Arrays and objects exist, and have their
label, before anything they contain, so the contents may refer to them. A type is
declared after the types in it. The first declaration that is refused ends the
building, and so does a reference to a label that no value has.
-/

namespace DynamicTypes

/-- Why something is not built. -/
inductive Refusal where
  | type (e : DeclarationError)
  | signature (d : Diagnostic)
  /-- No value has the label. -/
  | reference (label : String)

def Refusal.diagnostic : Refusal → Diagnostic
  | type e => e.diagnostic
  | signature d => d
  | reference label =>
    .error .construction ("Invalid reference\n\nno value is labelled ‘" ++ label ++ "’.\n")

/-- The action that succeeds or fails as a computation did. -/
def Action.ofExcept {δ ε α : Type} (wrong : δ → ε) : Except δ α → Action ε α
  | .ok a => pure a
  | .error e => .fail (wrong e)

/-- The action that labels a value if there is a label. -/
def Action.labelWith {ε : Type} (label : Option String) (v : Value) : Action ε Unit :=
  match label with
  | some name => .change (·.label name v)
  | none => pure ()

/-- A new checked function. -/
def Application.declare (name : String) (constraints : Constraints) (types : List Ty)
    (env : List Ty) (checked : Bool) (body : Body) : Action Diagnostic Value :=
  match Signature.declare name constraints types with
  | .error d => .fail d
  | .ok signature => do
    let a ← .make (Application.define signature env checked body)
    a.toFunction

mutual

/-- Builds a value. -/
def Literal.build : Literal → Action Refusal Value
  | .value v => pure v
  | .array label items => do
    let target ← .make (·.newArray [])
    Action.labelWith label target
    Literal.fillArray target items
    pure target
  | .object label tag hook fields => do
    let target ← .make (·.newObject ⟨tag, tag.bind fun _ => hook, ∅⟩)
    Action.labelWith label target
    Literal.fillObject target fields
    pure target
  | .function info body => .make (·.newFunction info (.host ⟨body, []⟩))
  | .definition name types constraints body env checked => do
    let types ← TypeExpr.buildAll types
    let env ← TypeExpr.buildAll env
    (Application.declare name constraints types env checked ⟨body, []⟩).mapError .signature
  | .reference label => fun w =>
    match w.labels.find? label with
    | some v => .done v w
    | none => .failed (.reference label) w
  | .labelled label l => do
    let v ← l.build
    Action.labelWith (some label) v
    pure v

/-- Builds items and appends them to an array one by one. -/
def Literal.fillArray (target : Value) : List Literal → Action Refusal Unit
  | [] => pure ()
  | l :: rest => do
    let v ← l.build
    .change (·.push target v)
    Literal.fillArray target rest

/-- Builds field values and sets the fields one by one. -/
def Literal.fillObject (target : Value) : List (String × Literal) → Action Refusal Unit
  | [] => pure ()
  | (key, l) :: rest => do
    let v ← l.build
    .change (·.setField target key v)
    Literal.fillObject target rest

/-- Builds values. -/
def Literal.buildAll : List Literal → Action Refusal (List Value)
  | [] => pure []
  | l :: rest => do
    let v ← l.build
    let vs ← Literal.buildAll rest
    pure (v :: vs)

/-- Declares a type. -/
def TypeExpr.build : TypeExpr → Action Refusal Ty
  | .type t => pure t
  | .con c supers params => do
    let supers ← TypeExpr.buildAll supers
    let params ← TypeExpr.buildAll params
    pure (.con c supers params)
  | .enumeration name url members => do
    let members ← Literal.buildAll members
    let h ← .look (·.heap)
    .ofExcept .type (Ty.declareEnumeration h name url members)
  | .record fields => do
    let fields ← TypeExpr.buildFields fields
    .ofExcept .type (Ty.declareRecord fields)
  | .namedRecord name url supers fields => do
    let supers ← TypeExpr.buildAll supers
    let fields ← TypeExpr.buildFields fields
    .ofExcept .type (Ty.declareNamedRecord name url supers fields)
  | .function types => do
    let types ← TypeExpr.buildAll types
    .ofExcept .type (Ty.declareFunction types)
  | .bareFunction types => do
    let types ← TypeExpr.buildAll types
    pure (.function types)
  | .var name params => do
    let params ← TypeExpr.buildAll params
    pure (.var name params)

/-- Declares types. -/
def TypeExpr.buildAll : List TypeExpr → Action Refusal (List Ty)
  | [] => pure []
  | e :: rest => do
    let t ← e.build
    let ts ← TypeExpr.buildAll rest
    pure (t :: ts)

/-- Declares the types of fields. -/
def TypeExpr.buildFields : List (String × TypeExpr) → Action Refusal (List (String × Ty))
  | [] => pure []
  | (key, e) :: rest => do
    let t ← e.build
    let ts ← TypeExpr.buildFields rest
    pure ((key, t) :: ts)

end

end DynamicTypes
