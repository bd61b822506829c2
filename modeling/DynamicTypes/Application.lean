import DynamicTypes.Session

/-!
# Checked functions, applied piece by piece

A checked function takes its arguments in any grouping, and a placeholder leaves a
slot open for later. Each argument is checked when it arrives, against what the
earlier ones told about the variables; once no slot is open the body runs, with
callbacks wrapped, and its result is checked.

What the arguments tell is kept in a session, and a function has one of its own from
the moment it is defined. Applying a function never works on that session. It works
on a copy of the function with a fork of the session, and the copy becomes the
function of the slots still open, or runs the body, or is dropped if an argument is
refused.
-/

namespace DynamicTypes.Application

/-- A function with all slots open, and with a session if its arguments are to be
checked. -/
def define (signature : Signature) (env : List Ty) (checked : Bool) (body : Body) :
    World → Application × World := fun w =>
  let a : Application := ⟨signature, env, body, List.replicate signature.arity none, none⟩
  if checked then
    let (s, w) := Session.start signature env default w
    ({ a with state? := some s.state }, w)
  else (a, w)

/-- The session that checks the arguments. -/
def session? (a : Application) : Option Session :=
  a.state?.map fun state => ⟨a.signature, a.env, state⟩

/-- The indices of the slots still open. -/
def openSlots (a : Application) : List Nat :=
  (a.slots.zipIdx.filter (·.1.isNone)).map (·.2)

/-- Whether no slot is open. -/
def isComplete (a : Application) : Bool := a.slots.all (·.isSome)

/-- A copy with a fork of the session. -/
def fork (a : Application) : World → Application × World := fun w =>
  match a.session? with
  | none => (a, w)
  | some s =>
    let (s, w) := s.fork w
    ({ a with state? := some s.state }, w)

/-- Lets go of a copy, if no session has been opened since it was made. -/
def drop (a : Application) (w : World) : World :=
  match a.state? with
  | none => w
  | some _ => w.dropSession

/-- Checks the argument for a slot, if arguments are checked. -/
def checkArgument (a : Application) (index : Nat) (v : Value) :
    Action Diagnostic Unit :=
  match a.session? with
  | none => pure ()
  | some s => s.checkArgument index v

/-- Puts an argument into its slot, if it passes its check. -/
def supply (a : Application) (index : Nat) (v : Value) :
    Action Diagnostic Application := do
  a.checkArgument index v
  pure { a with slots := a.slots.set index (some v) }

/-- Puts arguments into the slots they are paired with, placeholders aside. -/
def supplyAll (a : Application) : List (Value × Nat) → Action Diagnostic Application
  | [] => pure a
  | (v, index) :: rest =>
    if v.isPlaceholder then a.supplyAll rest
    else do
      let a ← a.supply index v
      a.supplyAll rest

/-- A copy with open slots filled, in order, with as many arguments as are given: at
least one if a slot is open, and no more than there are open slots. -/
def fill (a : Application) (args : List Value) : Action Diagnostic Application :=
  let slots := a.openSlots
  if slots.length < args.length || (args.isEmpty && !slots.isEmpty) then fun w =>
    .failed ((Failure.argumentCount slots.length args).diagnostic w.heap a.signature a.env) w
  else do
    let next ← .make a.fork
    (next.supplyAll (args.zip slots)).onFailure next.drop

/-- The arguments in the filled slots, in the order of the parameters. -/
def arguments (a : Application) : List Value := a.slots.filterMap id

/-- The application as a function. -/
def toFunction {ε : Type} (a : Application) : Action ε Value := .make fun w =>
  w.newFunction ⟨a.signature.name, a.openSlots.length, some a.signature.format⟩ (.applied a)

/-- Runs the body on the arguments in the slots. -/
def invoke (a : Application) (run : Body → List Value → Action Diagnostic Value) :
    Action Diagnostic Value :=
  match a.session? with
  | none => run a.body a.arguments
  | some s => do
    let args ← s.wrapArguments 0 a.arguments
    let result ← run a.body args
    s.checkResult result

/-- Applies to more arguments: gives the function of the slots still open, or runs the
body if there are none. -/
def apply (a : Application) (run : Body → List Value → Action Diagnostic Value)
    (args : List Value) : Action Diagnostic Value := do
  let next ← a.fill args
  if next.isComplete then next.invoke run else next.toFunction

end DynamicTypes.Application
