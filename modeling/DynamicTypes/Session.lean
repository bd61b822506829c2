import DynamicTypes.Report
import DynamicTypes.World

/-!
# Check sessions

A session checks the arguments and the result of one call. All its checks share
one state, so a variable bound by an argument constrains what a callback may be
given and what it may give back.

A function at a position that declares a function type is wrapped: calls through
the wrapper are checked against the declared type, with what goes in and what
comes out wrapped in turn.
-/

namespace DynamicTypes

namespace Signature

/-- The check of one argument. -/
def argumentVerdict (s : Signature) (h : Heap) (env : List Ty) (index : Nat) (v : Value)
    (b : Bindings) : Verdict :=
  match s.params[index]? with
  | none => ⟨b, [], some (.argumentCount s.arity [v])⟩
  | some t => Scope.satisfy ⟨h, env, s.constraints⟩ t (.root index) [v] b

end Signature

namespace Session

/-- A session that starts from a state of its own. -/
def start (signature : Signature) (env : List Ty) (state : SessionState) :
    World → Session × World :=
  fun w =>
    let (i, w) := w.newSession state
    (⟨signature, env, i⟩, w)

/-- A session in the same state, which from then on changes on its own. -/
def fork (s : Session) : World → Session × World := fun w =>
  start s.signature s.env (w.session s.state) w

/-- Keeps a trace from now on. -/
def enableTracing (s : Session) (w : World) : World :=
  let state := w.session s.state
  w.setSession s.state { state with trace := some (state.trace.getD []) }

def bindings (s : Session) (w : World) : Bindings := (w.session s.state).bindings

/-- The steps recorded so far. -/
def trace (s : Session) (w : World) : List Recorded := (w.session s.state).trace.getD []

/-- The diagnostic for a failure of the session. -/
def diagnostic (s : Session) (h : Heap) (f : Failure) : Diagnostic :=
  f.diagnostic h s.signature s.env

/-- Lets a check change the state of the session. -/
def conclude (s : Session) (verdict : Heap → Bindings → Verdict) :
    Action Diagnostic Unit := fun w =>
  let state := w.session s.state
  let v := verdict w.heap state.bindings
  let w := w.setSession s.state (state.record v)
  match v.failure? with
  | some f => .failed (s.diagnostic w.heap f) w
  | none => .done () w

/-- Checks a value against the type at a position. -/
def check (s : Session) (t : Ty) (locus : Locus) (v : Value) : Action Diagnostic Unit :=
  s.conclude fun h b => Scope.satisfy ⟨h, s.env, s.signature.constraints⟩ t locus [v] b

/-- A function under a contract if its declared type is a function type; any other value
as it is. -/
def wrap {ε : Type} (s : Session) (t : Ty) (locus : Locus) (v : Value) :
    Action ε Value :=
  match t, v with
  | .function types, .function inner seen =>
    match types.getLast? with
    | none => pure v
    | some result => .make fun w =>
      let params := types.dropLast
      let info := ⟨seen.name, params.length, some t.format⟩
      w.newFunction info (.guarded ⟨s, locus, params, result, inner⟩)
  | _, _ => pure v

/-- Checks the argument for a parameter. -/
def checkArgument (s : Session) (index : Nat) (v : Value) : Action Diagnostic Unit :=
  s.conclude fun h b => s.signature.argumentVerdict h s.env index v b

/-- Checks a result, and wraps it as its type says. -/
def checkResult (s : Session) (v : Value) : Action Diagnostic Value := do
  let locus := Locus.root s.signature.arity
  s.check s.signature.result locus v
  s.wrap s.signature.result locus v

/-- Wraps arguments as the types of their parameters say, the first one for the
parameter `i`. -/
def wrapArguments {ε : Type} (s : Session) (i : Nat) :
    List Value → Action ε (List Value)
  | [] => pure []
  | v :: rest => do
    let v ←
      match s.signature.params[i]? with
      | some t => s.wrap t (.root i) v
      | none => pure v
    let rest ← s.wrapArguments (i + 1) rest
    pure (v :: rest)

end Session

/-! ## Callbacks -/

namespace Contract

/-- Checks and wraps the arguments of a callback, the first one for its `n`-th
parameter. -/
def accept (c : Contract) (n : Nat) :
    List Ty → List Value → Action Diagnostic (List Value)
  | t :: ts, v :: vs => do
    let locus := c.locus.child (Ty.paramKey n)
    c.session.check t locus v
    let v ← c.session.wrap t locus v
    let vs ← c.accept (n + 1) ts vs
    pure (v :: vs)
  | _, _ => pure []

/-- Calls a callback: the arguments are checked, the function behind it is called, and
its result is checked. -/
def call (c : Contract) (callFunction : Nat → List Value → Action Diagnostic Value)
    (args : List Value) : Action Diagnostic Value :=
  if args.length = c.params.length then do
    let args ← c.accept 1 c.params args
    let result ← callFunction c.inner args
    let locus := c.locus.child (Ty.paramKey (c.params.length + 1))
    c.session.check c.result locus result
    c.session.wrap c.result locus result
  else fun w =>
    .failed (c.session.diagnostic w.heap (.callbackArity c.locus c.params.length args)) w

end Contract

end DynamicTypes
