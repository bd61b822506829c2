import DynamicTypes.Host.Syntax
import DynamicTypes.Resolution
import DynamicTypes.Signature

/-!
# The state that functions run in

A `World` is the heap together with what the heap leaves out: the code of every
function, by its number, and the state of every check session. Code is data: an
expression of the host language with the arguments around it, or a checked
function with some of its slots filled, or a callback under a contract.

A function's code never changes once it is there, but the sessions that it refers to
do. A checked function refers to the session that has checked its arguments so far,
and the callbacks of one call refer to the session of that call. They all refer to it
by number, so whoever has the number of a session can change what another one finds
there. That a partial application can be used again, whatever happens in between,
therefore depends on who comes to have the number of its session.
-/

namespace DynamicTypes

/-- An expression, and the arguments of the functions around it, innermost first. -/
structure Body where
  expr : Expr
  frames : List (List Value)

/-- One step of a check, numbered in the order in which steps are recorded. -/
structure Recorded where
  number : Nat
  step : Step
  deriving Repr, DecidableEq

/-- What a check session has come to know, and its trace if one is kept. -/
structure SessionState where
  bindings : Bindings
  trace : Option (List Recorded)

instance : Inhabited SessionState := ⟨⟨∅, none⟩⟩

/-- Adds steps to a trace. -/
def recordSteps (trace : List Recorded) : List Step → List Recorded
  | [] => trace
  | step :: rest => recordSteps (trace ++ [⟨trace.length, step⟩]) rest

/-- The state after a check. -/
def SessionState.record (s : SessionState) (v : Verdict) : SessionState :=
  ⟨v.bindings, s.trace.map (recordSteps · v.steps)⟩

/-- A check session: the signature that is checked against, and where the state is
kept. -/
structure Session where
  signature : Signature
  env : List Ty
  state : Nat

/-- A checked function with some of its slots filled. -/
structure Application where
  signature : Signature
  env : List Ty
  body : Body
  /-- One for each parameter. -/
  slots : List (Option Value)
  /-- Where the state of its session is kept; nothing if arguments are not checked. -/
  state? : Option Nat

/-- A callback that is checked on every call. -/
structure Contract where
  session : Session
  locus : Locus
  params : List Ty
  result : Ty
  /-- The function behind it. -/
  inner : Nat

/-- What happens when a function is called. -/
inductive Code where
  | host (body : Body)
  | applied (a : Application)
  | guarded (c : Contract)

/-- The heap, the code of functions, the states of check sessions, and the labelled
values. -/
structure World where
  heap : Heap
  code : Array Code
  sessions : Array SessionState
  labels : SortedMap String Value

namespace World

def empty : World := ⟨.empty, #[], #[], ∅⟩

instance : Inhabited World := ⟨empty⟩

/-- A new function. -/
def newFunction (w : World) (info : FunctionInfo) (code : Code) : Value × World :=
  (.function w.code.size info, { w with code := w.code.push code })

def newArray (w : World) (items : List Value) : Value × World :=
  let (v, heap) := w.heap.newArray items
  (v, { w with heap })

def newObject (w : World) (o : Obj) : Value × World :=
  let (v, heap) := w.heap.newObject o
  (v, { w with heap })

/-- Appends to an array, does nothing to other values. -/
def push (w : World) (target v : Value) : World :=
  match target with
  | .array a => { w with heap := w.heap.push a v }
  | _ => w

/-- Sets a field of an object, does nothing to other values. -/
def setField (w : World) (target : Value) (key : String) (v : Value) : World :=
  match target with
  | .object o => { w with heap := w.heap.setField o key v }
  | _ => w

/-- Labels a value; an earlier value with that label loses it. -/
def label (w : World) (name : String) (v : Value) : World :=
  { w with labels := w.labels.insert name v }

def session (w : World) (i : Nat) : SessionState := w.sessions[i]?.getD default

def setSession (w : World) (i : Nat) (s : SessionState) : World :=
  { w with sessions := w.sessions.setIfInBounds i s }

def newSession (w : World) (s : SessionState) : Nat × World :=
  (w.sessions.size, { w with sessions := w.sessions.push s })

/-- Lets go of the session that was opened last. -/
def dropSession (w : World) : World := { w with sessions := w.sessions.pop }

end World

/-! ## Actions -/

/-- How an action ends: with a result or a failure, both in the world that is left, or
not at all within the calls it was allowed. -/
inductive Outcome (ε α : Type) where
  | done (a : α) (w : World)
  | failed (e : ε) (w : World)
  | exhausted

/-- Something done in a world. -/
def Action (ε α : Type) := World → Outcome ε α

namespace Action

variable {ε α β : Type}

/-- One action after another; a failure ends both. -/
def andThen (m : Action ε α) (next : α → Action ε β) : Action ε β := fun w =>
  match m w with
  | .done a w => next a w
  | .failed e w => .failed e w
  | .exhausted => .exhausted

instance : Monad (Action ε) where
  pure a := fun w => .done a w
  bind := andThen

def fail (e : ε) : Action ε α := fun w => .failed e w

/-- Looks at the world. -/
def look (f : World → α) : Action ε α := fun w => .done (f w) w

/-- Changes the world. -/
def change (f : World → World) : Action ε Unit := fun w => .done () (f w)

/-- Makes something new. -/
def make (f : World → α × World) : Action ε α := fun w =>
  let (a, w) := f w
  .done a w

/-- Turns failures of one kind into failures of another. -/
def mapError {δ : Type} (f : ε → δ) (m : Action ε α) : Action δ α := fun w =>
  match m w with
  | .done a w => .done a w
  | .failed e w => .failed (f e) w
  | .exhausted => .exhausted

/-- Cleans up after a failure. -/
def onFailure (m : Action ε α) (cleanUp : World → World) : Action ε α := fun w =>
  match m w with
  | .done a w => .done a w
  | .failed e w => .failed e (cleanUp w)
  | .exhausted => .exhausted

/-- Does something with each item, in order. -/
def each (f : α → Action ε β) : List α → Action ε (List β)
  | [] => pure []
  | a :: rest => do
    let b ← f a
    let bs ← each f rest
    pure (b :: bs)

end Action

end DynamicTypes
