import DynamicTypes.Host.Building

/-!
# Running functions

An expression is evaluated from left to right, and a failure ends it. How a
function is called is a parameter of the evaluation, so an expression is evaluated
by recursion on its syntax alone; `World.call` then ties the knot with a bound on
how deeply calls may be nested. Running out of that bound is neither a result nor a
failure, and a larger bound never changes an answer that a smaller one gave.
-/

namespace DynamicTypes

/-- Calls a value with arguments; what is not a function gives undefined. -/
def Value.callWith {ε : Type} (callFunction : Nat → List Value → Action ε Value)
    (f : Value) (args : List Value) : Action ε Value :=
  match f with
  | .function i _ => callFunction i args
  | _ => pure .undefined

/-- The number that a value counts as in a sum. -/
def Value.summand : Value → Float
  | number x => x
  | _ => 0

/-- The items of an array; other values have none. -/
def Action.itemsOf {ε : Type} (v : Value) : Action ε (List Value) :=
  .look fun w => (v.items? w.heap).getD []

/-- Calls a function on what there is so far and each item in turn. -/
def Action.accumulate {ε α β : Type} (f : β → α → Action ε β) (b : β) :
    List α → Action ε β
  | [] => pure b
  | a :: rest => do
    let b ← f b a
    accumulate f b rest

mutual

/-- The value of an expression inside functions called with `frames`, innermost
first. -/
def Expr.eval (callFunction : Nat → List Value → Action Diagnostic Value)
    (frames : List (List Value)) : Expr → Action Diagnostic Value
  | .arg index outer => pure (((frames[outer]?.getD [])[index]?).getD .undefined)
  | .allArgs => .make (·.newArray (frames.headD []))
  | .literal l => l.build.mapError Refusal.diagnostic
  | .add a b => do
    let a ← a.eval callFunction frames
    let b ← b.eval callFunction frames
    pure (.number (a.summand + b.summand))
  | .call f args => do
    let f ← f.eval callFunction frames
    let args ← Expr.evalAll callFunction frames args
    f.callWith callFunction args
  | .map f items => do
    let f ← f.eval callFunction frames
    let items ← items.eval callFunction frames
    let items ← Action.itemsOf items
    let results ← Action.each (fun v => f.callWith callFunction [v]) items
    .make (·.newArray results)
  | .fold f initial items => do
    let f ← f.eval callFunction frames
    let initial ← initial.eval callFunction frames
    let items ← items.eval callFunction frames
    let items ← Action.itemsOf items
    Action.accumulate (fun acc v => f.callWith callFunction [acc, v]) initial items
  | .array items => do
    let items ← Expr.evalAll callFunction frames items
    .make (·.newArray items)
  | .object fields => do
    let fields ← Expr.evalFields callFunction frames fields
    .make (·.newObject ⟨none, none, .ofList fields⟩)
  | .print e => do
    let v ← e.eval callFunction frames
    .look fun w => .string (w.heap.print v)
  | .concat a b => do
    let a ← a.eval callFunction frames
    let b ← b.eval callFunction frames
    let first ← Action.itemsOf a
    let second ← Action.itemsOf b
    .make (·.newArray (first ++ second))
  | .length items => do
    let items ← items.eval callFunction frames
    let items ← Action.itemsOf items
    pure (.number (.ofNat items.length))
  | .field e key => do
    let v ← e.eval callFunction frames
    .look fun w => v.field w.heap key
  | .item e index => do
    let v ← e.eval callFunction frames
    let items ← Action.itemsOf v
    pure (items[index]?.getD .undefined)
  | .push items e => do
    let target ← items.eval callFunction frames
    let v ← e.eval callFunction frames
    .change (·.push target v)
    pure target
  | .sequence es => do
    let values ← Expr.evalAll callFunction frames es
    pure (values.getLast?.getD .undefined)
  | .ite test e yes no => do
    let v ← e.eval callFunction frames
    let holds ← .look fun w => test w.heap v
    if holds then yes.eval callFunction frames else no.eval callFunction frames
  | .function name arity body => .make (·.newFunction ⟨name, arity, none⟩ (.host ⟨body, frames⟩))
  | .raise category message => .fail (.error category message)
  | .attempt e => fun w =>
    match e.eval callFunction frames w with
    | .done v w => .done v w
    | .failed d w => .done (.error d.message) w
    | .exhausted => .exhausted

/-- The values of expressions. -/
def Expr.evalAll (callFunction : Nat → List Value → Action Diagnostic Value)
    (frames : List (List Value)) : List Expr → Action Diagnostic (List Value)
  | [] => pure []
  | e :: rest => do
    let v ← e.eval callFunction frames
    let vs ← Expr.evalAll callFunction frames rest
    pure (v :: vs)

/-- The values of fields. -/
def Expr.evalFields (callFunction : Nat → List Value → Action Diagnostic Value)
    (frames : List (List Value)) :
    List (String × Expr) → Action Diagnostic (List (String × Value))
  | [] => pure []
  | (key, e) :: rest => do
    let v ← e.eval callFunction frames
    let vs ← Expr.evalFields callFunction frames rest
    pure ((key, v) :: vs)

end

/-- Runs a body on arguments. -/
def Body.run (callFunction : Nat → List Value → Action Diagnostic Value) (b : Body)
    (args : List Value) : Action Diagnostic Value :=
  b.expr.eval callFunction (args :: b.frames)

/-- Does what the code of a function says. -/
def Code.run (callFunction : Nat → List Value → Action Diagnostic Value) (code : Code)
    (args : List Value) : Action Diagnostic Value :=
  match code with
  | .host b => b.run callFunction args
  | .applied a => a.apply (Body.run callFunction) args
  | .guarded c => c.call callFunction args

/-- Calls the function with the given index, with calls nested at most `depth` deep. -/
def callFunction : Nat → Nat → List Value → Action Diagnostic Value
  | 0, _, _ => fun _ => .exhausted
  | depth + 1, f, args => fun w =>
    match w.code[f]? with
    | none => .done .undefined w
    | some code => code.run (callFunction depth) args w

/-- Calls a value with arguments, with calls nested at most `depth` deep. -/
def World.call (depth : Nat) (f : Value) (args : List Value) :
    Action Diagnostic Value :=
  f.callWith (callFunction depth) args

end DynamicTypes
