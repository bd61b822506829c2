import DynamicTypes.Checker
import DynamicTypes.Host.Shorthand

/-!
# Workloads

Values and functions of a given size, to measure checking with.
-/

namespace DynamicTypes.Workload

/-- Small arrays of numbers. -/
def numberArrays (count : Nat) : List Literal :=
  (List.range count).map fun i => .array none ((List.range 4).map fun j => .whole (i * j))

/-- An object of objects with one field. -/
def nestedMap (count : Nat) : Literal :=
  .object none none none <| (List.range count).map fun i =>
    ("k" ++ toString i, .object none none none [("n", .whole i)])

/-- The body of a function of two arguments. -/
def binary (op : Expr → Expr → Expr) : Body := ⟨op (.arg 0 0) (.arg 1 0), []⟩

/-- `add :: Number -> Number -> Number`. -/
def add (checked : Bool) : Action Diagnostic Value :=
  { Checker.standard with checked }.define "add" ∅ [Builtin.number, Builtin.number, Builtin.number]
    (binary .add)

/-- `concat :: Semigroup a => a -> a -> a`, over arrays. -/
def concat : Action Diagnostic Value :=
  let a := Ty.var "a" []
  let semigroup : TypeClass := ⟨"Semigroup", "", Builtin.isArray⟩
  Checker.standard.define "concat" (.ofList [("a", [semigroup])]) [a, a, a] (binary .concat)

end DynamicTypes.Workload
