import DynamicTypes.Host.Evaluation
import DynamicTypes.Proofs.Bindings
import DynamicTypes.Proofs.Slots

/-!
# The functions that code can name

Functions are referred to by number, and code does not compute numbers. A function that an
expression, a value or the code of a function names is written down in it, so what code may
come to name can be read off: what it names itself, what it is given, what it finds in the
heap and under labels, and what the functions name that it can call.
-/

namespace DynamicTypes

/-! ## Syntax -/

/-- The function that a value is. -/
def Value.refs : Value → List Nat
  | .function f _ => [f]
  | _ => []

mutual

/-- The functions that a literal names. -/
def Literal.refs : Literal → List Nat
  | .value v => v.refs
  | .array _ items => Literal.refsAll items
  | .object _ _ _ fields => Literal.refsFields fields
  | .function _ body => body.refs
  | .definition _ types _ body env _ =>
    TypeExpr.refsAll types ++ (TypeExpr.refsAll env ++ body.refs)
  | .reference _ => []
  | .labelled _ l => l.refs

def Literal.refsAll : List Literal → List Nat
  | [] => []
  | l :: rest => l.refs ++ Literal.refsAll rest

def Literal.refsFields : List (String × Literal) → List Nat
  | [] => []
  | (_, l) :: rest => l.refs ++ Literal.refsFields rest

def TypeExpr.refs : TypeExpr → List Nat
  | .type _ => []
  | .con _ supers params => TypeExpr.refsAll supers ++ TypeExpr.refsAll params
  | .enumeration _ _ members => Literal.refsAll members
  | .record fields => TypeExpr.refsFields fields
  | .namedRecord _ _ supers fields => TypeExpr.refsAll supers ++ TypeExpr.refsFields fields
  | .function types => TypeExpr.refsAll types
  | .bareFunction types => TypeExpr.refsAll types
  | .var _ params => TypeExpr.refsAll params

def TypeExpr.refsAll : List TypeExpr → List Nat
  | [] => []
  | e :: rest => e.refs ++ TypeExpr.refsAll rest

def TypeExpr.refsFields : List (String × TypeExpr) → List Nat
  | [] => []
  | (_, e) :: rest => e.refs ++ TypeExpr.refsFields rest

def Expr.refs : Expr → List Nat
  | .arg _ _ => []
  | .allArgs => []
  | .literal l => l.refs
  | .add a b => a.refs ++ b.refs
  | .call f args => f.refs ++ Expr.refsAll args
  | .map f items => f.refs ++ items.refs
  | .fold f initial items => f.refs ++ (initial.refs ++ items.refs)
  | .array items => Expr.refsAll items
  | .object fields => Expr.refsFields fields
  | .print e => e.refs
  | .concat a b => a.refs ++ b.refs
  | .length items => items.refs
  | .field e _ => e.refs
  | .item e _ => e.refs
  | .push items e => items.refs ++ e.refs
  | .sequence es => Expr.refsAll es
  | .ite _ e yes no => e.refs ++ (yes.refs ++ no.refs)
  | .function _ _ body => body.refs
  | .raise _ _ => []
  | .attempt e => e.refs

def Expr.refsAll : List Expr → List Nat
  | [] => []
  | e :: rest => e.refs ++ Expr.refsAll rest

def Expr.refsFields : List (String × Expr) → List Nat
  | [] => []
  | (_, e) :: rest => e.refs ++ Expr.refsFields rest

end

/-- Whether all functions that are named satisfy a condition. -/
def Names (ok : Nat → Prop) (refs : List Nat) : Prop := ∀ f ∈ refs, ok f

namespace Names

variable {ok : Nat → Prop} {refs refs' : List Nat}

theorem left (h : Names ok (refs ++ refs')) : Names ok refs := fun f hf =>
  h f (List.mem_append_left _ hf)

theorem right (h : Names ok (refs ++ refs')) : Names ok refs' := fun f hf =>
  h f (List.mem_append_right _ hf)

theorem nil : Names ok [] := nofun

end Names

/-! ## Values and code -/

/-- Whether a value is no function, or one that satisfies a condition. -/
def Value.Within (ok : Nat → Prop) (v : Value) : Prop := Names ok v.refs

def Body.Within (ok : Nat → Prop) (b : Body) : Prop :=
  Names ok b.expr.refs ∧ ∀ frame ∈ b.frames, ∀ v ∈ frame, v.Within ok

def Application.Within (ok : Nat → Prop) (a : Application) : Prop :=
  a.body.Within ok ∧ ∀ v, some v ∈ a.slots → v.Within ok

def Code.Within (ok : Nat → Prop) : Code → Prop
  | .host b => b.Within ok
  | .applied a => a.Within ok
  | .guarded c => ok c.inner

section Within

variable {ok ok' : Nat → Prop} (hok : ∀ f, ok f → ok' f)

include hok

theorem Names.mono {refs : List Nat} (h : Names ok refs) : Names ok' refs := fun f hf =>
  hok f (h f hf)

theorem Body.Within.mono {b : Body} (h : b.Within ok) : b.Within ok' :=
  ⟨h.1.mono hok, fun frame hframe v hv => (h.2 frame hframe v hv).mono hok⟩

theorem Code.Within.mono {code : Code} (h : code.Within ok) : code.Within ok' := by
  cases code with
  | host b => exact Body.Within.mono hok h
  | applied a => exact ⟨Body.Within.mono hok h.1, fun v hv => (h.2 v hv).mono hok⟩
  | guarded c => exact hok _ h

end Within

theorem within_getD {ok : Nat → Prop} {vs : List Value} (hvs : ∀ v ∈ vs, v.Within ok)
    (i : Nat) :
    (vs[i]?.getD .undefined).Within ok := by
  cases hv : vs[i]? with
  | none => exact .nil
  | some v => exact hvs v (List.mem_of_getElem? hv)

namespace Application

variable {ok : Nat → Prop}

theorem within_put {slots : List (Option Value)}
    (hslots : ∀ v, some v ∈ slots → v.Within ok) {ps : List (Value × Nat)}
    (hps : ∀ p ∈ ps, p.1.Within ok) :
    ∀ v, some v ∈ put slots ps → v.Within ok := by
  induction ps generalizing slots with
  | nil => exact hslots
  | cons p ps ih =>
      rw [List.forall_mem_cons] at hps
      rw [put, List.foldl_cons, ← put]
      refine ih (fun v hv => ?_) hps.2
      rcases List.mem_or_eq_of_mem_set hv with hv | hv
      · exact hslots v hv
      · cases hv
        exact hps.1

theorem Within.advance {a : Application} (ha : a.Within ok) {ps : List (Value × Nat)}
    (hps : ∀ p ∈ ps, p.1.Within ok) (state? : Option Nat) :
    (a.advance ps state?).Within ok :=
  ⟨ha.1, within_put ha.2 hps⟩

theorem within_taken (slots : List Nat) {args : List Value}
    (hargs : ∀ v ∈ args, v.Within ok) :
    ∀ p ∈ taken slots args, p.1.Within ok :=
  fun p hp => hargs p.1 (List.of_mem_zip (List.mem_filter.1 hp).1).1

theorem within_arrived (slots : List Nat) {groups : List (List Value)}
    (hgroups : ∀ args ∈ groups, ∀ v ∈ args, v.Within ok) :
    ∀ p ∈ arrived slots groups, p.1.Within ok := by
  induction groups generalizing slots with
  | nil => exact List.forall_mem_nil _
  | cons args groups ih =>
      rw [List.forall_mem_cons] at hgroups
      exact List.forall_mem_append.2 ⟨within_taken slots hgroups.1, ih _ hgroups.2⟩

theorem Within.arguments {a : Application} (ha : a.Within ok) :
    ∀ v ∈ a.arguments, v.Within ok := by
  intro v hv
  obtain ⟨slot, hslot, rfl⟩ := List.mem_filterMap.1 hv
  exact ha.2 v hslot

end Application

/-! ## Worlds -/

/-- Whether the functions that are named anywhere in a world satisfy a condition; what
is named by functions that do not satisfy it themselves does not count. -/
structure World.Tidy (ok : Nat → Prop) (w : World) : Prop where
  arrays : ∀ items ∈ w.heap.arrays, ∀ v ∈ items, v.Within ok
  objects : ∀ o ∈ w.heap.objects, ∀ p ∈ o.fields.entries, p.2.Within ok
  labels : ∀ p ∈ w.labels.entries, p.2.Within ok
  code : ∀ {f : Nat} {code : Code}, ok f → w.code[f]? = some code → code.Within ok

/-- Whether all functions that are named anywhere in a world are there. -/
def World.Bounded (w : World) : Prop := w.Tidy (· < w.code.size)

theorem SortedMap.mem_ofList {κ α : Type} [Ord κ] [Std.TransOrd κ] [Std.LawfulEqOrd κ]
    {pairs : List (κ × α)} {p : κ × α} (hp : p ∈ (SortedMap.ofList pairs).entries) :
    p ∈ pairs := by
  have hfold : ∀ (pairs : List (κ × α)) (m : SortedMap κ α),
      p ∈ (pairs.foldl (fun m p => m.insert p.1 p.2) m).entries → p ∈ m.entries ∨ p ∈ pairs := by
    intro pairs
    induction pairs with
    | nil => exact fun m hp => .inl hp
    | cons q pairs ih =>
        intro m hp
        rcases ih _ hp with hp | hp
        · rcases SortedMap.mem_insertEntry hp with rfl | hp
          · exact .inr List.mem_cons_self
          · exact .inl hp
        · exact .inr (List.mem_cons_of_mem _ hp)
  exact (hfold pairs .empty hp).resolve_left List.not_mem_nil

namespace World.Tidy

variable {ok : Nat → Prop} {w : World}

theorem items (h : w.Tidy ok) (v : Value) :
    ∀ x ∈ (v.items? w.heap).getD [], x.Within ok := by
  cases v with
  | array a =>
      intro x hx
      change x ∈ w.heap.arrays[a]?.getD [] at hx
      cases harray : w.heap.arrays[a]? with
      | none =>
          rw [harray] at hx
          cases hx
      | some items =>
          rw [harray] at hx
          exact h.arrays items (Array.mem_of_getElem? harray) x hx
  | _ => exact nofun

theorem fields (h : w.Tidy ok) (o : Nat) :
    ∀ p ∈ (w.heap.object o).fields.entries, p.2.Within ok := by
  unfold Heap.object
  cases hobject : w.heap.objects[o]? with
  | none => exact nofun
  | some object => exact h.objects object (Array.mem_of_getElem? hobject)

theorem find? {fields : SortedMap String Value}
    (hfields : ∀ p ∈ fields.entries, p.2.Within ok) (key : String) :
    ((fields.find? key).getD .undefined).Within ok := by
  cases hfind : fields.find? key with
  | none => exact .nil
  | some v => exact hfields (key, v) (SortedMap.find?_eq_some_iff.1 hfind)

theorem field (h : w.Tidy ok) (v : Value) (key : String) :
    (v.field w.heap key).Within ok := by
  cases v with
  | object o => exact find? (h.fields o) key
  | _ => exact .nil

end World.Tidy

end DynamicTypes
