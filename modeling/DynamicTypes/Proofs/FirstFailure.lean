import Mathlib.Data.List.Lex
import DynamicTypes.Proofs.ConcreteTypes
import DynamicTypes.Proofs.DeclarationOrder

/-!
# The failure that is reported is the first one

A check of several values at once goes through its type node by node, and at each node
it looks at everything that the values hold there, whichever of them holds it. So the
failure it reports belongs to the first node that is at fault, not to the first value.

`gather?` says what there is to look at: for a path of indices into the type, the node
at its end and the values that the path leads to, with no regard to what a check would
do on the way. Paths are compared as lists of numbers, and that is the order in which
a tree is walked when a node comes before its parts: a path comes before the paths that
extend it, and otherwise the first index that differs decides.

A field that some object lacks is a fault of the node of the field and not of the
object, so it is found after all faults in the fields before it. That is why `gather?`
takes along whether something is lacking.
-/

namespace DynamicTypes

/-- What comes together at a node of a type. -/
structure Gathered where
  /-- The keys that lead to the node. -/
  keys : List String
  type : Ty
  /-- Whether one of the values one level up lacks the field that the node stands
  for. -/
  lacking : Bool
  /-- What the values one level up hold at the node, in their order. -/
  values : List Value

namespace Gathered

def under (key : String) (g : Gathered) : Gathered := { g with keys := key :: g.keys }

/-- What is wrong at a node: a field that is lacking counts as undefined, and otherwise
it is the first value that does not pass the chain of the type. -/
def fault? (h : Heap) (g : Gathered) : Option Value :=
  if g.lacking then some .undefined else g.values.find? fun v => !g.type.testChain h v

end Gathered

namespace Ty

/-- The components that a check looks into. -/
def inspected : Ty → List (String × Ty)
  | function _ => []
  | t => t.children

/-- What values lead to at the end of a path into their type. -/
def gather? (h : Heap) : Ty → Bool → List Value → List Nat → Option Gathered
  | t, lacking, values, [] => some ⟨[], t, lacking, values⟩
  | t, _, values, i :: path =>
    t.inspected[i]?.bind fun part =>
      (gather? h part.2 (values.any fun v => !t.holdsChild h i v) (values.flatMap (t.extract h i))
        path).map (·.under part.1)

variable {h : Heap} {t : Ty} {lacking : Bool} {values : List Value} {locus : Locus}

/-- The failure that the node at the end of a path calls for. -/
def failureAt? (h : Heap) (t : Ty) (lacking : Bool) (values : List Value)
    (locus : Locus) (path : List Nat) : Option Failure :=
  (t.gather? h lacking values path).bind fun g =>
    (g.fault? h).map fun v => .invalidValue ⟨locus.index, locus.path ++ g.keys⟩ v g.type

theorem failureAt?_eq_none {path : List Nat} :
    failureAt? h t lacking values locus path = none ↔
      ∀ g, t.gather? h lacking values path = some g → g.fault? h = none := by
  rw [failureAt?, Option.bind_eq_none_iff]
  simp only [Option.map_eq_none_iff]

theorem failureAt?_eq_some {path : List Nat} {f : Failure} :
    failureAt? h t lacking values locus path = some f ↔
      ∃ g v, t.gather? h lacking values path = some g ∧ g.fault? h = some v ∧
        f = .invalidValue ⟨locus.index, locus.path ++ g.keys⟩ v g.type := by
  rw [failureAt?, Option.bind_eq_some_iff]
  simp only [Option.map_eq_some_iff, eq_comm (a := f), exists_and_left]

theorem failureAt?_nil :
    failureAt? h t lacking values locus [] =
      if lacking then some (.invalidValue locus .undefined t)
      else (values.find? fun v => !t.testChain h v).map (.invalidValue locus · t) := by
  cases lacking <;> simp [failureAt?, gather?, Gathered.fault?]

theorem failureAt?_cons {i : Nat} {path : List Nat} {part : String × Ty}
    (hpart : t.inspected[i]? = some part) :
    failureAt? h t lacking values locus (i :: path) =
      failureAt? h part.2 (values.any fun v => !t.holdsChild h i v)
        (values.flatMap (t.extract h i)) (locus.child part.1) path := by
  rw [failureAt?, failureAt?, gather?, hpart, Option.bind_some, Option.bind_map]
  congr 1
  funext g
  simp [Gathered.fault?, Gathered.under, Locus.child]

theorem failureAt?_cons_of_none {i : Nat} {path : List Nat}
    (hpart : t.inspected[i]? = none) :
    failureAt? h t lacking values locus (i :: path) = none := by
  rw [failureAt?, gather?, hpart]
  rfl

theorem failureAt?_con {c : Constructor} {supers params : List Ty} {i : Nat}
    (hparam : params[i]? = some t) (path : List Nat) :
    failureAt? h (con c supers params) lacking values locus (i :: path) =
      failureAt? h t false (values.flatMap (c.held i h)) (locus.child (paramKey (i + 1))) path := by
  have hpart : (con c supers params).inspected[i]? = some (paramKey (i + 1), t) := by
    show (keyed 1 params)[i]? = _
    rw [getElem?_keyed, hparam, Nat.add_comm]
    rfl
  have hextract : extract h (con c supers params) i = c.held i h := rfl
  have hthere : (values.any fun v => !holdsChild h (con c supers params) i v) = false :=
    List.any_eq_false.2 fun v _ => Bool.false_ne_true
  rw [failureAt?_cons hpart, hextract, hthere]

theorem failureAt?_record {r : RecordName} {supers : List Ty}
    {fields : List (String × Ty)} {i : Nat} {key : String}
    (hfield : fields[i]? = some (key, t)) (path : List Nat) :
    failureAt? h (record r supers fields) lacking values locus (i :: path) =
      failureAt? h t (!values.all fun v => (v.field? h key).isSome) (values.map (·.field h key))
        (locus.child key) path := by
  have hpart : (record r supers fields).inspected[i]? = some (key, t) := hfield
  have hextract : extract h (record r supers fields) i = fun v => [v.field h key] := by
    funext v
    simp [extract, hfield]
  rw [failureAt?_cons hpart, hextract, ← List.map_eq_flatMap, List.not_all_eq_any_not]
  simp [holdsChild, hfield]

/-- The nodes of a type are inside it. -/
theorem inside_of_gather {path : List Nat} {g : Gathered}
    (hg : t.gather? h lacking values path = some g) : Inside t g.type := by
  induction path generalizing t lacking values g with
  | nil =>
      cases hg
      exact .self
  | cons i path ih =>
      obtain ⟨part, hpart, hg⟩ := Option.bind_eq_some_iff.1 hg
      obtain ⟨g', hg', rfl⟩ := Option.map_eq_some_iff.1 hg
      have hchild : (part.1, part.2) ∈ t.children := by
        cases t with
        | function types => cases hpart
        | _ => exact List.mem_of_getElem? hpart
      have hinside : Inside part.2 g'.type := ih hg'
      exact (Inside.self.child hchild).trans hinside

end Ty

/-! ## The first of several failures -/

/-- Whether a failure is the first of those at the given paths, and there is none if
nothing is reported. -/
def FirstOf (at? : List Nat → Option Failure) : Option Failure → Prop
  | none => ∀ path, at? path = none
  | some f => ∃ path, at? path = some f ∧ ∀ path' < path, at? path' = none

namespace FirstOf

variable {at? : List Nat → Option Failure} {o rest : Option Failure} {n : Nat}

theorem root {f : Failure} (hroot : at? [] = some f) : FirstOf at? (some f) :=
  ⟨[], hroot, fun path' hlt => absurd hlt (List.not_lt_nil path')⟩

/-- The failures in the parts from the one with index `n` on. -/
def inParts (n : Nat) (at? : List Nat → Option Failure) : List Nat → Option Failure
  | [] => none
  | i :: path => if n ≤ i then at? (i :: path) else none

theorem of_parts (hroot : at? [] = none) (hparts : FirstOf (inParts 0 at?) o) :
    FirstOf at? o := by
  have heq : inParts 0 at? = at? := by
    funext path
    cases path with
    | nil => exact hroot.symm
    | cons i path => rw [inParts, if_pos (Nat.zero_le i)]
  rwa [heq] at hparts

theorem no_parts (hnone : ∀ i path, n ≤ i → at? (i :: path) = none) :
    FirstOf (inParts n at?) none := by
  intro path
  cases path with
  | nil => rfl
  | cons i path =>
      rw [inParts]
      split
      · next hle => exact hnone i path hle
      · rfl

/-- The failure of one part comes before those of the parts behind it. -/
theorem part (hpart : FirstOf (fun path => at? (n :: path)) o)
    (hrest : FirstOf (inParts (n + 1) at?) rest) :
    FirstOf (inParts n at?) (o.or rest) := by
  cases o with
  | some f =>
      obtain ⟨path, hat, hbefore⟩ := hpart
      refine ⟨n :: path, (if_pos (Nat.le_refl n)).trans hat, fun path' hlt => ?_⟩
      cases path' with
      | nil => rfl
      | cons j path' =>
          rw [inParts]
          split
          · next hle =>
              rcases List.cons_lt_cons_iff.1 hlt with hj | ⟨rfl, hpath⟩
              · omega
              · exact hbefore path' hpath
          · rfl
  | none =>
      -- nothing in this part, so what is left of a path is a path into the later ones
      have hsame : inParts n at? = inParts (n + 1) at? := by
        funext path
        cases path with
        | nil => rfl
        | cons i path =>
            rw [inParts, inParts]
            rcases Nat.lt_trichotomy i n with hlt | rfl | hgt
            · rw [if_neg (by omega), if_neg (by omega)]
            · rw [if_pos (Nat.le_refl i), if_neg (by omega)]
              exact hpart path
            · rw [if_pos (by omega), if_pos (by omega)]
      rw [hsame]
      exact hrest

/-- There is only one first failure. -/
theorem unique {o' : Option Failure} (ho : FirstOf at? o) (ho' : FirstOf at? o') :
    o = o' := by
  have key : ∀ {f : Failure} {o' : Option Failure}, FirstOf at? (some f) → FirstOf at? o' →
      o' = some f := by
    intro f o' hf ho'
    obtain ⟨path, hat, hbefore⟩ := hf
    cases o' with
    | none => rw [ho' path] at hat; cases hat
    | some f' =>
        obtain ⟨path', hat', hbefore'⟩ := ho'
        rcases lt_trichotomy path path' with hlt | rfl | hgt
        · rw [hbefore' path hlt] at hat
          cases hat
        · exact hat'.symm.trans hat
        · rw [hbefore path' hgt] at hat'
          cases hat'
  cases o with
  | some f => exact (key ho ho').symm
  | none =>
      cases o' with
      | none => rfl
      | some f' => exact key ho' ho

end FirstOf

/-! ## What a check reports -/

theorem Verdict.failure?_andThen (v : Verdict) (next : Bindings → Verdict) :
    (v.andThen next).failure? = v.failure?.or (next v.bindings).failure? := by
  unfold andThen
  split
  · next f hf => rw [hf, Option.some_or]
  · next hf => rw [hf, Option.none_or]

namespace Scope

variable {s : Scope} {t : Ty} {locus : Locus} {values : List Value} {b : Bindings}

/-- Whether checks of a type report the first failure. -/
def ReportsFirst (s : Scope) (t : Ty) : Prop :=
  ∀ (locus : Locus) (values : List Value) (b : Bindings),
    FirstOf (t.failureAt? s.heap false values locus) (satisfy s t locus values b).failure?

/-- A type is looked into when all values pass its chain. -/
theorem firstOf_guardChain {next : Verdict}
    (hnext : FirstOf (FirstOf.inParts 0 (t.failureAt? s.heap false values locus)) next.failure?) :
    FirstOf (t.failureAt? s.heap false values locus)
      (s.guardChain t locus values b next).failure? := by
  unfold guardChain
  split
  · next v hv =>
      refine .root ?_
      rw [Ty.failureAt?_nil, hv]
      rfl
  · next hnone =>
      refine .of_parts ?_ hnext
      rw [Ty.failureAt?_nil, hnone]
      rfl

theorem reportsFirst_leaf (ht : t.isLeaf = true) : s.ReportsFirst t := by
  intro locus values b
  have hparts : FirstOf (FirstOf.inParts 0 (t.failureAt? s.heap false values locus)) none := by
    refine .no_parts fun i path _ => Ty.failureAt?_cons_of_none ?_
    cases t with
    | con | record | var => cases ht
    | _ => rfl
  cases t with
  | con | record | var => cases ht
  | unknown | any =>
      rw [satisfy]
      refine .of_parts ?_ hparts
      rw [Ty.failureAt?_nil]
      simp [Ty.testChain, Ty.test]
  | function | enumeration | inconsistent | noArguments =>
      rw [satisfy]
      · exact firstOf_guardChain hparts
      all_goals
        intros
        contradiction

/-- What is held at the parameters is checked parameter by parameter. -/
theorem firstOf_satisfyParams {c : Constructor} {supers params ts : List Ty} {n : Nat}
    (hts : ∀ t ∈ ts, s.ReportsFirst t) (hdrop : params.drop n = ts) :
    FirstOf (FirstOf.inParts n ((Ty.con c supers params).failureAt? s.heap false values locus))
      (satisfyParams s (fun i => values.flatMap (c.held i s.heap)) n ts locus b).failure? := by
  induction ts generalizing n b with
  | nil =>
      rw [satisfyParams]
      refine .no_parts fun i path hle => Ty.failureAt?_cons_of_none ?_
      have hlen := List.drop_eq_nil_iff.1 hdrop
      show (Ty.keyed 1 params)[i]? = none
      rw [Ty.getElem?_keyed, List.getElem?_eq_none (by omega)]
      rfl
  | cons t ts ih =>
      rw [List.forall_mem_cons] at hts
      obtain ⟨hparam, hdrop⟩ := of_drop_eq_cons hdrop
      rw [satisfyParams, Verdict.failure?_andThen]
      refine .part ?_ (ih hts.2 hdrop)
      simp only [Ty.failureAt?_con hparam]
      exact hts.1 _ _ b

/-- A field that is lacking is reported where the field would be checked. -/
theorem failure?_satisfyFields_cons {key : String} {fields : List (String × Ty)} :
    (satisfyFields s values ((key, t) :: fields) locus b).failure? =
      (if values.all fun v => (v.field? s.heap key).isSome then
        (satisfy s t (locus.child key) (values.map (·.field s.heap key)) b).failure?
      else some (.invalidValue (locus.child key) .undefined t)).or
        (satisfyFields s values fields locus
          (satisfy s t (locus.child key) (values.map (·.field s.heap key)) b).bindings
          ).failure? := by
  rw [satisfyFields]
  split
  · exact Verdict.failure?_andThen _ _
  · rfl

theorem firstOf_satisfyFields {r : RecordName} {supers : List Ty}
    {fields rest : List (String × Ty)} {n : Nat}
    (hrest : ∀ f ∈ rest, s.ReportsFirst f.2) (hdrop : fields.drop n = rest) :
    FirstOf (FirstOf.inParts n ((Ty.record r supers fields).failureAt? s.heap false values locus))
      (satisfyFields s values rest locus b).failure? := by
  induction rest generalizing n b with
  | nil =>
      rw [satisfyFields]
      refine .no_parts fun i path hle => Ty.failureAt?_cons_of_none ?_
      have hlen := List.drop_eq_nil_iff.1 hdrop
      show fields[i]? = none
      exact List.getElem?_eq_none (by omega)
  | cons f rest ih =>
      obtain ⟨key, t⟩ := f
      rw [List.forall_mem_cons] at hrest
      obtain ⟨hfield, hdrop⟩ := of_drop_eq_cons hdrop
      rw [failure?_satisfyFields_cons]
      refine .part ?_ (ih hrest.2 hdrop)
      simp only [Ty.failureAt?_record hfield]
      split
      · next hall =>
          rw [hall]
          exact hrest.1 _ _ b
      · next hall =>
          refine .root ?_
          rw [Ty.failureAt?_nil, Bool.eq_false_iff.2 hall]
          rfl

/-- Where there are no variables, checks report the first failure. -/
theorem reportsFirst (ht : t.vars = []) : s.ReportsFirst t := by
  induction t with
  | con c supers params _ ih =>
      intro locus values b
      rw [Ty.vars, Ty.varsAll_eq_nil] at ht
      rw [satisfy]
      refine firstOf_guardChain ?_
      split
      · next hempty =>
          rw [List.isEmpty_iff.1 hempty]
          exact .no_parts fun i path _ => Ty.failureAt?_cons_of_none rfl
      · rw [Verdict.failure?_andThen]
        exact firstOf_satisfyParams (fun p hp => ih p hp (ht p hp)) List.drop_zero
  | record r supers fields _ ih =>
      intro locus values b
      rw [Ty.vars, Ty.varsFields_eq_nil] at ht
      rw [satisfy]
      refine firstOf_guardChain ?_
      split
      · next hempty =>
          rw [List.isEmpty_iff.1 hempty]
          exact .no_parts fun i path _ => Ty.failureAt?_cons_of_none rfl
      · rw [Verdict.failure?_andThen]
        exact firstOf_satisfyFields (fun f hf => ih f hf (ht f hf)) List.drop_zero
  | var name params => cases ht
  | _ => exact reportsFirst_leaf rfl

end Scope

namespace Ty

/-- A value that does not satisfy a type without variables fails at the first node of
the type, a node before its parts and these in order, at which an object lacks the field
that the node stands for or a value that is held there does not pass the chain of its
type; what is reported is undefined in the one case and the first such value in the
other, with the position and the type of the node. It fails whenever there is such a
node. The parts of a record are in the order of their names if its fields are sorted, as
declarations sort them. -/
theorem failure?_first {t : Ty} (ht : t.vars = []) (h : Heap) (env : List Ty)
    (v : Value) :
    (t.failure? h env v = none ↔
      ∀ path g, t.gather? h false [v] path = some g → g.fault? h = none) ∧
    (∀ f, t.failure? h env v = some f ↔
      ∃ path g bad, t.gather? h false [v] path = some g ∧ g.fault? h = some bad ∧
        f = .invalidValue ⟨0, g.keys⟩ bad g.type ∧
        ∀ path' < path, ∀ g', t.gather? h false [v] path' = some g' → g'.fault? h = none) ∧
    (t.FieldsSorted → ∀ path g, t.gather? h false [v] path = some g →
      ∀ r supers fields, g.type = .record r supers fields →
        fields.Pairwise fun a b => compare a.1 b.1 = .lt) := by
  have hfirst : FirstOf (t.failureAt? h false [v] (.root 0)) (t.failure? h env v) :=
    Scope.reportsFirst (s := ⟨h, env, ∅⟩) ht _ _ _
  have hiff : ∀ o, t.failure? h env v = o ↔ FirstOf (t.failureAt? h false [v] (.root 0)) o :=
    fun o => ⟨fun heq => heq ▸ hfirst, fun ho => hfirst.unique ho⟩
  refine ⟨?_, fun f => ?_, fun hsorted path g hg r supers fields hrecord => ?_⟩
  · rw [hiff, FirstOf]
    exact forall_congr' fun path => failureAt?_eq_none
  · rw [hiff, FirstOf]
    refine exists_congr fun path => ?_
    simp only [failureAt?_eq_some, failureAt?_eq_none, ← exists_and_right, and_assoc]
    rfl
  · exact hsorted r supers fields (hrecord ▸ inside_of_gather hg)

/-- The objects with flags and an array of entries, which have a boolean and `null`. -/
def table : Except DeclarationError Ty := do
  let entry ← declareRecord [("y", Builtin.null), ("x", Builtin.boolean)]
  declareRecord [("rows", Builtin.array entry), ("flags", Builtin.array Builtin.boolean)]

/-- A table whose first entry has no `y` and whose second has no boolean at `x`. -/
def faultyTable : Heap :=
  ⟨#[[], [.object 0, .object 1]],
    #[⟨none, none, .ofList [("x", .bool true)]⟩,
      ⟨none, none, .ofList [("x", .null), ("y", .null)]⟩,
      ⟨none, none, .ofList [("flags", .array 0), ("rows", .array 1)]⟩]⟩

/-- The second entry is reported, because the node of `x` comes before that of `y`. -/
theorem failure?_first_table :
    ∃ t, table = .ok t ∧ t.vars = [] ∧
      ∃ path g, t.gather? faultyTable false [.object 2] path = some g ∧
        g.keys = ["rows", "$1", "x"] ∧ g.fault? faultyTable = some .null ∧
        ∀ path' < path, ∀ g', t.gather? faultyTable false [.object 2] path' = some g' →
          g'.fault? faultyTable = none := by
  obtain ⟨t, htable⟩ : ∃ t, table = .ok t := ⟨_, rfl⟩
  have ht : t.vars = [] := by
    cases htable
    rfl
  have hfails : t.failure? faultyTable Builtin.environment (.object 2) =
      some (.invalidValue ⟨0, ["rows", "$1", "x"]⟩ .null Builtin.boolean) := by
    cases htable
    rfl
  obtain ⟨path, g, bad, hg, hbad, hf, hbefore⟩ :=
    ((failure?_first ht faultyTable Builtin.environment (.object 2)).2.1 _).1 hfails
  injection hf with hlocus hvalue
  injection hlocus with _ hkeys
  exact ⟨t, htable, ht, path, g, hg, hkeys.symm, hvalue ▸ hbad, hbefore⟩

end Ty

end DynamicTypes
