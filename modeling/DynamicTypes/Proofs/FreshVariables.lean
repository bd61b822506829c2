import DynamicTypes.Proofs.Bindings
import DynamicTypes.Proofs.Classification
import DynamicTypes.Proofs.Resolution
import DynamicTypes.Host.Predicate

/-!
# The first value of a variable

The types of a value are found in two places. Classification finds them for a
reader, and a check finds them for a variable that it meets for the first time. Both
fill the open parameters of the entries that accept the value, both drop what is
inconsistent further in, and both make a type of the tag of an object that they have
no type for. They do the last two in opposite orders.

So they agree unless an entry accepts a tagged object whose contents do not agree.
Classification then has types for the object, all of them inconsistent, and none is
left in the end. The check has dropped them by the time it asks whether there are
any, and takes the object as one of a kind that the environment does not know.
-/

namespace DynamicTypes

namespace Ty

theorem filter_addUnique {p : Ty → Bool} (hp : ∀ t u, (t == u) = true → p t = p u)
    (ts : List Ty) (t : Ty) : (addUnique ts t).filter p =
      if p t = true then addUnique (ts.filter p) t else ts.filter p := by
  have hcontains (ht : p t = true) : (ts.filter p).contains t = ts.contains t := by
    rw [Bool.eq_iff_iff, List.contains_iff_exists_mem_beq, List.contains_iff_exists_mem_beq]
    constructor
    · rintro ⟨u, hu, heq⟩
      exact ⟨u, (List.mem_filter.1 hu).1, heq⟩
    · rintro ⟨u, hu, heq⟩
      exact ⟨u, List.mem_filter.2 ⟨hu, hp t u heq ▸ ht⟩, heq⟩
  unfold addUnique
  by_cases ht : p t = true
  · rw [if_pos ht, hcontains ht]
    split
    · rfl
    · rw [List.filter_append, List.filter_cons_of_pos ht, List.filter_nil]
  · rw [if_neg ht]
    split
    · rfl
    · rw [List.filter_append, List.filter_cons_of_neg ht, List.filter_nil, List.append_nil]

/-- Repetitions can be dropped before or after a choice that does not tell equal types
apart. -/
theorem filter_unique {p : Ty → Bool} (hp : ∀ t u, (t == u) = true → p t = p u)
    (ts : List Ty) :
    (unique ts).filter p = unique (ts.filter p) := by
  have go : ∀ (ts acc : List Ty),
      (ts.foldl addUnique acc).filter p = (ts.filter p).foldl addUnique (acc.filter p) := by
    intro ts
    induction ts with
    | nil => exact fun _ => rfl
    | cons t ts ih =>
        intro acc
        rw [List.foldl_cons, ih, filter_addUnique hp, List.filter_cons]
        split
        · rfl
        · rfl
  exact go ts []

end Ty

namespace Classification

variable {h : Heap} {env : List Ty} {v : Value}

/-- The types of one value by itself, whether consistent or not. -/
def typesOf (h : Heap) (env : List Ty) (v : Value) : List Ty :=
  classify h env (h.size + 2) [] v

theorem typesOf_eq (h : Heap) (env : List Ty) (v : Value) :
    typesOf h env v = Ty.unique ((env.filter (·.isMember h v)).flatMap (expand h env 0 · v)) := by
  have hseen : (v.identity?.any fun r => ([] : List Ref).contains r) = false := by
    cases v.identity? <;> rfl
  rw [typesOf, classify, if_neg (by rw [hseen]; exact Bool.false_ne_true)]
  rw [List.append_nil]
  rfl

theorem commonTag_singleton (h : Heap) (v : Value) : commonTag? h [v] = v.tag? h := by
  rw [commonTag?]
  cases v.tag? h <;> rfl

/-- Classification asks for a tag where a value has no types, and drops inconsistent
ones where it has. -/
theorem strict_singleton (h : Heap) (env : List Ty) (v : Value) :
    strict h env [v] =
      if typesOf h env v = [] then ((v.tag? h).map Ty.foreign).toList
      else (sort env (typesOf h env v)).filter (·.isConsistent) := by
  rw [strict, determine, determineBy_eq, commonTag_singleton]
  show List.filter _ (if typesOf h env v = [] then _ else sort env (typesOf h env v)) = _
  split
  · cases v.tag? h <;> rfl
  · rfl

end Classification

namespace Scope

open Classification (strict typesOf)

variable {s : Scope} {name : String} {locus : Locus} {v : Value} {b : Bindings}

theorem refine_env (s : Scope) (v : Value) :
    s.refine 0 s.env v = (typesOf s.heap s.env v).filter (·.isConsistent) := by
  rw [Classification.typesOf_eq, Ty.filter_unique fun _ _ => Ty.isConsistent_of_beq,
    List.filter_flatMap]
  rfl

/-- A variable met for the first time may stand for any entry that accepts all values,
and asks for a tag where none does. -/
theorem narrowed_of_fresh (hnew : b.contains name = false) (values : List Value) :
    s.narrowed name 0 values b =
      if values.foldl (s.refine 0) s.env = [] then
        ((Classification.commonTag? s.heap values).map Ty.foreign).toList
      else values.foldl (s.refine 0) s.env := by
  have htypes : b.types? name = none := by
    rwa [Bindings.contains_eq, Option.isSome_eq_false_iff, Option.isNone_iff_eq_none] at hnew
  have hcandidates : s.candidates 0 = s.env := by simp [candidates]
  simp [narrowed, htypes, hcandidates, hnew]

/-- A check drops inconsistent types first, and then asks for a tag where none is
left. -/
theorem narrowed_fresh (hnew : b.contains name = false) :
    s.narrowed name 0 [v] b =
      if (typesOf s.heap s.env v).filter (·.isConsistent) = [] then
        ((v.tag? s.heap).map Ty.foreign).toList
      else (typesOf s.heap s.env v).filter (·.isConsistent) := by
  rw [narrowed_of_fresh hnew, Classification.commonTag_singleton, List.foldl_cons, List.foldl_nil,
    refine_env]

/-- The types that a fresh variable takes from a value are its strict types, unless it
has none. -/
theorem perm_narrowed_fresh (hnew : b.contains name = false)
    (hagree : v.tag? s.heap = none ∨ strict s.heap s.env [v] ≠ []) :
    (s.narrowed name 0 [v] b).Perm (strict s.heap s.env [v]) := by
  have hperm : ((Classification.sort s.env (typesOf s.heap s.env v)).filter (·.isConsistent)).Perm
      ((typesOf s.heap s.env v).filter (·.isConsistent)) :=
    Classification.perm_sort.filter _
  rw [narrowed_fresh hnew]
  rw [Classification.strict_singleton] at hagree ⊢
  by_cases hnone : typesOf s.heap s.env v = []
  · simp [hnone]
  · rw [if_neg hnone] at hagree ⊢
    split
    · next hdropped =>
        -- every type of the value is inconsistent, so there is no tag to fall back on
        rw [hdropped] at hperm
        have htag : v.tag? s.heap = none :=
          hagree.resolve_right fun hne => hne hperm.eq_nil
        rw [htag, hperm.eq_nil]
        exact .refl _
    · exact hperm.symm

theorem narrowed_fresh_of_tag (hnew : b.contains name = false) {tag : String}
    (htag : v.tag? s.heap = some tag) (hnone : strict s.heap s.env [v] = []) :
    s.narrowed name 0 [v] b = [.foreign tag] := by
  rw [Classification.strict_singleton, htag] at hnone
  rw [narrowed_fresh hnew, htag, if_pos]
  · rfl
  · split at hnone
    · cases hnone
    · have hperm : (Classification.sort s.env (typesOf s.heap s.env v)).Perm _ :=
        Classification.perm_sort
      exact ((hperm.filter _).symm.trans (by rw [hnone])).eq_nil

section Unconstrained

variable {values : List Value} (hclasses : (s.constraints.find? name).getD [] = [])
  (hvalues : values ≠ [])

include hclasses hvalues

/-- Without type classes, a variable takes what leaves it a type. -/
theorem succeeds_satisfy_unconstrained (b' : Bindings) :
    (satisfy s (.var name []) locus values b).Succeeds b' ↔
      s.narrowed name 0 values b ≠ [] ∧
        b' = (b.observe name locus values).bind name (s.narrowed name 0 values b) := by
  rw [succeeds_satisfy_var]
  simp [succeeds_satisfyVariable, succeeds_satisfyParams_nil, hclasses, hvalues]

theorem failure_satisfy_unconstrained :
    (satisfy s (.var name []) locus values b).failure? = none ↔
      s.narrowed name 0 values b ≠ [] := by
  constructor
  · intro hpassed
    exact ((succeeds_satisfy_unconstrained hclasses hvalues _).1 ⟨hpassed, rfl⟩).1
  · intro hne
    exact ((succeeds_satisfy_unconstrained hclasses hvalues _).2 ⟨hne, rfl⟩).1

theorem types_satisfy_unconstrained
    (hpassed : (satisfy s (.var name []) locus values b).failure? = none) :
    (satisfy s (.var name []) locus values b).bindings.types? name =
      some (s.narrowed name 0 values b) := by
  rw [((succeeds_satisfy_unconstrained hclasses hvalues _).1 ⟨hpassed, rfl⟩).2,
    Bindings.types?_bind, if_pos rfl]

end Unconstrained

/-- Whether a check takes a value just when it has a strict type, and then binds the
variable to the strict types of the value. -/
def TakesStrictTypes (s : Scope) (name : String) (locus : Locus) (v : Value)
    (b : Bindings) :
    Prop :=
  ((satisfy s (.var name []) locus [v] b).failure? = none ↔ strict s.heap s.env [v] ≠ []) ∧
  ((satisfy s (.var name []) locus [v] b).failure? = none →
    ∃ types, (satisfy s (.var name []) locus [v] b).bindings.types? name = some types ∧
      types.Perm (strict s.heap s.env [v]))

/-- A variable without type classes takes the strict types of its first value, except
from an object that has a tag and no strict type: such an object is taken as well, and
the variable is bound to the type of its tag.

Strict types are those found within `h.size + 2` levels. That these are all is known
only of environments whose types find nothing but what the heap holds
(`Ty.YieldsWithin`). In others a value below the last level has no types, where a
classification without a bound would go on. -/
theorem takesStrictTypes_iff (hclasses : (s.constraints.find? name).getD [] = [])
    (hnew : b.contains name = false) :
    (s.TakesStrictTypes name locus v b ↔
      v.tag? s.heap = none ∨ strict s.heap s.env [v] ≠ []) ∧
    ∀ tag, v.tag? s.heap = some tag → strict s.heap s.env [v] = [] →
      (satisfy s (.var name []) locus [v] b).failure? = none ∧
      (satisfy s (.var name []) locus [v] b).bindings.types? name = some [.foreign tag] := by
  have htagged : ∀ tag, v.tag? s.heap = some tag → strict s.heap s.env [v] = [] →
      (satisfy s (.var name []) locus [v] b).failure? = none ∧
      (satisfy s (.var name []) locus [v] b).bindings.types? name = some [.foreign tag] := by
    intro tag htag hnone
    have hnarrowed := narrowed_fresh_of_tag (b := b) hnew htag hnone
    have hpassed : (satisfy s (.var name []) locus [v] b).failure? = none := by
      rw [failure_satisfy_unconstrained hclasses (List.cons_ne_nil _ _), hnarrowed]
      exact List.cons_ne_nil _ _
    rw [types_satisfy_unconstrained hclasses (List.cons_ne_nil _ _) hpassed, hnarrowed]
    exact ⟨hpassed, rfl⟩
  refine ⟨⟨?_, ?_⟩, htagged⟩
  · intro htakes
    cases htag : v.tag? s.heap with
    | none => exact .inl rfl
    | some tag =>
        refine .inr fun hnone => ?_
        exact htakes.1.1 (htagged tag htag hnone).1 hnone
  · intro hagree
    have hperm := perm_narrowed_fresh (b := b) hnew hagree
    have hvalues : [v] ≠ [] := List.cons_ne_nil _ _
    refine ⟨?_, fun hpassed => ⟨_, types_satisfy_unconstrained hclasses hvalues hpassed, hperm⟩⟩
    rw [failure_satisfy_unconstrained hclasses hvalues, ← List.length_pos_iff,
      ← List.length_pos_iff, hperm.length_eq]

/-- An environment with a type of boxes, which are objects with a tag and may hold
anything. -/
def boxes : List Ty :=
  [.con ⟨"Box", "", Test.tag "Box", [Extractor.values]⟩ [] [.unknown], Builtin.null,
    Builtin.boolean]

/-- Two boxes, one with `null` in it and one with `null` and `true`. -/
def twoBoxes : Heap :=
  ⟨#[], #[⟨some "Box", none, .ofList [("a", .null)]⟩,
    ⟨some "Box", none, .ofList [("a", .null), ("b", .bool true)]⟩]⟩

/-- A variable whose first value is the box of `null` stands for a box of `null`. -/
theorem takesStrictTypes_iff_box :
    ((∅ : Constraints).find? "a").getD [] = [] ∧ (∅ : Bindings).contains "a" = false ∧
    (strict twoBoxes boxes [.object 0]).map Ty.format = ["Box Null"] ∧
    TakesStrictTypes ⟨twoBoxes, boxes, ∅⟩ "a" (.root 0) (.object 0) ∅ := by
  have hstrict : (strict twoBoxes boxes [.object 0]).map Ty.format = ["Box Null"] := by
    decide +kernel
  refine ⟨rfl, rfl, hstrict, (takesStrictTypes_iff rfl rfl).1.2 (.inr fun hnone => ?_)⟩
  rw [hnone] at hstrict
  cases hstrict

/-- A check can take a value that has no strict type: the box of `null` and `true` is
taken as an object of an unknown kind. -/
theorem not_takesStrictTypes :
    ¬ ∀ (s : Scope) (name : String) (locus : Locus) (v : Value) (b : Bindings),
      (s.constraints.find? name).getD [] = [] → b.contains name = false →
      ((satisfy s (.var name []) locus [v] b).failure? = none ↔ strict s.heap s.env [v] ≠ []) := by
  intro hall
  have hiff := hall ⟨twoBoxes, boxes, ∅⟩ "a" (.root 0) (.object 1) ∅ rfl rfl
  have hstrict : (strict twoBoxes boxes [.object 1]).isEmpty = true := by decide +kernel
  have hpassed : (satisfy ⟨twoBoxes, boxes, ∅⟩ (.var "a" []) (.root 0) [.object 1]
      ∅).failure?.isNone = true := by decide +kernel
  exact hiff.1 (Option.isNone_iff_eq_none.1 hpassed) (List.isEmpty_iff.1 hstrict)

end Scope

end DynamicTypes
