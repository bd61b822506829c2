import DynamicTypes.Proofs.FreshVariables
import DynamicTypes.Proofs.Narrowing
import DynamicTypes.Proofs.Rejections

/-!
# Values together and values one by one

The elements of an array meet a type variable together, and the arguments of a function
meet it one by one. Either way a variable that has types is narrowed by each value in turn,
so it makes no difference where one check ends and the next begins.

The first check is another matter, since it may make a type of a tag. It asks all of its
values for the tag if they come together, and only the first one if they come singly, and
then the type it has made has to refuse what has not got the tag. For both to come to the
same, a tagged value that comes first must leave no other types, which is so if no entry of
the environment accepts it.
-/

namespace DynamicTypes

/-- Whether a check passes just when there are types for a variable, and then leaves it
with these. -/
def Verdict.Leaves (v : Verdict) (name : String) (types : List Ty) : Prop :=
  (v.failure? = none ↔ types ≠ []) ∧ (v.failure? = none → v.bindings.types? name = some types)

namespace Scope

variable {s : Scope} {name : String} {b : Bindings}

/-- Checks values one by one, each at a position of its own. -/
def satisfyEach (s : Scope) (t : Ty) : List (Locus × Value) → Bindings → Verdict
  | [], b => ⟨b, [], none⟩
  | p :: rest, b => (satisfy s t p.1 [p.2] b).andThen (satisfyEach s t rest)

/-! ## The type of a tag -/

theorem refine_foreign (s : Scope) (tag : String) (v : Value) :
    s.refine 0 [.foreign tag] v = if v.tag? s.heap = some tag then [.foreign tag] else [] := by
  have hmember : (Ty.foreign tag).isMember s.heap v = (v.tag? s.heap == some tag) := by
    rw [Bool.eq_iff_iff, Ty.foreign, Ty.isMember_con, Ty.testChain_iff]
    simp [Ty.supertypes, Ty.test]
  rw [refine, List.filter_cons, hmember]
  by_cases htag : v.tag? s.heap = some tag
  · simp only [htag, beq_self_eq_true, if_true]
    rfl
  · simp only [htag, beq_iff_eq, if_false]
    rfl

theorem foldl_refine_foreign (s : Scope) (tag : String) (values : List Value) :
    values.foldl (s.refine 0) [.foreign tag] =
      if ∀ v ∈ values, v.tag? s.heap = some tag then [.foreign tag] else [] := by
  induction values with
  | nil => simp
  | cons v values ih =>
      rw [List.foldl_cons, refine_foreign]
      by_cases htag : v.tag? s.heap = some tag
      · simp only [htag, if_true, ih, List.forall_mem_cons, true_and]
      · simp only [htag, if_false, foldl_refine_nil, List.forall_mem_cons, false_and]

/-! ## The first check -/

/-- What a variable takes from several values it takes from the first, and then it is
narrowed by the others. -/
theorem narrowed_cons (hleaves : LeavesTagged s.env s.heap)
    (hnew : b.contains name = false) (v : Value) (values : List Value) :
    s.narrowed name 0 (v :: values) b =
      values.foldl (s.refine 0) (s.narrowed name 0 [v] b) := by
  rw [narrowed_of_fresh hnew, narrowed_of_fresh hnew, Classification.commonTag_singleton]
  cases htag : v.tag? s.heap with
  | none =>
      have hcommon : Classification.commonTag? s.heap (v :: values) = none := by
        rw [Classification.commonTag?, htag, Option.filter_none]
      have hdrop : ∀ types : List Ty,
          (if types = [] then ((none : Option String).map Ty.foreign).toList else types) =
            types := by
        intro types
        split
        · next hnil => exact hnil.symm
        · rfl
      rw [hcommon, hdrop, hdrop, List.foldl_cons, List.foldl_cons, List.foldl_nil]
  | some tag =>
      have hnone : [v].foldl (s.refine 0) s.env = [] :=
        foldl_refine_eq_nil hleaves (fun _ ht => ht) (List.cons_ne_nil v [])
          fun w hw => List.mem_singleton.1 hw ▸ htag
      rw [List.foldl_cons, List.foldl_nil] at hnone
      rw [List.foldl_cons, List.foldl_cons, List.foldl_nil, hnone, foldl_refine_nil, if_pos rfl,
        if_pos rfl]
      show _ = values.foldl (s.refine 0) [.foreign tag]
      rw [foldl_refine_foreign, Classification.commonTag?, htag]
      simp only [Option.filter_some, List.all_eq_true, beq_iff_eq]
      split
      · rfl
      · rfl

/-! ## One check and many -/

/-- A check that leaves a variable with types, and then checks that narrow it
further. -/
theorem leaves_andThen {v : Verdict} {next : Bindings → Verdict} {types : List Ty}
    {values : List Value} (hv : v.Leaves name types)
    (hnext : types ≠ [] → v.bindings.types? name = some types →
      (next v.bindings).Leaves name (values.foldl (s.refine 0) types)) :
    (v.andThen next).Leaves name (values.foldl (s.refine 0) types) := by
  unfold Verdict.andThen
  cases hf : v.failure? with
  | none =>
      exact hnext (hv.1.1 hf) (hv.2 hf)
  | some f =>
      have htypes : types = [] := by
        by_contra hne
        rw [hv.1.2 hne] at hf
        cases hf
      rw [htypes, foldl_refine_nil]
      simp [Verdict.Leaves, hf]

section Unconstrained

variable (hclasses : (s.constraints.find? name).getD [] = [])

include hclasses

theorem leaves_satisfy (locus : Locus) {values : List Value} (hvalues : values ≠ []) :
    (satisfy s (.var name []) locus values b).Leaves name (s.narrowed name 0 values b) :=
  ⟨failure_satisfy_unconstrained hclasses hvalues, types_satisfy_unconstrained hclasses hvalues⟩

/-- One check after another narrows a bound variable by one value after another. -/
theorem leaves_satisfyEach {types : List Ty} (hbound : b.types? name = some types)
    (hne : types ≠ []) (seen : List (Locus × Value)) :
    (satisfyEach s (.var name []) seen b).Leaves name
      ((seen.map (·.2)).foldl (s.refine 0) types) := by
  induction seen generalizing b types with
  | nil => exact ⟨iff_of_true rfl hne, fun _ => hbound⟩
  | cons p rest ih =>
      have hfirst := leaves_satisfy (b := b) hclasses p.1 (List.cons_ne_nil p.2 [])
      rw [narrowed_of_bound hbound, List.foldl_cons, List.foldl_nil] at hfirst
      rw [List.map_cons, List.foldl_cons]
      exact leaves_andThen hfirst fun hne hbound => ih hbound hne

/-- If no entry of the environment accepts a tagged object, as is the case with the
builtin one, then a variable without type classes that is met for the first time takes
values together exactly if it takes them one by one, and is left with the same types.

Both ways classify within the same `h.size + 2` levels. If some type of the environment
finds values that the heap does not hold, so that `Ty.YieldsWithin` fails, then values
below the last level have no types, both together and one by one, where a classification
without a bound would go on. -/
theorem satisfy_iff_satisfyEach (hleaves : LeavesTagged s.env s.heap)
    (hnew : b.contains name = false) (locus : Locus) {seen : List (Locus × Value)}
    (hseen : seen ≠ []) :
    LeavesTagged Builtin.environment s.heap ∧
    ((satisfy s (.var name []) locus (seen.map (·.2)) b).failure? = none ↔
      (satisfyEach s (.var name []) seen b).failure? = none) ∧
    ((satisfy s (.var name []) locus (seen.map (·.2)) b).failure? = none →
      ∃ types, types ≠ [] ∧
        (satisfy s (.var name []) locus (seen.map (·.2)) b).bindings.types? name = some types ∧
        (satisfyEach s (.var name []) seen b).bindings.types? name = some types) := by
  obtain ⟨p, rest, rfl⟩ := List.exists_cons_of_ne_nil hseen
  have htogether := leaves_satisfy (b := b) hclasses locus
    (List.cons_ne_nil p.2 (rest.map (·.2)))
  rw [narrowed_cons hleaves hnew] at htogether
  have hsingly : (satisfyEach s (.var name []) (p :: rest) b).Leaves name _ :=
    leaves_andThen (leaves_satisfy hclasses p.1 (List.cons_ne_nil p.2 [])) fun hne hbound =>
      leaves_satisfyEach hclasses hbound hne rest
  refine ⟨leavesTagged_builtin, htogether.1.trans hsingly.1.symm, fun hpassed => ?_⟩
  have hne := htogether.1.1 hpassed
  exact ⟨_, hne, htogether.2 hpassed, hsingly.2 (hsingly.1.2 hne)⟩

end Unconstrained

/-- Two boxes make a type of their tag, whether they come together or one by one. -/
theorem satisfy_iff_satisfyEach_boxes :
    let s : Scope := ⟨twoBoxes, Builtin.environment, ∅⟩
    let seen : List (Locus × Value) := [(.root 0, .object 0), (.root 1, .object 1)]
    LeavesTagged s.env s.heap ∧ (satisfyEach s (.var "a" []) seen ∅).failure? = none ∧
      ∃ types, types.map Ty.format = ["Box"] ∧
        (satisfy s (.var "a" []) (.root 0) [.object 0, .object 1] ∅).bindings.types? "a" =
          some types ∧
        (satisfyEach s (.var "a" []) seen ∅).bindings.types? "a" = some types := by
  intro s seen
  have hpassed : (satisfy s (.var "a" []) (.root 0) [.object 0, .object 1] ∅).failure? = none :=
    Option.isNone_iff_eq_none.1 (by decide +kernel)
  obtain ⟨hleaves, hiff, htypes⟩ := satisfy_iff_satisfyEach (b := ∅) (s := s) rfl
    leavesTagged_builtin rfl (.root 0)
      (List.cons_ne_nil (.root 0, .object 0) [(.root 1, .object 1)])
  obtain ⟨types, _, htogether, hsingly⟩ := htypes hpassed
  have htext : ((satisfyEach s (.var "a" []) seen ∅).bindings.types? "a").map (·.map Ty.format) =
      some ["Box"] := by decide +kernel
  rw [hsingly] at htext
  exact ⟨hleaves, hiff.1 hpassed, types, Option.some.inj htext, htogether, hsingly⟩

/-- An environment that accepts tagged objects: of two boxes that have no type of boxes
in common, the second one is refused unless it comes together with the first. -/
example :
    let s : Scope := ⟨twoBoxes, boxes, ∅⟩
    (satisfy s (.var "a" []) (.root 0) [.object 0, .object 1] ∅).failure?.isNone = true ∧
      (satisfyEach s (.var "a" []) [(.root 0, .object 0), (.root 1, .object 1)]
        ∅).failure?.isNone = false := by
  decide +kernel

end Scope

end DynamicTypes
