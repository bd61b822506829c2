import DynamicTypes.Resolution

/-!
# When a check succeeds

A verdict carries steps and a failure, for the reader of a report. What a check
means is less: whether it succeeds, and with which bindings. `Succeeds` is that
part, and here is one lemma for each form of check that says what its success
amounts to.
-/

namespace DynamicTypes

/-- Whether a check succeeded and left the given bindings. -/
def Verdict.Succeeds (v : Verdict) (b : Bindings) : Prop :=
  v.failure? = none ∧ v.bindings = b

namespace Verdict

theorem succeeds_accept {b b' : Bindings} {steps : List Step} :
    (Verdict.mk b steps none).Succeeds b' ↔ b' = b :=
  ⟨fun hv => hv.2.symm, fun hb => ⟨rfl, hb.symm⟩⟩

theorem not_succeeds_reject {b b' : Bindings} {steps : List Step} {f : Failure} :
    ¬ (Verdict.mk b steps (some f)).Succeeds b' :=
  fun hv => nomatch hv.1

theorem succeeds_andThen {v : Verdict} {next : Bindings → Verdict} {b : Bindings} :
    (v.andThen next).Succeeds b ↔ ∃ b', v.Succeeds b' ∧ (next b').Succeeds b := by
  unfold andThen
  split
  · next f hf =>
      refine iff_of_false (fun hv => ?_) fun ⟨_, hv, _⟩ => ?_
      · rw [hv.1] at hf
        cases hf
      · rw [hv.1] at hf
        cases hf
  · next hf => exact ⟨fun hv => ⟨_, ⟨hf, rfl⟩, hv⟩, fun ⟨_, ⟨_, rfl⟩, hv⟩ => hv⟩

end Verdict

/-- Whether a check looks at nothing but the type's own predicates. -/
def Ty.isLeaf : Ty → Bool
  | con .. | record .. | var .. => false
  | _ => true

namespace Scope

variable {s : Scope} {t : Ty} {locus : Locus} {values : List Value} {b b' : Bindings}

theorem succeeds_guardChain {next : Verdict} :
    (s.guardChain t locus values b next).Succeeds b' ↔
      (∀ v ∈ values, t.testChain s.heap v = true) ∧ next.Succeeds b' := by
  unfold guardChain
  split
  · next v hv =>
      refine iff_of_false Verdict.not_succeeds_reject fun hall => ?_
      have hchain := hall.1 v (List.mem_of_find?_eq_some hv)
      have hfails := List.find?_some hv
      simp [hchain] at hfails
  · next hnone =>
      refine (and_iff_right fun v hv => ?_).symm
      simpa using List.find?_eq_none.1 hnone v hv

theorem classViolation_eq_none {name : String} :
    s.classViolation? name values = none ↔
      ∀ c ∈ (s.constraints.find? name).getD [], ∀ v ∈ values, c.test s.heap v = true := by
  rw [classViolation?, List.findSome?_eq_none_iff]
  refine forall₂_congr fun c _ => ?_
  simp

/-- A variable takes values that its classes admit and that leave it a type. It
remembers the values, and what is left of its types. -/
theorem succeeds_satisfyVariable {name : String} {arity : Nat} :
    (s.satisfyVariable t name arity locus values b).Succeeds b' ↔
      (∀ c ∈ (s.constraints.find? name).getD [], ∀ v ∈ values, c.test s.heap v = true) ∧
      (values = [] ∧ b' = b ∨ values ≠ [] ∧ s.narrowed name arity values b ≠ [] ∧
        b' = (b.observe name locus values).bind name (s.narrowed name arity values b)) := by
  rw [← classViolation_eq_none]
  unfold satisfyVariable
  split
  · next hviolation => simp [hviolation, Verdict.not_succeeds_reject]
  · next hviolation =>
      rw [and_iff_right hviolation]
      split
      · next hempty =>
          have hnil := List.isEmpty_iff.1 hempty
          simp [hnil, Verdict.succeeds_accept]
      · next hempty =>
          have hne : values ≠ [] := fun hnil => hempty (List.isEmpty_iff.2 hnil)
          simp only [hne, false_and, false_or, ne_eq, not_false_eq_true, true_and]
          split
          · next hnone =>
              refine iff_of_false ?_ fun hall => hall.1 hnone
              split
              · exact Verdict.not_succeeds_reject
              · exact Verdict.not_succeeds_reject
          · next hsome => rw [Verdict.succeeds_accept]; exact (and_iff_right hsome).symm

/-! ## Checks of whole types -/

variable {held : Nat → List Value} {i : Nat} {ts : List Ty}

theorem succeeds_satisfyParams_nil : (satisfyParams s held i [] locus b).Succeeds b' ↔ b' = b := by
  rw [satisfyParams, Verdict.succeeds_accept]

theorem succeeds_satisfyParams_cons :
    (satisfyParams s held i (t :: ts) locus b).Succeeds b' ↔
      ∃ b₁, (satisfy s t (locus.child (Ty.paramKey (i + 1))) (held i) b).Succeeds b₁ ∧
        (satisfyParams s held (i + 1) ts locus b₁).Succeeds b' := by
  rw [satisfyParams, Verdict.succeeds_andThen]

theorem succeeds_satisfyFields_nil : (satisfyFields s values [] locus b).Succeeds b' ↔ b' = b := by
  rw [satisfyFields, Verdict.succeeds_accept]

theorem succeeds_satisfyFields_cons {key : String} {fields : List (String × Ty)} :
    (satisfyFields s values ((key, t) :: fields) locus b).Succeeds b' ↔
      (∀ v ∈ values, (v.field? s.heap key).isSome = true) ∧
      ∃ b₁, (satisfy s t (locus.child key) (values.map (·.field s.heap key)) b).Succeeds b₁ ∧
        (satisfyFields s values fields locus b₁).Succeeds b' := by
  rw [satisfyFields]
  split
  · next hall => rw [Verdict.succeeds_andThen, and_iff_right (List.all_eq_true.1 hall)]
  · next hall =>
      exact iff_of_false Verdict.not_succeeds_reject fun h => hall (List.all_eq_true.2 h.1)

theorem succeeds_satisfy_con {c : Constructor} {supers params : List Ty} :
    (satisfy s (.con c supers params) locus values b).Succeeds b' ↔
      (∀ v ∈ values, (Ty.con c supers params).testChain s.heap v = true) ∧
      (satisfyParams s (fun i => values.flatMap (c.held i s.heap)) 0 params locus b).Succeeds
        b' := by
  rw [satisfy, succeeds_guardChain]
  refine and_congr_right fun _ => ?_
  split
  · next hempty =>
      rw [List.isEmpty_iff.1 hempty, Verdict.succeeds_accept, succeeds_satisfyParams_nil]
  · simp [Verdict.succeeds_andThen, Verdict.succeeds_accept]

theorem succeeds_satisfy_record {r : RecordName} {supers : List Ty}
    {fields : List (String × Ty)} :
    (satisfy s (.record r supers fields) locus values b).Succeeds b' ↔
      (∀ v ∈ values, (Ty.record r supers fields).testChain s.heap v = true) ∧
      (satisfyFields s values fields locus b).Succeeds b' := by
  rw [satisfy, succeeds_guardChain]
  refine and_congr_right fun _ => ?_
  split
  · next hempty =>
      rw [List.isEmpty_iff.1 hempty, Verdict.succeeds_accept, succeeds_satisfyFields_nil]
  · simp [Verdict.succeeds_andThen, Verdict.succeeds_accept]

theorem succeeds_satisfy_var {name : String} {params : List Ty} :
    (satisfy s (.var name params) locus values b).Succeeds b' ↔
      ∃ b₁, (s.satisfyVariable (.var name params) name params.length locus values b).Succeeds b₁ ∧
        (satisfyParams s (s.heldByBound ((b₁.types? name).getD []) params.length values) 0 params
          locus b₁).Succeeds b' := by
  rw [satisfy, Verdict.succeeds_andThen]

/-- A type that a check does not look into asks for its predicates and binds nothing. -/
theorem succeeds_satisfy_leaf (ht : t.isLeaf = true) :
    (satisfy s t locus values b).Succeeds b' ↔
      (∀ v ∈ values, t.testChain s.heap v = true) ∧ b' = b := by
  cases t with
  | con | record | var => cases ht
  | unknown | any =>
      rw [satisfy, Verdict.succeeds_accept]
      simp [Ty.testChain, Ty.test]
  | function | enumeration | inconsistent | noArguments =>
      rw [satisfy, succeeds_guardChain, Verdict.succeeds_accept]
      all_goals exact nofun

end Scope

end DynamicTypes
