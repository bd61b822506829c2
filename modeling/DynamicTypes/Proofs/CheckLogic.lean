import DynamicTypes.Proofs.Resolution
import DynamicTypes.Proofs.TypeOrder

/-!
# Reasoning about checks that may fail

A check that fails leaves bindings behind as well, and some questions are about
them: what was observed before a value was rejected, and whether it was right to
reject it. `Meets` is a postcondition with two halves, one for each ending, and there
is one rule for each way of putting checks together.

A check of a type is made of checks of its variables; all else in it only looks at
predicates. So what the variables maintain the whole check maintains, which is
`maintains_of_occurrences`.
-/

namespace DynamicTypes

/-- Whether a check that succeeds leaves bindings with `P`, and one that fails leaves a
failure and bindings with `Q`. -/
def Verdict.Meets (v : Verdict) (P : Bindings → Prop) (Q : Failure → Bindings → Prop) :
    Prop :=
  (v.failure? = none → P v.bindings) ∧ ∀ f, v.failure? = some f → Q f v.bindings

namespace Verdict

variable {v : Verdict} {P R : Bindings → Prop} {Q : Failure → Bindings → Prop} {b : Bindings}
  {steps : List Step} {f : Failure}

theorem meets_accept : (Verdict.mk b steps none).Meets P Q ↔ P b := by simp [Meets]

theorem meets_reject : (Verdict.mk b steps (some f)).Meets P Q ↔ Q f b := by simp [Meets]

theorem Meets.of_succeeds (hv : v.Meets P Q) (hs : v.Succeeds b) :
    P b :=
  hs.2 ▸ hv.1 hs.1

theorem meets_of_succeeds (hv : ∀ b, v.Succeeds b → P b) : v.Meets P fun _ _ => True :=
  ⟨fun hs => hv _ ⟨hs, rfl⟩, fun _ _ => trivial⟩

theorem Meets.andThen {next : Bindings → Verdict} (hv : v.Meets R Q)
    (hnext : ∀ b, R b → (next b).Meets P Q) : (v.andThen next).Meets P Q := by
  unfold Verdict.andThen
  split
  · next f hf =>
      refine ⟨fun hnone => ?_, hv.2⟩
      rw [hf] at hnone
      cases hnone
  · next hf => exact hnext _ (hv.1 hf)

end Verdict

/-! ## The variables of a type -/

namespace Ty

mutual

/-- The places where a variable stands in a type, each with the parameters that it is
applied to. -/
def occurrences : Ty → List (String × List Ty)
  | con _ _ params => occurrencesAll params
  | record _ _ fields => occurrencesFields fields
  | function types => occurrencesAll types
  | var name params => (name, params) :: occurrencesAll params
  | _ => []

def occurrencesAll : List Ty → List (String × List Ty)
  | [] => []
  | t :: ts => occurrences t ++ occurrencesAll ts

def occurrencesFields : List (String × Ty) → List (String × List Ty)
  | [] => []
  | (_, t) :: rest => occurrences t ++ occurrencesFields rest

end

theorem mem_occurrencesAll {p : String × List Ty} {ts : List Ty} :
    p ∈ occurrencesAll ts ↔ ∃ t ∈ ts, p ∈ t.occurrences := by
  induction ts with
  | nil => simp [occurrencesAll]
  | cons t ts ih => simp [occurrencesAll, ih]

theorem mem_occurrencesFields {p : String × List Ty} {fields : List (String × Ty)} :
    p ∈ occurrencesFields fields ↔ ∃ f ∈ fields, p ∈ f.2.occurrences := by
  induction fields with
  | nil => simp [occurrencesFields]
  | cons f fields ih =>
      obtain ⟨key, t⟩ := f
      rw [occurrencesFields, List.mem_append, ih, List.exists_mem_cons_iff]

end Ty

namespace Scope

variable {s : Scope} {t : Ty} {P : Bindings → Prop} {Q : Failure → Bindings → Prop}

/-- A class that a value violates is one that is required of the variable. -/
theorem required_of_classViolation? {name : String} {values : List Value}
    {required : TypeClass} {v : Value}
    (hviolation : s.classViolation? name values = some (required, v)) :
    required ∈ (s.constraints.find? name).getD [] := by
  obtain ⟨c, hc, hfound⟩ := List.exists_of_findSome?_eq_some hviolation
  obtain ⟨_, _, heq⟩ := Option.map_eq_some_iff.1 hfound
  cases heq
  exact hc

/-- The rule for a variable that takes values. -/
theorem meets_satisfyVariable {name : String} {arity : Nat} {locus : Locus} {values : List Value}
    {b : Bindings} (hclass : ∀ required ∈ (s.constraints.find? name).getD [], ∀ v,
      Q (.typeClassViolation name required locus v) b)
    (hnone : values = [] → P b)
    (hunrecognized : s.narrowed name arity values b = [] → ∀ v ∈ values,
      Classification.loose s.heap s.env [v] = [] →
      Q (.unrecognizedValue locus v) (b.observe name locus values))
    (hviolation : values ≠ [] → s.narrowed name arity values b = [] →
      Q (.typeVariableViolation name ((b.observe name locus values).observations name))
        (b.observe name locus values))
    (hbind : values ≠ [] → s.narrowed name arity values b ≠ [] →
      P ((b.observe name locus values).bind name (s.narrowed name arity values b))) :
    (s.satisfyVariable t name arity locus values b).Meets P Q := by
  unfold satisfyVariable
  split
  · next hviolation =>
      exact Verdict.meets_reject.2 (hclass _ (required_of_classViolation? hviolation) _)
  · split
    · next hempty => exact Verdict.meets_accept.2 (hnone (List.isEmpty_iff.1 hempty))
    · next hempty =>
        have hne : values ≠ [] := fun hnil => hempty (List.isEmpty_iff.2 hnil)
        simp only
        split
        · next hnarrowed =>
            split
            · next v hv =>
                have hloose := List.find?_some hv
                exact Verdict.meets_reject.2 (hunrecognized hnarrowed v
                  (List.mem_of_find?_eq_some hv) (List.isEmpty_iff.1 hloose))
            · exact Verdict.meets_reject.2 (hviolation hne hnarrowed)
        · next hnarrowed => exact Verdict.meets_accept.2 (hbind hne hnarrowed)

/-- Whether checks of a type, from bindings with `P`, leave bindings with `P` or fail as
`Q` says. -/
def Maintains (s : Scope) (P : Bindings → Prop) (Q : Failure → Bindings → Prop)
    (t : Ty) : Prop :=
  ∀ (locus : Locus) (values : List Value) (b : Bindings), P b →
    (satisfy s t locus values b).Meets P Q

theorem meets_satisfyParams {held : Nat → List Value} {i : Nat} {ts : List Ty}
    {locus : Locus} {b : Bindings} (hts : ∀ t ∈ ts, s.Maintains P Q t) (hb : P b) :
    (satisfyParams s held i ts locus b).Meets P Q := by
  induction ts generalizing i b with
  | nil =>
      rw [satisfyParams]
      exact Verdict.meets_accept.2 hb
  | cons t ts ih =>
      rw [List.forall_mem_cons] at hts
      rw [satisfyParams]
      exact (hts.1 _ _ _ hb).andThen fun b hb => ih hts.2 hb

theorem maintains_var {name : String} {params : List Ty}
    (hvar : ∀ (locus : Locus) (values : List Value) (b : Bindings), P b →
      (s.satisfyVariable (.var name params) name params.length locus values b).Meets P Q)
    (hparams : ∀ u ∈ params, s.Maintains P Q u) : s.Maintains P Q (.var name params) := by
  intro locus values b hb
  rw [satisfy]
  exact (hvar locus values b hb).andThen fun b hb => meets_satisfyParams hparams hb

section Predicates

variable (hinvalid : ∀ (locus : Locus) (v : Value) (t : Ty) (b : Bindings), P b →
  Q (.invalidValue locus v t) b)

include hinvalid

theorem meets_guardChain {locus : Locus} {values : List Value} {b : Bindings}
    {next : Verdict} (hb : P b) (hnext : next.Meets P Q) :
    (s.guardChain t locus values b next).Meets P Q := by
  unfold guardChain
  split
  · exact Verdict.meets_reject.2 (hinvalid _ _ _ _ hb)
  · exact hnext

theorem meets_satisfyFields {values : List Value} {fields : List (String × Ty)}
    {locus : Locus} {b : Bindings} (hfs : ∀ f ∈ fields, s.Maintains P Q f.2)
    (hb : P b) :
    (satisfyFields s values fields locus b).Meets P Q := by
  induction fields generalizing b with
  | nil =>
      rw [satisfyFields]
      exact Verdict.meets_accept.2 hb
  | cons f fields ih =>
      rw [List.forall_mem_cons] at hfs
      rw [satisfyFields]
      split
      · exact (hfs.1 _ _ _ hb).andThen fun b hb => ih hfs.2 hb
      · exact Verdict.meets_reject.2 (hinvalid _ _ _ _ hb)

theorem maintains_con {c : Constructor} {supers params : List Ty}
    (hparams : ∀ u ∈ params, s.Maintains P Q u) :
    s.Maintains P Q (.con c supers params) := by
  intro locus values b hb
  rw [satisfy]
  refine meets_guardChain hinvalid hb ?_
  split
  · exact Verdict.meets_accept.2 hb
  · refine (Verdict.meets_accept (P := P).2 hb).andThen fun b hb => ?_
    exact meets_satisfyParams hparams hb

theorem maintains_record {r : RecordName} {supers : List Ty}
    {fields : List (String × Ty)} (hfs : ∀ f ∈ fields, s.Maintains P Q f.2) :
    s.Maintains P Q (.record r supers fields) := by
  intro locus values b hb
  rw [satisfy]
  refine meets_guardChain hinvalid hb ?_
  split
  · exact Verdict.meets_accept.2 hb
  · refine (Verdict.meets_accept (P := P).2 hb).andThen fun b hb => ?_
    exact meets_satisfyFields hinvalid hfs hb

theorem maintains_leaf (ht : t.isLeaf = true) : s.Maintains P Q t := by
  intro locus values b hb
  cases t with
  | con | record | var => cases ht
  | unknown | any =>
      rw [satisfy]
      exact Verdict.meets_accept.2 hb
  | function | enumeration | inconsistent | noArguments =>
      rw [satisfy]
      · exact meets_guardChain hinvalid hb (Verdict.meets_accept.2 hb)
      all_goals
        intros
        contradiction

/-- What the checks of its variables maintain the check of a type maintains. -/
theorem maintains_of_occurrences
    (hvar : ∀ (name : String) (params : List Ty), (name, params) ∈ t.occurrences →
      (∀ u ∈ params, s.Maintains P Q u) → s.Maintains P Q (.var name params)) :
    s.Maintains P Q t := by
  induction t with
  | con c supers params _ ih =>
      refine maintains_con hinvalid fun u hu => ih u hu fun name ps hp => hvar name ps ?_
      rw [Ty.occurrences]
      exact Ty.mem_occurrencesAll.2 ⟨u, hu, hp⟩
  | record r supers fields _ ih =>
      refine maintains_record hinvalid fun f hf => ih f hf fun name ps hp => hvar name ps ?_
      rw [Ty.occurrences]
      exact Ty.mem_occurrencesFields.2 ⟨f, hf, hp⟩
  | var name params ih =>
      refine hvar name params (by rw [Ty.occurrences]; simp) fun u hu => ih u hu fun n ps hp => ?_
      refine hvar n ps ?_
      rw [Ty.occurrences]
      exact List.mem_cons_of_mem _ (Ty.mem_occurrencesAll.2 ⟨u, hu, hp⟩)
  | _ => exact maintains_leaf hinvalid rfl

end Predicates

end Scope

end DynamicTypes
