import DynamicTypes.Proofs.Loci
import DynamicTypes.Proofs.Narrowing
import DynamicTypes.Proofs.SessionRuns

/-!
# A trace tells what happened

Steps are recorded all over a check, before it is known how the check ends, and what
the session knows of its variables is kept elsewhere. A trace is of use only if it
agrees with both: whoever reads it should find where a check failed, and what the
variables may still stand for.

A check has its answer, its steps and its bindings in one verdict, so the two questions
are asked of verdicts. `Records` is a postcondition that sees the steps as well, those
of earlier checks included, and `Recorder.satisfy` is the one induction over types. It
is used twice:

* `Closes` is about the failure: the last step is the only one that fails, and it stands
  where the failure points.

* `Accounts` is about the variables: the steps that settle one are its bind and then its
  narrowings, and the last of them lists its types. A variable whose first values were
  rejected has no types and no steps; from then on every check of it fails, which is why
  a bind cannot come after a rejection.
-/

namespace DynamicTypes

/-- Whether the decision ends its check with a failure. -/
def Decision.fails : Decision → Bool
  | classCheck | reject => true
  | accept | descend | bind | narrow => false

/-- Whether the decision says what a variable may stand for. -/
def Decision.settles : Decision → Bool
  | bind | narrow => true
  | accept | descend | classCheck | reject => false

/-! ## Postconditions of what is recorded -/

/-- Whether a check made after the earlier steps succeeds with `P` of all steps and of
the bindings it leaves, or fails with `Q` of them. -/
def Verdict.Records (v : Verdict) (earlier : List Step)
    (P : List Step → Bindings → Prop) (Q : Failure → List Step → Bindings → Prop) :
    Prop :=
  v.Meets (P (earlier ++ v.steps)) fun f => Q f (earlier ++ v.steps)

namespace Verdict

variable {v : Verdict} {earlier steps : List Step} {b : Bindings} {f : Failure}
  {P R : List Step → Bindings → Prop} {Q : Failure → List Step → Bindings → Prop}

theorem records_accept :
    (Verdict.mk b steps none).Records earlier P Q ↔ P (earlier ++ steps) b :=
  meets_accept

theorem records_reject :
    (Verdict.mk b steps (some f)).Records earlier P Q ↔ Q f (earlier ++ steps) b :=
  meets_reject

theorem Records.andThen {next : Bindings → Verdict} (hv : v.Records earlier R Q)
    (hnext : ∀ steps b, R steps b → (next b).Records steps P Q) :
    (v.andThen next).Records earlier P Q := by
  unfold Verdict.andThen
  split
  · next f hf =>
      refine ⟨fun hnone => ?_, hv.2⟩
      rw [hf] at hnone
      cases hnone
  · next hf =>
      have hrest := hnext _ _ (hv.1 hf)
      rw [Records, List.append_assoc] at hrest
      exact hrest

end Verdict

namespace Bindings

/-- The text that says what a variable may stand for. -/
def listing (name : String) (types : List Ty) : String :=
  name ++ " := " ++ " | ".intercalate (types.map Ty.format)

theorem types?_observe_self (b : Bindings) (name : String) (locus : Locus)
    (values : List Value) :
    (b.observe name locus values).types? name = some ((b.types? name).getD []) := by
  rw [types?, observe, SortedMap.find?_insert, if_pos rfl, types?]
  cases b.find? name with
  | none => rfl
  | some binding => rfl

end Bindings

namespace Scope

variable {s : Scope} {P : List Step → Bindings → Prop} {Q : Failure → List Step → Bindings → Prop}
  {Place : Ty → Locus → Prop} {t : Ty} {locus : Locus} {steps : List Step} {b : Bindings}

/-- The rule for a variable that takes values. -/
theorem records_satisfyVariable {name : String} {arity : Nat} {values : List Value}
    (hclass : ∀ required v detail,
      Q (.typeClassViolation name required locus v) (steps ++ [step .classCheck locus t detail]) b)
    (hnone : P steps b)
    (hunrecognized : ∀ v detail, Q (.unrecognizedValue locus v)
      (steps ++ [step .reject locus t detail]) (b.observe name locus values))
    (hviolation : ∀ detail,
      Q (.typeVariableViolation name ((b.observe name locus values).observations name))
        (steps ++ [step .reject locus t detail]) (b.observe name locus values))
    (hsettle : s.narrowed name arity values b ≠ [] →
      P (steps ++ [step (if b.contains name then .narrow else .bind) locus t
          (Bindings.listing name (s.narrowed name arity values b))])
        ((b.observe name locus values).bind name (s.narrowed name arity values b))) :
    (s.satisfyVariable t name arity locus values b).Records steps P Q := by
  unfold satisfyVariable
  split
  · exact Verdict.records_reject.2 (hclass _ _ _)
  · split
    · rw [Verdict.records_accept, List.append_nil]
      exact hnone
    · simp only
      split
      · split
        · exact Verdict.records_reject.2 (hunrecognized _ _)
        · exact Verdict.records_reject.2 (hviolation _)
      · next hnarrowed => exact Verdict.records_accept.2 (hsettle hnarrowed)

theorem records_satisfyParams {held : Nat → List Value} {i : Nat} {ts : List Ty}
    (hts : ∀ (j : Nat) (t : Ty), ts[j]? = some t → ∀ (values : List Value) (steps : List Step)
      (b : Bindings), P steps b →
      (satisfy s t (locus.child (Ty.paramKey (i + j + 1))) values b).Records steps P Q)
    (hp : P steps b) : (satisfyParams s held i ts locus b).Records steps P Q := by
  induction ts generalizing i steps b with
  | nil =>
      rw [satisfyParams, Verdict.records_accept, List.append_nil]
      exact hp
  | cons t ts ih =>
      rw [satisfyParams]
      refine (hts 0 t rfl _ steps b hp).andThen fun steps b hp => ih (fun j u hu => ?_) hp
      rw [Nat.add_right_comm i 1 j]
      exact hts (j + 1) u hu

/-- Whether each thing that a check of a type does takes `P` to `P`, or fails with `Q`.
What holds of positions is handed down to components. -/
structure Recorder (s : Scope) (Place : Ty → Locus → Prop)
    (P : List Step → Bindings → Prop) (Q : Failure → List Step → Bindings → Prop) :
    Prop where
  child : ∀ {t : Ty} {locus : Locus} {key : String} {u : Ty}, Place t locus →
    (key, u) ∈ t.children → Place u (locus.child key)
  goOn : ∀ {steps : List Step} {b : Bindings} {st : Step}, P steps b →
    st.decision.fails = false → st.decision.settles = false → P (steps ++ [st]) b
  invalid : ∀ {t : Ty} {locus : Locus} {steps : List Step} {b : Bindings} (v : Value)
    (detail : String), P steps b →
      Q (.invalidValue locus v t) (steps ++ [step .reject locus t detail]) b
  var : ∀ {name : String} {params : List Ty} {locus : Locus} {steps : List Step}
    {b : Bindings} (values : List Value), Place (.var name params) locus → P steps b →
      (s.satisfyVariable (.var name params) name params.length locus values b).Records steps P Q

namespace Recorder

variable (hs : s.Recorder Place P Q)

include hs

theorem guardChain {values : List Value} {next : Verdict} (hp : P steps b)
    (hnext : next.Records steps P Q) :
    (s.guardChain t locus values b next).Records steps P Q := by
  unfold Scope.guardChain
  split
  · exact Verdict.records_reject.2 (hs.invalid _ _ hp)
  · exact hnext

theorem accept (detail : String) (hp : P steps b) :
    (Verdict.mk b [step .accept locus t detail] none).Records steps P Q :=
  Verdict.records_accept.2 (hs.goOn hp rfl rfl)

theorem descend {next : Bindings → Verdict} (detail : String) (hp : P steps b)
    (hnext : ∀ steps b, P steps b → (next b).Records steps P Q) :
    ((Verdict.mk b [step .descend locus t detail] none).andThen next).Records steps P Q :=
  (Verdict.records_accept.2 (hs.goOn hp rfl rfl)).andThen hnext

theorem satisfyFields {values : List Value} {fields : List (String × Ty)}
    (hfields : ∀ f ∈ fields, ∀ (values : List Value) (steps : List Step) (b : Bindings), P steps b →
      (satisfy s f.2 (locus.child f.1) values b).Records steps P Q) (hp : P steps b) :
    (Scope.satisfyFields s values fields locus b).Records steps P Q := by
  induction fields generalizing steps b with
  | nil =>
      rw [Scope.satisfyFields, Verdict.records_accept, List.append_nil]
      exact hp
  | cons f fields ih =>
      rw [List.forall_mem_cons] at hfields
      rw [Scope.satisfyFields]
      split
      · exact (hfields.1 _ steps b hp).andThen fun steps b hp => ih hfields.2 hp
      · exact Verdict.records_reject.2 (hs.invalid _ _ hp)

/-- What each thing that a check does maintains, a check of a whole type maintains. -/
theorem satisfy (ht : Place t locus) (values : List Value) (hp : P steps b) :
    (Scope.satisfy s t locus values b).Records steps P Q := by
  have hparams : ∀ {ts : List Ty} {locus : Locus} {steps : List Step} {b : Bindings}
      {held : Nat → List Value}, P steps b →
      (∀ u ∈ ts, ∀ {locus : Locus} {steps : List Step} {b : Bindings}, Place u locus →
        ∀ values, P steps b → (Scope.satisfy s u locus values b).Records steps P Q) →
      (∀ key u, (key, u) ∈ Ty.keyed 1 ts → Place u (locus.child key)) →
      (Scope.satisfyParams s held 0 ts locus b).Records steps P Q := by
    intro ts locus steps b held hp ih hplaces
    refine records_satisfyParams (fun j u hu values steps b hp => ?_) hp
    refine ih u (List.mem_of_getElem? hu) (hplaces _ u (Ty.mem_keyed.2 ⟨j, hu, ?_⟩)) values hp
    rw [Nat.zero_add, Nat.add_comm]
  induction t generalizing locus values steps b with
  | con c supers params _ ih =>
      rw [Scope.satisfy]
      refine hs.guardChain hp ?_
      split
      · exact hs.accept _ hp
      · refine hs.descend _ hp fun steps b hp => ?_
        exact hparams hp (fun u hu _ _ _ hplace values => ih u hu hplace values)
          fun key u => hs.child ht
  | record r supers fields _ ih =>
      rw [Scope.satisfy]
      refine hs.guardChain hp ?_
      split
      · exact hs.accept _ hp
      · refine hs.descend _ hp fun steps b hp => ?_
        exact hs.satisfyFields (fun f hf values _ _ => ih f hf (hs.child ht hf) values) hp
  | var name params ih =>
      rw [Scope.satisfy]
      refine (hs.var values ht hp).andThen fun steps b hp => ?_
      exact hparams hp (fun u hu _ _ _ hplace values => ih u hu hplace values)
        fun key u => hs.child ht
  | unknown | any =>
      rw [Scope.satisfy]
      exact hs.accept _ hp
  | function | enumeration | inconsistent | noArguments =>
      rw [Scope.satisfy]
      · exact hs.guardChain hp (hs.accept _ hp)
      all_goals
        intros
        contradiction

end Recorder

end Scope

/-! ## The step that fails -/

/-- Whether the last step is the only one that fails, and stands at one of the
positions; unless a variable has no type left, there is no other position. -/
def Step.Closes (steps : List Step) (category : Category) (positions : List Locus) :
    Prop :=
  ∃ init last, steps = init ++ [last] ∧ (∀ st ∈ init, st.decision.fails = false) ∧
    last.decision.fails = true ∧ last.locus ∈ positions ∧
    (category ≠ .typeVariableViolation → positions = [last.locus])

namespace Step

variable {steps : List Step} {category : Category}

theorem closes_concat (hsteps : ∀ st ∈ steps, st.decision.fails = false) {st : Step}
    (hst : st.decision.fails = true) : Closes (steps ++ [st]) category [st.locus] :=
  ⟨steps, st, rfl, hsteps, hst, List.mem_singleton_self _, fun _ => rfl⟩

theorem Closes.exists_fails {positions : List Locus}
    (hsteps : Closes steps category positions) :
    ∃ st ∈ steps, st.decision.fails = true := by
  obtain ⟨init, last, rfl, _, hlast, _⟩ := hsteps
  exact ⟨last, List.mem_append_right _ (List.mem_singleton_self _), hlast⟩

end Step

namespace Scope

variable {s : Scope} {t : Ty} {locus : Locus}

/-- The steps of a check that succeeds do not fail, and those of one that fails end with
the step that does. -/
theorem recorder_closes (s : Scope) :
    s.Recorder (fun _ _ => True) (fun steps _ => ∀ st ∈ steps, st.decision.fails = false)
      fun f steps _ => Step.Closes steps f.category f.loci where
  child _ _ := trivial
  goOn hsteps hst _ := List.forall_mem_append.2 ⟨hsteps, List.forall_mem_singleton.2 hst⟩
  invalid _ _ hsteps := Step.closes_concat hsteps rfl
  var {name _ locus steps b} values _ hsteps := by
    refine records_satisfyVariable (fun _ _ _ => Step.closes_concat hsteps rfl) hsteps
      (fun _ _ => Step.closes_concat hsteps rfl) (fun _ => ?_) fun _ => ?_
    · -- the values that the step is about have been seen at its position
      obtain ⟨all, hall, _⟩ := b.exists_mem_observations name locus values
      exact ⟨steps, _, rfl, hsteps, rfl, List.mem_map.2 ⟨_, hall, rfl⟩, fun hne => absurd rfl hne⟩
    · refine List.forall_mem_append.2 ⟨hsteps, List.forall_mem_singleton.2 ?_⟩
      unfold step
      split
      · rfl
      · rfl

theorem fails_eq_false_of_satisfy {values : List Value} {b : Bindings}
    (hpassed : (satisfy s t locus values b).failure? = none) :
    ∀ st ∈ (satisfy s t locus values b).steps, st.decision.fails = false :=
  (s.recorder_closes.satisfy trivial values (List.forall_mem_nil _)).1 hpassed

theorem closes_of_satisfy {values : List Value} {b : Bindings} {f : Failure}
    (hfailed : (satisfy s t locus values b).failure? = some f) :
    Step.Closes (satisfy s t locus values b).steps f.category f.loci :=
  (s.recorder_closes.satisfy trivial values (List.forall_mem_nil _)).2 f hfailed

end Scope

/-! ## The steps that settle a variable -/

/-- The name of a variable. -/
def Ty.variable? : Ty → Option String
  | var name _ => some name
  | _ => none

namespace Signature

/-- The variable that the signature has at a position. -/
def variableAt? (s : Signature) (locus : Locus) : Option String :=
  (s.typeAt? locus).bind Ty.variable?

/-- The steps that say what a variable may stand for. -/
def settling (s : Signature) (name : String) (steps : List Step) : List Step :=
  steps.filter fun st => st.decision.settles && s.variableAt? st.locus == some name

/-- Whether steps agree with what is known of the variables. -/
structure Accounts (s : Signature) (steps : List Step) (b : Bindings) : Prop where
  /-- Only variables are bound and narrowed. -/
  placed : ∀ st ∈ steps, st.decision.settles = true → (s.variableAt? st.locus).isSome = true
  /-- A variable is bound once and narrowed from then on. -/
  ordered : ∀ name first rest, s.settling name steps = first :: rest →
    first.decision = .bind ∧ ∀ st ∈ rest, st.decision = .narrow
  /-- The last of its steps lists the types of a variable. -/
  listed : ∀ name last, (s.settling name steps).getLast? = some last →
    ∃ types, types ≠ [] ∧ b.types? name = some types ∧ last.detail = Bindings.listing name types
  /-- A variable with types has a step. -/
  recorded : ∀ name types, b.types? name = some types → types ≠ [] → s.settling name steps ≠ []

variable {s : Signature} {steps : List Step} {b : Bindings} {name : String}

theorem settling_append (steps later : List Step) :
    s.settling name (steps ++ later) = s.settling name steps ++ s.settling name later :=
  List.filter_append ..

theorem settling_of_not_settles {st : Step} (hst : st.decision.settles = false) :
    s.settling name [st] = [] := by
  simp [settling, hst]

theorem settling_of_settles {st : Step} (hst : st.decision.settles = true)
    {other : String} (hother : s.variableAt? st.locus = some other) :
    s.settling name [st] = if other = name then [st] else [] := by
  rw [settling, List.filter_singleton, hst, hother]
  simp

theorem accounts_nil : s.Accounts [] ∅ where
  placed := List.forall_mem_nil _
  ordered _ _ _ h := nomatch h
  listed _ _ h := nomatch h
  recorded _ _ h := nomatch h

theorem Accounts.goOn (hs : s.Accounts steps b) {st : Step}
    (hst : st.decision.settles = false) :
    s.Accounts (steps ++ [st]) b := by
  have hsame : ∀ name, s.settling name (steps ++ [st]) = s.settling name steps := by
    intro name
    rw [settling_append, settling_of_not_settles hst, List.append_nil]
  refine ⟨List.forall_mem_append.2 ⟨hs.placed, List.forall_mem_singleton.2 fun h => ?_⟩, ?_, ?_, ?_⟩
  · rw [hst] at h
    cases h
  · simpa only [hsame] using hs.ordered
  · simpa only [hsame] using hs.listed
  · simpa only [hsame] using hs.recorded

/-- Values that are only seen leave a variable the types that it had, if any. -/
theorem Accounts.observe (hs : s.Accounts steps b) (name : String) (locus : Locus)
    (values : List Value) : s.Accounts steps (b.observe name locus values) := by
  have hknown : ∀ other types, types ≠ [] →
      ((b.observe name locus values).types? other = some types ↔ b.types? other = some types) := by
    intro other types hne
    by_cases hother : name = other
    · subst hother
      rw [Bindings.types?_observe_self]
      cases hb : b.types? name with
      | none => simp [hne.symm]
      | some _ => rfl
    · rw [Bindings.types?_observe hother]
  refine ⟨hs.placed, hs.ordered, fun other last hlast => ?_, fun other types htypes hne => ?_⟩
  · obtain ⟨types, hne, htypes, hdetail⟩ := hs.listed other last hlast
    exact ⟨types, hne, (hknown other types hne).2 htypes, hdetail⟩
  · exact hs.recorded other types ((hknown other types hne).1 htypes) hne

/-- A variable that has not lost all its types is known exactly if it has a step. -/
theorem Accounts.contains_eq (hs : s.Accounts steps b)
    (hleft : b.types? name ≠ some []) :
    b.contains name = !(s.settling name steps).isEmpty := by
  rw [Bindings.contains_eq]
  cases hearlier : s.settling name steps with
  | nil =>
      cases hb : b.types? name with
      | none => rfl
      | some types =>
          have hne : types ≠ [] := fun hnil => hleft (hnil ▸ hb)
          exact absurd hearlier (hs.recorded name types hb hne)
  | cons first rest =>
      obtain ⟨types, _, htypes, _⟩ := hs.listed name _ (hearlier ▸ List.getLast?_cons)
      rw [htypes]
      rfl

/-- A variable is bound by its first step and narrowed by later ones. -/
theorem Accounts.settle (hs : s.Accounts steps b) {locus : Locus}
    (hvar : s.variableAt? locus = some name) {types : List Ty} (hne : types ≠ [])
    (hleft : b.types? name ≠ some []) (t : Ty) (values : List Value) :
    s.Accounts (steps ++ [Scope.step (if b.contains name then .narrow else .bind) locus t
      (Bindings.listing name types)]) ((b.observe name locus values).bind name types) := by
  generalize hst : Scope.step _ locus t _ = st
  have hlocus : st.locus = locus := by rw [← hst]; rfl
  have hdetail : st.detail = Bindings.listing name types := by rw [← hst]; rfl
  have hdecision : st.decision = if b.contains name then .narrow else .bind := by rw [← hst]; rfl
  have hsettles : st.decision.settles = true := by
    rw [hdecision]
    split
    · rfl
    · rfl
  have hsame : ∀ other, s.settling other (steps ++ [st]) =
      s.settling other steps ++ if name = other then [st] else [] := by
    intro other
    rw [settling_append, settling_of_settles hsettles (hlocus ▸ hvar)]
  have htypes : ∀ other, ((b.observe name locus values).bind name types).types? other =
      if name = other then some types else b.types? other := by
    intro other
    rw [Bindings.types?_bind]
    split
    · rfl
    · next hother => exact Bindings.types?_observe hother
  refine ⟨List.forall_mem_append.2 ⟨hs.placed, List.forall_mem_singleton.2 fun _ => ?_⟩,
    fun other first rest hsteps => ?_, fun other last hlast => ?_, fun other ts hts hne => ?_⟩
  · rw [hlocus, hvar]
    rfl
  · rw [hsame] at hsteps
    split at hsteps
    · next hother =>
        subst hother
        cases hearlier : s.settling name steps with
        | nil =>
            rw [hearlier] at hsteps
            cases hsteps
            refine ⟨?_, List.forall_mem_nil _⟩
            rw [hdecision, hs.contains_eq hleft, hearlier]
            rfl
        | cons binding narrowings =>
            rw [hearlier] at hsteps
            cases hsteps
            obtain ⟨hbind, hnarrow⟩ := hs.ordered name first narrowings hearlier
            refine ⟨hbind, List.forall_mem_append.2 ⟨hnarrow, List.forall_mem_singleton.2 ?_⟩⟩
            rw [hdecision, hs.contains_eq hleft, hearlier]
            rfl
    · rw [List.append_nil] at hsteps
      exact hs.ordered other first rest hsteps
  · rw [hsame] at hlast
    rw [htypes]
    split at hlast
    · next hother =>
        subst hother
        rw [List.getLast?_concat] at hlast
        cases hlast
        exact ⟨types, hne, if_pos rfl, hdetail⟩
    · next hother =>
        rw [List.append_nil] at hlast
        rw [if_neg hother]
        exact hs.listed other last hlast
  · rw [hsame]
    rw [htypes] at hts
    split at hts
    · next hother => simp [hother]
    · next hother =>
        rw [if_neg hother, List.append_nil]
        exact hs.recorded other ts hts hne

/-- Checks at positions of the signature keep the account, also when they fail. -/
theorem recorder_accounts (s : Signature) (h : Heap) (env : List Ty) :
    Scope.Recorder ⟨h, env, s.constraints⟩ s.At s.Accounts fun _ => s.Accounts where
  child := At.child
  goOn hs _ hst := hs.goOn hst
  invalid _ _ hs := hs.goOn rfl
  var {name _ locus _ b} values hvar hs := by
    have hat : s.variableAt? locus = some name := by rw [variableAt?, hvar.declares]; rfl
    refine Scope.records_satisfyVariable (fun _ _ _ => hs.goOn rfl) hs
      (fun _ _ => (hs.observe name locus values).goOn rfl)
      (fun _ => (hs.observe name locus values).goOn rfl) fun hne => ?_
    refine hs.settle hat hne (fun hnil => ?_) _ values
    -- nothing is left of no types
    obtain ⟨u, hu⟩ := List.exists_mem_of_ne_nil _ hne
    obtain ⟨_, hmem, _⟩ := Scope.instanceOf_of_mem_narrowed hnil hu
    cases hmem

theorem Accounts.satisfy {t : Ty} {locus : Locus} (hs : s.Accounts steps b)
    (ht : s.At t locus) (h : Heap) (env : List Ty) (values : List Value) :
    s.Accounts
      (steps ++ (Scope.satisfy ⟨h, env, s.constraints⟩ t locus values b).steps)
      (Scope.satisfy ⟨h, env, s.constraints⟩ t locus values b).bindings := by
  obtain ⟨hpassed, hfailed⟩ := (s.recorder_accounts h env).satisfy ht values hs
  cases hf : (Scope.satisfy ⟨h, env, s.constraints⟩ t locus values b).failure? with
  | none => exact hpassed hf
  | some f => exact hfailed f hf

end Signature

/-! ## Numbers -/

/-- Steps are added behind a trace. -/
theorem exists_recordSteps (trace : List Recorded) (steps : List Step) :
    ∃ new, recordSteps trace steps = trace ++ new ∧ new.map (·.step) = steps := by
  induction steps generalizing trace with
  | nil => exact ⟨[], (List.append_nil _).symm, rfl⟩
  | cons st steps ih =>
      obtain ⟨new, hnew, hsteps⟩ := ih (trace ++ [⟨trace.length, st⟩])
      refine ⟨⟨trace.length, st⟩ :: new, ?_, by rw [List.map_cons, hsteps]⟩
      rw [recordSteps, hnew, List.append_assoc]
      rfl

theorem numbers_recordSteps {trace : List Recorded} (steps : List Step)
    (htrace : trace.map (·.number) = List.range trace.length) :
    (recordSteps trace steps).map (·.number) = List.range (recordSteps trace steps).length := by
  induction steps generalizing trace with
  | nil => exact htrace
  | cons st steps ih =>
      refine ih ?_
      rw [List.map_append, htrace, List.length_append, List.length_singleton, List.range_succ]
      rfl

/-! ## Sessions that keep a trace -/

/-- How an action fails, if it does. -/
def Outcome.failure? {ε α : Type} : Outcome ε α → Option ε
  | failed e _ => some e
  | done .. | exhausted => none

/-- What a session can be asked to check. -/
inductive Request where
  | argument (index : Nat) (v : Value)
  | result (v : Value)

/-- Whether the signature has the parameter that a request is about. -/
def Request.InRange (s : Signature) : Request → Prop
  | argument index _ => index < s.arity
  | result _ => True

namespace Session

/-- Makes the check that is asked for. -/
def answer (s : Session) : Request → Action Diagnostic Unit
  | .argument index v => s.checkArgument index v
  | .result v => do
    let _ ← s.checkResult v
    pure ()

/-- The worlds of a session that has kept a trace from the start: it is asked for
checks, which pass or fail, and in between anything can happen that leaves its own state
alone. -/
inductive Traced (s : Session) : World → Prop where
  | start {w w' : World} (made : start s.signature s.env default w = (s, w')) :
      Traced s (s.enableTracing w')
  | between {w w' : World} (before : Traced s w)
      (state : w'.sessions[s.state]? = w.sessions[s.state]?) : Traced s w'
  | check {w w' : World} {r : Request} (before : Traced s w) (inRange : r.InRange s.signature)
      (left : (s.answer r w).Leaves w') : Traced s w'

/-- Whether the trace of a session is numbered without gaps and agrees with what is
known of the variables. -/
structure Faithful (s : Session) (w : World) : Prop where
  tracing : ∃ state, w.sessions[s.state]? = some state ∧ state.trace.isSome = true
  numbered : (s.trace w).map (·.number) = List.range (s.trace w).length
  accounts : s.signature.Accounts ((s.trace w).map (·.step)) (s.bindings w)

variable {s : Session} {w w' : World}

theorem Faithful.between (hs : s.Faithful w)
    (hstate : w'.sessions[s.state]? = w.sessions[s.state]?) : s.Faithful w' := by
  have hsession : w'.session s.state = w.session s.state := by
    rw [World.session, World.session, hstate]
  have htrace : s.trace w' = s.trace w := by rw [trace, trace, hsession]
  have hbindings : s.bindings w' = s.bindings w := by rw [bindings, bindings, hsession]
  refine ⟨hstate ▸ hs.tracing, htrace ▸ hs.numbered, ?_⟩
  rw [htrace, hbindings]
  exact hs.accounts

theorem Faithful.of_state {state : SessionState} {trace : List Recorded}
    (hstate : w.sessions[s.state]? = some state) (htrace : state.trace = some trace)
    (hnumbered : trace.map (·.number) = List.range trace.length)
    (haccounts : s.signature.Accounts (trace.map (·.step)) state.bindings) :
    s.Faithful w := by
  have hsession : w.session s.state = state := by rw [World.session, hstate]; rfl
  have hkept : s.trace w = trace := by rw [Session.trace, hsession, htrace]; rfl
  refine ⟨⟨state, hstate, by rw [htrace]; rfl⟩, ?_, ?_⟩
  · rw [hkept]
    exact hnumbered
  · rw [hkept, bindings, hsession]
    exact haccounts

theorem faithful_start (hmade : start s.signature s.env default w = (s, w')) :
    s.Faithful (s.enableTracing w') := by
  obtain ⟨hs, rfl⟩ := Prod.mk.inj hmade
  have hstate : s.state = w.sessions.size := congrArg Session.state hs.symm
  have hentry :
      (s.enableTracing { w with sessions := w.sessions.push default }).sessions[s.state]? =
        some ⟨∅, some []⟩ := by
    simp [enableTracing, World.setSession, World.session, hstate, default]
  exact .of_state hentry rfl rfl Signature.accounts_nil

/-! ## One check -/

/-- The verdict on a value at a position. -/
def verdict (s : Session) (w : World) (t : Ty) (locus : Locus) (v : Value) : Verdict :=
  (s.scope w.heap).satisfy t locus [v] (s.bindings w)

/-- The world with a verdict in the session's state. -/
def recording (s : Session) (w : World) (v : Verdict) : World :=
  w.setSession s.state ((w.session s.state).record v)

theorem leaves_check (s : Session) (t : Ty) (locus : Locus) (v : Value) (w : World) :
    (s.check t locus v w).Leaves (s.recording w (s.verdict w t locus v)) :=
  leaves_conclude.2 rfl

theorem failure?_check (s : Session) (t : Ty) (locus : Locus) (v : Value) (w : World) :
    (s.check t locus v w).failure? =
      (s.verdict w t locus v).failure?.map (s.diagnostic w.heap) := by
  cases hf : (s.verdict w t locus v).failure? with
  | none =>
      rw [check, conclude_of_none hf]
      rfl
  | some f =>
      rw [check, conclude_of_some hf]
      rfl

theorem exists_wrap (s : Session) (t : Ty) (locus : Locus) (v : Value) (w : World) :
    ∃ v' w', s.wrap t locus v w = (.done v' w' : Outcome Diagnostic Value) ∧
      w'.sessions = w.sessions := by
  rcases s.wrap_cases (ε := Diagnostic) t locus v w with ⟨hdone, _⟩ | ⟨_, _, _, _, _, _, _, hdone⟩
  · exact ⟨_, _, hdone, rfl⟩
  · exact ⟨_, _, hdone, rfl⟩

theorem exists_check_of_result (s : Session) (v : Value) (w : World) :
    ∃ w', (s.answer (.result v) w).Leaves w' ∧
      (s.answer (.result v) w).failure? =
        (s.check s.signature.result (.root s.signature.arity) v w).failure? ∧
      w'.sessions = (s.recording w
        (s.verdict w s.signature.result (.root s.signature.arity) v)).sessions := by
  generalize hplace : Locus.root s.signature.arity = locus
  have hanswer : s.answer (.result v) = Action.andThen (Action.andThen
      (s.check s.signature.result locus v) fun _ => s.wrap s.signature.result locus v)
      fun _ => pure () := by
    rw [← hplace]
    rfl
  rw [hanswer, Action.andThen, Action.andThen]
  rcases s.leaves_check s.signature.result locus v w with ⟨_, hdone⟩ | ⟨d, hfailed⟩
  · obtain ⟨v', w', hwrap, hsessions⟩ := s.exists_wrap s.signature.result locus v
      (s.recording w (s.verdict w s.signature.result locus v))
    rw [hdone]
    simp only
    rw [hwrap]
    exact ⟨w', Outcome.leaves_done.2 rfl, rfl, hsessions⟩
  · rw [hfailed]
    exact ⟨_, Outcome.leaves_failed.2 rfl, rfl, rfl⟩

/-- What is asked for is the check of a value against the type that the signature has at
a position; for a result there is more to do, but not in the state of a session. -/
theorem exists_check_of_answer (hkeys : ∀ t ∈ s.signature.types, t.KeysApart)
    {r : Request} (hr : r.InRange s.signature) (w : World) :
    ∃ t locus v w', s.signature.At t locus ∧ (s.answer r w).Leaves w' ∧
      (s.answer r w).failure? = (s.check t locus v w).failure? ∧
      w'.sessions = (s.recording w (s.verdict w t locus v)).sessions := by
  cases r with
  | argument index v =>
      have ht := List.getElem?_eq_getElem (show index < s.signature.params.length from hr)
      have hplace := Signature.at_root hkeys (Signature.types_of_params ht)
      have hanswer : s.answer (.argument index v) =
          s.check s.signature.params[index] (.root index) v := checkArgument_eq_check ht v
      rw [hanswer]
      exact ⟨_, _, v, _, hplace, s.leaves_check _ _ v w, rfl, rfl⟩
  | result v =>
      have hplace := Signature.at_root hkeys s.signature.types_arity
      obtain ⟨w', hleft, hfailure, hsessions⟩ := s.exists_check_of_result v w
      exact ⟨_, _, v, w', hplace, hleft, hfailure, hsessions⟩

/-- A check at a position of the signature keeps the trace faithful. -/
theorem Faithful.check (hs : s.Faithful w) {t : Ty} {locus : Locus}
    (ht : s.signature.At t locus) (v : Value) :
    s.Faithful (s.recording w (s.verdict w t locus v)) ∧
      ∃ new, s.trace (s.recording w (s.verdict w t locus v)) = s.trace w ++ new ∧
        new.map (·.step) = (s.verdict w t locus v).steps := by
  obtain ⟨⟨state, hstate, htracing⟩, hnumbered, haccounts⟩ := hs
  obtain ⟨trace, htrace⟩ := Option.isSome_iff_exists.1 htracing
  have hsession : w.session s.state = state := by rw [World.session, hstate]; rfl
  have hkept : s.trace w = trace := by rw [Session.trace, hsession, htrace]; rfl
  obtain ⟨new, hnew, hsteps⟩ := exists_recordSteps trace (s.verdict w t locus v).steps
  have hentry : (s.recording w (s.verdict w t locus v)).sessions[s.state]? =
      some ⟨(s.verdict w t locus v).bindings, some (trace ++ new)⟩ := by
    have hlt := (Array.getElem?_eq_some_iff.1 hstate).1
    rw [recording, World.setSession, hsession, SessionState.record, htrace, Option.map_some, hnew]
    exact Array.getElem?_setIfInBounds_self_of_lt hlt
  rw [hkept] at hnumbered haccounts
  refine ⟨.of_state hentry rfl ?_ ?_, new, ?_, hsteps⟩
  · rw [← hnew]
    exact numbers_recordSteps _ hnumbered
  · rw [List.map_append, hsteps]
    exact haccounts.satisfy ht w.heap s.env [v]
  · rw [hkept, Session.trace, World.session, hentry]
    rfl

/-- What one request leaves: a faithful trace, longer by steps that tell whether it
failed, and where. -/
theorem Faithful.answer (hkeys : ∀ t ∈ s.signature.types, t.KeysApart)
    (hs : s.Faithful w) {r : Request} (hr : r.InRange s.signature) :
    ∃ w' new, (s.answer r w).Leaves w' ∧ s.Faithful w' ∧ s.trace w' = s.trace w ++ new ∧
      ((s.answer r w).failure?.isSome = true ↔ ∃ x ∈ new, x.step.decision.fails = true) ∧
      ∀ d, (s.answer r w).failure? = some d →
        Step.Closes (new.map (·.step)) d.category d.positions := by
  obtain ⟨t, locus, v, w', ht, hleft, hfailure, hsessions⟩ := exists_check_of_answer hkeys hr w
  obtain ⟨hchecked, new, htrace, hsteps⟩ := hs.check ht v
  have hstate : w'.sessions[s.state]? =
      (s.recording w (s.verdict w t locus v)).sessions[s.state]? := by rw [hsessions]
  refine ⟨w', new, hleft, hchecked.between hstate, ?_, ?_⟩
  · rw [← htrace, trace, trace, World.session, World.session, hstate]
  · have hnew : (∃ x ∈ new, x.step.decision.fails = true) ↔
        ∃ st ∈ (s.verdict w t locus v).steps, st.decision.fails = true := by
      rw [← hsteps]
      simp only [List.mem_map, exists_exists_and_eq_and]
    rw [hfailure, failure?_check, hnew, hsteps]
    cases hf : (s.verdict w t locus v).failure? with
    | none =>
        have hpassed : ¬ ∃ st ∈ (s.verdict w t locus v).steps, st.decision.fails = true := by
          rintro ⟨st, hst, hfails⟩
          rw [Scope.fails_eq_false_of_satisfy hf st hst] at hfails
          cases hfails
        refine ⟨iff_of_false Bool.false_ne_true hpassed, fun d hd => ?_⟩
        cases hd
    | some f =>
        have hcloses := Scope.closes_of_satisfy hf
        refine ⟨⟨fun _ => hcloses.exists_fails, fun _ => rfl⟩, fun d hd => ?_⟩
        cases hd
        exact hcloses

theorem Traced.faithful (hkeys : ∀ t ∈ s.signature.types, t.KeysApart)
    (hs : s.Traced w) :
    s.Faithful w := by
  induction hs with
  | start made => exact faithful_start made
  | between before state ih => exact ih.between state
  | check before inRange left ih =>
      obtain ⟨w', _, hleft, hfaithful, _⟩ := ih.answer hkeys inRange
      exact left.eq hleft ▸ hfaithful

/-- Whatever a session that keeps a trace has been asked for, and whatever failed: the
steps are numbered one after the other, they agree with what is known of the variables,
and the next request has an answer, which fails exactly if one of the steps that it adds
does. That step is the last one and stands where the failure points. -/
theorem Traced.trace_faithful (hkeys : ∀ t ∈ s.signature.types, t.KeysApart)
    (hs : s.Traced w) :
    (s.trace w).map (·.number) = List.range (s.trace w).length ∧
    s.signature.Accounts ((s.trace w).map (·.step)) (s.bindings w) ∧
    ∀ r : Request, r.InRange s.signature →
      ∃ w' new, (s.answer r w).Leaves w' ∧ s.trace w' = s.trace w ++ new ∧
        ((s.answer r w).failure?.isSome = true ↔ ∃ x ∈ new, x.step.decision.fails = true) ∧
        ∀ d, (s.answer r w).failure? = some d →
          Step.Closes (new.map (·.step)) d.category d.positions := by
  have hfaithful := hs.faithful hkeys
  refine ⟨hfaithful.numbered, hfaithful.accounts, fun r hr => ?_⟩
  obtain ⟨w', new, hleft, _, hanswer⟩ := hfaithful.answer hkeys hr
  exact ⟨w', new, hleft, hanswer⟩

/-- An empty array binds a variable to arrays of anything and an array with a Boolean
narrows it; null is then rejected. -/
theorem Traced.trace_faithful_arrays :
    ∃ (s : Session) (w w' : World) (types : List Ty) (d : Diagnostic) (new : List Recorded),
      (∀ t ∈ s.signature.types, t.KeysApart) ∧ s.Traced w ∧
      (s.trace w).map (·.step.decision) = [.bind, .narrow] ∧
      (s.trace w).map (·.number) = [0, 1] ∧ (s.bindings w).types? "a" = some types ∧
      Bindings.listing "a" types = "a := Array Boolean" ∧
      (s.answer (.argument 0 .null) w).failure? = some d ∧
      (s.answer (.argument 0 .null) w).Leaves w' ∧ s.trace w' = s.trace w ++ new ∧
      Step.Closes (new.map (·.step)) d.category d.positions := by
  let env : List Ty := [Builtin.array .unknown, Builtin.boolean, Builtin.null]
  let s : Session := ⟨⟨"put", ∅, [.var "a" [], .var "a" []], .any, by decide⟩, env, 0⟩
  let w₀ : World := ⟨⟨#[[], [.bool true]], #[]⟩, #[], #[], ∅⟩
  have hkeys : ∀ t ∈ s.signature.types, t.KeysApart := by
    have hvar : (Ty.var "a" []).KeysApart := Ty.eachRecord_of_children nofun nofun
    have hany : Ty.any.KeysApart := Ty.eachRecord_of_children nofun nofun
    simpa [s, Signature.types] using ⟨hvar, hany⟩
  obtain ⟨w, hs, hdecisions, hlast, hfails⟩ : ∃ w, s.Traced w ∧
      (s.trace w).map (·.step.decision) = [.bind, .narrow] ∧
      (s.signature.settling "a" ((s.trace w).map (·.step))).getLast?.map (·.detail) =
        some "a := Array Boolean" ∧
      (s.answer (.argument 0 .null) w).failure?.isSome = true := by
    have hcheck : ∀ {w : World} (index : Nat) (v : Value), s.Traced w → index < 2 → s.Traced
        (s.recording w (s.signature.argumentVerdict w.heap s.env index v (s.bindings w))) := by
      intro w index v hs hindex
      refine hs.check (r := .argument index v) hindex ?_
      rw [answer, checkArgument]
      exact leaves_conclude.2 rfl
    have hstart : s.Traced _ := .start (w := w₀) rfl
    have hfirst := hcheck 0 (.array 0) hstart (by decide)
    have hsecond := hcheck 1 (.array 1) hfirst (by decide)
    exact ⟨_, hsecond, by decide +kernel, by decide +kernel, by decide +kernel⟩
  obtain ⟨hnumbered, haccounts, hanswer⟩ := Traced.trace_faithful hkeys hs
  obtain ⟨last, hlast, hdetail⟩ := Option.map_eq_some_iff.1 hlast
  obtain ⟨types, _, htypes, hlisting⟩ := haccounts.listed "a" last hlast
  obtain ⟨d, hd⟩ := Option.isSome_iff_exists.1 hfails
  obtain ⟨w', new, hleft, htrace, _, hcloses⟩ :=
    hanswer (.argument 0 .null) (show 0 < 2 by decide)
  have hlength : (s.trace w).length = 2 := by
    rw [← List.length_map, hdecisions]
    rfl
  rw [hlength] at hnumbered
  exact ⟨s, w, w', types, d, new, hkeys, hs, hdecisions, hnumbered, htypes, hlisting ▸ hdetail, hd,
    hleft, htrace, hcloses d hd⟩

end Session

end DynamicTypes
