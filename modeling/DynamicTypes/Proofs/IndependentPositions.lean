import DynamicTypes.Proofs.CheckLogic
import DynamicTypes.Proofs.Handover
import DynamicTypes.Proofs.Independence
import DynamicTypes.Ty.Builtin

/-!
# Positions that share no variable

A session checks values at the positions of its signature, the arguments one by one and
at last the result, and all checks write into one table of bindings. Two of them that
have no variable in common do not see each other there: whichever comes first, both pass
or not both, and the table in the end is the same.

That a check which passes is confined to its variables is `confined_satisfy`. A check
that fails has written too, up to where it failed, and what it leaves alone is the other
half: nothing is ever written for a variable that the type does not have.
-/

namespace DynamicTypes

theorem Verdict.Meets.bindings {v : Verdict} {P : Bindings → Prop}
    (hv : v.Meets P fun _ b => P b) : P v.bindings := by
  cases hf : v.failure? with
  | none => exact hv.1 hf
  | some f => exact hv.2 f hf

namespace Ty

theorem vars_subset_varsAll {t : Ty} {ts : List Ty} (ht : t ∈ ts) :
    t.vars ⊆ varsAll ts := by
  induction ts with
  | nil => cases ht
  | cons u us ih =>
      rw [varsAll]
      rcases List.mem_cons.1 ht with rfl | ht
      · exact List.subset_append_left _ _
      · exact List.Subset.trans (ih ht) (List.subset_append_right _ _)

theorem vars_subset_varsFields {f : String × Ty} {fields : List (String × Ty)}
    (hf : f ∈ fields) :
    f.2.vars ⊆ varsFields fields := by
  induction fields with
  | nil => cases hf
  | cons g fields ih =>
      rw [varsFields]
      rcases List.mem_cons.1 hf with rfl | hf
      · exact List.subset_append_left _ _
      · exact List.Subset.trans (ih hf) (List.subset_append_right _ _)

end Ty

namespace Scope

variable {s : Scope} {name : String} {x : Option Binding}

/-- Whether a variable takes its values or not, nothing changes for other variables. -/
theorem meets_satisfyVariable_other {t : Ty} {other : String} (hne : other ≠ name)
    {arity : Nat} {locus : Locus} {values : List Value} {b : Bindings}
    (hb : b.find? name = x) :
    (s.satisfyVariable t other arity locus values b).Meets (·.find? name = x)
      fun _ b => b.find? name = x := by
  have hobserve : (b.observe other locus values).find? name = x := by
    rw [Bindings.observe, SortedMap.find?_insert, if_neg hne, hb]
  refine meets_satisfyVariable (fun _ _ _ => hb) (fun _ => hb) (fun _ _ _ _ => hobserve)
    (fun _ _ => hobserve) fun _ _ => ?_
  rw [Bindings.bind, SortedMap.find?_insert, if_neg hne, hobserve]

theorem maintains_find? {t : Ty} (hn : name ∉ t.vars) :
    s.Maintains (·.find? name = x) (fun _ b => b.find? name = x) t := by
  have hinvalid : ∀ (_ : Locus) (_ : Value) (_ : Ty) (b : Bindings), b.find? name = x →
      b.find? name = x := fun _ _ _ _ hb => hb
  induction t with
  | con c supers params _ ih =>
      rw [Ty.vars] at hn
      exact maintains_con hinvalid fun u hu => ih u hu fun h => hn (Ty.vars_subset_varsAll hu h)
  | record r supers fields _ ih =>
      rw [Ty.vars] at hn
      exact maintains_record hinvalid fun f hf =>
        ih f hf fun h => hn (Ty.vars_subset_varsFields hf h)
  | var other params ih =>
      rw [Ty.vars, List.mem_cons, not_or] at hn
      refine maintains_var (fun _ _ _ hb => meets_satisfyVariable_other (Ne.symm hn.1) hb) ?_
      exact fun u hu => ih u hu fun h => hn.2 (Ty.vars_subset_varsAll hu h)
  | _ => exact maintains_leaf hinvalid rfl

/-- A check, passed or failed, leaves alone what is known of variables that its type
does not have. -/
theorem find?_satisfy {t : Ty} (hn : name ∉ t.vars) (locus : Locus)
    (values : List Value) (b : Bindings) :
    (satisfy s t locus values b).bindings.find? name = b.find? name :=
  Verdict.Meets.bindings (maintains_find? hn locus values b rfl)

end Scope

theorem Signature.params_of_types {sig : Signature} {i : Nat} {t : Ty}
    (ht : sig.types[i]? = some t) (hi : i ≠ sig.arity) : sig.params[i]? = some t := by
  have hlt : i < sig.types.length := (List.getElem?_eq_some_iff.1 ht).1
  rw [types, List.length_append, List.length_singleton] at hlt
  rw [arity] at hi
  rwa [types, List.getElem?_append_left (by omega)] at ht

namespace Session

/-- Checks a value at a position of the signature, as an argument or as the result. -/
def checkAt (s : Session) (i : Nat) (v : Value) : Action Diagnostic Unit :=
  if i = s.signature.arity then do
    let _ ← s.checkResult v
    pure ()
  else s.checkArgument i v

variable {s : Session} {w w' : World} {i : Nat} {t : Ty}

/-- The verdict on a value at a position, from what the session knows. -/
def verdictAt (s : Session) (w : World) (t : Ty) (i : Nat) (v : Value) : Verdict :=
  (s.scope w.heap).satisfy t (.root i) [v] (s.bindings w)

theorem check_cases (hkept : s.state < w.sessions.size) (v : Value) :
    ∃ w', w'.heap = w.heap ∧ s.state < w'.sessions.size ∧
      s.bindings w' = (s.verdictAt w t i v).bindings ∧
      ((s.verdictAt w t i v).failure? = none ∧ s.check t (.root i) v w = .done () w' ∨
        ∃ f, (s.verdictAt w t i v).failure? = some f ∧
          s.check t (.root i) v w = .failed (s.diagnostic w.heap f) w') := by
  refine ⟨w.setSession s.state ((w.session s.state).record (s.verdictAt w t i v)), rfl,
    by simpa [World.setSession] using hkept, bindings_record hkept _, ?_⟩
  cases hf : (s.verdictAt w t i v).failure? with
  | none => exact .inl ⟨rfl, conclude_of_none hf⟩
  | some f => exact .inr ⟨f, rfl, conclude_of_some hf⟩

/-- A check at a position passes or fails as its verdict says. The session then knows
what the verdict leaves, and the heap is as it was. -/
theorem checkAt_cases (hkept : s.state < w.sessions.size)
    (ht : s.signature.types[i]? = some t) (v : Value) :
    ∃ w', w'.heap = w.heap ∧ s.state < w'.sessions.size ∧
      s.bindings w' = (s.verdictAt w t i v).bindings ∧
      ((s.verdictAt w t i v).failure? = none ∧ s.checkAt i v w = .done () w' ∨
        ∃ f, (s.verdictAt w t i v).failure? = some f ∧
          s.checkAt i v w = .failed (s.diagnostic w.heap f) w') := by
  obtain ⟨w₁, hheap, hkept₁, hbindings, hcheck⟩ := check_cases (t := t) (i := i) hkept v
  by_cases hi : i = s.signature.arity
  · have hresult : s.signature.result = t :=
      Option.some.inj (s.signature.types_arity.symm.trans (hi ▸ ht))
    have hat : s.checkAt i v = (s.check t (.root i) v >>= fun _ => s.wrap t (.root i) v) >>=
        fun _ => pure () := by
      rw [checkAt, if_pos hi, ← hresult, hi]
      rfl
    rw [hat]
    rcases hcheck with ⟨hf, hdone⟩ | ⟨f, hf, hfailed⟩
    · -- a result is wrapped after its check, which makes new callbacks and touches nothing else
      obtain ⟨v', w₂, hwrap, _⟩ := s.wrap_hands (ε := Diagnostic) t (.root i) v w₁
      obtain ⟨hheap₂, hsessions⟩ := wrap_eq_done hwrap
      refine ⟨w₂, hheap₂.trans hheap, hsessions ▸ hkept₁, ?_, .inl ⟨hf, ?_⟩⟩
      · rw [bindings_eq, hsessions, ← bindings_eq, hbindings]
      · rw [Action.bind_of_done ((Action.bind_of_done hdone).trans hwrap)]
        rfl
    · refine ⟨w₁, hheap, hkept₁, hbindings, .inr ⟨f, hf, ?_⟩⟩
      exact Action.bind_of_failed (Action.bind_of_failed hfailed)
  · have hat : s.checkAt i v = s.check t (.root i) v := by
      rw [checkAt, if_neg hi, checkArgument_eq_check (Signature.params_of_types ht hi)]
    rw [hat]
    exact ⟨w₁, hheap, hkept₁, hbindings, hcheck⟩

theorem checkAt_done (hkept : s.state < w.sessions.size)
    (ht : s.signature.types[i]? = some t) {v : Value}
    (hdone : s.checkAt i v w = .done () w') :
    w'.heap = w.heap ∧ s.state < w'.sessions.size ∧
      (s.verdictAt w t i v).Succeeds (s.bindings w') := by
  obtain ⟨w₁, hheap, hkept₁, hbindings, ⟨hf, hdone₁⟩ | ⟨f, _, hfailed⟩⟩ := checkAt_cases hkept ht v
  · cases hdone.symm.trans hdone₁
    exact ⟨hheap, hkept₁, hf, hbindings.symm⟩
  · cases hdone.symm.trans hfailed

theorem exists_checkAt_done (hkept : s.state < w.sessions.size)
    (ht : s.signature.types[i]? = some t) {v : Value} {b : Bindings}
    (hpassed : (s.verdictAt w t i v).Succeeds b) :
    ∃ w', s.checkAt i v w = .done () w' ∧ w'.heap = w.heap ∧ s.state < w'.sessions.size ∧
      s.bindings w' = b := by
  obtain ⟨w', hheap, hkept', hbindings, ⟨_, hdone⟩ | ⟨f, hf, _⟩⟩ := checkAt_cases hkept ht v
  · exact ⟨w', hdone, hheap, hkept', hbindings.trans hpassed.2⟩
  · cases hf.symm.trans hpassed.1

/-- Checks that pass one after the other at positions without a common variable pass the
other way round, and leave the session with the same bindings. -/
theorem checkAt_swap {j : Nat} {u : Ty} (hkept : s.state < w.sessions.size)
    (ht : s.signature.types[i]? = some t) (hu : s.signature.types[j]? = some u)
    (hapart : ∀ n ∈ t.vars, n ∉ u.vars) {v x : Value} {w₁ w₂ : World}
    (hfirst : s.checkAt i v w = .done () w₁)
    (hsecond : s.checkAt j x w₁ = .done () w₂) :
    ∃ w₁' w₂', s.checkAt j x w = .done () w₁' ∧ s.checkAt i v w₁' = .done () w₂' ∧
      s.bindings w₂' = s.bindings w₂ := by
  obtain ⟨hheap₁, hkept₁, hpassed₁⟩ := checkAt_done hkept ht hfirst
  obtain ⟨_, _, hpassed₂⟩ := checkAt_done hkept₁ hu hsecond
  rw [verdictAt, hheap₁] at hpassed₂
  obtain ⟨b, hb, hb'⟩ := (Scope.confined_satisfy t (.root i) [v]).comm
    (Scope.confined_satisfy u (.root j) [x]) hapart hpassed₁ hpassed₂
  obtain ⟨w₁', hfirst', hheap₁', hkept₁', hbindings₁'⟩ := exists_checkAt_done hkept hu hb
  have hpassed : (s.verdictAt w₁' t i v).Succeeds (s.bindings w₂) := by
    rw [verdictAt, hheap₁', hbindings₁']
    exact hb'
  obtain ⟨w₂', hsecond', _, _, hbindings₂'⟩ := exists_checkAt_done hkept₁' ht hpassed
  exact ⟨w₁', w₂', hfirst', hsecond', hbindings₂'⟩

/-- A session in any state checks values at its positions, of which the last is the
result. A check, whether it passes or fails, leaves alone all that is known of variables
which are not in its type. If the types at two positions have no variable in common,
then values pass there one after the other exactly if they pass in the other order, and
then the session knows the same in the end.

What passes is decided within `h.size + 2` levels of classification. They are known to
be enough only if the types of the environment find nothing but what the heap holds
(`Ty.YieldsWithin`). Otherwise a value below the last level has no types, where a
classification without a bound would go on. -/
theorem positions_commute (hkept : s.state < w.sessions.size)
    (ht : s.signature.types[i]? = some t) (v : Value) :
    (∀ w', (s.checkAt i v w).Leaves w' →
      ∀ n ∉ t.vars, (s.bindings w').find? n = (s.bindings w).find? n) ∧
    ∀ (j : Nat) (u : Ty), s.signature.types[j]? = some u → (∀ n ∈ t.vars, n ∉ u.vars) →
      ∀ x : Value,
      ((∃ w₁ w₂, s.checkAt i v w = .done () w₁ ∧ s.checkAt j x w₁ = .done () w₂) ↔
        ∃ w₁ w₂, s.checkAt j x w = .done () w₁ ∧ s.checkAt i v w₁ = .done () w₂) ∧
      ∀ w₁ w₂ w₁' w₂', s.checkAt i v w = .done () w₁ → s.checkAt j x w₁ = .done () w₂ →
        s.checkAt j x w = .done () w₁' → s.checkAt i v w₁' = .done () w₂' →
        s.bindings w₂ = s.bindings w₂' := by
  refine ⟨fun w' hleft n hn => ?_, fun j u hu hapart x => ⟨⟨?_, ?_⟩, ?_⟩⟩
  · have hframe := Scope.find?_satisfy (s := s.scope w.heap) hn (.root i) [v] (s.bindings w)
    obtain ⟨w₁, _, _, hbindings, ⟨_, hdone⟩ | ⟨f, _, hfailed⟩⟩ := checkAt_cases hkept ht v
    · rw [hdone] at hleft
      obtain rfl := Outcome.leaves_done.1 hleft
      rw [hbindings]
      exact hframe
    · rw [hfailed] at hleft
      obtain rfl := Outcome.leaves_failed.1 hleft
      rw [hbindings]
      exact hframe
  · rintro ⟨w₁, w₂, hfirst, hsecond⟩
    obtain ⟨w₁', w₂', hfirst', hsecond', _⟩ := checkAt_swap hkept ht hu hapart hfirst hsecond
    exact ⟨w₁', w₂', hfirst', hsecond'⟩
  · rintro ⟨w₁, w₂, hfirst, hsecond⟩
    obtain ⟨w₁', w₂', hfirst', hsecond', _⟩ :=
      checkAt_swap hkept hu ht (fun n hn hn' => hapart n hn' hn) hfirst hsecond
    exact ⟨w₁', w₂', hfirst', hsecond'⟩
  · intro w₁ w₂ w₁' w₂' hfirst hsecond hfirst' hsecond'
    obtain ⟨u₁, u₂, hswapped, hswapped', hbindings⟩ :=
      checkAt_swap hkept ht hu hapart hfirst hsecond
    cases hswapped.symm.trans hfirst'
    cases hswapped'.symm.trans hsecond'
    exact hbindings.symm

/-- An argument `a` and a result `Array b`, when `a` is known to be boolean: `true` and
`[null]` pass in both orders. Of the result alone nothing is known for `a` that was not,
and `null` is refused as the argument with `b` as free as it was. -/
theorem positions_commute_result :
    ∃ (s : Session) (w : World) (xs : Value),
      s.signature.types = [.var "a" [], Builtin.array (.var "b" [])] ∧
      (s.bindings w).types? "a" = some [Builtin.boolean] ∧
      (∃ w₁ w₂ w₁' w₂',
        s.checkAt 0 (.bool true) w = .done () w₁ ∧ s.checkAt 1 xs w₁ = .done () w₂ ∧
        s.checkAt 1 xs w = .done () w₁' ∧ s.checkAt 0 (.bool true) w₁' = .done () w₂' ∧
        s.bindings w₂ = s.bindings w₂' ∧
        (s.bindings w₁').find? "a" = (s.bindings w).find? "a") ∧
      ∃ d w', s.checkAt 0 .null w = .failed d w' ∧
        (s.bindings w').find? "b" = (s.bindings w).find? "b" := by
  let env : List Ty := [Builtin.array .unknown, Builtin.boolean, Builtin.null]
  let s : Session := ⟨⟨"f", ∅, [.var "a" []], Builtin.array (.var "b" []), by decide⟩, env, 0⟩
  let known : Bindings := .ofList [("a", ⟨[Builtin.boolean], .ofList [(.root 0, [.bool false])]⟩)]
  let w : World := ⟨⟨#[[.null]], #[]⟩, #[], #[⟨known, none⟩], ∅⟩
  have hkept : s.state < w.sessions.size := by decide
  have hargument : s.signature.types[0]? = some (.var "a" []) := rfl
  have hresult : s.signature.types[1]? = some (Builtin.array (.var "b" [])) := rfl
  have hpassed : (s.verdictAt w (.var "a" []) 0 (.bool true)).Succeeds _ := ⟨rfl, rfl⟩
  obtain ⟨w₁, hfirst, hheap, hkept₁, hbindings₁⟩ := exists_checkAt_done hkept hargument hpassed
  have hpassed₁ : (s.verdictAt w₁ (Builtin.array (.var "b" [])) 1 (.array 0)).failure?.isNone := by
    rw [verdictAt, hheap, hbindings₁]
    decide +kernel
  obtain ⟨w₂, hsecond, _⟩ :=
    exists_checkAt_done hkept₁ hresult ⟨Option.isNone_iff_eq_none.1 hpassed₁, rfl⟩
  obtain ⟨d, w', hrefused⟩ : ∃ d w', s.checkAt 0 .null w = .failed d w' := ⟨_, _, rfl⟩
  obtain ⟨horders, hbindings⟩ := (positions_commute hkept hargument (.bool true)).2 1 _ hresult
    (by decide) (.array 0)
  obtain ⟨w₁', w₂', hfirst', hsecond'⟩ := horders.1 ⟨w₁, w₂, hfirst, hsecond⟩
  refine ⟨s, w, .array 0, rfl, rfl, ⟨w₁, w₂, w₁', w₂', hfirst, hsecond, hfirst', hsecond',
    hbindings _ _ _ _ hfirst hsecond hfirst' hsecond', ?_⟩, d, w', hrefused, ?_⟩
  · exact (positions_commute hkept hresult (.array 0)).1 _ (.inl ⟨_, hfirst'⟩) "a" (by decide)
  · exact (positions_commute hkept hargument .null).1 _ (.inr ⟨_, hrefused⟩) "b" (by decide)

end Session

end DynamicTypes
