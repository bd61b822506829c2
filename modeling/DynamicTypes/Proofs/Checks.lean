import DynamicTypes.Proofs.Resolution
import DynamicTypes.Session

/-!
# What one check does

Every check of a session lets a verdict change the session's state. A verdict without a
failure ends in a result, one with a failure in a diagnostic, and both leave behind what
was found out: `conclude_of_none` and `conclude_of_some` say so as equations. What else
there is to say of a single check follows from these two, and what a check does beyond its
verdict is to wrap a value, which `wrap_cases` describes.
-/

namespace DynamicTypes

/-! ## How actions end -/

namespace Outcome

variable {ε α : Type} {w w' : World}

/-- Whether an action ends, with a result or a failure, and leaves the world. -/
def Leaves (o : Outcome ε α) (w : World) : Prop :=
  (∃ a, o = .done a w) ∨ ∃ e, o = .failed e w

@[simp] theorem leaves_done {a : α} : (done a w : Outcome ε α).Leaves w' ↔ w = w' := by
  simp [Leaves]

@[simp] theorem leaves_failed {e : ε} :
    (failed e w : Outcome ε α).Leaves w' ↔ w = w' := by
  simp [Leaves]

@[simp] theorem not_leaves_exhausted : ¬ (exhausted : Outcome ε α).Leaves w' := by
  simp [Leaves]

theorem Leaves.eq {o : Outcome ε α} (hw : o.Leaves w) (hw' : o.Leaves w') : w = w' := by
  cases o with
  | done a w₁ => exact (leaves_done.1 hw).symm.trans (leaves_done.1 hw')
  | failed e w₁ => exact (leaves_failed.1 hw).symm.trans (leaves_failed.1 hw')
  | exhausted => exact absurd hw not_leaves_exhausted

end Outcome

namespace Action

variable {ε α β : Type} {m : Action ε α} {next : α → Action ε β} {w w' : World}

theorem bind_of_done {a : α} (hm : m w = .done a w') : (m >>= next) w = next a w' := by
  change andThen m next w = _
  rw [andThen, hm]

theorem bind_of_failed {e : ε} (hm : m w = .failed e w') :
    (m >>= next) w = .failed e w' := by
  change andThen m next w = _
  rw [andThen, hm]

theorem bind_of_exhausted (hm : m w = .exhausted) : (m >>= next) w = .exhausted := by
  change andThen m next w = _
  rw [andThen, hm]

theorem done_of_bind {b : β} (hdone : (m >>= next) w = .done b w') :
    ∃ a w₁, m w = .done a w₁ ∧ next a w₁ = .done b w' := by
  cases hm : m w with
  | done a w₁ => exact ⟨a, w₁, rfl, (bind_of_done hm).symm.trans hdone⟩
  | failed e w₁ => cases (bind_of_failed hm).symm.trans hdone
  | exhausted => cases (bind_of_exhausted hm).symm.trans hdone

theorem failed_of_bind {e : ε} (hfailed : (m >>= next) w = .failed e w') :
    m w = .failed e w' ∨ ∃ a w₁, m w = .done a w₁ ∧ next a w₁ = .failed e w' := by
  cases hm : m w with
  | done a w₁ => exact .inr ⟨a, w₁, rfl, (bind_of_done hm).symm.trans hfailed⟩
  | failed e' w₁ =>
      rw [bind_of_failed hm] at hfailed
      cases hfailed
      exact .inl rfl
  | exhausted => cases (bind_of_exhausted hm).symm.trans hfailed

theorem leaves_bind (hleft : ((m >>= next) w).Leaves w') :
    (∃ a w₁, m w = .done a w₁ ∧ (next a w₁).Leaves w') ∨ ∃ e, m w = .failed e w' := by
  rcases hleft with ⟨b, hdone⟩ | ⟨e, hfailed⟩
  · obtain ⟨a, w₁, hm, hnext⟩ := done_of_bind hdone
    exact .inl ⟨a, w₁, hm, .inl ⟨b, hnext⟩⟩
  · rcases failed_of_bind hfailed with hm | ⟨a, w₁, hm, hnext⟩
    · exact .inr ⟨e, hm⟩
    · exact .inl ⟨a, w₁, hm, .inr ⟨e, hnext⟩⟩

/-- Whether an action ends in a result, and leaves a world with the property. -/
def endsIn (p : World → Bool) (m : Action ε α) (w : World) : Bool :=
  match m w with
  | .done _ w' => p w'
  | _ => false

theorem exists_done_of_endsIn {p : World → Bool} (hends : endsIn p m w = true) :
    ∃ a w', m w = .done a w' ∧ p w' = true := by
  unfold endsIn at hends
  split at hends
  · next a w' hdone => exact ⟨a, w', hdone, hends⟩
  · cases hends

end Action

namespace Signature

theorem types_of_params {s : Signature} {i : Nat} {t : Ty}
    (ht : s.params[i]? = some t) :
    s.types[i]? = some t := by
  rw [types, List.getElem?_append_left (List.getElem?_eq_some_iff.1 ht).1]
  exact ht

theorem types_arity (s : Signature) : s.types[s.arity]? = some s.result := by
  simp [types, arity]

end Signature

namespace Session

/-- What the checks of a session depend on. -/
def scope (s : Session) (h : Heap) : Scope := ⟨h, s.env, s.signature.constraints⟩

variable {s : Session} {w w' : World} {verdict : Heap → Bindings → Verdict} {d : Diagnostic}

theorem bindings_eq : s.bindings w = (w.sessions[s.state]?.map (·.bindings)).getD ∅ := by
  rw [bindings, World.session]
  cases w.sessions[s.state]? <;> rfl

theorem bindings_record (hkept : s.state < w.sessions.size) (v : Verdict) :
    s.bindings (w.setSession s.state ((w.session s.state).record v)) = v.bindings := by
  simp [bindings, World.session, World.setSession, SessionState.record, hkept]

/-! ## What a verdict leaves -/

theorem conclude_of_none (hnone : (verdict w.heap (s.bindings w)).failure? = none) :
    s.conclude verdict w = .done () (w.setSession s.state
      ((w.session s.state).record (verdict w.heap (s.bindings w)))) := by
  unfold conclude
  simp only
  rw [← bindings, hnone]

theorem conclude_of_some {f : Failure}
    (hsome : (verdict w.heap (s.bindings w)).failure? = some f) :
    s.conclude verdict w = .failed (s.diagnostic w.heap f) (w.setSession s.state
      ((w.session s.state).record (verdict w.heap (s.bindings w)))) := by
  unfold conclude
  simp only
  rw [← bindings, hsome]
  rfl

theorem leaves_conclude :
    (s.conclude verdict w).Leaves w' ↔
      w.setSession s.state
        ((w.session s.state).record (verdict w.heap (s.bindings w))) = w' := by
  cases hf : (verdict w.heap (s.bindings w)).failure? with
  | none => rw [conclude_of_none hf, Outcome.leaves_done]
  | some f => rw [conclude_of_some hf, Outcome.leaves_failed]

theorem conclude_passed (hdone : s.conclude verdict w = .done () w') :
    (verdict w.heap (s.bindings w)).failure? = none := by
  cases hf : (verdict w.heap (s.bindings w)).failure? with
  | none => rfl
  | some f => cases (conclude_of_some hf).symm.trans hdone

theorem conclude_failed (hfailed : s.conclude verdict w = .failed d w') :
    ∃ f, (verdict w.heap (s.bindings w)).failure? = some f ∧ d = s.diagnostic w.heap f := by
  cases hf : (verdict w.heap (s.bindings w)).failure? with
  | none => cases (conclude_of_none hf).symm.trans hfailed
  | some f =>
      cases (conclude_of_some hf).symm.trans hfailed
      exact ⟨f, rfl, rfl⟩

theorem heap_conclude (hdone : s.conclude verdict w = .done () w') :
    w'.heap = w.heap := by
  rw [← leaves_conclude.1 (.inl ⟨(), hdone⟩)]
  rfl

/-- A check that passes leaves what it found out in the session. -/
theorem conclude_eq_done (hkept : s.state < w.sessions.size)
    (hdone : s.conclude verdict w = .done () w') :
    s.state < w'.sessions.size ∧ (verdict w.heap (s.bindings w)).Succeeds (s.bindings w') := by
  rw [← leaves_conclude.1 (.inl ⟨(), hdone⟩)]
  refine ⟨?_, conclude_passed hdone, (bindings_record hkept _).symm⟩
  simpa [World.setSession] using hkept

/-- A check that fails leaves what it found out in the session, like one that passes. -/
theorem conclude_eq_failed (hkept : s.state < w.sessions.size)
    (hfailed : s.conclude verdict w = .failed d w') :
    s.bindings w' = (verdict w.heap (s.bindings w)).bindings := by
  rw [← leaves_conclude.1 (.inr ⟨d, hfailed⟩)]
  exact bindings_record hkept _

/-- A check that has no type to check against changes nothing. -/
theorem setSession_record (w : World) (i : Nat) (failure? : Option Failure) :
    w.setSession i ((w.session i).record ⟨(w.session i).bindings, [], failure?⟩) = w := by
  have hsame : (w.session i).record ⟨(w.session i).bindings, [], failure?⟩ = w.session i := by
    simp [SessionState.record, recordSteps]
  rw [hsame]
  unfold World.setSession World.session
  rcases Nat.lt_or_ge i w.sessions.size with hlt | hge
  · rw [Array.getElem?_eq_getElem hlt, Option.getD_some, Array.setIfInBounds_def, dif_pos hlt,
      Array.set_getElem_self]
  · rw [Array.setIfInBounds_eq_of_size_le hge]

/-! ## Checks of arguments -/

theorem checkArgument_eq_check {index : Nat} {t : Ty}
    (ht : s.signature.params[index]? = some t) (v : Value) :
    s.checkArgument index v = s.check t (.root index) v := by
  unfold checkArgument check Signature.argumentVerdict
  rw [ht]

/-- A check of an argument that passes has been one against the type of its
parameter. -/
theorem succeeds_argumentVerdict {index : Nat} {t : Ty} {v : Value} {h : Heap}
    {b b' : Bindings} (ht : s.signature.params[index]? = some t) :
    (s.signature.argumentVerdict h s.env index v b).Succeeds b' ↔
      ((s.scope h).satisfy t (.root index) [v] b).Succeeds b' := by
  rw [Signature.argumentVerdict, ht]
  rfl

/-- A check whose verdict is good passes, in a world that can be written down. -/
theorem checkArgument_of_passes (index : Nat) (v : Value)
    (hpasses : (s.signature.argumentVerdict w.heap s.env index v (s.bindings w)).failure?.isNone
      = true) :
    s.checkArgument index v w = .done () (w.setSession s.state ((w.session s.state).record
      (s.signature.argumentVerdict w.heap s.env index v (s.bindings w)))) :=
  conclude_of_none (Option.isNone_iff_eq_none.1 hpasses)

theorem checkArgument_of_failure {index : Nat} {v : Value} {f : Failure}
    (hf : (s.signature.argumentVerdict w.heap s.env index v (s.bindings w)).failure? = some f) :
    s.checkArgument index v w = .failed (s.diagnostic w.heap f) (w.setSession s.state
      ((w.session s.state).record
        (s.signature.argumentVerdict w.heap s.env index v (s.bindings w)))) :=
  conclude_of_some hf

theorem params_of_checkArgument {index : Nat} {v : Value}
    (hdone : s.checkArgument index v w = .done () w') :
    ∃ t, s.signature.params[index]? = some t := by
  have hpassed := conclude_passed hdone
  cases ht : s.signature.params[index]? with
  | some t => exact ⟨t, rfl⟩
  | none =>
      simp only [Signature.argumentVerdict, ht] at hpassed
      cases hpassed

/-! ## Wrapping -/

/-- Wrapping puts a callback before a function that is declared as one, and does nothing
to other values. -/
theorem wrap_cases {ε : Type} (s : Session) (t : Ty) (locus : Locus) (v : Value)
    (w : World) :
    (s.wrap t locus v w = (.done v w : Outcome ε Value) ∧
      ∀ types inner seen, t = .function types → v = .function inner seen → types = []) ∨
    ∃ types result inner seen, t = .function types ∧ types.getLast? = some result ∧
      v = .function inner seen ∧
      s.wrap t locus v w = (.done
        (.function w.code.size ⟨seen.name, types.dropLast.length, some t.format⟩)
        { w with code := w.code.push (.guarded ⟨s, locus, types.dropLast, result, inner⟩) } :
          Outcome ε Value) := by
  cases t with
  | function types =>
      cases v with
      | function inner seen =>
          cases hlast : types.getLast? with
          | none =>
              refine .inl ⟨?_, fun _ _ _ htypes _ => ?_⟩
              · rw [wrap, hlast]
                rfl
              · cases htypes
                exact List.getLast?_eq_none_iff.1 hlast
          | some result =>
              refine .inr ⟨types, result, inner, seen, rfl, hlast, rfl, ?_⟩
              rw [wrap, hlast]
              rfl
      | _ =>
          refine .inl ⟨rfl, ?_⟩
          intros
          contradiction
  | _ =>
      refine .inl ⟨rfl, ?_⟩
      intros
      contradiction

theorem wrap_eq_done {ε : Type} {t : Ty} {locus : Locus} {v v' : Value}
    (hdone : s.wrap t locus v w = (.done v' w' : Outcome ε Value)) :
    w'.heap = w.heap ∧ w'.sessions = w.sessions := by
  rcases s.wrap_cases (ε := ε) t locus v w with ⟨hwrap, _⟩ | ⟨_, _, _, _, _, _, _, hwrap⟩
  · cases hwrap.symm.trans hdone
    exact ⟨rfl, rfl⟩
  · cases hwrap.symm.trans hdone
    exact ⟨rfl, rfl⟩

theorem wrap_ne_failed {ε : Type} {t : Ty} {locus : Locus} {v : Value} {e : ε} :
    s.wrap t locus v w ≠ .failed e w' := by
  rcases s.wrap_cases (ε := ε) t locus v w with ⟨hdone, _⟩ | ⟨_, _, _, _, _, _, _, hdone⟩
  · rw [hdone]
    nofun
  · rw [hdone]
    nofun

/-- A result that passes has been checked against its type. -/
theorem checkResult_eq_done {v v' : Value} (hdone : s.checkResult v w = .done v' w') :
    ∃ w₁, s.check s.signature.result (.root s.signature.arity) v w = .done () w₁ ∧
      w'.heap = w₁.heap ∧ w'.sessions = w₁.sessions := by
  obtain ⟨_, w₁, hcheck, hwrap⟩ := Action.done_of_bind hdone
  exact ⟨w₁, hcheck, wrap_eq_done hwrap⟩

theorem checkResult_eq_failed {v : Value} (hfailed : s.checkResult v w = .failed d w') :
    s.check s.signature.result (.root s.signature.arity) v w = .failed d w' := by
  rcases Action.failed_of_bind hfailed with hcheck | ⟨_, w₁, _, hwrap⟩
  · exact hcheck
  · exact (wrap_ne_failed hwrap).elim

end Session

end DynamicTypes
