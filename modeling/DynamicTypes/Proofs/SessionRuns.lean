import DynamicTypes.Proofs.CheckLogic
import DynamicTypes.Proofs.SessionSound

/-!
# What all checks of a session maintain

A session is asked to check arguments and results, and behind the back of its caller
it checks what goes in and out of the callbacks that it has wrapped. All of these are
checks of types that the signature declares, against one store of bindings. So an
invariant of the bindings that every such check maintains holds after any run, and if
a check fails then what is known about its failure holds of the bindings it leaves.
-/

namespace DynamicTypes

namespace Signature

/-- The types that values are checked against when a function with the signature is
called: those of its parameters and its result, and those of what passes through a
function declared there. -/
inductive Declares (s : Signature) : Ty → Prop where
  | position {t : Ty} (ht : t ∈ s.types) : Declares s t
  | callback {types : List Ty} {t : Ty} (outer : Declares s (.function types)) (ht : t ∈ types) :
      Declares s t

/-- Whether a variable is applied to the given parameters wherever it occurs; to none,
if it is used as a plain variable only. -/
def OccursOnly (s : Signature) (name : String) (params : List Ty) : Prop :=
  ∀ t ∈ s.types, ∀ p ∈ t.occurrences, p.1 = name → p.2 = params

theorem OccursOnly.of_declares {s : Signature} {name : String} {params : List Ty}
    (honly : s.OccursOnly name params) {t : Ty} (ht : s.Declares t) :
    ∀ p ∈ t.occurrences, p.1 = name → p.2 = params := by
  induction ht with
  | position ht => exact honly _ ht
  | callback _ ht ih =>
      intro p hp
      refine ih p ?_
      rw [Ty.occurrences]
      exact Ty.mem_occurrencesAll.2 ⟨_, ht, hp⟩

end Signature

namespace Session

/-- The worlds that checks on a session lead to as long as none fails, with anything in
between that leaves alone the heap and what the session knows. -/
inductive Reached (s : Session) : World → Prop where
  | start {state : SessionState} {w w' : World} (fresh : state.bindings = ∅)
      (made : start s.signature s.env state w = (s, w')) : Reached s w'
  | between {w w' : World} (before : Reached s w) (heap : w'.heap = w.heap)
      (known : w'.sessions[s.state]?.map (·.bindings) = w.sessions[s.state]?.map (·.bindings)) :
      Reached s w'
  | argument {w w' : World} {index : Nat} {v : Value} (before : Reached s w)
      (passed : s.checkArgument index v w = .done () w') : Reached s w'
  | result {w w' : World} {v v' : Value} (before : Reached s w)
      (passed : s.checkResult v w = .done v' w') : Reached s w'
  | callback {w w' : World} {t : Ty} {locus : Locus} {v : Value} (before : Reached s w)
      (declared : s.signature.Declares t) (passed : s.check t locus v w = .done () w') :
      Reached s w'

/-- The checks on a session that fail in a world: why, and the world that is left. -/
inductive Fails (s : Session) (w : World) : Failure → World → Prop where
  | argument {index : Nat} {v : Value} {t : Ty} {f : Failure} {w' : World}
      (declared : s.signature.params[index]? = some t)
      (failure : ((s.scope w.heap).satisfy t (.root index) [v] (s.bindings w)).failure? = some f)
      (failed : s.checkArgument index v w = .failed (s.diagnostic w.heap f) w') : Fails s w f w'
  | result {v : Value} {f : Failure} {w' : World}
      (failure : ((s.scope w.heap).satisfy s.signature.result (.root s.signature.arity) [v]
        (s.bindings w)).failure? = some f)
      (failed : s.checkResult v w = .failed (s.diagnostic w.heap f) w') : Fails s w f w'
  | callback {t : Ty} {locus : Locus} {v : Value} {f : Failure} {w' : World}
      (declared : s.signature.Declares t)
      (failure : ((s.scope w.heap).satisfy t locus [v] (s.bindings w)).failure? = some f)
      (failed : s.check t locus v w = .failed (s.diagnostic w.heap f) w') : Fails s w f w'

variable {s : Session} {w w' : World}

theorem declares_of_params {index : Nat} {t : Ty}
    (ht : s.signature.params[index]? = some t) :
    s.signature.Declares t :=
  .position (List.mem_append_left _ (List.mem_of_getElem? ht))

theorem declares_result : s.signature.Declares s.signature.result :=
  .position (by simp [Signature.types])

/-! ## Runs -/

variable {P : Bindings → Prop} {Q : Failure → Bindings → Prop}

theorem maintained_check {t : Ty} {locus : Locus} {v : Value}
    (hkept : s.state < w.sessions.size) (hb : P (s.bindings w))
    (hmaintains : (s.scope w.heap).Maintains P Q t)
    (hdone : s.check t locus v w = .done () w') :
    w'.heap = w.heap ∧ s.state < w'.sessions.size ∧ P (s.bindings w') := by
  obtain ⟨hkept', hpassed⟩ := conclude_eq_done hkept hdone
  exact ⟨heap_conclude hdone, hkept', (hmaintains _ _ _ hb).of_succeeds hpassed⟩

/-- What holds of no bindings, and is maintained by all checks, holds of what a session
knows. -/
theorem Reached.maintained (hrun : s.Reached w) (hempty : P ∅)
    (hmaintains : ∀ t, s.signature.Declares t → (s.scope w.heap).Maintains P Q t) :
    s.state < w.sessions.size ∧ P (s.bindings w) := by
  induction hrun with
  | start fresh made =>
      have hsound := sound_start fresh made
      obtain ⟨hs, rfl⟩ := Prod.mk.inj made
      refine ⟨hsound.kept, ?_⟩
      rw [bindings_eq, ← congrArg Session.state hs]
      simpa [fresh] using hempty
  | @between w₁ w₂ _ heap known ih =>
      rw [heap] at hmaintains
      obtain ⟨hkept, hb⟩ := ih hmaintains
      rw [Array.getElem?_eq_getElem hkept, Option.map_some, Option.map_eq_some_iff] at known
      obtain ⟨state, hstate, hbindings⟩ := known
      refine ⟨(Array.getElem?_eq_some_iff.1 hstate).1, ?_⟩
      rw [bindings_eq, Array.getElem?_eq_getElem hkept] at hb
      rw [bindings_eq, hstate]
      simpa [hbindings] using hb
  | argument _ passed ih =>
      obtain ⟨t, ht⟩ := params_of_checkArgument passed
      rw [checkArgument_eq_check ht] at passed
      rw [heap_conclude passed] at hmaintains
      obtain ⟨hkept, hb⟩ := ih hmaintains
      exact (maintained_check hkept hb (hmaintains t (declares_of_params ht)) passed).2
  | result _ passed ih =>
      obtain ⟨w₁, hcheck, hheap, hsessions⟩ := checkResult_eq_done passed
      rw [hheap, heap_conclude hcheck] at hmaintains
      obtain ⟨hkept, hb⟩ := ih hmaintains
      obtain ⟨_, hkept₁, hb₁⟩ :=
        maintained_check hkept hb (hmaintains _ declares_result) hcheck
      refine ⟨hsessions ▸ hkept₁, ?_⟩
      rw [bindings_eq, hsessions, ← bindings_eq]
      exact hb₁
  | callback _ declared passed ih =>
      rw [heap_conclude passed] at hmaintains
      obtain ⟨hkept, hb⟩ := ih hmaintains
      exact (maintained_check hkept hb (hmaintains _ declared) passed).2

theorem Reached.kept (hrun : s.Reached w) : s.state < w.sessions.size :=
  (hrun.maintained (P := fun _ => True) (Q := fun _ _ => True) trivial
    fun _ _ _ _ _ _ => ⟨fun _ => trivial, fun _ _ => trivial⟩).1

theorem Fails.check {f : Failure} (hf : s.Fails w f w') :
    ∃ t locus v, s.signature.Declares t ∧
      ((s.scope w.heap).satisfy t locus [v] (s.bindings w)).failure? = some f ∧
      s.check t locus v w = .failed (s.diagnostic w.heap f) w' := by
  cases hf with
  | argument declared failure failed =>
      rw [checkArgument_eq_check declared] at failed
      exact ⟨_, _, _, declares_of_params declared, failure, failed⟩
  | result failure failed =>
      exact ⟨_, _, _, declares_result, failure, checkResult_eq_failed failed⟩
  | callback declared failure failed => exact ⟨_, _, _, declared, failure, failed⟩

/-- What is known about the failures of checks holds of a check that fails after a run,
and of the bindings that it leaves. -/
theorem Reached.of_fails {f : Failure} (hrun : s.Reached w) (hf : s.Fails w f w')
    (hempty : P ∅)
    (hmaintains : ∀ t, s.signature.Declares t → (s.scope w.heap).Maintains P Q t) :
    Q f (s.bindings w') := by
  have hb := (hrun.maintained hempty hmaintains).2
  obtain ⟨t, locus, v, hdeclared, hfailure, hfailed⟩ := hf.check
  rw [conclude_eq_failed hrun.kept hfailed]
  exact (hmaintains t hdeclared locus [v] _ hb).2 f hfailure

end Session

end DynamicTypes
