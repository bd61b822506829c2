import DynamicTypes.Proofs.ConcreteTypes
import DynamicTypes.Proofs.Handover

/-!
# Checks of types without variables

Where a type has no variables, what a check decides can be said without the session. It
passes the members of the type, whatever the session knows, and it points to the same place
below its position as a check outside any signature does.
-/

namespace DynamicTypes

/-! ## The same failure at another position -/

/-- Whether two checks both pass, or find the same value at fault on the same path below
their positions. -/
def Verdict.SameBelow (locus locus' : Locus) (v v' : Verdict) : Prop :=
  v.failure? = none ∧ v'.failure? = none ∨
  ∃ path x u, v.failure? = some (.invalidValue ⟨locus.index, locus.path ++ path⟩ x u) ∧
    v'.failure? = some (.invalidValue ⟨locus'.index, locus'.path ++ path⟩ x u)

namespace Verdict

variable {locus locus' : Locus} {v v' : Verdict} {b b' : Bindings} {steps steps' : List Step}

theorem sameBelow_accept : SameBelow locus locus' ⟨b, steps, none⟩ ⟨b', steps', none⟩ :=
  .inl ⟨rfl, rfl⟩

theorem sameBelow_reject (x : Value) (u : Ty) :
    SameBelow locus locus' ⟨b, steps, some (.invalidValue locus x u)⟩
      ⟨b', steps', some (.invalidValue locus' x u)⟩ :=
  .inr ⟨[], x, u, by simp, by simp⟩

theorem SameBelow.andThen {next next' : Bindings → Verdict}
    (hv : SameBelow locus locus' v v')
    (hnext : ∀ b b', SameBelow locus locus' (next b) (next' b')) :
    SameBelow locus locus' (v.andThen next) (v'.andThen next') := by
  unfold Verdict.andThen
  rcases hv with ⟨hnone, hnone'⟩ | ⟨path, x, u, hsome, hsome'⟩
  · rw [hnone, hnone']
    exact hnext _ _
  · rw [hsome, hsome']
    exact .inr ⟨path, x, u, hsome, hsome'⟩

/-- What lies below a component lies below what it is a component of. -/
theorem SameBelow.of_child {key : String}
    (hv : SameBelow (locus.child key) (locus'.child key) v v') :
    SameBelow locus locus' v v' := by
  rcases hv with hnone | ⟨path, x, u, hsome, hsome'⟩
  · exact .inl hnone
  · refine .inr ⟨key :: path, x, u, ?_, ?_⟩
    · rw [hsome, Locus.child, List.append_assoc, List.singleton_append]
    · rw [hsome', Locus.child, List.append_assoc, List.singleton_append]

end Verdict

namespace Scope

open Verdict (SameBelow sameBelow_accept sameBelow_reject)

variable {s : Scope} {locus locus' : Locus}

theorem sameBelow_guardChain {t : Ty} {values : List Value} {b b' : Bindings}
    {next next' : Verdict} (hnext : SameBelow locus locus' next next') :
    SameBelow locus locus' (s.guardChain t locus values b next)
      (s.guardChain t locus' values b' next') := by
  unfold guardChain
  cases values.find? fun v => !t.testChain s.heap v with
  | some v => exact sameBelow_reject v t
  | none => exact hnext

theorem sameBelow_satisfyParams {held : Nat → List Value} {i : Nat} {ts : List Ty}
    {b b' : Bindings}
    (hts : ∀ t ∈ ts, ∀ (locus locus' : Locus) (values : List Value) (b b' : Bindings),
      SameBelow locus locus' (satisfy s t locus values b) (satisfy s t locus' values b')) :
    SameBelow locus locus' (satisfyParams s held i ts locus b)
      (satisfyParams s held i ts locus' b') := by
  induction ts generalizing i b b' with
  | nil =>
      rw [satisfyParams, satisfyParams]
      exact sameBelow_accept
  | cons t ts ih =>
      rw [List.forall_mem_cons] at hts
      rw [satisfyParams, satisfyParams]
      exact (hts.1 _ _ _ _ _).of_child.andThen fun _ _ => ih hts.2

theorem sameBelow_satisfyFields {values : List Value} {fields : List (String × Ty)}
    {b b' : Bindings}
    (hfs : ∀ f ∈ fields, ∀ (locus locus' : Locus) (values : List Value) (b b' : Bindings),
      SameBelow locus locus' (satisfy s f.2 locus values b) (satisfy s f.2 locus' values b')) :
    SameBelow locus locus' (satisfyFields s values fields locus b)
      (satisfyFields s values fields locus' b') := by
  induction fields generalizing b b' with
  | nil =>
      rw [satisfyFields, satisfyFields]
      exact sameBelow_accept
  | cons f fields ih =>
      rw [List.forall_mem_cons] at hfs
      rw [satisfyFields, satisfyFields]
      split
      · exact (hfs.1 _ _ _ _ _).of_child.andThen fun _ _ => ih hfs.2
      · exact (sameBelow_reject .undefined f.2).of_child

/-- A check of a type without variables fails in the same way at every position, and
from whatever is known. -/
theorem sameBelow_satisfy {t : Ty} (ht : t.vars = []) (values : List Value)
    (b b' : Bindings) :
    SameBelow locus locus' (satisfy s t locus values b) (satisfy s t locus' values b') := by
  induction t generalizing locus locus' values b b' with
  | con c supers params _ ih =>
      rw [Ty.vars, Ty.varsAll_eq_nil] at ht
      rw [satisfy, satisfy]
      refine sameBelow_guardChain ?_
      split
      · exact sameBelow_accept
      · refine sameBelow_accept.andThen fun _ _ => sameBelow_satisfyParams ?_
        exact fun p hp _ _ values b b' => ih p hp (ht p hp) values b b'
  | record r supers fields _ ih =>
      rw [Ty.vars, Ty.varsFields_eq_nil] at ht
      rw [satisfy, satisfy]
      refine sameBelow_guardChain ?_
      split
      · exact sameBelow_accept
      · refine sameBelow_accept.andThen fun _ _ => sameBelow_satisfyFields ?_
        exact fun f hf _ _ values b b' => ih f hf (ht f hf) values b b'
  | var name params => cases ht
  | unknown | any =>
      rw [satisfy, satisfy]
      exact sameBelow_accept
  | function | enumeration | inconsistent | noArguments =>
      rw [satisfy, satisfy]
      · exact sameBelow_guardChain sameBelow_accept
      all_goals
        intros
        contradiction

end Scope

/-! ## One check -/

/-- Whether a diagnostic says that a value is not a member of the type at a position,
and points to what is wrong with it: below the position, on the path that a check of the
value alone gives. -/
structure Diagnostic.Rejects (d : Diagnostic) (h : Heap) (env : List Ty) (t : Ty)
    (v : Value) (locus : Locus) : Prop where
  category : d.category = .invalidValue
  position : ∃ path x u, t.failure? h env v = some (.invalidValue ⟨0, path⟩ x u) ∧
    d.positions = [⟨locus.index, locus.path ++ path⟩]

/-- A check of a type without variables passes the members of the type, and rejects all
other values. -/
theorem Scope.satisfy_concrete {s : Scope} {t : Ty} (ht : t.vars = []) (locus : Locus)
    (v : Value) (b : Bindings) :
    t.isMember s.heap v = true ∧ (s.satisfy t locus [v] b).Succeeds b ∨
    t.isMember s.heap v = false ∧ ∃ f, (s.satisfy t locus [v] b).failure? = some f ∧
      ∀ signature, (f.diagnostic s.heap signature s.env).Rejects s.heap s.env t v locus := by
  cases hv : t.isMember s.heap v with
  | true => exact .inl ⟨rfl, (Scope.asksMembership ht locus [v] b b).2 ⟨by simpa using hv, rfl⟩⟩
  | false =>
      refine .inr ⟨rfl, ?_⟩
      have hcongr : (satisfy s t (.root 0) [v] ∅).failure? = t.failure? s.heap s.env v :=
        congrArg Verdict.failure? (Scope.satisfy_congr rfl ht)
      have hsame : Verdict.SameBelow locus (.root 0) (s.satisfy t locus [v] b)
          (s.satisfy t (.root 0) [v] ∅) := sameBelow_satisfy ht [v] b ∅
      rcases hsame with ⟨hnone, _⟩ | ⟨path, x, u, hsome, hsome'⟩
      · have hpassed := (Scope.asksMembership ht locus [v] b _).1 ⟨hnone, rfl⟩
        simp [hv] at hpassed
      · refine ⟨_, hsome, fun signature => ⟨rfl, path, x, u, ?_, rfl⟩⟩
        rw [← hcongr, hsome']
        simp [Locus.root]

namespace Session

/-- Such a check changes nothing but what the session knows. -/
theorem check_concrete {t : Ty} (ht : t.vars = []) (s : Session) (locus : Locus)
    (v : Value) (w : World) :
    (t.isMember w.heap v = true ∧ ∃ sessions, s.check t locus v w = .done () { w with sessions }) ∨
    (t.isMember w.heap v = false ∧ ∃ d sessions,
      s.check t locus v w = .failed d { w with sessions } ∧
      d.Rejects w.heap s.env t v locus) := by
  rcases (s.scope w.heap).satisfy_concrete ht locus v (s.bindings w) with
    ⟨hv, hpassed⟩ | ⟨hv, f, hf, hrejects⟩
  · exact .inl ⟨hv, _, conclude_of_none hpassed.1⟩
  · exact .inr ⟨hv, _, _, conclude_of_some hf, hrejects s.signature⟩

/-- A result is handed back if it belongs to its type, and rejected if it does not. -/
theorem handsBack {t : Ty} (ht : t.vars = []) (s : Session) (locus : Locus) (r : Value)
    (w : World) :
    (t.isMember w.heap r = true ∧ ∃ r' w', (s.check t locus r >>= fun _ => s.wrap t locus r) w =
      .done r' w' ∧ w.Grows w' ∧ s.Hands w' t locus r r') ∨
    (t.isMember w.heap r = false ∧ ∃ d w', (s.check t locus r >>= fun _ => s.wrap t locus r) w =
      .failed d w' ∧ d.Rejects w.heap s.env t r locus) := by
  rcases s.check_concrete ht locus r w with
    ⟨hr, sessions, hcheck⟩ | ⟨hr, d, sessions, hcheck, hd⟩
  · obtain ⟨r', w', hwrap, hgrows, hhands⟩ :=
      s.wrap_hands (ε := Diagnostic) t locus r { w with sessions }
    exact .inl ⟨hr, r', w', (Action.bind_of_done hcheck).trans hwrap,
      (w.grows_sessions sessions).trans hgrows, hhands⟩
  · exact .inr ⟨hr, d, _, Action.bind_of_failed hcheck, hd⟩

end Session

end DynamicTypes
