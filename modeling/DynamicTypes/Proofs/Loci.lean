import DynamicTypes.Proofs.CheckLogic
import DynamicTypes.Proofs.Membership
import DynamicTypes.Proofs.SessionUse

/-!
# Failures point to the type that was checked

A failure names positions of the signature, and a report marks them. Positions are put
together in several places: a check walks down parameters and fields, a callback
appends the number of a slot, and what has been seen of a variable is kept with its
position from one check to the next. Nobody looks at the signature on the way.

What holds it together is `At`: the type that is checked is the one that the signature
has at the position. The positions of a signature start with it, each step down keeps
it, and a callback is made only for a function type at its place. So it holds of every
check in every run, however deep callbacks are nested.
-/

namespace DynamicTypes

/-! ## Following a path -/

namespace Ty

/-- The types inside a type, itself included. -/
inductive Inside (t : Ty) : Ty → Prop where
  | self : Inside t t
  | child {u c : Ty} {key : String} (outer : Inside t u) (mem : (key, c) ∈ u.children) : Inside t c

/-- Whether the fields of every record inside the type have a property. -/
def EachRecord (P : List (String × Ty) → Prop) (t : Ty) : Prop :=
  ∀ (r : RecordName) (supers : List Ty) (fields : List (String × Ty)),
    Inside t (.record r supers fields) → P fields

/-- Whether no record inside the type has two fields of one name. -/
def KeysApart (t : Ty) : Prop := t.EachRecord fun fields => (fields.map (·.1)).Nodup

variable {t u : Ty} {key : String} {P : List (String × Ty) → Prop}

theorem Inside.trans {c : Ty} (ht : Inside t u) (hu : Inside u c) : Inside t c := by
  induction hu with
  | self => exact ht
  | child _ mem ih => exact ih.child mem

theorem EachRecord.child (ht : t.EachRecord P) (hu : (key, u) ∈ t.children) :
    u.EachRecord P :=
  fun r supers fields hinside => ht r supers fields ((Inside.self.child hu).trans hinside)

theorem Inside.cases_children {c : Ty} (hc : Inside t c) :
    c = t ∨ ∃ key u, (key, u) ∈ t.children ∧ Inside u c := by
  induction hc with
  | self => exact .inl rfl
  | child outer mem ih =>
      rcases ih with rfl | ⟨key, u, hu, hinside⟩
      · exact .inr ⟨_, _, mem, .self⟩
      · exact .inr ⟨key, u, hu, hinside.child mem⟩

theorem eachRecord_of_children
    (hrecord : ∀ r supers fields, t = .record r supers fields → P fields)
    (hchildren : ∀ key u, (key, u) ∈ t.children → u.EachRecord P) : t.EachRecord P := by
  intro r supers fields hinside
  rcases hinside.cases_children with heq | ⟨key, u, hu, hinside⟩
  · exact hrecord r supers fields heq.symm
  · exact hchildren key u hu r supers fields hinside

theorem mem_declareFields {fields : List (String × Ty)}
    {earlier declared : SortedMap String Ty}
    (hdeclared : declareFields earlier fields = .ok declared) {p : String × Ty}
    (hp : p ∈ declared.entries) : p ∈ earlier.entries ∨ p ∈ fields := by
  induction fields generalizing earlier with
  | nil =>
      rw [declareFields] at hdeclared
      cases hdeclared
      exact .inl hp
  | cons f fields ih =>
      rw [declareFields, declareField] at hdeclared
      split at hdeclared
      · cases hdeclared
      · next next hnext =>
          have hinsert : earlier.insert f.1 f.2 = next := by
            split at hnext
            · cases hnext
            · split at hnext
              · cases hnext
              · split at hnext
                · cases hnext
                · exact Except.ok.inj hnext
          rcases ih hdeclared with hold | hrest
          · rw [← hinsert] at hold
            rcases SortedMap.mem_insertEntry hold with rfl | hold
            · exact .inr List.mem_cons_self
            · exact .inl hold
          · exact .inr (List.mem_cons_of_mem _ hrest)

/-- The fields of a record that can be declared are a sorted map. -/
theorem eachRecord_declareRecord
    (hsorted : ∀ declared : SortedMap String Ty, P declared.entries)
    {fields : List (String × Ty)} (hdeclared : declareRecord fields = .ok t)
    (hfields : ∀ f ∈ fields, f.2.EachRecord P) : t.EachRecord P := by
  rw [declareRecord] at hdeclared
  split at hdeclared
  · cases hdeclared
  · next declared hdeclare =>
      cases hdeclared
      refine eachRecord_of_children (fun r supers fields heq => ?_) fun key u hu => ?_
      · cases heq
        exact hsorted declared
      · rcases mem_declareFields hdeclare hu with hold | hmem
        · cases hold
        · exact hfields _ hmem

/-- The records that can be declared tell their fields apart. -/
theorem keysApart_declareRecord {fields : List (String × Ty)}
    (hdeclared : declareRecord fields = .ok t) (hfields : ∀ f ∈ fields, f.2.KeysApart) :
    t.KeysApart := by
  refine eachRecord_declareRecord (fun declared => ?_) hdeclared hfields
  refine List.pairwise_map.2 (declared.sorted.imp fun {a b} hlt heq => ?_)
  simp [heq] at hlt

theorem paramKey_inj {m n : Nat} : paramKey m = paramKey n ↔ m = n := by
  refine ⟨fun h => ?_, fun h => h ▸ rfl⟩
  rw [paramKey, paramKey, String.append_right_inj, Nat.toString_eq_ofList_toDigits,
    Nat.toString_eq_ofList_toDigits, String.ofList_inj] at h
  -- the digits of a number can be read back
  calc m = Nat.ofDigitChars 10 (Nat.toDigits 10 m) 0 := Nat.ofDigitChars_ten_toDigits.symm
    _ = Nat.ofDigitChars 10 (Nat.toDigits 10 n) 0 := by rw [h]
    _ = n := Nat.ofDigitChars_ten_toDigits

theorem mem_keyed {n : Nat} {ts : List Ty} :
    (key, u) ∈ keyed n ts ↔ ∃ i, ts[i]? = some u ∧ key = paramKey (n + i) := by
  rw [List.mem_iff_getElem?]
  refine exists_congr fun i => ?_
  rw [getElem?_keyed]
  constructor
  · intro h
    obtain ⟨t, ht, heq⟩ := Option.map_eq_some_iff.1 h
    cases heq
    exact ⟨ht, rfl⟩
  · rintro ⟨ht, rfl⟩
    rw [ht]
    rfl

theorem nodup_keyed (n : Nat) (ts : List Ty) : ((keyed n ts).map (·.1)).Nodup := by
  induction ts generalizing n with
  | nil => exact List.nodup_nil
  | cons t ts ih =>
      rw [keyed, List.map_cons, List.nodup_cons]
      refine ⟨fun hmem => ?_, ih (n + 1)⟩
      obtain ⟨⟨key, u⟩, hu, heq⟩ := List.mem_map.1 hmem
      obtain ⟨i, _, rfl⟩ := mem_keyed.1 hu
      have := paramKey_inj.1 heq
      omega

theorem KeysApart.nodup_children (ht : t.KeysApart) : (t.children.map (·.1)).Nodup := by
  cases t with
  | record r supers fields => exact ht r supers fields .self
  | _ => exact nodup_keyed 1 _

end Ty

namespace Signature

variable {s : Signature} {locus : Locus} {t u : Ty}

theorem typeAt?_child (ht : s.typeAt? locus = some t) (key : String) :
    s.typeAt? (locus.child key) = (t.children.find? (·.1 == key)).map (·.2) := by
  unfold typeAt? at ht
  rw [typeAt?, Locus.child, List.foldl_append, ht]
  rfl

/-- What a function type has at a slot the signature has at the position of the slot. -/
theorem typeAt?_slot {types : List Ty} {i : Nat}
    (ht : s.typeAt? locus = some (.function types)) (hi : types[i]? = some u) :
    s.typeAt? (locus.child (Ty.paramKey (i + 1))) = some u := by
  have hmem : (Ty.paramKey (i + 1), u) ∈ Ty.keyed 1 types :=
    Ty.mem_keyed.2 ⟨i, hi, by rw [Nat.add_comm]⟩
  rw [typeAt?_child ht, Ty.children, find?_of_nodup (Ty.nodup_keyed 1 types) hmem]
  rfl

/-- Whether the signature has a type at a position, and records inside it tell their
fields apart. -/
structure At (s : Signature) (t : Ty) (locus : Locus) : Prop where
  declares : s.typeAt? locus = some t
  keysApart : t.KeysApart

theorem At.child {key : String} (ht : s.At t locus) (hu : (key, u) ∈ t.children) :
    s.At u (locus.child key) := by
  refine ⟨?_, ht.keysApart.child hu⟩
  rw [typeAt?_child ht.declares, find?_of_nodup ht.keysApart.nodup_children hu]
  rfl

theorem At.slot {types : List Ty} {i : Nat} (ht : s.At (.function types) locus)
    (hi : types[i]? = some u) : s.At u (locus.child (Ty.paramKey (i + 1))) :=
  ht.child (Ty.mem_keyed.2 ⟨i, hi, by rw [Nat.add_comm]⟩)

theorem at_root (hkeys : ∀ t ∈ s.types, t.KeysApart) {i : Nat}
    (hi : s.types[i]? = some t) :
    s.At t (.root i) :=
  ⟨hi, hkeys t (List.mem_of_getElem? hi)⟩

end Signature

/-! ## Checks at their positions -/

namespace Scope

variable {s : Scope} {P : Bindings → Prop} {Q : Failure → Bindings → Prop}
  {t : Ty} {locus : Locus} {b : Bindings}

theorem meets_guardChain_at {values : List Value} {next : Verdict}
    (hinvalid : ∀ v, Q (.invalidValue locus v t) b) (hnext : next.Meets P Q) :
    (s.guardChain t locus values b next).Meets P Q := by
  unfold guardChain
  split
  · exact Verdict.meets_reject.2 (hinvalid _)
  · exact hnext

theorem meets_satisfyParams_at {held : Nat → List Value} {i : Nat} {ts : List Ty}
    (hts : ∀ (j : Nat) (t : Ty), ts[j]? = some t → ∀ (values : List Value) (b : Bindings), P b →
      (satisfy s t (locus.child (Ty.paramKey (i + j + 1))) values b).Meets P Q) (hb : P b) :
    (satisfyParams s held i ts locus b).Meets P Q := by
  induction ts generalizing i b with
  | nil =>
      rw [satisfyParams]
      exact Verdict.meets_accept.2 hb
  | cons t ts ih =>
      rw [satisfyParams]
      refine (hts 0 t rfl _ b hb).andThen fun b hb => ih (fun j u hu => ?_) hb
      rw [Nat.add_right_comm i 1 j]
      exact hts (j + 1) u hu

theorem meets_satisfyFields_at {values : List Value} {fields : List (String × Ty)}
    (hinvalid : ∀ f ∈ fields, ∀ v b, P b → Q (.invalidValue (locus.child f.1) v f.2) b)
    (hfields : ∀ f ∈ fields, ∀ (values : List Value) (b : Bindings), P b →
      (satisfy s f.2 (locus.child f.1) values b).Meets P Q) (hb : P b) :
    (satisfyFields s values fields locus b).Meets P Q := by
  induction fields generalizing b with
  | nil =>
      rw [satisfyFields]
      exact Verdict.meets_accept.2 hb
  | cons f fields ih =>
      rw [List.forall_mem_cons] at hinvalid hfields
      rw [satisfyFields]
      split
      · exact (hfields.1 _ b hb).andThen fun b hb => ih hinvalid.2 hfields.2 hb
      · exact Verdict.meets_reject.2 (hinvalid.1 _ b hb)

/-- What holds of positions and is handed down to components holds wherever a check of a
type can fail. -/
theorem meets_satisfy_at (Place : Ty → Locus → Prop)
    (hchild : ∀ {t : Ty} {locus : Locus} {key : String} {u : Ty}, Place t locus →
      (key, u) ∈ t.children → Place u (locus.child key))
    (hinvalid : ∀ {t : Ty} {locus : Locus}, Place t locus → ∀ v b, P b →
      Q (.invalidValue locus v t) b)
    (hvar : ∀ {name : String} {params : List Ty} {locus : Locus}, Place (.var name params) locus →
      ∀ (values : List Value) (b : Bindings), P b →
        (s.satisfyVariable (.var name params) name params.length locus values b).Meets P Q)
    (ht : Place t locus) (values : List Value) (hb : P b) :
    (satisfy s t locus values b).Meets P Q := by
  have hparams : ∀ {ts : List Ty} {locus : Locus} {b : Bindings} {held : Nat → List Value}, P b →
      (∀ u ∈ ts, ∀ {locus : Locus} {b : Bindings}, Place u locus → ∀ values, P b →
        (satisfy s u locus values b).Meets P Q) →
      (∀ key u, (key, u) ∈ Ty.keyed 1 ts → Place u (locus.child key)) →
      (satisfyParams s held 0 ts locus b).Meets P Q := by
    intro ts locus b held hb ih hplaces
    refine meets_satisfyParams_at (fun j u hu values b hb => ?_) hb
    refine ih u (List.mem_of_getElem? hu) (hplaces _ u (Ty.mem_keyed.2 ⟨j, hu, ?_⟩)) values hb
    rw [Nat.zero_add, Nat.add_comm]
  induction t generalizing locus values b with
  | con c supers params _ ih =>
      rw [satisfy]
      refine meets_guardChain_at (fun v => hinvalid ht v b hb) ?_
      split
      · exact Verdict.meets_accept.2 hb
      · refine (Verdict.meets_accept (P := P).2 hb).andThen fun b hb => ?_
        exact hparams hb (fun u hu _ _ hplace values => ih u hu hplace values)
          fun key u => hchild ht
  | record r supers fields _ ih =>
      rw [satisfy]
      refine meets_guardChain_at (fun v => hinvalid ht v b hb) ?_
      split
      · exact Verdict.meets_accept.2 hb
      · refine (Verdict.meets_accept (P := P).2 hb).andThen fun b hb => ?_
        exact meets_satisfyFields_at (fun f hf => hinvalid (hchild ht hf))
          (fun f hf values b => ih f hf (hchild ht hf) values) hb
  | var name params ih =>
      rw [satisfy]
      refine (hvar ht values b hb).andThen fun b hb => ?_
      exact hparams hb (fun u hu _ _ hplace values => ih u hu hplace values) fun key u => hchild ht
  | unknown | any =>
      rw [satisfy]
      exact Verdict.meets_accept.2 hb
  | function | enumeration | inconsistent | noArguments =>
      rw [satisfy]
      · exact meets_guardChain_at (fun v => hinvalid ht v b hb) (Verdict.meets_accept.2 hb)
      all_goals
        intros
        contradiction

end Scope

/-! ## Where failures point -/

/-- Whether the signature has at the positions of a failure what the failure is
about. -/
def Signature.Locates (s : Signature) : Failure → Prop
  | .invalidValue locus _ t => s.typeAt? locus = some t
  | .typeVariableViolation name observations =>
    ∀ p ∈ observations, ∃ params, s.typeAt? p.1 = some (.var name params)
  | .typeClassViolation name required locus _ =>
    (∃ params, s.typeAt? locus = some (.var name params)) ∧
      required ∈ (s.constraints.find? name).getD []
  | .unrecognizedValue locus _ => ∃ name params, s.typeAt? locus = some (.var name params)
  | .callbackArity locus expected _ =>
    ∃ params result, s.typeAt? locus = some (.function (params ++ [result])) ∧
      params.length = expected
  | .argumentCount .. => True

/-- Whether values have been seen for variables only where the signature has them. -/
def Bindings.Placed (s : Signature) (b : Bindings) : Prop :=
  ∀ name, ∀ p ∈ b.observations name, ∃ params, s.typeAt? p.1 = some (.var name params)

theorem Signature.Locates.typeAt? {s : Signature} {f : Failure} (hf : s.Locates f)
    {locus : Locus} (hlocus : locus ∈ f.loci) : ∃ t, s.typeAt? locus = some t := by
  cases f with
  | invalidValue place v t =>
      obtain rfl := List.mem_singleton.1 hlocus
      exact ⟨t, hf⟩
  | typeVariableViolation name observations =>
      obtain ⟨p, hp, rfl⟩ := List.mem_map.1 hlocus
      obtain ⟨params, hp⟩ := hf p hp
      exact ⟨_, hp⟩
  | typeClassViolation name required place v =>
      obtain rfl := List.mem_singleton.1 hlocus
      obtain ⟨⟨params, hf⟩, _⟩ := hf
      exact ⟨_, hf⟩
  | unrecognizedValue place v =>
      obtain rfl := List.mem_singleton.1 hlocus
      obtain ⟨name, params, hf⟩ := hf
      exact ⟨_, hf⟩
  | callbackArity place expected args =>
      obtain rfl := List.mem_singleton.1 hlocus
      obtain ⟨params, result, hf, _⟩ := hf
      exact ⟨_, hf⟩
  | argumentCount => cases hlocus

namespace Bindings

variable {b : Bindings} {name : String}

theorem observations_bind (types : List Ty) (other : String) :
    (b.bind name types).observations other = b.observations other := by
  rw [observations, observations, bind, SortedMap.find?_insert]
  split
  · next heq =>
      rw [← heq]
      cases b.find? name with
      | none => rfl
      | some binding => rfl
  · rfl

theorem mem_observations_observe {locus : Locus} {values : List Value} {other : String}
    {p : Locus × List Value}
    (hp : p ∈ (b.observe name locus values).observations other) :
    p ∈ b.observations other ∨ name = other ∧ p.1 = locus := by
  rw [observations, observe, SortedMap.find?_insert] at hp
  split at hp
  · next heq =>
      rcases SortedMap.mem_insertEntry hp with rfl | hold
      · exact .inr ⟨heq, rfl⟩
      · left
        rw [observations, ← heq]
        cases hb : b.find? name with
        | none =>
            rw [hb] at hold
            cases hold
        | some binding =>
            rw [hb] at hold
            exact hold
  · exact .inl hp

variable {s : Signature} {params : List Ty} {locus : Locus}

theorem Placed.observe (hb : b.Placed s)
    (hvar : s.typeAt? locus = some (.var name params)) (values : List Value) :
    (b.observe name locus values).Placed s := by
  intro other p hp
  rcases mem_observations_observe hp with hold | ⟨rfl, rfl⟩
  · exact hb other p hold
  · exact ⟨params, hvar⟩

theorem Placed.bind (hb : b.Placed s) (types : List Ty) :
    (b.bind name types).Placed s := by
  intro other p hp
  rw [observations_bind] at hp
  exact hb other p hp

end Bindings

namespace Signature

variable {s : Signature} {t : Ty} {locus : Locus} {b : Bindings}

/-- A check at a position of the signature points to the signature when it fails, and
sees values for variables where they are. -/
theorem meets_satisfy (h : Heap) (env : List Ty) (ht : s.At t locus)
    (values : List Value) (hb : b.Placed s) :
    (Scope.satisfy ⟨h, env, s.constraints⟩ t locus values b).Meets (Bindings.Placed s)
      fun f b => s.Locates f ∧ b.Placed s := by
  refine Scope.meets_satisfy_at s.At At.child (fun ht v b hb => ⟨ht.declares, hb⟩)
    (fun {name params locus} hvar values b hb => ?_) ht values hb
  have hobserved := hb.observe hvar.declares values
  exact Scope.meets_satisfyVariable
    (fun required hrequired v => ⟨⟨⟨params, hvar.declares⟩, hrequired⟩, hb⟩)
    (fun _ => hb) (fun _ v _ _ => ⟨⟨name, params, hvar.declares⟩, hobserved⟩)
    (fun _ _ => ⟨hobserved name, hobserved⟩) (fun _ _ => hobserved.bind _)

theorem locates_failure {h : Heap} {env : List Ty} {values : List Value} {f : Failure}
    (ht : s.At t locus) (hb : b.Placed s)
    (hf : (Scope.satisfy ⟨h, env, s.constraints⟩ t locus values b).failure? = some f) :
    s.Locates f :=
  ((meets_satisfy h env ht values hb).2 f hf).1

theorem locates_argument {h : Heap} {env : List Ty} {index : Nat} {v : Value}
    {f : Failure} (hkeys : ∀ t ∈ s.types, t.KeysApart) (hb : b.Placed s)
    (hf : (s.argumentVerdict h env index v b).failure? = some f) : s.Locates f := by
  rw [argumentVerdict] at hf
  split at hf
  · cases hf
    trivial
  · next t ht => exact locates_failure (at_root hkeys (types_of_params ht)) hb hf

/-- Positions of types go through everything that a session does. -/
theorem maintains_at (hkeys : ∀ t ∈ s.types, t.KeysApart) (env : List Ty) :
    s.Maintains env s.At (Bindings.Placed s) where
  root := at_root hkeys
  slot := At.slot
  nothing _ _ hp := nomatch hp
  check h v ht hb := by
    obtain ⟨hpassed, hfailed⟩ := meets_satisfy h env ht [v] hb
    cases hf : (Scope.satisfy ⟨h, env, s.constraints⟩ _ _ [v] _).failure? with
    | none => exact hpassed hf
    | some f => exact (hfailed f hf).2

end Signature

/-! ## What a session can fail with -/

namespace Session

open World (Run Position)

/-- Why a check on the session fails in a world: of an argument, of a result, of what
passes through one of its callbacks, or of the number of arguments of a callback. -/
inductive Raises (s : Session) (w : World) : Failure → Prop where
  | argument {index : Nat} {v : Value} {f : Failure}
      (failure :
        (s.signature.argumentVerdict w.heap s.env index v (s.bindings w)).failure? = some f) :
      Raises s w f
  | result {v : Value} {f : Failure}
      (failure : ((s.scope w.heap).satisfy s.signature.result (.root s.signature.arity) [v]
        (s.bindings w)).failure? = some f) : Raises s w f
  | callback {c : Contract} {i : Nat} {t : Ty} {v : Value} {f : Failure}
      (there : .guarded c ∈ w.code) (own : c.session.state = s.state)
      (declares : (c.params ++ [c.result])[i]? = some t)
      (failure : ((c.session.scope w.heap).satisfy t (c.locus.child (Ty.paramKey (i + 1))) [v]
        (c.session.bindings w)).failure? = some f) : Raises s w f
  | count {c : Contract} {args : List Value} (there : .guarded c ∈ w.code)
      (own : c.session.state = s.state) (wrong : args.length ≠ c.params.length) :
      Raises s w (.callbackArity c.locus c.params.length args)

/-- Whether a diagnostic reports a failure of the session, raised in the world or in one
that running code leads to. -/
def Reports (s : Session) (w : World) (d : Diagnostic) : Prop :=
  ∃ w₁ f, Run (.since (s.state + 1)) w w₁ ∧ s.Raises w₁ f ∧ d = s.diagnostic w₁.heap f

variable {s : Session} {w w' : World} {d : Diagnostic}

theorem Used.locates_of_raises (hkeys : ∀ t ∈ s.signature.types, t.KeysApart)
    (hused : s.Used w) {f : Failure} (hf : s.Raises w f) : s.signature.Locates f := by
  have hk := hused.keeps (Signature.maintains_at hkeys s.env)
  cases hf with
  | argument failure => exact Signature.locates_argument hkeys hk.known failure
  | result failure =>
      exact Signature.locates_failure (Signature.at_root hkeys s.signature.types_arity)
        hk.known failure
  | callback there own declares failure =>
      obtain ⟨hown, hfunction⟩ := hk.contracts _ there own
      rw [hown] at failure
      exact Signature.locates_failure (hfunction.slot declares) hk.known failure
  | @count c args there own wrong =>
      obtain ⟨_, hfunction⟩ := hk.contracts c there own
      exact ⟨c.params, c.result, hfunction.declares, rfl⟩

end Session

/-! ## Every failure is one of these -/

theorem World.Run.mem_code {access : Access} {w w' : World} (hrun : Run access w w')
    {code : Code} (hcode : code ∈ w.code) : code ∈ w'.code := by
  obtain ⟨f, hf⟩ := Array.getElem?_of_mem hcode
  exact Array.mem_of_getElem? (hrun.code hf)

namespace Contract

open World (Access Run Position)

variable {c : Contract} {access : Access} {w w' : World} {d : Diagnostic}

theorem slot_of_params {i : Nat} {t : Ty} (ht : c.params[i]? = some t) :
    (c.params ++ [c.result])[i]? = some t := by
  rw [List.getElem?_append_left (List.getElem?_eq_some_iff.1 ht).1]
  exact ht

/-- The arguments of a callback are refused by the check of one of them. -/
theorem accept_failed (k : Nat) (ts : List Ty) (vs : List Value)
    (hplaces : ∀ i t, ts[i]? = some t →
      Position access.may w c.session t (c.locus.child (Ty.paramKey (i + k))))
    (hfailed : c.accept k ts vs w = .failed d w') :
    ∃ w₁ i t v f, Run access w w₁ ∧ ts[i]? = some t ∧
      ((c.session.scope w₁.heap).satisfy t (c.locus.child (Ty.paramKey (i + k))) [v]
        (c.session.bindings w₁)).failure? = some f ∧ d = c.session.diagnostic w₁.heap f := by
  induction ts generalizing k vs w with
  | nil =>
      rw [accept] at hfailed
      · cases hfailed
      · nofun
  | cons t ts ih =>
      cases vs with
      | nil =>
          rw [accept] at hfailed
          · cases hfailed
          · nofun
      | cons v vs =>
          have hplace := hplaces 0 t rfl
          rw [Nat.zero_add] at hplace
          rw [accept] at hfailed
          rcases Action.failed_of_bind hfailed with hcheck | ⟨_, w₁, hcheck, hfailed⟩
          · obtain ⟨f, hf, hd⟩ := Session.conclude_failed hcheck
            refine ⟨w, 0, t, v, f, .refl w, rfl, ?_, hd⟩
            rw [Nat.zero_add]
            exact hf
          have hrun₁ := Session.runsFrom_check hplace v w w₁ (.refl w) (.inl ⟨_, hcheck⟩)
          rcases Action.failed_of_bind hfailed with hwrap | ⟨v', w₂, hwrap, hfailed⟩
          · exact (Session.wrap_ne_failed hwrap).elim
          have hrun₂ := hrun₁.trans (Session.runsFrom_wrap hplace v w₁ w₂ hrun₁ (.inl ⟨v', hwrap⟩))
          rcases Action.failed_of_bind hfailed with hrest | ⟨_, _, _, hfailed⟩
          · obtain ⟨w₃, i, u, x, f, hrun, hu, hf, hd⟩ := ih (k + 1) vs (fun i u hu => by
              have hplace := (hplaces (i + 1) u hu).later hrun₂
              rwa [Nat.add_right_comm] at hplace) hrest
            refine ⟨w₃, i + 1, u, x, f, hrun₂.trans hrun, hu, ?_, hd⟩
            rw [Nat.add_right_comm]
            exact hf
          · cases hfailed

/-- A call of a callback fails by a check of its session, or as the function behind it
does. -/
theorem call_failed {s : Session} (hused : s.Used w) (hkept : s.state < w.sessions.size)
    (hown : c.session = s) (hc : .guarded c ∈ w.code) {depth : Nat} {args : List Value}
    (hfailed : c.call (callFunction depth) args w = .failed d w') :
    s.Reports w d ∨
      ∃ args' w₁, s.Used w₁ ∧ callFunction depth c.inner args' w₁ = .failed d w' := by
  by_cases harity : args.length = c.params.length
  · have hbody : c.call (callFunction depth) args = _ := if_pos harity
    rw [hbody] at hfailed
    have hplaces : ∀ i t, c.params[i]? = some t →
        Position (Access.since (s.state + 1)).may w c.session t
          (c.locus.child (Ty.paramKey (i + 1))) :=
      fun i t ht => .callback hc (slot_of_params ht)
    -- a check that fails on the way does so in a world where the callback still is
    have hreports : ∀ {w₁ : World} {i : Nat} {t : Ty} {v : Value} {f : Failure},
        Run (.since (s.state + 1)) w w₁ → (c.params ++ [c.result])[i]? = some t →
        ((c.session.scope w₁.heap).satisfy t (c.locus.child (Ty.paramKey (i + 1))) [v]
          (c.session.bindings w₁)).failure? = some f →
        d = c.session.diagnostic w₁.heap f → s.Reports w d :=
      fun hrun ht hf hd => ⟨_, _, hrun, .callback (hrun.mem_code hc) (hown ▸ rfl) ht hf, hown ▸ hd⟩
    rcases Action.failed_of_bind hfailed with haccept | ⟨args', w₁, haccept, hfailed⟩
    · obtain ⟨w₁, i, t, v, f, hrun, ht, hf, hd⟩ := accept_failed 1 c.params args hplaces haccept
      exact .inl (hreports hrun (slot_of_params ht) hf hd)
    have hrun₁ := runsFrom_accept 1 c.params args hplaces w w₁ (.refl w) (.inl ⟨args', haccept⟩)
    rcases Action.failed_of_bind hfailed with hcall | ⟨result, w₂, hcall, hfailed⟩
    · exact .inr ⟨args', w₁, hused.run hrun₁, hcall⟩
    have hrun₂ := hrun₁.trans (runsFrom_callFunction depth
      (Nat.le_trans hkept hrun₁.size_sessions) c.inner args' w₁ w₂ (.refl w₁)
      (.inl ⟨result, hcall⟩))
    rcases Action.failed_of_bind hfailed with hcheck | ⟨_, w₃, _, hwrap⟩
    · obtain ⟨f, hf, hd⟩ := Session.conclude_failed hcheck
      exact .inl (hreports hrun₂ (by simp) hf hd)
    · exact (Session.wrap_ne_failed hwrap).elim
  · have hbody : c.call (callFunction depth) args = _ := if_neg harity
    rw [hbody] at hfailed
    cases hfailed
    exact .inl ⟨w, _, .refl w, .count hc (hown ▸ rfl) harity, hown ▸ rfl⟩

end Contract

namespace Session

variable {s : Session} {w : World}

/-- Wherever a session is used, by checks of arguments and of results and by calls of
its callbacks however deep they are nested, what it raises points to the signature: at
the position of a value that does not belong to its type there is this type, at each
position of the values that a variable cannot reconcile there is this variable, at that
of a value which lacks a class a variable of which the class is required, at that of a
value without a type a variable, and at that of a callback called with the wrong number
of arguments a function type with the right number of them. Nothing else is reported: a
check that fails, or a callback that does, reports what the session raises, unless the
function behind the callback fails, whose failure is passed on. The same holds of the
arguments that a function takes one after the other, whatever the earlier ones have
told. -/
theorem Used.locates (hkeys : ∀ t ∈ s.signature.types, t.KeysApart) (hused : s.Used w) :
    (∀ f, s.Raises w f →
      s.signature.Locates f ∧ ∀ locus ∈ f.loci, ∃ t, s.signature.typeAt? locus = some t) ∧
    (∀ b, s.signature.Learned s.env b → ∀ h index v f,
      (s.signature.argumentVerdict h s.env index v b).failure? = some f →
      s.signature.Locates f ∧ ∀ locus ∈ f.loci, ∃ t, s.signature.typeAt? locus = some t) ∧
    (∀ index v d w', s.checkArgument index v w = .failed d w' → s.Reports w d) ∧
    (∀ v d w', s.checkResult v w = .failed d w' → s.Reports w d) ∧
    ∀ c : Contract, .guarded c ∈ w.code → c.session.state = s.state → ∀ depth args d w',
      c.call (callFunction depth) args w = .failed d w' →
      s.Reports w d ∨
        ∃ args' w₁, s.Used w₁ ∧ callFunction depth c.inner args' w₁ = .failed d w' := by
  have hm := Signature.maintains_at hkeys s.env
  have hk := hused.keeps hm
  refine ⟨fun f hf => ?_, fun b hb h index v f hf => ?_, fun index v d w' hfailed => ?_,
    fun v d w' hfailed => ?_, fun c hc hstate depth args d w' hfailed => ?_⟩
  · have hlocates := hused.locates_of_raises hkeys hf
    exact ⟨hlocates, fun locus hlocus => hlocates.typeAt? hlocus⟩
  · have hlocates := Signature.locates_argument hkeys (hb.known hm) hf
    exact ⟨hlocates, fun locus hlocus => hlocates.typeAt? hlocus⟩
  · obtain ⟨f, hf, hd⟩ := conclude_failed hfailed
    exact ⟨w, f, .refl w, .argument hf, hd⟩
  · obtain ⟨f, hf, hd⟩ := conclude_failed (checkResult_eq_failed hfailed)
    exact ⟨w, f, .refl w, .result hf, hd⟩
  · exact Contract.call_failed hused hk.kept (hk.contracts c hc hstate).1 hc hfailed

/-- A callback that has to give objects with a boolean gives one with null. -/
theorem Used.locates_field :
    ∃ (s : Session) (w : World) (v : Value) (f : Failure),
      (∀ t ∈ s.signature.types, t.KeysApart) ∧ s.Used w ∧ s.Raises w f ∧
      f = .invalidValue ⟨0, ["$2", "x"]⟩ v Builtin.boolean ∧
      s.signature.typeAt? ⟨0, ["$2", "x"]⟩ = some Builtin.boolean := by
  let point : Ty := .record ⟨none, ""⟩ [] [("x", Builtin.boolean)]
  let s : Session :=
    ⟨⟨"call", ∅, [.function [Builtin.number, point]], .any, by decide⟩, Builtin.environment, 0⟩
  let h : Heap := ⟨#[], #[⟨none, none, .ofList [("x", .null)]⟩]⟩
  let w : World := ⟨h, #[.guarded ⟨s, .root 0, [Builtin.number], point, 0⟩], #[default], ∅⟩
  have hkeys : ∀ t ∈ s.signature.types, t.KeysApart := by
    have hboolean : Builtin.boolean.KeysApart := Ty.eachRecord_of_children nofun nofun
    have hpoint : Ty.declareRecord [("x", Builtin.boolean)] = .ok point := rfl
    have hcallback : (Ty.function [Builtin.number, point]).KeysApart := by
      refine Ty.eachRecord_of_children nofun fun key u hu => ?_
      obtain ⟨i, hi, _⟩ := Ty.mem_keyed.1 hu
      rcases List.mem_pair.1 (List.mem_of_getElem? hi) with rfl | rfl
      · exact Ty.eachRecord_of_children nofun nofun
      · exact Ty.keysApart_declareRecord hpoint (by simpa using hboolean)
    have hany : Ty.any.KeysApart := Ty.eachRecord_of_children nofun nofun
    simpa [s, Signature.types] using ⟨hcallback, hany⟩
  have hused : s.Used w :=
    .use (.start (w := ⟨h, #[], #[], ∅⟩) (fun c hc => by simp at hc) .nothing rfl)
      (.wrap s (fun _ => rfl) (by decide) 0 [.function 0 ⟨"g", 1, none⟩] (.inl ⟨_, rfl⟩))
  have hraises : s.Raises w (.invalidValue ⟨0, ["$2", "x"]⟩ .null Builtin.boolean) :=
    .callback (c := ⟨s, .root 0, [Builtin.number], point, 0⟩) (i := 1) (t := point) (v := .object 0)
      (by simp [w]) rfl rfl rfl
  exact ⟨s, w, .null, _, hkeys, hused, hraises, rfl, ((hused.locates hkeys).1 _ hraises).1⟩

end Session

end DynamicTypes
