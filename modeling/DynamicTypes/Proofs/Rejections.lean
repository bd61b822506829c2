import DynamicTypes.Proofs.SessionRuns

/-!
# A variable is rejected only if its values have no type in common

Two parts of the library answer the question which types values have in common.
Classification sees all values at once and intersects what each of them may be. A
check sees them one after the other, and fills a parameter from the first value that
holds something there. The second way could lose a type that the first one finds.

It does not, because of what a check keeps. Take any type `x` that all values seen so
far have in common. Then one of the types left for the variable lies below `x`: it
says nothing that `x` does not say (`exists_le_narrowed`). So when none is left, there
was no such `x`.

Tagged objects that no entry accepts are a case of their own. Their type is made up
from the tag, but only if they are the first values of the variable. For this to lose
nothing an environment has to leave all tagged objects alone, as the builtin one does.
-/

namespace DynamicTypes

variable {env : List Ty} {h : Heap}

/-- No entry of the environment accepts an object that carries a tag. -/
def LeavesTagged (env : List Ty) (h : Heap) : Prop :=
  ∀ e ∈ env, ∀ (v : Value) (tag : String), v.tag? h = some tag → e.isMember h v = false

theorem leavesTagged_builtin : LeavesTagged Builtin.environment h := by
  intro e he v tag htag
  obtain ⟨object, hobject, htag⟩ := Option.bind_eq_some_iff.1 htag
  obtain ⟨o, rfl⟩ : ∃ o, v = .object o := by
    cases v <;> first | exact ⟨_, rfl⟩ | cases hobject
  cases hobject
  -- objects and maps look at the tag, and the others at the kind of value
  have hobject : Builtin.object.testChain h (.object o) = false := by
    show (true && (some (h.object o)).any fun object => object.tag.isNone) = false
    simp [htag]
  have hstrMap : (Builtin.strMap .unknown).testChain h (.object o) = false := by
    show ((Builtin.object.testChain h (.object o) && true) && true) = false
    rw [hobject]
    rfl
  have hall : ∀ e ∈ Builtin.environment, e.testChain h (.object o) = false := by
    simp only [Builtin.environment, List.forall_mem_cons]
    exact ⟨rfl, rfl, rfl, rfl, rfl, rfl, rfl, hobject, rfl, hstrMap, rfl, rfl, nofun⟩
  refine Bool.eq_false_iff.2 fun hmember => ?_
  have hchain := (Ty.isMember_iff.1 hmember).1
  rw [hall e he] at hchain
  cases hchain

/-- Whether a failure is about a variable: it says that the variable has no type left,
or that a value seen for it is not recognised. -/
def Failure.Concerns (b : Bindings) (name : String) : Failure → Prop
  | typeVariableViolation name' observations => name' = name ∧ observations = b.observations name
  | unrecognizedValue locus v => ∃ values, (locus, values) ∈ b.observations name ∧ v ∈ values
  | _ => False

/-! ## Where the types of values come from -/

namespace Classification

/-- A type that values have in common lies above a type of each, or is that of a tag
they all carry. -/
theorem mem_strict_cases {values : List Value} {x : Ty} (hx : x ∈ strict h env values)
    {v : Value} (hv : v ∈ values) :
    (∃ t ∈ classify h env (h.size + 2) [] v, t ≤ x) ∨
      ∃ tag, x = .foreign tag ∧ v.tag? h = some tag := by
  obtain ⟨hx, hcons⟩ := List.mem_filter.1 hx
  obtain ⟨w, ws, rfl⟩ := List.exists_cons_of_ne_nil (List.ne_nil_of_mem hv)
  unfold determine at hx
  rcases determineBy_cases h env (classify h env (h.size + 2) []) w ws with ⟨_, hd⟩
    | ⟨_, tag, htag, hd⟩ | ⟨_, _, hd⟩
  · rw [hd, mem_sort] at hx
    exact .inl (exists_le_common.1 ⟨x, hx, le_refl x⟩ v hv)
  · rw [hd, List.mem_singleton] at hx
    exact .inr ⟨tag, hx, commonTag_eq_some.1 htag v hv⟩
  · rw [hd, List.mem_singleton] at hx
    subst hx
    cases hcons

/-- A value that is not recognised has no types, and carries no tag. -/
theorem classify_of_loose_eq_nil (henv : OpenEnvironment env) {v : Value}
    (hloose : loose h env [v] = []) :
    classify h env (h.size + 2) [] v = [] ∧ v.tag? h = none := by
  have hnone : ∀ t ∈ determine h env [v], t = .inconsistent := by
    intro t ht
    have hdropped := List.filter_eq_nil_iff.1 hloose t ht
    cases t <;> first | rfl | exact absurd rfl hdropped
  unfold determine at hnone
  rcases determineBy_cases h env (classify h env (h.size + 2) []) v [] with ⟨hne, hd⟩
    | ⟨_, tag, _, hd⟩ | ⟨hnil, htag, _⟩
  · obtain ⟨t, ht⟩ := List.exists_mem_of_ne_nil _ hne
    have heq := hnone t (hd ▸ mem_sort.2 ht)
    -- the types of one value come from entries, and they are consistent on the outside
    obtain ⟨e, he, _, ht⟩ := mem_classify ht
    rcases henv.mem_expandBy he ht with ⟨_, _, _, _, _, rfl, _⟩
      | ⟨⟨_, rfl⟩ | ⟨_, _, _, rfl⟩, rfl⟩
    all_goals cases heq
  · cases hnone (.foreign tag) (hd ▸ List.mem_singleton_self _)
  · refine ⟨hnil, Option.eq_none_iff_forall_ne_some.2 fun tag hv => ?_⟩
    rw [commonTag_eq_some.2 (fun w hw => List.mem_singleton.1 hw ▸ hv)] at htag
    cases htag

theorem strict_eq_nil_of_loose (henv : OpenEnvironment env) {v : Value}
    {values : List Value} (hv : v ∈ values) (hloose : loose h env [v] = []) :
    strict h env values = [] := by
  obtain ⟨hclassify, htag⟩ := classify_of_loose_eq_nil henv hloose
  refine List.eq_nil_iff_forall_not_mem.2 fun x hx => ?_
  rcases mem_strict_cases hx hv with ⟨t, ht, _⟩ | ⟨tag, _, hv⟩
  · rw [hclassify] at ht
    cases ht
  · rw [htag] at hv
    cases hv

end Classification

/-! ## Types that account for a value -/

/-- Whether a type accounts for a value: the value fits it, each of its parameters lies
above a type of what the value holds there, and it comes from an entry of the
environment or from a tag. -/
structure AccountsFor (env : List Ty) (h : Heap) (x : Ty) (v : Value) : Prop where
  arises : Arises env h x
  consistent : x.isConsistent = true
  fits : Fits h x v
  held : ∀ (i : Nat) (q : Ty), x.params[i]? = some q →
    ∃ r ∈ Classification.determineBy h env
      (Classification.classify h env (h.size + 1) v.identity?.toList) (x.extract h i v), r ≤ q
  origin : (∃ e ∈ env, e ≤ x) ∨ ∃ tag, x = .foreign tag

theorem le_of_mem_expandBy (henv : OpenEnvironment env) {e : Ty} (he : e ∈ env)
    {determine : List Value → List Ty} {v : Value} {t : Ty}
    (ht : t ∈ Classification.expandBy h determine 0 e v) : e ≤ t := by
  rcases henv.mem_expandBy he ht with ⟨c, supers, ps, qs, rfl, rfl, hlen, _⟩ | ⟨_, rfl⟩
  · refine Ty.con_le_con.2 ⟨rfl, forall₂_iff_getElem?.2 ⟨hlen.symm, fun i p q hp _ => ?_⟩⟩
    rw [henv.eq_unknown he (List.mem_of_getElem? hp)]
    exact Ty.unknown_le q
  · exact le_refl t

theorem accountsFor_of_mem_strict (henv : OpenEnvironment env) (htags : TagsApart env h)
    {values : List Value} {x : Ty} (hx : x ∈ Classification.strict h env values)
    {v : Value} (hv : v ∈ values) : AccountsFor env h x v := by
  have hcons := (List.mem_filter.1 hx).2
  have hfits := Classification.fits_of_mem_strict henv htags hx
  rcases Classification.mem_strict_cases hx hv with ⟨t, ht, hle⟩ | ⟨tag, rfl, _⟩
  · have harises := (Classification.sound_classify henv htags _ _ v t ht).1
    obtain ⟨e, he, _, ht⟩ := Classification.mem_classify ht
    rw [List.append_nil] at ht
    refine ⟨hfits.1, hcons, hfits.2 v hv, fun i q hq => ?_,
      .inl ⟨e, he, le_trans (le_of_mem_expandBy henv he ht) hle⟩⟩
    rcases henv.mem_expandBy he ht with ⟨c, supers, ps, qs, rfl, rfl, hlen, hqs⟩ | ⟨hleaf, rfl⟩
    · obtain ⟨d, supers', rs, rfl, hname, hqr⟩ := Ty.eq_con_of_le hle
      obtain ⟨rfl, rfl⟩ := harises.con_ext henv htags hfits.1 hname hqr.length_eq
      obtain ⟨hlen', hall⟩ := forall₂_iff_getElem?.1 hqr
      have hi : i < qs.length := hlen' ▸ (List.getElem?_eq_some_iff.1 hq).1
      have hp := List.getElem?_eq_getElem hi
      exact ⟨_, hqs i _ hp, hall i _ q hp hq⟩
    · have hnil : x.params = [] := by
        rcases hleaf with ⟨en, rfl⟩ | ⟨r, supers, fields, rfl⟩
        · cases x <;> first | rfl | cases hle
        · cases x <;> first | rfl | cases hle
      rw [hnil] at hq
      cases hq
  · exact ⟨hfits.1, hcons, hfits.2 v hv, nofun, .inr ⟨tag, rfl⟩⟩

/-! ## Narrowing keeps a type below -/

namespace Scope

variable {s : Scope}

theorem exists_le_expand (henv : OpenEnvironment s.env) (htags : TagsApart s.env s.heap)
    {t x : Ty} {v : Value} (ht : Arises s.env s.heap t) (hle : t ≤ x)
    (hx : AccountsFor s.env s.heap x v) :
    ∃ u ∈ Classification.expand s.heap s.env 0 t v, u ≤ x := by
  cases t with
  | con c supers ps =>
      obtain ⟨d, supers', qs, rfl, hname, hpq⟩ := Ty.eq_con_of_le hle
      obtain ⟨rfl, rfl⟩ := ht.con_ext henv htags hx.arises hname hpq.length_eq
      obtain ⟨hlen, hall⟩ := forall₂_iff_getElem?.1 hpq
      have hfill : ∀ i : Fin ps.length, ∃ r : Ty, r ≤ qs.get (i.cast hlen) ∧
          if ps[i].isUnknown then r ∈ Classification.determineBy s.heap s.env
            (Classification.classify s.heap s.env (s.heap.size + 1) v.identity?.toList)
            (c.held i s.heap v) else r = ps[i] := by
        intro i
        have hq : qs[i.val]? = some (qs.get (i.cast hlen)) := by simp
        split
        · obtain ⟨r, hr, hle⟩ := hx.held i _ hq
          exact ⟨r, hle, hr⟩
        · exact ⟨ps[i], hall i _ _ (by simp) hq, rfl⟩
      choose r hr hfilled using hfill
      refine ⟨.con c supers (List.ofFn r), ?_, Ty.con_le_con.2 ⟨rfl, ?_⟩⟩
      · refine Classification.mem_expandBy_con.2 ⟨_, rfl, by simp, fun i p q hp hq => ?_⟩
        obtain ⟨hi, rfl⟩ := List.getElem?_eq_some_iff.1 hp
        rw [List.getElem?_ofFn, dif_pos hi] at hq
        cases hq
        simpa [hi] using hfilled ⟨i, hi⟩
      · refine forall₂_iff_getElem?.2 ⟨by simpa using hlen, fun i p q hp hq => ?_⟩
        rw [List.getElem?_ofFn] at hp
        split at hp
        · next hi =>
            cases hp
            obtain ⟨hi', rfl⟩ := List.getElem?_eq_some_iff.1 hq
            exact hr ⟨i, hi⟩
        · cases hp
  | var => cases ht
  | _ =>
      refine ⟨_, ?_, hle⟩
      rw [Classification.expand, Classification.expandBy_of_params rfl]
      exact List.mem_singleton_self _

theorem exists_le_refine (henv : OpenEnvironment s.env) (htags : TagsApart s.env s.heap)
    {candidates : List Ty} (harises : ∀ t ∈ candidates, Arises s.env s.heap t) {x : Ty}
    {v : Value} (hx : AccountsFor s.env s.heap x v) (hbelow : ∃ t ∈ candidates, t ≤ x) :
    ∃ t ∈ s.refine 0 candidates v, t ≤ x := by
  obtain ⟨t, ht, hle⟩ := hbelow
  have hmember := hx.fits.isMember_of_le henv htags (harises t ht) hx.arises hle
  obtain ⟨u, hu, hux⟩ := exists_le_expand henv htags (harises t ht) hle hx
  have hcons := Ty.isConsistent_of_le hux hx.consistent
  have hmem : u ∈ (candidates.filter (·.isMember s.heap v)).flatMap fun t =>
      (Classification.expand s.heap s.env 0 t v).filter (·.isConsistent) :=
    List.mem_flatMap.2 ⟨t, List.mem_filter.2 ⟨ht, hmember⟩, List.mem_filter.2 ⟨hu, hcons⟩⟩
  obtain ⟨u', hu', heq⟩ := Ty.exists_mem_unique hmem
  exact ⟨u', hu', le_trans (Ty.le_of_beq (BEq.symm heq)) hux⟩

theorem exists_le_foldl_refine (henv : OpenEnvironment s.env)
    (htags : TagsApart s.env s.heap) (values : List Value) {candidates : List Ty}
    (harises : ∀ t ∈ candidates, Arises s.env s.heap t) {x : Ty}
    (hx : ∀ v ∈ values, AccountsFor s.env s.heap x v)
    (hbelow : ∃ t ∈ candidates, t ≤ x) :
    ∃ t ∈ values.foldl (s.refine 0) candidates, t ≤ x := by
  induction values generalizing candidates with
  | nil => exact hbelow
  | cons v values ih =>
      rw [List.forall_mem_cons] at hx
      rw [List.foldl_cons]
      refine ih (fun t ht => ?_) hx.2 (exists_le_refine henv htags harises hx.1 hbelow)
      exact (settledBut_refine henv htags (fun t ht => ⟨harises t ht, t.leavesOpen_zero⟩) ht).1.1

theorem foldl_refine_nil (arity : Nat) (values : List Value) :
    values.foldl (s.refine arity) [] = [] := by
  induction values with
  | nil => rfl
  | cons v values ih => exact ih

theorem foldl_refine_eq_nil (hleaves : LeavesTagged s.env s.heap) {candidates : List Ty}
    (hsub : ∀ t ∈ candidates, t ∈ s.env) {values : List Value} {tag : String}
    (hne : values ≠ []) (htag : ∀ v ∈ values, v.tag? s.heap = some tag) :
    values.foldl (s.refine 0) candidates = [] := by
  obtain ⟨v, rest, rfl⟩ := List.exists_cons_of_ne_nil hne
  have hfirst : s.refine 0 candidates v = [] := by
    have hnone : candidates.filter (·.isMember s.heap v) = [] := by
      refine List.filter_eq_nil_iff.2 fun t ht => ?_
      rw [hleaves t (hsub t ht) v tag (htag v (by simp))]
      exact Bool.false_ne_true
    rw [refine, hnone]
    rfl
  rw [List.foldl_cons, hfirst, foldl_refine_nil]

/-- If some type left for the variable lies below what accounts for all values, then so
does one that is left when the variable has taken them. -/
theorem exists_le_narrowed (henv : OpenEnvironment s.env)
    (htags : TagsApart s.env s.heap) (hleaves : LeavesTagged s.env s.heap)
    {b : Bindings} {name : String} (hb : s.Settles 0 b name) {x : Ty}
    (hbelow : ∀ types, b.types? name = some types → ∃ t ∈ types, t ≤ x)
    {values : List Value} (hne : values ≠ [])
    (hx : ∀ v ∈ values, AccountsFor s.env s.heap x v) :
    ∃ t ∈ s.narrowed name 0 values b, t ≤ x := by
  unfold narrowed
  rw [Bindings.contains_eq]
  cases htypes : b.types? name with
  | some types =>
      have hleft := exists_le_foldl_refine henv htags values
        (fun t ht => ((hb types htypes).2 t ht).1.1) hx (hbelow types htypes)
      simpa using hleft
  | none =>
      simp only [Option.getD_none, Option.isSome_none, Bool.not_false, Bool.and_true, BEq.rfl]
      have hsub : ∀ t ∈ s.candidates 0, t ∈ s.env := fun t ht => (List.mem_filter.1 ht).1
      obtain ⟨v, hv⟩ := List.exists_mem_of_ne_nil values hne
      rcases (hx v hv).origin with ⟨e, he, hle⟩ | ⟨tag, rfl⟩
      · have hleft := exists_le_foldl_refine henv htags values
          (fun t ht => henv.arises (hsub t ht)) hx ⟨e, List.mem_filter.2 ⟨he, by simp⟩, hle⟩
        obtain ⟨t, ht, htx⟩ := hleft
        rw [if_neg (by simpa using List.ne_nil_of_mem ht)]
        exact ⟨t, ht, htx⟩
      · have htag : ∀ w ∈ values, w.tag? s.heap = some tag := by
          intro w hw
          have hchain := (Ty.isMember_iff.1 (hx w hw).fits.isMember).1
          exact beq_iff_eq.1 (Ty.testChain_iff.1 hchain).2
        rw [foldl_refine_eq_nil hleaves hsub hne htag, List.isEmpty_nil, if_pos rfl]
        obtain ⟨w, ws, rfl⟩ := List.exists_cons_of_ne_nil hne
        rw [Classification.commonTag_eq_some.2 htag]
        exact ⟨.foreign tag, by simp, le_refl _⟩

/-! ## The invariant of one variable -/

/-- Whether whatever accounts for all values seen for a variable lies above a type that
is left for it. -/
structure Spares (s : Scope) (name : String) (b : Bindings) : Prop where
  settles : s.Settles 0 b name
  below : ∀ types : List Ty, b.types? name = some types → ∀ x : Ty,
    (∀ v, b.Observed name v → AccountsFor s.env s.heap x v) → ∃ t ∈ types, t ≤ x

theorem spares_empty {name : String} : s.Spares name ∅ where
  settles := fun _ ht => nomatch ht
  below := fun _ ht => nomatch ht

theorem Spares.exists_le_narrowed (henv : OpenEnvironment s.env)
    (htags : TagsApart s.env s.heap) (hleaves : LeavesTagged s.env s.heap)
    {b : Bindings} {name : String} (hb : s.Spares name b) {x : Ty} {values : List Value}
    (hne : values ≠ [])
    (hx : ∀ v, b.Observed name v ∨ v ∈ values → AccountsFor s.env s.heap x v) :
    ∃ t ∈ s.narrowed name 0 values b, t ≤ x := by
  refine Scope.exists_le_narrowed henv htags hleaves hb.settles (fun types htypes => ?_) hne
    fun v hv => hx v (.inr hv)
  exact hb.below types htypes x fun v hv => hx v (.inl hv)

/-- A variable that another one is bound beside keeps what it has. -/
theorem Spares.bind_other {b : Bindings} {name other : String} (hb : s.Spares name b)
    (hne : other ≠ name) {locus : Locus} {values : List Value} {types : List Ty} :
    s.Spares name ((b.observe other locus values).bind other types) := by
  have hobserved : ∀ v, ((b.observe other locus values).bind other types).Observed name v ↔
      b.Observed name v := by
    intro v
    rw [Bindings.observed_bind_observe]
    exact or_iff_left fun hv => hne hv.1
  have htypes : ((b.observe other locus values).bind other types).types? name = b.types? name := by
    rw [Bindings.types?_bind, if_neg hne, Bindings.types?_observe hne]
  refine ⟨hb.settles.of_eq htypes fun v hv => (hobserved v).1 hv, ?_⟩
  simp only [htypes, hobserved]
  exact hb.below

theorem maintains_spares (henv : OpenEnvironment s.env) (htags : TagsApart s.env s.heap)
    (hleaves : LeavesTagged s.env s.heap) {name : String} {t : Ty}
    (hplain : ∀ p ∈ t.occurrences, p.1 = name → p.2 = []) :
    s.Maintains (s.Spares name) (fun f b => f.Concerns b name →
      Classification.strict s.heap s.env (b.seen name) = []) t := by
  refine maintains_of_occurrences (fun _ _ _ _ _ => nofun) fun other params hp hparams => ?_
  refine maintains_var (fun locus values b hb => ?_) hparams
  refine meets_satisfyVariable (fun _ _ _ => nofun) (fun _ => hb) (fun _ v _ hloose => ?_)
    (fun hne hnone => ?_) fun hne hsome => ?_
  · rintro ⟨all, hall, hv⟩
    exact Classification.strict_eq_nil_of_loose henv (Bindings.mem_seen.2 ⟨_, hall, hv⟩) hloose
  · rintro ⟨rfl, _⟩
    obtain rfl := hplain _ hp rfl
    -- what all values have in common would lie above a type that is left
    refine List.eq_nil_iff_forall_not_mem.2 fun x hx => ?_
    obtain ⟨u, hu, _⟩ := hb.exists_le_narrowed henv htags hleaves hne fun v hv =>
      accountsFor_of_mem_strict henv htags hx
        (Bindings.mem_seen.2 (Bindings.observed_observe.2 (hv.imp_right (.intro rfl))))
    rw [List.length_nil] at hnone
    rw [hnone] at hu
    cases hu
  · by_cases hother : other = name
    · subst hother
      obtain rfl := hplain _ hp rfl
      refine ⟨settles_bind henv htags hb.settles hsome, fun types htypes x hx => ?_⟩
      rw [Bindings.types?_bind, if_pos rfl] at htypes
      cases htypes
      refine hb.exists_le_narrowed henv htags hleaves hne fun v hv => hx v ?_
      exact Bindings.observed_bind_observe.2 (hv.imp_right (.intro rfl))
    · exact hb.bind_other hother

theorem maintains_concerns {t : Ty} :
    s.Maintains (fun _ => True) (fun f b => f.category = .typeVariableViolation ∨
      f.category = .unrecognizedValue → ∃ name, f.Concerns b name) t := by
  refine maintains_of_occurrences (fun _ _ _ _ _ hf => by simp [Failure.category] at hf)
    fun name params _ hparams => ?_
  refine maintains_var (fun locus values b _ => ?_) hparams
  refine meets_satisfyVariable (fun _ _ _ hf => by simp [Failure.category] at hf)
    (fun _ => trivial) (fun _ v hv _ _ => ⟨name, ?_⟩) (fun _ _ _ => ⟨name, rfl, rfl⟩)
    fun _ _ => trivial
  obtain ⟨all, hall, hsub⟩ := Bindings.exists_mem_observations b name locus values
  exact ⟨all, hall, hsub v hv⟩

end Scope

namespace Session

variable {s : Session} {w w' : World}

/-- Over the builtin environment, after any run of checks that passed: if the next check
fails because a variable has no type left, or because one of its values is not
recognised, then the variable is known, and the values seen for it, those of the failed
check among them, have no type in common. -/
theorem Reached.strict_eq_nil_of_fails {f : Failure}
    (hbuiltin : s.env = Builtin.environment) (htags : TagsApart s.env w.heap)
    (hrun : s.Reached w) (hf : s.Fails w f w') :
    (f.category = .typeVariableViolation ∨ f.category = .unrecognizedValue →
      ∃ name, f.Concerns (s.bindings w') name) ∧
    ∀ name, s.signature.OccursOnly name [] → f.Concerns (s.bindings w') name →
      Classification.strict w.heap s.env ((s.bindings w').seen name) = [] := by
  have henv : OpenEnvironment s.env := hbuiltin ▸ openEnvironment_builtin
  have hleaves : LeavesTagged s.env w.heap := hbuiltin ▸ leavesTagged_builtin
  refine ⟨hrun.of_fails hf trivial fun t _ => Scope.maintains_concerns, fun name hplain => ?_⟩
  exact hrun.of_fails hf Scope.spares_empty fun t ht =>
    Scope.maintains_spares henv htags hleaves (hplain.of_declares ht)

/-- The empty array and `[true]` have a type in common, and `[null]` does not have
it. -/
theorem Reached.strict_eq_nil_of_fails_third :
    ∃ (s : Session) (w w' : World) (f : Failure) (name : String),
      s.env = Builtin.environment ∧ TagsApart s.env w.heap ∧ s.Reached w ∧ s.Fails w f w' ∧
      f.category = .typeVariableViolation ∧ s.signature.OccursOnly name [] ∧
      f.Concerns (s.bindings w') name ∧
      Classification.strict w.heap s.env ((s.bindings w').seen name) = [] := by
  let a : Ty := .var "a" []
  let s : Session := ⟨⟨"same", ∅, [a, a, a], .any, by decide⟩, Builtin.environment, 0⟩
  let h : Heap := ⟨#[[], [.bool true], [.null]], #[]⟩
  have hstart : s.Reached ⟨h, #[], #[default], ∅⟩ := .start (w := ⟨h, #[], #[], ∅⟩) rfl rfl
  have hempty := hstart.argument (checkArgument_of_passes 0 (.array 0) (by decide +kernel))
  have hrun := hempty.argument (checkArgument_of_passes 1 (.array 1) (by decide +kernel))
  have hplain : ∀ name, s.signature.OccursOnly name [] := by
    have hall : ∀ t ∈ s.signature.types, ∀ p ∈ t.occurrences, p.2.isEmpty = true := by
      decide +kernel
    exact fun name t ht p hp _ => List.isEmpty_iff.1 (hall t ht p hp)
  generalize hw : World.setSession _ _ _ = w at hrun
  have hcategory :
      (s.signature.argumentVerdict w.heap s.env 2 (.array 2) (s.bindings w)).failure?.map
        Failure.category = some .typeVariableViolation := by
    subst hw
    decide +kernel
  obtain ⟨f, hf, hcategory⟩ := Option.map_eq_some_iff.1 hcategory
  have hdeclared : s.signature.params[2]? = some a := rfl
  have hfails := Fails.argument hdeclared hf (checkArgument_of_failure hf)
  have htags : TagsApart s.env w.heap := by
    subst hw
    intro c supers _ o
    simp [World.setSession, Heap.object, h]
  obtain ⟨hconcerns, hstrict⟩ := hrun.strict_eq_nil_of_fails rfl htags hfails
  obtain ⟨name, hname⟩ := hconcerns (.inl hcategory)
  exact ⟨s, w, _, f, name, rfl, htags, hrun, hfails, hcategory, hplain name, hname,
    hstrict name (hplain name) hname⟩

end Session

end DynamicTypes
