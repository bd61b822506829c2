import DynamicTypes.Proofs.Bindings
import DynamicTypes.Proofs.ClassificationSound
import DynamicTypes.Proofs.Resolution

/-!
# Checks with type variables are sound

A check may accept a value because a variable can take it, and what the variable
stands for is settled only later. So the statement about one check looks ahead:
whatever the bindings grow into, and whichever of the types left for each variable
is chosen, the value is a member of the declared type with the chosen types in the
place of the variables.

What makes it true is an invariant of the bindings, `Known`. Every value seen for a
variable is a member of every type that the variable may still stand for, and a
type with an unknown parameter has met only values that hold nothing there. The
second half is why filling the parameter later, from a value that does hold
something, is safe for all values that came before.

The lemmas about narrowing are stated for variables that may be applied to parameters
of their own, `keep` of them. These are the last ones of every candidate, and nothing
fills them; a plain variable has none.
-/

namespace DynamicTypes

variable {env : List Ty} {h : Heap}

/-! ## Types in the place of variables -/

namespace Ty

mutual

/-- The type with types put in the place of its variables. Supertypes belong to the
constructor and are left alone, and so is a variable that is applied to parameters. -/
def subst (σ : String → Ty) : Ty → Ty
  | con c supers params => con c supers (substAll σ params)
  | record r supers fields => record r supers (substFields σ fields)
  | function types => function (substAll σ types)
  | var name [] => σ name
  | t => t

def substAll (σ : String → Ty) : List Ty → List Ty
  | [] => []
  | t :: ts => subst σ t :: substAll σ ts

def substFields (σ : String → Ty) : List (String × Ty) → List (String × Ty)
  | [] => []
  | (key, t) :: rest => (key, subst σ t) :: substFields σ rest

end

mutual

/-- Whether no variable of the type is applied to parameters. -/
def isPlain : Ty → Bool
  | con _ _ params => allPlain params
  | record _ _ fields => fieldsPlain fields
  | function types => allPlain types
  | var _ params => params.isEmpty
  | _ => true

def allPlain : List Ty → Bool
  | [] => true
  | t :: ts => isPlain t && allPlain ts

def fieldsPlain : List (String × Ty) → Bool
  | [] => true
  | (_, t) :: rest => isPlain t && fieldsPlain rest

end

theorem substAll_eq_map {σ : String → Ty} {ts : List Ty} :
    substAll σ ts = ts.map (subst σ) := by
  induction ts with
  | nil => rfl
  | cons t ts ih => rw [substAll, ih, List.map_cons]

theorem substFields_eq_map {σ : String → Ty} {fields : List (String × Ty)} :
    substFields σ fields = fields.map fun f => (f.1, subst σ f.2) := by
  induction fields with
  | nil => rfl
  | cons f fields ih => rw [substFields, ih, List.map_cons]

theorem allPlain_iff {ts : List Ty} :
    allPlain ts = true ↔ ∀ t ∈ ts, t.isPlain = true := by
  induction ts with
  | nil => simp [allPlain]
  | cons t ts ih => rw [allPlain, Bool.and_eq_true, ih, List.forall_mem_cons]

theorem fieldsPlain_iff {fields : List (String × Ty)} :
    fieldsPlain fields = true ↔ ∀ f ∈ fields, f.2.isPlain = true := by
  induction fields with
  | nil => simp [fieldsPlain]
  | cons f fields ih => rw [fieldsPlain, Bool.and_eq_true, ih, List.forall_mem_cons]

/-- A type that is not looked into has its members told by the chain, whatever is put
into it. -/
theorem isMember_subst_leaf {t : Ty} {σ : String → Ty} {v : Value}
    (ht : t.isLeaf = true) (hchain : t.testChain h v = true) :
    (t.subst σ).isMember h v = true := by
  cases t with
  | con | record | var => cases ht
  | _ => exact isMember_iff.2 ⟨hchain, fun i key u _ => ⟨rfl, nofun⟩⟩

end Ty

/-! ## What a candidate has come through -/

/-- Whether a value is a member of a type and holds nothing at its unknown
parameters. -/
def Settled (h : Heap) (t : Ty) (v : Value) : Prop :=
  t.isMember h v = true ∧ ∀ i : Nat, t.params[i]? = some .unknown → t.extract h i v = []

/-- The same with the last `keep` parameters aside: a variable that is applied to
parameters of its own does not have them filled from what values hold there. -/
def SettledBut (keep : Nat) (h : Heap) (t : Ty) (v : Value) : Prop :=
  t.isMember h v = true ∧
    ∀ i : Nat, i + keep < t.arity → t.params[i]? = some .unknown → t.extract h i v = []

/-- Whether a type has at least `keep` parameters, and the last `keep` of them are
unknown. -/
def Ty.LeavesOpen (keep : Nat) (t : Ty) : Prop :=
  keep ≤ t.arity ∧ ∀ i < t.arity, t.arity ≤ i + keep → t.params[i]? = some .unknown

theorem Ty.leavesOpen_zero (t : Ty) : t.LeavesOpen 0 :=
  ⟨Nat.zero_le _, fun i hi hle => by omega⟩

theorem settledBut_zero {t : Ty} {v : Value} : SettledBut 0 h t v ↔ Settled h t v := by
  refine and_congr_right fun _ => forall_congr' fun i => ⟨fun hopen hi => hopen ?_ hi, fun h _ => h⟩
  exact (List.getElem?_eq_some_iff.1 hi).1

theorem settledBut_con {keep : Nat} {c : Constructor} {supers params : List Ty}
    {v : Value} :
    SettledBut keep h (.con c supers params) v ↔ (Ty.con c supers params).testChain h v = true ∧
      ∀ (i : Nat) (p : Ty), params[i]? = some p → ∀ x ∈ c.held i h v,
        (i + keep < params.length → p ≠ .unknown) ∧ p.isMember h x = true := by
  rw [SettledBut, Ty.isMember_con, and_assoc]
  refine and_congr_right fun _ => ⟨
    fun ⟨hmem, hopen⟩ i p hp x hx => ⟨fun hi => ?_, hmem i p hp x hx⟩,
    fun hall => ⟨fun i p hp x hx => (hall i p hp x hx).2, fun i hi hp => ?_⟩⟩
  · rintro rfl
    rw [show c.held i h v = [] from hopen i hi hp] at hx
    cases hx
  · exact List.eq_nil_iff_forall_not_mem.2 fun x hx => (hall i _ hp x hx).1 hi rfl

theorem Fits.settledBut {keep : Nat} {t : Ty} {v : Value} (ht : Fits h t v) :
    SettledBut keep h t v := by
  cases ht with
  | con chain held =>
      exact settledBut_con.2 ⟨chain, fun i p hp x hx =>
        ⟨fun _ => (held i p hp x hx).ne_unknown, (held i p hp x hx).isMember⟩⟩
  | enumeration mem => exact ⟨mem, nofun⟩
  | record mem => exact ⟨mem, nofun⟩

namespace Scope

variable {s : Scope} {keep : Nat}

/-- The parameters of a candidate that has been expanded by a value. Those that were
unknown, the last `keep` aside, fit what the value holds, and the others are as they
were. -/
theorem params_expand (henv : OpenEnvironment s.env) (htags : TagsApart s.env s.heap)
    {c : Constructor} {supers ps : List Ty} {v : Value} {t : Ty}
    (ht : t ∈ Classification.expand s.heap s.env keep (.con c supers ps) v)
    (hcons : t.isConsistent = true) :
    ∃ qs, t = .con c supers qs ∧ qs.length = ps.length ∧
      ∀ (i : Nat) (q : Ty), qs[i]? = some q →
        (i + keep < ps.length ∧ ps[i]? = some .unknown ∧ Arises s.env s.heap q ∧
          ∀ x ∈ c.held i s.heap v, Fits s.heap q x) ∨
        ((i + keep < ps.length → q ≠ .unknown) ∧ ps[i]? = some q) := by
  have hfill := Classification.sound_determineBy henv htags
    (Classification.sound_classify henv htags (s.heap.size + 1) v.identity?.toList)
  obtain ⟨qs, rfl, hlen, hqs⟩ := Classification.mem_expandBy_con.1 ht
  refine ⟨qs, rfl, hlen, fun i q hq => ?_⟩
  have hi : i < ps.length := hlen ▸ (List.getElem?_eq_some_iff.1 hq).1
  have hp := List.getElem?_eq_getElem hi
  have hspec := hqs i _ q hp hq
  split at hspec
  · next hopen =>
      obtain ⟨hkeep, hunknown⟩ := Bool.and_eq_true_iff.1 hopen
      rw [Ty.isConsistent, Ty.allConsistent_iff] at hcons
      have hsound := hfill _ q hspec
      refine .inl ⟨of_decide_eq_true hkeep, Ty.isUnknown_iff.1 hunknown ▸ hp, hsound.1, ?_⟩
      exact hsound.2 (hcons q (List.mem_of_getElem? hq))
  · next hopen =>
      subst hspec
      refine .inr ⟨fun hkeep hunknown => hopen ?_, hp⟩
      simp [hunknown, hkeep, Ty.isUnknown]

/-- One refinement: the candidate comes from an earlier one, has settled the value, and
keeps all that the earlier one had settled. -/
theorem settledBut_refine (henv : OpenEnvironment s.env)
    (htags : TagsApart s.env s.heap) {candidates : List Ty}
    (hc : ∀ t ∈ candidates, Arises s.env s.heap t ∧ t.LeavesOpen keep) {v : Value}
    {t : Ty} (ht : t ∈ s.refine keep candidates v) :
    (Arises s.env s.heap t ∧ t.LeavesOpen keep) ∧ SettledBut keep s.heap t v ∧
      ∃ t₀ ∈ candidates, ∀ w, SettledBut keep s.heap t₀ w → SettledBut keep s.heap t w := by
  obtain ⟨t₀, ht₀, ht⟩ := List.mem_flatMap.1 (Ty.mem_of_mem_unique ht)
  obtain ⟨hmem, hmember⟩ := List.mem_filter.1 ht₀
  obtain ⟨ht, hcons⟩ := List.mem_filter.1 ht
  obtain ⟨harises₀, hopen₀⟩ := hc t₀ hmem
  cases t₀ with
  | con c supers ps =>
      obtain ⟨qs, rfl, hlen, hqs⟩ := params_expand henv htags ht hcons
      rw [Ty.isMember_con, Ty.testChain_con ps qs] at hmember
      refine ⟨⟨harises₀.withParams hlen fun q hq => ?_, ?_⟩, settledBut_con.2 ⟨hmember.1, ?_⟩, _,
        hmem, fun w hw => ?_⟩
      · obtain ⟨i, hi⟩ := List.getElem?_of_mem hq
        rcases hqs i q hi with ⟨_, _, hq, _⟩ | ⟨_, hq⟩
        · exact hq
        · exact harises₀.param (List.mem_of_getElem? hq)
      · -- the last parameters are not filled
        refine ⟨hopen₀.1.trans_eq hlen.symm, ?_⟩
        intro i (hi : i < qs.length) (hlast : qs.length ≤ i + keep)
        have hq := List.getElem?_eq_getElem hi
        rcases hqs i _ hq with ⟨hkeep, _⟩ | ⟨_, hp⟩
        · omega
        · rw [hlen] at hi hlast
          exact hq.trans (hp.symm.trans (hopen₀.2 i hi hlast))
      · intro i q hq x hx
        rw [hlen]
        rcases hqs i q hq with ⟨_, _, _, hfits⟩ | ⟨hne, hp⟩
        · exact ⟨fun _ => (hfits x hx).ne_unknown, (hfits x hx).isMember⟩
        · exact ⟨hne, hmember.2 i q hp x hx⟩
      · rw [settledBut_con, Ty.testChain_con ps qs] at hw
        refine settledBut_con.2 ⟨hw.1, fun i q hq x hx => ?_⟩
        rw [hlen]
        -- a parameter that is filled only now was unknown, so what was settled held nothing there
        rcases hqs i q hq with ⟨hkeep, hp, _⟩ | ⟨_, hp⟩
        · exact absurd rfl ((hw.2 i _ hp x hx).1 hkeep)
        · exact hw.2 i q hp x hx
  | var => cases harises₀
  | _ =>
      rw [Classification.expand, Classification.expandBy_of_params rfl, List.mem_singleton] at ht
      subst ht
      exact ⟨⟨harises₀, hopen₀⟩, ⟨hmember, nofun⟩, _, hmem, fun w hw => hw⟩

/-- Refinement by several values settles all of them. -/
theorem settledBut_foldl_refine (henv : OpenEnvironment s.env) (htags : TagsApart s.env s.heap)
    (values : List Value) {candidates : List Ty} {seen : Value → Prop}
    (hc : ∀ t ∈ candidates, (Arises s.env s.heap t ∧ t.LeavesOpen keep) ∧
      ∀ w, seen w → SettledBut keep s.heap t w) :
    ∀ t ∈ values.foldl (s.refine keep) candidates, (Arises s.env s.heap t ∧ t.LeavesOpen keep) ∧
      ∀ w, seen w ∨ w ∈ values → SettledBut keep s.heap t w := by
  induction values generalizing candidates seen with
  | nil => simpa using hc
  | cons v values ih =>
      have hstep : ∀ t ∈ s.refine keep candidates v, (Arises s.env s.heap t ∧ t.LeavesOpen keep) ∧
          ∀ w, seen w ∨ w = v → SettledBut keep s.heap t w := by
        intro t ht
        obtain ⟨hshape, hv, t₀, ht₀, hkeep⟩ :=
          settledBut_refine henv htags (fun t ht => (hc t ht).1) ht
        refine ⟨hshape, ?_⟩
        rintro w (hw | rfl)
        · exact hkeep w ((hc t₀ ht₀).2 w hw)
        · exact hv
      intro t ht
      refine ⟨(ih hstep t ht).1, fun w hw => (ih hstep t ht).2 w ?_⟩
      rwa [List.mem_cons, ← or_assoc] at hw

/-! ## The invariant of the bindings -/

/-- Whether every value seen for a variable, which is applied to `keep` parameters, is
settled by every type the variable may still stand for. -/
def Settles (s : Scope) (keep : Nat) (b : Bindings) (name : String) : Prop :=
  ∀ types : List Ty, b.types? name = some types → types ≠ [] ∧ ∀ t ∈ types,
    (Arises s.env s.heap t ∧ t.LeavesOpen keep) ∧
      ∀ v, b.Observed name v → SettledBut keep s.heap t v

/-- What bindings are good for: every value seen for a variable is settled by every type
the variable may still stand for, and has passed the classes required of it. -/
structure Known (s : Scope) (b : Bindings) : Prop where
  types : ∀ (name : String) (types : List Ty), b.types? name = some types →
    types ≠ [] ∧ ∀ t ∈ types, Arises s.env s.heap t ∧ ∀ v, b.Observed name v → Settled s.heap t v
  classes : ∀ (name : String) (v : Value), b.Observed name v →
    ∀ c ∈ (s.constraints.find? name).getD [], c.test s.heap v = true

theorem known_empty : s.Known ∅ where
  types := fun _ _ ht => nomatch ht
  classes := fun _ _ hv => absurd hv Bindings.not_observed_empty

/-- All that is left for a variable has settled the new values and the earlier ones. -/
theorem settledBut_narrowed (henv : OpenEnvironment s.env)
    (htags : TagsApart s.env s.heap) {b : Bindings} {name : String}
    (hb : s.Settles keep b name) {values : List Value} {t : Ty}
    (ht : t ∈ s.narrowed name keep values b) :
    (Arises s.env s.heap t ∧ t.LeavesOpen keep) ∧
      ∀ v, b.Observed name v ∨ v ∈ values → SettledBut keep s.heap t v := by
  -- a variable that has a value is bound
  have hunseen : b.types? name = none → ∀ v, ¬ b.Observed name v := by
    intro hnone v hv
    obtain ⟨types, htypes⟩ := Bindings.types_of_observed hv
    rw [hnone] at htypes
    cases htypes
  unfold narrowed at ht
  simp only at ht
  split at ht
  · next hfirst =>
      simp only [Bindings.contains_eq, Bool.and_eq_true, Bool.not_eq_true', beq_iff_eq,
        Option.isSome_eq_false_iff, Option.isNone_iff_eq_none] at hfirst
      obtain ⟨⟨_, hnone⟩, rfl⟩ := hfirst
      obtain ⟨tag, htag, rfl⟩ := Option.map_eq_some_iff.1 (Option.mem_toList.1 ht)
      have hsound := Classification.sound_foreign s.env htag
      refine ⟨⟨hsound.1, Ty.leavesOpen_zero _⟩, fun v hv => ?_⟩
      exact (hsound.2 v (hv.resolve_left (hunseen hnone v))).settledBut
  · refine settledBut_foldl_refine henv htags values (fun t ht => ?_) t ht
    cases htypes : b.types? name with
    | some types =>
        rw [htypes] at ht
        exact (hb types htypes).2 t ht
    | none =>
        rw [htypes] at ht
        obtain ⟨hmem, harity⟩ := List.mem_filter.1 ht
        refine ⟨⟨henv.arises hmem, of_decide_eq_true harity, fun i hi _ => ?_⟩, fun v hv =>
          absurd hv (hunseen htypes v)⟩
        exact henv.getElem?_params hmem hi

/-- What a variable is bound to when it has taken values settles all that it has
seen. -/
theorem settles_bind (henv : OpenEnvironment s.env) (htags : TagsApart s.env s.heap)
    {b : Bindings} {name : String} (hb : s.Settles keep b name) {locus : Locus}
    {values : List Value} (hne : s.narrowed name keep values b ≠ []) :
    s.Settles keep ((b.observe name locus values).bind name (s.narrowed name keep values b))
      name := by
  intro types htypes
  rw [Bindings.types?_bind, if_pos rfl] at htypes
  cases htypes
  refine ⟨hne, fun t ht => ?_⟩
  have hsettled := settledBut_narrowed henv htags hb ht
  refine ⟨hsettled.1, fun v hv => hsettled.2 v ?_⟩
  exact (Bindings.observed_bind_observe.1 hv).imp_right And.right

theorem Settles.of_eq {b b' : Bindings} {name : String} (hb : s.Settles keep b name)
    (htypes : b'.types? name = b.types? name)
    (hobserved : ∀ v, b'.Observed name v → b.Observed name v) :
    s.Settles keep b' name := by
  intro types hb'
  rw [htypes] at hb'
  refine ⟨(hb types hb').1, fun t ht => ?_⟩
  have hsettled := (hb types hb').2 t ht
  exact ⟨hsettled.1, fun v hv => hsettled.2 v (hobserved v hv)⟩

theorem settles_zero {b : Bindings} {name : String} :
    s.Settles 0 b name ↔ ∀ types : List Ty, b.types? name = some types → types ≠ [] ∧
      ∀ t ∈ types, Arises s.env s.heap t ∧ ∀ v, b.Observed name v → Settled s.heap t v := by
  simp only [Settles, settledBut_zero, Ty.leavesOpen_zero, and_true]

section Success

variable {t : Ty} {name other : String} {locus : Locus} {values : List Value} {b b' : Bindings}

theorem observed_of_succeeds
    (hs : (s.satisfyVariable t name keep locus values b).Succeeds b') {v : Value} :
    b'.Observed other v ↔ b.Observed other v ∨ name = other ∧ v ∈ values := by
  rw [succeeds_satisfyVariable] at hs
  obtain ⟨_, ⟨rfl, rfl⟩ | ⟨_, _, rfl⟩⟩ := hs
  · simp
  · exact Bindings.observed_bind_observe

theorem types_of_succeeds
    (hs : (s.satisfyVariable t name keep locus values b).Succeeds b')
    (hne : name ≠ other) : b'.types? other = b.types? other := by
  rw [succeeds_satisfyVariable] at hs
  obtain ⟨_, ⟨_, rfl⟩ | ⟨_, _, rfl⟩⟩ := hs
  · rfl
  · rw [Bindings.types?_bind, if_neg hne, Bindings.types?_observe hne]

/-- A check of a variable keeps what another one settles. -/
theorem settles_other (hs : (s.satisfyVariable t name keep locus values b).Succeeds b')
    (hne : name ≠ other) {n : Nat} (hb : s.Settles n b other) : s.Settles n b' other :=
  hb.of_eq (types_of_succeeds hs hne) fun _ hv =>
    ((observed_of_succeeds hs).1 hv).resolve_right fun h => hne h.1

theorem settles_of_succeeds (henv : OpenEnvironment s.env)
    (htags : TagsApart s.env s.heap)
    (hs : (s.satisfyVariable t name keep locus values b).Succeeds b')
    (hb : s.Settles keep b name) : s.Settles keep b' name := by
  rw [succeeds_satisfyVariable] at hs
  obtain ⟨_, ⟨_, rfl⟩ | ⟨_, hne, rfl⟩⟩ := hs
  · exact hb
  · exact settles_bind henv htags hb hne

/-- Taking values for a plain variable keeps the invariant, and the values are seen from
then on. -/
theorem known_satisfyVariable (henv : OpenEnvironment s.env)
    (htags : TagsApart s.env s.heap) (hb : s.Known b)
    (hs : (s.satisfyVariable t name 0 locus values b).Succeeds b') :
    s.Known b' ∧ b.Within b' ∧ ∀ v ∈ values, b'.Observed name v := by
  refine ⟨⟨fun other => settles_zero.1 ?_, fun other v hv c hc => ?_⟩, fun other v hv => ?_,
    fun v hv => ?_⟩
  · have hother := settles_zero.2 (hb.types other)
    by_cases hne : name = other
    · subst hne
      exact settles_of_succeeds henv htags hs hother
    · exact settles_other hs hne hother
  · rcases (observed_of_succeeds hs).1 hv with hold | ⟨rfl, hnew⟩
    · exact hb.classes other v hold c hc
    · exact (succeeds_satisfyVariable.1 hs).1 c hc v hnew
  · exact (observed_of_succeeds hs).2 (.inl hv)
  · exact (observed_of_succeeds hs).2 (.inr ⟨rfl, hv⟩)

end Success

/-! ## Checks of whole types -/

/-- Whether one type is chosen for each bound variable from those it may stand for. -/
def Chosen (b : Bindings) (σ : String → Ty) : Prop :=
  ∀ (name : String) (types : List Ty), b.types? name = some types → σ name ∈ types

/-- A value is assured of a type when it is a member of every instance of it that later
bindings leave possible. -/
def Assured (s : Scope) (b : Bindings) (t : Ty) (v : Value) : Prop :=
  ∀ b' : Bindings, s.Known b' → b.Within b' → ∀ σ : String → Ty, Chosen b' σ →
    (t.subst σ).isMember s.heap v = true

theorem Assured.later {b b' : Bindings} {t : Ty} {v : Value} (hv : s.Assured b t v)
    (hb : b.Within b') : s.Assured b' t v :=
  fun b'' hknown hwithin => hv b'' hknown (hb.trans hwithin)

/-- Whether every successful check of a type assures the values of it. -/
def SoundAt (s : Scope) (t : Ty) : Prop :=
  ∀ (locus : Locus) (values : List Value) (b b' : Bindings), s.Known b →
    (satisfy s t locus values b).Succeeds b' →
    s.Known b' ∧ b.Within b' ∧ ∀ v ∈ values, s.Assured b' t v

theorem assured_satisfyParams {ts : List Ty} (hts : ∀ t ∈ ts, s.SoundAt t)
    {held : Nat → List Value} {i : Nat} {locus : Locus} {b b' : Bindings}
    (hb : s.Known b) (hs : (satisfyParams s held i ts locus b).Succeeds b') :
    s.Known b' ∧ b.Within b' ∧
      ∀ (j : Nat) (t : Ty), ts[j]? = some t → ∀ v ∈ held (i + j), s.Assured b' t v := by
  induction ts generalizing i b with
  | nil =>
      rw [succeeds_satisfyParams_nil] at hs
      subst hs
      exact ⟨hb, .refl b', nofun⟩
  | cons t ts ih =>
      rw [List.forall_mem_cons] at hts
      obtain ⟨b₁, hhead, htail⟩ := succeeds_satisfyParams_cons.1 hs
      obtain ⟨hb₁, hwithin₁, hassured₁⟩ := hts.1 _ _ _ _ hb hhead
      obtain ⟨hb', hwithin', hassured'⟩ := ih hts.2 hb₁ htail
      refine ⟨hb', hwithin₁.trans hwithin', fun j u hu v hv => ?_⟩
      cases j with
      | zero =>
          cases hu
          exact (hassured₁ v hv).later hwithin'
      | succ j => exact hassured' j u hu v (by rwa [Nat.add_right_comm])

theorem assured_satisfyFields {fields : List (String × Ty)}
    (hfs : ∀ f ∈ fields, s.SoundAt f.2) {values : List Value} {locus : Locus}
    {b b' : Bindings} (hb : s.Known b)
    (hs : (satisfyFields s values fields locus b).Succeeds b') :
    s.Known b' ∧ b.Within b' ∧ ∀ v ∈ values, ∀ f ∈ fields,
      ∃ x, v.field? s.heap f.1 = some x ∧ s.Assured b' f.2 x := by
  induction fields generalizing b with
  | nil =>
      rw [succeeds_satisfyFields_nil] at hs
      subst hs
      exact ⟨hb, .refl b', nofun⟩
  | cons f fields ih =>
      rw [List.forall_mem_cons] at hfs
      obtain ⟨hall, b₁, hhead, htail⟩ := succeeds_satisfyFields_cons.1 hs
      obtain ⟨hb₁, hwithin₁, hassured₁⟩ := hfs.1 _ _ _ _ hb hhead
      obtain ⟨hb', hwithin', hassured'⟩ := ih hfs.2 hb₁ htail
      refine ⟨hb', hwithin₁.trans hwithin', fun v hv => List.forall_mem_cons.2 ⟨?_, hassured' v hv⟩⟩
      obtain ⟨x, hx⟩ := Option.isSome_iff_exists.1 (hall v hv)
      refine ⟨x, hx, (hassured₁ x ?_).later hwithin'⟩
      exact List.mem_map.2 ⟨v, hv, by rw [Value.field, hx]; rfl⟩

/-- A check of a type whose variables are plain assures the values of it, and keeps the
invariant. -/
theorem soundAt_of_isPlain (henv : OpenEnvironment s.env)
    (htags : TagsApart s.env s.heap) {t : Ty} (ht : t.isPlain = true) :
    s.SoundAt t := by
  induction t with
  | con c supers params _ ih =>
      intro locus values b b' hb hs
      rw [Ty.isPlain, Ty.allPlain_iff] at ht
      rw [succeeds_satisfy_con] at hs
      obtain ⟨hchain, hs⟩ := hs
      obtain ⟨hb', hwithin, hheld⟩ := assured_satisfyParams (fun p hp => ih p hp (ht p hp)) hb hs
      refine ⟨hb', hwithin, fun v hv b'' hknown hlater σ hσ => ?_⟩
      rw [Ty.subst, Ty.substAll_eq_map, Ty.isMember_con]
      refine ⟨Ty.testChain_con params _ ▸ hchain v hv, fun i p hp x hx => ?_⟩
      rw [List.getElem?_map, Option.map_eq_some_iff] at hp
      obtain ⟨p, hp, rfl⟩ := hp
      refine hheld i p hp x ?_ b'' hknown hlater σ hσ
      exact List.mem_flatMap.2 ⟨v, hv, by rwa [Nat.zero_add]⟩
  | record r supers fields _ ih =>
      intro locus values b b' hb hs
      rw [Ty.isPlain, Ty.fieldsPlain_iff] at ht
      rw [succeeds_satisfy_record] at hs
      obtain ⟨hchain, hs⟩ := hs
      obtain ⟨hb', hwithin, hheld⟩ := assured_satisfyFields (fun f hf => ih f hf (ht f hf)) hb hs
      refine ⟨hb', hwithin, fun v hv b'' hknown hlater σ hσ => ?_⟩
      rw [Ty.subst, Ty.substFields_eq_map, Ty.isMember_record]
      refine ⟨Ty.testChain_record fields _ ▸ hchain v hv, fun g hg => ?_⟩
      obtain ⟨f, hf, rfl⟩ := List.mem_map.1 hg
      obtain ⟨x, hx, hassured⟩ := hheld v hv f hf
      exact ⟨x, hx, hassured b'' hknown hlater σ hσ⟩
  | var name params =>
      intro locus values b b' hb hs
      rw [Ty.isPlain, List.isEmpty_iff] at ht
      subst ht
      obtain ⟨b₁, hs, hnil⟩ := succeeds_satisfy_var.1 hs
      rw [succeeds_satisfyParams_nil] at hnil
      subst hnil
      obtain ⟨hb', hwithin, hobserved⟩ := known_satisfyVariable henv htags hb hs
      refine ⟨hb', hwithin, fun v hv b'' hknown hlater σ hσ => ?_⟩
      -- later bindings still remember the value, so all they leave for the variable has settled it
      have hv'' := hlater name v (hobserved v hv)
      obtain ⟨types, htypes⟩ := Bindings.types_of_observed hv''
      have hsettled := ((hknown.types name types htypes).2 _ (hσ name types htypes)).2 v hv''
      rw [Ty.subst]
      exact hsettled.1
  | _ =>
      intro locus values b b' hb hs
      rw [succeeds_satisfy_leaf rfl] at hs
      obtain ⟨hchain, rfl⟩ := hs
      exact ⟨hb, .refl b', fun v hv _ _ _ σ _ => Ty.isMember_subst_leaf rfl (hchain v hv)⟩

end Scope

end DynamicTypes
