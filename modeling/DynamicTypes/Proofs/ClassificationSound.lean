import DynamicTypes.Proofs.OpenEnvironment

/-!
# Classification is sound

Every consistent type that comes out of classification has the classified values
as members. Membership is too weak to be proved by induction: all values are
members of the unknown type, and an unknown parameter that is filled later on
would have to be right about values that were accepted without a look. `Fits` is
what the classifier really establishes. It asks that nothing be held where a
parameter is unknown, and so it survives when types say more.
-/

namespace DynamicTypes

variable {env : List Ty} {h : Heap}

/-- Membership with nothing left open: a value holds nothing where a parameter is
unknown. -/
inductive Fits (h : Heap) : Ty → Value → Prop where
  | con {c : Constructor} {supers params : List Ty} {v : Value}
      (chain : (Ty.con c supers params).testChain h v = true)
      (held : ∀ (i : Nat) (p : Ty), params[i]? = some p → ∀ x ∈ c.held i h v, Fits h p x) :
      Fits h (.con c supers params) v
  | enumeration {e : Enumeration} {v : Value} (mem : (Ty.enumeration e).isMember h v = true) :
      Fits h (.enumeration e) v
  | record {r : RecordName} {supers : List Ty} {fields : List (String × Ty)} {v : Value}
      (mem : (Ty.record r supers fields).isMember h v = true) : Fits h (.record r supers fields) v

/-- The chain of an applied constructor does not depend on its parameters. -/
theorem Ty.testChain_con {c : Constructor} {supers : List Ty} (ps qs : List Ty)
    {v : Value} :
    (con c supers ps).testChain h v = (con c supers qs).testChain h v := by
  rw [testChain, testChain]

theorem Ty.testChain_record {r : RecordName} {supers : List Ty}
    (fs gs : List (String × Ty)) {v : Value} :
    (record r supers fs).testChain h v = (record r supers gs).testChain h v := by
  rw [testChain, testChain]

namespace Fits

theorem ne_unknown {t : Ty} {v : Value} (ht : Fits h t v) : t ≠ .unknown := by
  rintro rfl
  cases ht

theorem isMember {t : Ty} {v : Value} (ht : Fits h t v) : t.isMember h v = true := by
  induction ht with
  | con chain _ ih => exact Ty.isMember_con.2 ⟨chain, ih⟩
  | enumeration mem => exact mem
  | record mem => exact mem

/-- A value that fits a type fits every type that says more. -/
theorem mono (henv : OpenEnvironment env) (htags : TagsApart env h) {t u : Ty}
    {v : Value} (hfits : Fits h t v) (ht : Arises env h t) (hu : Arises env h u)
    (hle : t ≤ u) :
    Fits h u v := by
  induction hfits generalizing u with
  | @con c supers ps v chain held ih =>
      obtain ⟨d, supers', qs, rfl, hname, hpq⟩ := Ty.eq_con_of_le hle
      obtain ⟨rfl, rfl⟩ := Arises.con_ext henv htags ht hu hname hpq.length_eq
      refine .con (Ty.testChain_con ps qs ▸ chain) fun i q hq x hx => ?_
      obtain ⟨hlen, hall⟩ := forall₂_iff_getElem?.1 hpq
      have hi : i < ps.length := hlen ▸ (List.getElem?_eq_some_iff.1 hq).1
      have hp := List.getElem?_eq_getElem hi
      exact ih i _ hp x hx (ht.param (List.mem_of_getElem? hp)) (hu.param (List.mem_of_getElem? hq))
        (hall i _ q hp hq)
  | @enumeration e v mem =>
      cases u <;> try cases hle
      rename_i f
      cases ht with
      | enumeration hmem =>
          cases hu with
          | enumeration hmem' =>
              have := henv.eq_of_name hmem hmem' (congrArg some (Ty.beq_enumeration.1 hle).1)
              cases this
              exact .enumeration mem
  | @record r supers fields v mem =>
      cases u <;> try cases hle
      cases ht with
      | record hmem =>
          cases hu with
          | record hmem' =>
              have := henv.eq_of_name hmem hmem' (Ty.beq_record.1 hle).1
              cases this
              exact .record mem

/-- A value that fits a type is a member of every type that says less. -/
theorem isMember_of_le (henv : OpenEnvironment env) (htags : TagsApart env h) {t u : Ty}
    {v : Value} (hfits : Fits h u v) (ht : Arises env h t) (hu : Arises env h u)
    (hle : t ≤ u) :
    t.isMember h v = true := by
  induction hfits generalizing t with
  | @con c supers qs v chain _ ih =>
      cases t <;> try cases hle
      · rfl
      · next d supers' ps =>
          obtain ⟨hname, hpq⟩ := Ty.con_le_con.1 hle
          obtain ⟨rfl, rfl⟩ := Arises.con_ext henv htags ht hu hname hpq.length_eq
          refine Ty.isMember_con.2 ⟨Ty.testChain_con ps qs ▸ chain, fun i p hp x hx => ?_⟩
          obtain ⟨hlen, hall⟩ := forall₂_iff_getElem?.1 hpq
          have hi : i < qs.length := hlen ▸ (List.getElem?_eq_some_iff.1 hp).1
          have hq := List.getElem?_eq_getElem hi
          exact ih i _ hq x hx (ht.param (List.mem_of_getElem? hp))
            (hu.param (List.mem_of_getElem? hq)) (hall i p _ hp hq)
  | @enumeration e v mem =>
      cases t <;> try cases hle
      · rfl
      · cases ht with
        | enumeration hmem =>
            cases hu with
            | enumeration hmem' =>
                cases henv.eq_of_name hmem hmem' (congrArg some (Ty.beq_enumeration.1 hle).1)
                exact mem
  | @record r supers fields v mem =>
      cases t <;> try cases hle
      · rfl
      · cases ht with
        | record hmem =>
            cases hu with
            | record hmem' =>
                cases henv.eq_of_name hmem hmem' (Ty.beq_record.1 hle).1
                exact mem

end Fits

namespace Classification

/-- Whether every type among the answers arises, and fits the value if it is
consistent. -/
def Sound (env : List Ty) (h : Heap) (types : List Ty) (v : Value) : Prop :=
  ∀ t ∈ types, Arises env h t ∧ (t.isConsistent = true → Fits h t v)

/-- The type of a tag that values share arises, and they fit it. -/
theorem sound_foreign (env : List Ty) {values : List Value} {tag : String}
    (htag : commonTag? h values = some tag) :
    Arises env h (.foreign tag) ∧ ∀ v ∈ values, Fits h (.foreign tag) v := by
  cases values with
  | nil => cases htag
  | cons v vs =>
      rw [commonTag_eq_some] at htag
      refine ⟨?_, fun w hw => .con ?_ (by simp)⟩
      · obtain ⟨object, hobject, htag⟩ := Option.bind_eq_some_iff.1 (htag v (by simp))
        cases v <;> try cases hobject
        exact .foreign _ htag
      · rw [Ty.testChain_iff]
        exact ⟨by simp [Ty.supertypes], beq_iff_eq.2 (htag w hw)⟩

/-- If each value is classified soundly, then so are several together. -/
theorem sound_determineBy (henv : OpenEnvironment env) (htags : TagsApart env h)
    {classify : Value → List Ty} (hc : ∀ v, Sound env h (classify v) v)
    (values : List Value) :
    ∀ t ∈ determineBy h env classify values,
      Arises env h t ∧ (t.isConsistent = true → ∀ v ∈ values, Fits h t v) := by
  cases values with
  | nil =>
      intro t ht
      cases List.mem_singleton.1 ht
      exact ⟨.unknown, fun _ v hv => nomatch hv⟩
  | cons v vs =>
      rcases determineBy_cases h env classify v vs with ⟨_, hd⟩ | ⟨_, tag, htag, hd⟩ | ⟨_, _, hd⟩
      · intro m hm
        rw [hd, mem_sort] at hm
        have harises : Arises env h m :=
          common_induction (R := fun t _ => Arises env h t)
            (fun _ _ _ _ _ _ ht hu hm _ => ht.merge hu hm) (fun w _ t ht _ _ => (hc w t ht).1)
            m hm m hm
        refine ⟨harises, fun hcons w hw => ?_⟩
        -- a common type lies above one of each value's own types, and fitting goes upwards
        obtain ⟨t, ht, hle⟩ := exists_le_common.1 ⟨m, hm, le_refl m⟩ w hw
        obtain ⟨harises', hfits⟩ := hc w t ht
        exact (hfits (Ty.isConsistent_of_le hle hcons)).mono henv htags harises' harises hle
      · intro t ht
        rw [hd, List.mem_singleton] at ht
        subst ht
        exact ⟨(sound_foreign env htag).1, fun _ => (sound_foreign env htag).2⟩
      · intro t ht
        rw [hd, List.mem_singleton] at ht
        subst ht
        exact ⟨.inconsistent, nofun⟩

/-- The types of one value arise, and it fits the consistent ones. -/
theorem sound_classify (henv : OpenEnvironment env) (htags : TagsApart env h)
    (depth : Nat) (seen : List Ref) (v : Value) :
    Sound env h (classify h env depth seen v) v := by
  induction depth generalizing seen v with
  | zero => exact fun t ht => nomatch ht
  | succ depth ih =>
      intro t ht
      obtain ⟨e, he, hmember, ht⟩ := mem_classify ht
      rcases henv.mem_expandBy he ht with ⟨c, supers, ps, qs, rfl, rfl, hlen, hqs⟩
        | ⟨⟨en, rfl⟩ | ⟨r, supers, fields, rfl⟩, rfl⟩
      · have hsound := fun i q hq =>
          sound_determineBy henv htags (fun w => ih _ w) _ q (hqs i q hq)
        refine ⟨.con ps he hlen fun q hq => ?_, fun hcons => .con ?_ fun i q hq => ?_⟩
        · obtain ⟨i, hi⟩ := List.getElem?_of_mem hq
          exact (hsound i q hi).1
        · exact Ty.testChain_con ps qs ▸ (Ty.isMember_iff.1 hmember).1
        · rw [Ty.isConsistent, Ty.allConsistent_iff] at hcons
          exact (hsound i q hq).2 (hcons q (List.mem_of_getElem? hq))
      · exact ⟨.enumeration he, fun _ => .enumeration hmember⟩
      · exact ⟨.record he, fun _ => .record hmember⟩

/-! ## The types of values -/

theorem fits_of_mem_strict (henv : OpenEnvironment env) (htags : TagsApart env h)
    {values : List Value} {t : Ty} (ht : t ∈ strict h env values) :
    Arises env h t ∧ ∀ v ∈ values, Fits h t v := by
  obtain ⟨ht, hcons⟩ := List.mem_filter.1 ht
  have hsound :=
    sound_determineBy henv htags (sound_classify henv htags (h.size + 2) []) values t ht
  exact ⟨hsound.1, hsound.2 hcons⟩

/-- An entry without parameters is found for each of its members. -/
theorem exists_mem_classify {e : Ty} (he : e ∈ env) (hp : e.params = []) {v : Value}
    (hv : e.isMember h v = true) (depth : Nat) :
    ∃ t ∈ classify h env (depth + 1) [] v, (e == t) = true := by
  rw [classify, if_neg (by cases v.identity? <;> simp)]
  refine Ty.exists_mem_unique (List.mem_flatMap.2 ⟨e, List.mem_filter.2 ⟨he, hv⟩, ?_⟩)
  rw [expandBy_of_params hp]
  exact List.mem_singleton_self e

theorem beq_of_le_of_params_nil {t e : Ty} (hp : e.params = []) (ht : t ≠ .unknown)
    (hle : t ≤ e) :
    (t == e) = true := by
  cases t with
  | unknown => exact absurd rfl ht
  | con c ss ps =>
      obtain ⟨d, ss', qs, rfl, hcd, hpq⟩ := Ty.eq_con_of_le hle
      obtain rfl : qs = [] := hp
      cases hpq
      exact Ty.beq_con.2 ⟨hcd, .nil⟩
  | var a ps =>
      obtain ⟨qs, rfl, hpq⟩ := Ty.eq_var_of_le hle
      obtain rfl : qs = [] := hp
      cases hpq
      exact BEq.rfl
  | inconsistent | noArguments | any | enumeration | record | function => exact hle

/-- An entry without parameters is among the types of values that are all members of
it. -/
theorem exists_mem_strict (henv : OpenEnvironment env) (htags : TagsApart env h)
    {values : List Value} (hne : values ≠ []) {e : Ty} (he : e ∈ env)
    (hp : e.params = []) (hall : ∀ v ∈ values, e.isMember h v = true) :
    ∃ t ∈ strict h env values, (t == e) = true := by
  obtain ⟨v, vs, rfl⟩ := List.exists_cons_of_ne_nil hne
  have hbelow : ∀ w ∈ v :: vs, ∃ t ∈ classify h env (h.size + 2) [] w, t ≤ e := by
    intro w hw
    obtain ⟨t, ht, heq⟩ := exists_mem_classify he hp (hall w hw) (h.size + 1)
    exact ⟨t, ht, Ty.le_of_beq (BEq.symm heq)⟩
  obtain ⟨m, hm, hle⟩ := exists_le_common.2 hbelow
  have hcons : e.isConsistent = true := by
    have hopen := henv.isOpen e he
    cases e with
    | con c supers params =>
        obtain rfl : params = [] := hp
        rfl
    | enumeration | record => rfl
    | _ => cases hopen
  have hmem : m ∈ strict h env (v :: vs) := by
    refine List.mem_filter.2 ⟨?_, Ty.isConsistent_of_le hle hcons⟩
    rw [determine, determineBy_eq, if_neg (List.ne_nil_of_mem hm), mem_sort]
    exact hm
  have hfits := (fits_of_mem_strict henv htags hmem).2 v (by simp)
  exact ⟨m, hmem, beq_of_le_of_params_nil hp hfits.ne_unknown hle⟩

/-- Over an open environment every type that values are found to have in common has all
of them as members, cyclic values and shared ones included. An entry without parameters
is found whenever all of them are members of it. -/
theorem isMember_of_mem_strict (henv : OpenEnvironment env) (htags : TagsApart env h)
    {values : List Value} (hne : values ≠ []) :
    (∀ t ∈ strict h env values, ∀ v ∈ values, t.isMember h v = true) ∧
    ∀ e ∈ env, e.params = [] → (∀ v ∈ values, e.isMember h v = true) →
      ∃ t ∈ strict h env values, (t == e) = true := by
  refine ⟨fun t ht v hv => ?_, fun e he hp hall => exists_mem_strict henv htags hne he hp hall⟩
  exact ((fits_of_mem_strict henv htags ht).2 v hv).isMember

/-- Holds an object that is its own field, an array of it twice, and an empty array. -/
def selfHolding : Heap :=
  ⟨#[[.object 0, .object 0], []], #[⟨none, none, .ofList [("self", .object 0)]⟩]⟩

/-- What the object holds has no type of its own, so it is no map, but it is an object
all the same. -/
theorem isMember_of_mem_strict_cyclic :
    OpenEnvironment Builtin.environment ∧ TagsApart Builtin.environment selfHolding ∧
    (strict selfHolding Builtin.environment [.array 0, .array 1]).map Ty.format = ["Array Object"] ∧
    ∀ t ∈ strict selfHolding Builtin.environment [.array 0, .array 1],
      ∀ v ∈ [Value.array 0, .array 1], t.isMember selfHolding v = true := by
  have htags : TagsApart Builtin.environment selfHolding := by
    intro c supers _ o
    rcases o with _ | o <;> simp [Heap.object, selfHolding]
  exact ⟨openEnvironment_builtin, htags, by decide +kernel,
    (isMember_of_mem_strict openEnvironment_builtin htags (by simp)).1⟩

end Classification

end DynamicTypes
