import DynamicTypes.Proofs.CheckLogic
import DynamicTypes.Proofs.ClassificationSound
import DynamicTypes.Proofs.Execution

/-!
# What is known of a variable only narrows

A check asks more of a variable and never less, whether it passes or fails. Once the
variable is bound, each type that it may still stand for comes from one that it
might stand for before, with some of the parameters that were unknown filled in, and
the values seen for it are kept where they were seen. So a variable for which no type
is left stays that way, and the type that unknown tags make for themselves is never
made late.

`NarrowsTo` compares what is known before and after. A check of a type makes such a
step because the checks of its variables do, and effects on a world do because the
only effect that touches a session is a check.
-/

namespace DynamicTypes

/-! ## Filling unknown parameters -/

namespace Ty

variable {t u : Ty}

/-- Whether a type is another one with some of its unknown parameters filled in. -/
def InstanceOf (u t : Ty) : Prop :=
  ∃ qs, u = t.withParams qs ∧ List.Forall₂ (fun p q => p = unknown ∨ q = p) t.params qs

theorem withParams_params (t : Ty) : t.withParams t.params = t := by
  cases t <;> simp [withParams, params]

theorem params_withParams {qs : List Ty} (hlen : qs.length = t.params.length) :
    (t.withParams qs).params = qs := by
  have htake : qs.take t.params.length = qs := List.take_of_length_le (Nat.le_of_eq hlen)
  cases t <;> simp_all [withParams, params]

theorem withParams_withParams {qs rs : List Ty} (hqs : qs.length = t.params.length)
    (hrs : rs.length = t.params.length) :
    (t.withParams qs).withParams rs = t.withParams rs := by
  cases t <;> simp_all [withParams, params]

theorem InstanceOf.refl (t : Ty) : t.InstanceOf t :=
  ⟨t.params, t.withParams_params.symm, List.forall₂_same.2 fun _ _ => .inr rfl⟩

theorem InstanceOf.trans {v : Ty} (hv : v.InstanceOf u) (hu : u.InstanceOf t) :
    v.InstanceOf t := by
  obtain ⟨qs, rfl, hqs⟩ := hu
  obtain ⟨rs, rfl, hrs⟩ := hv
  rw [params_withParams hqs.length_eq.symm] at hrs
  have hlen : rs.length = t.params.length := (hqs.length_eq.trans hrs.length_eq).symm
  refine ⟨rs, withParams_withParams hqs.length_eq.symm hlen, ?_⟩
  refine forall₂_comp hqs hrs fun p _ q r hpq hqr => ?_
  rcases hpq with hp | rfl
  · exact .inl hp
  · exact hqr

/-- A type without parameters has no other instance. -/
theorem InstanceOf.eq_of_params (hu : u.InstanceOf t) (ht : t.params = []) : u = t := by
  obtain ⟨qs, rfl, hqs⟩ := hu
  rw [ht, List.forall₂_nil_left_iff] at hqs
  rw [hqs, ← ht, withParams_params]

/-- The members of an instance are members of the type itself. -/
theorem InstanceOf.isMember {h : Heap} {v : Value} (hu : u.InstanceOf t)
    (hv : u.isMember h v = true) : t.isMember h v = true := by
  cases t with
  | con c supers ps =>
      obtain ⟨qs, rfl, hqs⟩ := hu
      obtain ⟨hlen, hall⟩ := forall₂_iff_getElem?.1 hqs
      have hcon : (con c supers ps).withParams qs = con c supers qs := withParams_con hlen.symm
      rw [hcon, isMember_con] at hv
      refine isMember_con.2 ⟨testChain_con qs ps ▸ hv.1, fun i p hp x hx => ?_⟩
      have hi : i < qs.length := hlen ▸ (List.getElem?_eq_some_iff.1 hp).1
      have hq := List.getElem?_eq_getElem hi
      rcases hall i p _ hp hq with rfl | heq
      · simp [Ty.isMember, violation?, testChain, test]
      · exact heq ▸ hv.2 i _ hq x hx
  | var name ps => simp [Ty.isMember, violation?, testChain, test]
  | _ => rwa [← hu.eq_of_params rfl]

end Ty

/-- What a value tells about the open parameters of a type makes an instance of it. -/
theorem Classification.instanceOf_of_mem_expandBy {h : Heap}
    {determine : List Value → List Ty} {keep : Nat} {t u : Ty} {v : Value}
    (hu : u ∈ expandBy h determine keep t v) :
    u.InstanceOf t := by
  obtain ⟨qs, hqs, rfl⟩ := List.mem_map.1 hu
  obtain ⟨hlen, hall⟩ := forall₂_iff_getElem?.1 (Ty.mem_choices.1 hqs)
  rw [List.length_map, List.length_zipIdx] at hlen
  refine ⟨qs, rfl, forall₂_iff_getElem?.2 ⟨hlen.symm, fun i p q hp hq => ?_⟩⟩
  have hmem := hall i q _ hq (by rw [List.getElem?_map, List.getElem?_zipIdx, hp]; rfl)
  simp only at hmem
  split at hmem
  · next hopen => exact .inl (Ty.isUnknown_iff.1 (Bool.and_eq_true_iff.1 hopen).2)
  · exact .inr (List.mem_singleton.1 hmem)

namespace Scope

variable {s : Scope} {arity : Nat} {types : List Ty} {u : Ty}

theorem instanceOf_of_mem_refine {v : Value} (hu : u ∈ s.refine arity types v) :
    ∃ t ∈ types, u.InstanceOf t := by
  obtain ⟨t, ht, hu⟩ := List.mem_flatMap.1 (Ty.mem_of_mem_unique hu)
  exact ⟨t, (List.mem_filter.1 ht).1,
    Classification.instanceOf_of_mem_expandBy (List.mem_filter.1 hu).1⟩

theorem instanceOf_of_mem_foldl_refine {values : List Value}
    (hu : u ∈ values.foldl (s.refine arity) types) : ∃ t ∈ types, u.InstanceOf t := by
  induction values generalizing types with
  | nil => exact ⟨u, hu, .refl u⟩
  | cons v values ih =>
      obtain ⟨t, ht, hut⟩ := ih hu
      obtain ⟨r, hr, htr⟩ := instanceOf_of_mem_refine ht
      exact ⟨r, hr, hut.trans htr⟩

/-- A variable that is bound already is narrowed and nothing else. -/
theorem narrowed_of_bound {name : String} {b : Bindings}
    (hbound : b.types? name = some types) (values : List Value) :
    s.narrowed name arity values b = values.foldl (s.refine arity) types := by
  have hcontains : b.contains name = true := by rw [Bindings.contains_eq, hbound]; rfl
  simp [narrowed, hbound, hcontains]

theorem instanceOf_of_mem_narrowed {name : String} {values : List Value} {b : Bindings}
    (hbound : b.types? name = some types) (hu : u ∈ s.narrowed name arity values b) :
    ∃ t ∈ types, u.InstanceOf t := by
  rw [narrowed_of_bound hbound] at hu
  exact instanceOf_of_mem_foldl_refine hu

end Scope

/-! ## What is known before and after -/

/-- Whether what is known of a variable says no less than what was known before. -/
structure Binding.NarrowsTo (x y : Binding) : Prop where
  types : ∀ u ∈ y.types, ∃ t ∈ x.types, u.InstanceOf t
  seen : ∀ (locus : Locus) (values : List Value), x.observations.find? locus = some values →
    ∃ values', y.observations.find? locus = some values' ∧ values <+: values'

theorem Binding.NarrowsTo.refl (x : Binding) : x.NarrowsTo x where
  types u hu := ⟨u, hu, .refl u⟩
  seen _ values hvalues := ⟨values, hvalues, List.prefix_rfl⟩

theorem Binding.NarrowsTo.trans {x y z : Binding} (hxy : x.NarrowsTo y)
    (hyz : y.NarrowsTo z) :
    x.NarrowsTo z where
  types u hu := by
    obtain ⟨t, ht, hut⟩ := hyz.types u hu
    obtain ⟨r, hr, htr⟩ := hxy.types t ht
    exact ⟨r, hr, hut.trans htr⟩
  seen locus values hvalues := by
    obtain ⟨values', hvalues', hprefix⟩ := hxy.seen locus values hvalues
    obtain ⟨values'', hvalues'', hprefix'⟩ := hyz.seen locus values' hvalues'
    exact ⟨values'', hvalues'', hprefix.trans hprefix'⟩

namespace Bindings

variable {b b' : Bindings} {name : String}

/-- Whether every variable that was bound is bound still, and what is known of it says
no less. -/
def NarrowsTo (b b' : Bindings) : Prop :=
  ∀ (name : String) (x : Binding), b.find? name = some x →
    ∃ y, b'.find? name = some y ∧ x.NarrowsTo y

theorem NarrowsTo.refl (b : Bindings) : b.NarrowsTo b := fun _ x hx => ⟨x, hx, .refl x⟩

theorem NarrowsTo.trans {b'' : Bindings} (hb : b.NarrowsTo b')
    (hb' : b'.NarrowsTo b'') :
    b.NarrowsTo b'' := by
  intro name x hx
  obtain ⟨y, hy, hxy⟩ := hb name x hx
  obtain ⟨z, hz, hyz⟩ := hb' name y hy
  exact ⟨z, hz, hxy.trans hyz⟩

theorem narrowsTo_empty (b : Bindings) : NarrowsTo ∅ b := fun _ _ hx => nomatch hx

theorem narrowsTo_observe (b : Bindings) (name : String) (locus : Locus)
    (values : List Value) :
    b.NarrowsTo (b.observe name locus values) := by
  intro other x hx
  rw [observe, SortedMap.find?_insert]
  split
  · next heq =>
      subst heq
      rw [hx]
      refine ⟨_, rfl, fun u hu => ⟨u, hu, .refl u⟩, fun place earlier hearlier => ?_⟩
      simp only [Option.getD_some, SortedMap.find?_insert]
      split
      · next heq =>
          rw [heq, hearlier]
          exact ⟨_, rfl, List.prefix_append earlier values⟩
      · exact ⟨earlier, hearlier, List.prefix_rfl⟩
  · exact ⟨x, hx, .refl x⟩

/-- Other types for a variable, which are to come from the earlier ones if it was bound
before. -/
theorem NarrowsTo.bind {types : List Ty} (hb : b.NarrowsTo b')
    (htypes : ∀ earlier, b.types? name = some earlier →
      ∀ u ∈ types, ∃ t ∈ earlier, u.InstanceOf t) : b.NarrowsTo (b'.bind name types) := by
  intro other x hx
  obtain ⟨y, hy, hxy⟩ := hb other x hx
  rw [Bindings.bind, SortedMap.find?_insert]
  split
  · next heq =>
      subst heq
      rw [hy]
      exact ⟨_, rfl, htypes x.types (Option.map_eq_some_iff.2 ⟨x, hx, rfl⟩), hxy.seen⟩
  · exact ⟨y, hy, hxy⟩

end Bindings

/-! ## Checks -/

namespace Scope

variable {s : Scope}

theorem maintains_narrowsTo (b : Bindings) (t : Ty) :
    s.Maintains b.NarrowsTo (fun _ => b.NarrowsTo) t := by
  refine maintains_of_occurrences (fun _ _ _ _ hb => hb) fun name params _ hparams => ?_
  refine maintains_var (fun locus values b' hb' => ?_) hparams
  have hobserved := hb'.trans (b'.narrowsTo_observe name locus values)
  refine meets_satisfyVariable (fun _ _ _ => hb') (fun _ => hb') (fun _ _ _ _ => hobserved)
    (fun _ _ => hobserved) fun _ _ => ?_
  refine hb'.trans ((b'.narrowsTo_observe name locus values).bind fun earlier hbound u hu => ?_)
  exact instanceOf_of_mem_narrowed hbound hu

/-- A check narrows what is known, whether it passes or fails. -/
theorem narrowsTo_satisfy (t : Ty) (locus : Locus) (values : List Value)
    (b : Bindings) :
    b.NarrowsTo (s.satisfy t locus values b).bindings := by
  obtain ⟨hpassed, hfailed⟩ := maintains_narrowsTo (s := s) b t locus values b (.refl b)
  cases hf : (s.satisfy t locus values b).failure? with
  | none => exact hpassed hf
  | some f => exact hfailed f hf

end Scope

/-! ## Runs -/

namespace Session

variable {access : World.Access} {w w' : World}

theorem narrowsTo_effect (s : Session) (heffect : World.Effect access.may w w') :
    (s.bindings w).NarrowsTo (s.bindings w') := by
  rcases heffect.bindings s with hsame | ⟨hnothing, _⟩ | ⟨s', t, locus, v, _, _, hchecked⟩
  · rw [hsame]
    exact .refl _
  · rw [hnothing]
    exact Bindings.narrowsTo_empty _
  · rw [hchecked]
    exact Scope.narrowsTo_satisfy t locus [v] _

theorem narrowsTo_run (s : Session) (hrun : World.Run access w w') :
    (s.bindings w).NarrowsTo (s.bindings w') := by
  induction hrun with
  | refl => exact .refl _
  | tail _ heffect ih => exact ih.trans (s.narrowsTo_effect heffect)

/-- Whatever is done, in whatever order, and whether it ends in a result or a failure: a
variable that a session has bound stays bound; each of its later types is an instance of
an earlier one, whose members therefore include those of the later type, in any heap; if
there was no type left, there is none later; and the values seen at each position are
those seen before, and then more.

Every check classifies within `h.size + 2` levels of the heap that it finds. If types of
the environment find values that the heap does not hold, so that `Ty.YieldsWithin`
fails, then a value below the last level has no types and may leave a variable with
none, where a classification without a bound would go on. -/
theorem types_narrow (s : Session) (hlater : World.Later (.since 0) w w')
    {name : String} {types : List Ty}
    (hbound : (s.bindings w).types? name = some types) :
    ∃ types', (s.bindings w').types? name = some types' ∧
      (∀ u ∈ types', ∃ t ∈ types, u.InstanceOf t ∧
        ∀ (h : Heap) (v : Value), u.isMember h v = true → t.isMember h v = true) ∧
      (types = [] → types' = []) ∧
      ∀ p ∈ (s.bindings w).observations name,
        ∃ values, (p.1, values) ∈ (s.bindings w').observations name ∧ p.2 <+: values := by
  have hnarrows := s.narrowsTo_run (hlater.run (Nat.zero_le _))
  obtain ⟨x, hx, rfl⟩ := Option.map_eq_some_iff.1 hbound
  obtain ⟨y, hy, hxy⟩ := hnarrows name x hx
  refine ⟨y.types, Option.map_eq_some_iff.2 ⟨y, hy, rfl⟩, fun u hu => ?_, fun hnil => ?_,
    fun p hp => ?_⟩
  · obtain ⟨t, ht, hut⟩ := hxy.types u hu
    exact ⟨t, ht, hut, fun h v hv => hut.isMember hv⟩
  · refine List.eq_nil_iff_forall_not_mem.2 fun u hu => ?_
    obtain ⟨t, ht, _⟩ := hxy.types u hu
    rw [hnil] at ht
    cases ht
  · rw [Bindings.observations, hx] at hp
    obtain ⟨values, hvalues, hprefix⟩ := hxy.seen p.1 p.2 (SortedMap.find?_eq_some_iff.2 hp)
    refine ⟨values, ?_, hprefix⟩
    rw [Bindings.observations, hy]
    exact SortedMap.find?_eq_some_iff.1 hvalues

/-- A variable that has taken the empty array takes `[true]`, which narrows it to arrays
of booleans, and then refuses null, which leaves its types as they are. -/
theorem types_narrow_arrays :
    ∃ (s : Session) (w w' : World) (types : List Ty),
      (s.bindings w).types? "a" = some [Builtin.array .unknown] ∧
      (s.bindings w).observations "a" = [(.root 0, [.array 0])] ∧ World.Later (.since 0) w w' ∧
      (s.bindings w').types? "a" = some types ∧ types.map Ty.format = ["Array Boolean"] ∧
      (∀ u ∈ types, ∀ (h : Heap) (v : Value), u.isMember h v = true →
        (Builtin.array .unknown).isMember h v = true) ∧
      ∃ values, (.root 0, values) ∈ (s.bindings w').observations "a" ∧ [.array 0] <+: values := by
  let env : List Ty := [Builtin.array .unknown, Builtin.boolean, Builtin.null]
  let s : Session := ⟨⟨"put", ∅, [.var "a" [], .var "a" []], .any, by decide⟩, env, 0⟩
  let known : Bindings := .ofList
    [("a", ⟨[Builtin.array .unknown], .ofList [(.root 0, [.array 0])]⟩)]
  let w : World := ⟨⟨#[[], [.bool true]], #[]⟩, #[], #[⟨known, none⟩], ∅⟩
  have hbound : (s.bindings w).types? "a" = some [Builtin.array .unknown] := rfl
  have hobserved : (s.bindings w).observations "a" = [(.root 0, [.array 0])] := rfl
  obtain ⟨w', hlater, htext⟩ : ∃ w', World.Later (.since 0) w w' ∧
      ((s.bindings w').types? "a").map (·.map Ty.format) = some ["Array Boolean"] := by
    have hopen : World.Open (World.Access.since 0).may w s := ⟨Nat.zero_le _, by decide⟩
    have hpassed : World.Event (.since 0) w _ :=
      .argument s hopen 1 (.array 1) (leaves_conclude.2 rfl)
    have hfailed : World.Event (.since 0) _ _ :=
      .argument s (hopen.later (hpassed.run (Nat.zero_le _))) 0 .null (leaves_conclude.2 rfl)
    exact ⟨_, .tail (.single hpassed) hfailed, by decide +kernel⟩
  obtain ⟨types, htypes, hinstances, _, hseen⟩ := s.types_narrow hlater hbound
  rw [htypes] at htext
  refine ⟨s, w, w', types, hbound, hobserved, hlater, htypes, Option.some.inj htext, ?_,
    hseen (.root 0, [.array 0]) (hobserved ▸ List.mem_singleton.2 rfl)⟩
  intro u hu
  obtain ⟨t, ht, _, hmember⟩ := hinstances u hu
  rw [List.mem_singleton.1 ht] at hmember
  exact hmember

end Session

end DynamicTypes
