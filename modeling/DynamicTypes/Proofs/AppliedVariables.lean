import DynamicTypes.Proofs.SessionRuns

/-!
# Variables that stand for constructors

In `f a` the variable `f` stands for a constructor. Its candidates are narrowed like
those of a plain variable, except that the last parameter of each stays unknown: what
values hold there is checked against `a`.

Which parts of a value these are depends on the constructor, and while several are
left for `f` the parts are taken by the first of them. A later value may drop that
one, and nobody looks at the earlier values again. So `[null, true]`, taken as a pair,
passes its second item on to `a`, and is then found to be an array, after all, when an
array of another length follows: the null is not a Boolean, and no check has failed.

What does hold is that each value belongs to the constructor that is left, and, with
the type left for `a` in the last place, to *some* constructor of the environment. The
two are brought together where constructors that accept a value agree on its parts.
-/

namespace DynamicTypes

variable {env : List Ty} {h : Heap}

namespace Ty

/-- The type with another type at its last parameter. -/
def withLast (t u : Ty) : Ty := t.withParams (t.params.dropLast ++ [u])

/-- What a value holds at the last parameter of a type. -/
def lastHeld (h : Heap) (t : Ty) (v : Value) : List Value := t.extract h (t.arity - 1) v

theorem isMember_withLast {c : Constructor} {supers ps : List Ty} {u : Ty} {v : Value}
    (hne : ps ≠ []) (hmember : (con c supers ps).isMember h v = true)
    (hlast : ∀ x ∈ (con c supers ps).lastHeld h v, u.isMember h x = true) :
    ((con c supers ps).withLast u).isMember h v = true := by
  have hpos := List.length_pos_iff.2 hne
  have hlen : (ps.dropLast ++ [u]).length = ps.length := by
    rw [List.length_append, List.length_dropLast, List.length_singleton]
    omega
  show ((con c supers ps).withParams (ps.dropLast ++ [u])).isMember h v = true
  rw [withParams_con hlen]
  rw [isMember_con, testChain_con ps (ps.dropLast ++ [u])] at hmember
  refine isMember_con.2 ⟨hmember.1, fun i p hp x hx => ?_⟩
  rcases Nat.lt_or_ge i (ps.length - 1) with hi | hi
  · rw [List.getElem?_append_left (by rwa [List.length_dropLast]), List.getElem?_dropLast,
      if_pos hi] at hp
    exact hmember.2 i p hp x hx
  · have hi' : i = ps.length - 1 := by
      have := (List.getElem?_eq_some_iff.1 hp).1
      omega
    subst hi'
    rw [List.getElem?_append_right (by rw [List.length_dropLast]), List.length_dropLast,
      Nat.sub_self] at hp
    cases hp
    exact hlast x hx

end Ty

theorem Arises.exists_entry {t : Ty} (ht : Arises env h t) (hpos : 1 ≤ t.arity) :
    ∃ c supers ps entry, t = .con c supers ps ∧ .con c supers entry ∈ env ∧
      ps.length = entry.length ∧ ps ≠ [] := by
  cases t with
  | con c supers ps =>
      have hne : ps ≠ [] := List.length_pos_iff.1 hpos
      rcases ht.con_cases with ⟨_, _, _, heq⟩ | ⟨entry, hmem, hlen, _⟩
      · cases heq
        exact absurd rfl hne
      · exact ⟨c, supers, ps, entry, rfl, hmem, hlen, hne⟩
  | var => cases ht
  | _ => cases hpos

theorem Arises.isMember_withLast {t u : Ty} {v : Value} (ht : Arises env h t)
    (hpos : 1 ≤ t.arity) (hmember : t.isMember h v = true)
    (hlast : ∀ x ∈ t.lastHeld h v, u.isMember h x = true) :
    (t.withLast u).isMember h v = true := by
  obtain ⟨c, supers, ps, _, rfl, _, _, hne⟩ := ht.exists_entry hpos
  exact Ty.isMember_withLast hne hmember hlast

namespace Scope

variable {s : Scope} {f a : String} {b b' : Bindings}

/-! ## One check of an applied variable -/

/-- The parts of a value that an applied variable passes on are those that some entry
finds in it. -/
theorem exists_entry_heldByBound (henv : OpenEnvironment s.env) {types : List Ty}
    (htypes : b.types? f = some types) (hb : s.Settles 1 b f) {values : List Value}
    {v : Value} (hv : v ∈ values) (hobserved : b.Observed f v) :
    ∃ e ∈ s.env, 1 ≤ e.arity ∧ e.isMember s.heap v = true ∧
      ∀ x ∈ e.lastHeld s.heap v, x ∈ s.heldByBound types 1 values 0 := by
  obtain ⟨hne, hsettled⟩ := hb types htypes
  have hchain : ∀ t ∈ types, t.testChain s.heap v = true := by
    intro t ht
    exact (Ty.isMember_iff.1 ((hsettled t ht).2 v hobserved).1).1
  cases hfind : types.find? (·.testChain s.heap v) with
  | none =>
      obtain ⟨t, ht⟩ := List.exists_mem_of_ne_nil types hne
      exact absurd (hchain t ht) (List.find?_eq_none.1 hfind t ht)
  | some t =>
      have ht := List.mem_of_find?_eq_some hfind
      obtain ⟨harises, hopen⟩ := (hsettled t ht).1
      obtain ⟨c, supers, ps, entry, rfl, hmem, hlen, hps⟩ := harises.exists_entry hopen.1
      refine ⟨_, hmem, ?_, ?_, fun x hx => ?_⟩
      · exact hopen.1.trans_eq hlen
      · refine Ty.isMember_con.2 ⟨Ty.testChain_con ps entry ▸ hchain _ ht, fun i p hp x _ => ?_⟩
        rw [henv.eq_unknown hmem (List.mem_of_getElem? hp)]
        rfl
      · refine List.mem_flatMap.2 ⟨v, hv, ?_⟩
        rw [hfind]
        show x ∈ if 1 ≤ ps.length + 0 then c.held (ps.length + 0 - 1) s.heap v else []
        rw [Nat.add_zero, if_pos (show 1 ≤ ps.length from hopen.1), hlen]
        exact hx

/-- What is kept of a variable `f` that is applied to the variable `a`, and of `a`
itself: what each of them settles, and that the parts that some entry finds in a value
of `f` are values of `a`. -/
structure Applied (s : Scope) (f a : String) (b : Bindings) : Prop where
  constructors : s.Settles 1 b f
  parameters : s.Settles 0 b a
  parts : ∀ v, b.Observed f v → ∃ e ∈ s.env, 1 ≤ e.arity ∧ e.isMember s.heap v = true ∧
    ∀ x ∈ e.lastHeld s.heap v, b.Observed a x

theorem applied_empty : s.Applied f a ∅ where
  constructors := fun _ ht => nomatch ht
  parameters := fun _ ht => nomatch ht
  parts := fun _ hv => absurd hv Bindings.not_observed_empty

theorem Applied.check (henv : OpenEnvironment s.env) (htags : TagsApart s.env s.heap)
    (hne : f ≠ a) (hb : s.Applied f a b) {locus : Locus} {values : List Value}
    (hs : (satisfy s (.var f [.var a []]) locus values b).Succeeds b') :
    s.Applied f a b' := by
  obtain ⟨b₁, hf, hs⟩ := succeeds_satisfy_var.1 hs
  obtain ⟨b₂, hs, hnil⟩ := succeeds_satisfyParams_cons.1 hs
  obtain ⟨b₃, ha, hs⟩ := succeeds_satisfy_var.1 hs
  rw [succeeds_satisfyParams_nil] at hnil hs
  subst hnil hs
  have hconstructors := settles_of_succeeds henv htags hf hb.constructors
  refine ⟨settles_other ha hne.symm hconstructors,
    settles_of_succeeds henv htags ha (settles_other hf hne hb.parameters), fun v hv => ?_⟩
  have hv₁ := ((observed_of_succeeds ha).1 hv).resolve_right fun h => hne h.1.symm
  rcases (observed_of_succeeds hf).1 hv₁ with hold | ⟨_, hnew⟩
  · obtain ⟨e, he, hpos, hmember, hparts⟩ := hb.parts v hold
    refine ⟨e, he, hpos, hmember, fun x hx => (observed_of_succeeds ha).2 (.inl ?_)⟩
    exact (observed_of_succeeds hf).2 (.inl (hparts x hx))
  · obtain ⟨types, htypes⟩ := Bindings.types_of_observed hv₁
    obtain ⟨e, he, hpos, hmember, hparts⟩ :=
      exists_entry_heldByBound henv htypes hconstructors hnew hv₁
    refine ⟨e, he, hpos, hmember, fun x hx => (observed_of_succeeds ha).2 (.inr ⟨rfl, ?_⟩)⟩
    rw [htypes]
    exact hparts x hx

theorem Applied.other (henv : OpenEnvironment s.env) (htags : TagsApart s.env s.heap)
    (hb : s.Applied f a b) {name : String} {params : List Ty} (hf : name ≠ f)
    (ha : name = a → params = []) {t : Ty} {locus : Locus} {values : List Value}
    (hs : (s.satisfyVariable t name params.length locus values b).Succeeds b') :
    s.Applied f a b' := by
  refine ⟨settles_other hs hf hb.constructors, ?_, fun v hv => ?_⟩
  · by_cases hname : name = a
    · obtain rfl := ha hname
      subst hname
      exact settles_of_succeeds henv htags hs hb.parameters
    · exact settles_other hs hname hb.parameters
  · have hold := ((observed_of_succeeds hs).1 hv).resolve_right fun h => hf h.1
    obtain ⟨e, he, hpos, hmember, hparts⟩ := hb.parts v hold
    exact ⟨e, he, hpos, hmember, fun x hx => (observed_of_succeeds hs).2 (.inl (hparts x hx))⟩

theorem Applied.isMember_parameter (hb : s.Applied f a b) {T : Ty}
    (hT : ∀ us, b.types? a = some us → T ∈ us) {x : Value} (hx : b.Observed a x) :
    T.isMember s.heap x = true := by
  obtain ⟨us, hus⟩ := Bindings.types_of_observed hx
  exact (((hb.parameters us hus).2 T (hT us hus)).2 x hx).1

theorem maintains_applied (henv : OpenEnvironment s.env)
    (htags : TagsApart s.env s.heap) {t : Ty}
    (hf : ∀ p ∈ t.occurrences, p.1 = f → p.2 = [.var a []])
    (ha : ∀ p ∈ t.occurrences, p.1 = a → p.2 = []) :
    s.Maintains (s.Applied f a) (fun _ _ => True) t := by
  refine maintains_of_occurrences (fun _ _ _ _ _ => trivial) fun name params hp hparams => ?_
  by_cases hname : name = f
  · subst hname
    obtain rfl := hf _ hp rfl
    have hne : name ≠ a := fun heq => nomatch ha _ hp heq
    intro locus values b hb
    exact Verdict.meets_of_succeeds fun b' hs => hb.check henv htags hne hs
  · refine maintains_var (fun locus values b hb => ?_) hparams
    exact Verdict.meets_of_succeeds fun b' hs => hb.other henv htags hname (ha _ hp) hs

/-! ## Values that have been checked are observed -/

theorem maintains_observed {t : Ty} {name : String} {v : Value} :
    s.Maintains (fun b => b.Observed name v) (fun _ _ => True) t := by
  refine maintains_of_occurrences (fun _ _ _ _ _ => trivial) fun other params _ hparams => ?_
  refine maintains_var (fun locus values b hb => ?_) hparams
  exact Verdict.meets_of_succeeds fun b' hs => (observed_of_succeeds hs).2 (.inl hb)

theorem observed_satisfy_var {name : String} {params : List Ty} {locus : Locus}
    {values : List Value}
    (hs : (satisfy s (.var name params) locus values b).Succeeds b') {v : Value}
    (hv : v ∈ values) :
    b'.Observed name v := by
  obtain ⟨b₁, hs, hparams⟩ := succeeds_satisfy_var.1 hs
  have hb₁ : b₁.Observed name v := (observed_of_succeeds hs).2 (.inr ⟨rfl, hv⟩)
  exact (meets_satisfyParams (fun t _ => maintains_observed) hb₁).of_succeeds hparams

end Scope

namespace Session

variable {s : Session} {w w' : World} {checked : List (Ty × Value)}

theorem Checked.reached (hrun : s.Checked w checked) : s.Reached w := by
  induction hrun with
  | start fresh made => exact .start fresh made
  | between _ heap known ih => exact .between ih heap known
  | argument _ _ passed ih => exact .argument ih passed
  | result _ passed ih => exact .result ih passed

theorem observed_check (hrun : s.Reached w) {t : Ty} {locus : Locus} {v : Value}
    (hdone : s.check t locus v w = .done () w') {name : String} :
    (∀ params, t = .var name params → (s.bindings w').Observed name v) ∧
      ∀ x, (s.bindings w).Observed name x → (s.bindings w').Observed name x := by
  have hs := (conclude_eq_done hrun.kept hdone).2
  refine ⟨fun params ht => ?_, fun x hx => (Scope.maintains_observed _ _ _ hx).of_succeeds hs⟩
  subst ht
  exact Scope.observed_satisfy_var hs (by simp)

/-- A value that has been checked against a variable is observed for it. -/
theorem Checked.observed (hrun : s.Checked w checked) {name : String}
    {params : List Ty} :
    ∀ p ∈ checked, p.1 = .var name params → (s.bindings w).Observed name p.2 := by
  induction hrun with
  | start _ _ => exact nofun
  | between _ _ known ih =>
      rw [bindings_eq, known, ← bindings_eq]
      exact ih
  | argument before declared passed ih =>
      rw [checkArgument_eq_check declared] at passed
      obtain ⟨hnew, hold⟩ := observed_check before.reached passed
      exact List.forall_mem_cons.2 ⟨hnew params, fun p hp ht => hold _ (ih p hp ht)⟩
  | result before passed ih =>
      obtain ⟨w₁, hcheck, _, hsessions⟩ := checkResult_eq_done passed
      rw [bindings_eq, hsessions, ← bindings_eq]
      obtain ⟨hnew, hold⟩ := observed_check before.reached hcheck
      exact List.forall_mem_cons.2 ⟨hnew params, fun p hp ht => hold _ (ih p hp ht)⟩

/-- After any run of checks that passed, over an open environment, where `f` occurs as
`f a` only and `a` as a plain variable: `f` has a constructor left if it is bound. Every
value seen at a position `f a` is a member of each constructor that is left, and of some
entry with `a` in the last place, whichever of the types left for `a` is taken. It is a
member of the constructor that is left with `a` in the last place if that finds in the
value no other parts than any entry that accepts it does. -/
theorem Checked.isMember_of_applied {f a : String} (henv : OpenEnvironment s.env)
    (htags : TagsApart s.env w.heap) (hf : s.signature.OccursOnly f [.var a []])
    (ha : s.signature.OccursOnly a []) (hrun : s.Checked w checked) :
    (∀ p ∈ checked, p.1 = .var f [.var a []] → (s.bindings w).Observed f p.2) ∧
    ∀ types, (s.bindings w).types? f = some types → types ≠ [] ∧
      ∀ C ∈ types, ∀ T, (∀ us, (s.bindings w).types? a = some us → T ∈ us) →
        ∀ v, (s.bindings w).Observed f v → C.isMember w.heap v = true ∧
          (∃ e ∈ s.env, 1 ≤ e.arity ∧ (e.withLast T).isMember w.heap v = true) ∧
          ((∀ e ∈ s.env, 1 ≤ e.arity → e.isMember w.heap v = true →
              ∀ x ∈ C.lastHeld w.heap v, x ∈ e.lastHeld w.heap v) →
            (C.withLast T).isMember w.heap v = true) := by
  have hb := (hrun.reached.maintained (s.scope w.heap).applied_empty fun t ht =>
    Scope.maintains_applied henv htags (hf.of_declares ht) (ha.of_declares ht)).2
  refine ⟨hrun.observed, fun types htypes => ⟨(hb.constructors types htypes).1, ?_⟩⟩
  intro C hC T hT v hv
  obtain ⟨⟨harises, hopen⟩, hsettled⟩ := (hb.constructors types htypes).2 C hC
  obtain ⟨e, he, hpos, hmember, hparts⟩ := hb.parts v hv
  have hmemberT : ∀ x ∈ e.lastHeld w.heap v, T.isMember w.heap x = true :=
    fun x hx => hb.isMember_parameter hT (hparts x hx)
  refine ⟨(hsettled v hv).1, ⟨e, he, hpos, ?_⟩, fun hagree => ?_⟩
  · exact (henv.arises he).isMember_withLast hpos hmember hmemberT
  · refine harises.isMember_withLast hopen.1 (hsettled v hv).1 fun x hx => ?_
    exact hmemberT x (hagree e he hpos hmember x hx)

/-! ## Pairs among arrays -/

/-- Pairs are arrays, and what a pair holds last is not all that it holds as an
array. -/
def pairsFirst : List Ty :=
  [Builtin.array2 .unknown .unknown, Builtin.array .unknown, Builtin.boolean, Builtin.null]

theorem openEnvironment_pairsFirst : OpenEnvironment pairsFirst where
  isOpen := by decide
  names := by decide

/-- A session for a function that takes two values of one constructor. -/
def ofPairs : Session :=
  let t : Ty := .var "f" [.var "a" []]
  ⟨⟨"both", ∅, [t, t], t, by decide⟩, pairsFirst, 0⟩

theorem occursOnly_ofPairs : ofPairs.signature.OccursOnly "f" [.var "a" []] ∧
    ofPairs.signature.OccursOnly "a" [] := by
  have hall : ∀ t ∈ ofPairs.signature.types, t.occurrences = [("f", [.var "a" []]), ("a", [])] := by
    simp [ofPairs, Signature.types, Ty.occurrences, Ty.occurrencesAll]
  refine ⟨fun t ht p hp hname => ?_, fun t ht p hp hname => ?_⟩
  all_goals
    rw [hall t ht, List.mem_pair] at hp
    rcases hp with rfl | rfl
    · first | rfl | exact absurd hname (by decide)
    · first | rfl | exact absurd hname (by decide)

/-- The check of the next of two arrays. -/
def pairVerdict (first second : List Value) (i : Nat) (b : Bindings) : Verdict :=
  (ofPairs.scope ⟨#[first, second], #[]⟩).satisfy (.var "f" [.var "a" []]) (.root i) [.array i] b

/-- What is known when both arrays have been checked. -/
def afterBoth (first second : List Value) : Bindings :=
  (pairVerdict first second 1 (pairVerdict first second 0 ∅).bindings).bindings

theorem exists_checked_pair (first second : List Value)
    (hfirst : (pairVerdict first second 0 ∅).failure?.isNone = true)
    (hsecond : (pairVerdict first second 1
      (pairVerdict first second 0 ∅).bindings).failure?.isNone = true) :
    ∃ w, ofPairs.Checked w
        [(.var "f" [.var "a" []], .array 1), (.var "f" [.var "a" []], .array 0)] ∧
      TagsApart ofPairs.env w.heap ∧ w.heap = ⟨#[first, second], #[]⟩ ∧
      ofPairs.bindings w = afterBoth first second := by
  let h : Heap := ⟨#[first, second], #[]⟩
  have hstart : ofPairs.Checked ⟨h, #[], #[default], ∅⟩ [] := .start (w := ⟨h, #[], #[], ∅⟩) rfl rfl
  have hone := hstart.argument (t := .var "f" [.var "a" []]) rfl
    (checkArgument_of_passes 0 (.array 0) hfirst)
  have hboth := hone.argument (t := .var "f" [.var "a" []]) rfl
    (checkArgument_of_passes 1 (.array 1) hsecond)
  refine ⟨_, hboth, fun c supers _ o => ?_, rfl, ?_⟩
  · simp [World.setSession, Heap.object, h]
  · rw [bindings_record (by simp [World.setSession, ofPairs]), bindings_record (by simp [ofPairs])]
    rfl

/-- The two items of `[true, true]` are the same, so it does not matter that it was
taken as a pair when `[true]` drops the pairs. -/
theorem Checked.isMember_of_applied_pair :
    ∃ w : World, OpenEnvironment ofPairs.env ∧ TagsApart ofPairs.env w.heap ∧
      ofPairs.signature.OccursOnly "f" [.var "a" []] ∧ ofPairs.signature.OccursOnly "a" [] ∧
      ofPairs.Checked w [(.var "f" [.var "a" []], .array 1), (.var "f" [.var "a" []], .array 0)] ∧
      (ofPairs.bindings w).types? "f" = some [Builtin.array .unknown] ∧
      (ofPairs.bindings w).types? "a" = some [Builtin.boolean] ∧
      ((Builtin.array .unknown).withLast Builtin.boolean).isMember w.heap (.array 0) = true := by
  obtain ⟨w, hrun, htags, hheap, hb⟩ := exists_checked_pair [.bool true, .bool true] [.bool true]
    (by decide +kernel) (by decide +kernel)
  have htypes : (ofPairs.bindings w).types? "f" = some [Builtin.array .unknown] := by rw [hb]; rfl
  have hus : (ofPairs.bindings w).types? "a" = some [Builtin.boolean] := by rw [hb]; rfl
  obtain ⟨hobserved, hall⟩ := hrun.isMember_of_applied openEnvironment_pairsFirst htags
    occursOnly_ofPairs.1 occursOnly_ofPairs.2
  have hmember := (hall _ htypes).2 (Builtin.array .unknown) (by simp) Builtin.boolean
    (by simp [hus]) (.array 0) (hobserved (_, .array 0) (by simp) rfl)
  refine ⟨w, openEnvironment_pairsFirst, htags, occursOnly_ofPairs.1, occursOnly_ofPairs.2, hrun,
    htypes, hus, hmember.2.2 ?_⟩
  rw [hheap]
  decide +kernel

/-- Checks may pass and leave no constructor and no parameter that fit all values
together. First comes `[null, true]`, a pair whose second item is a Boolean, and then
`[true]`, which is no pair. What is left are arrays and Booleans, and `null` is not a
Boolean. -/
theorem not_isMember_of_applied :
    ¬ ∀ (s : Session) (w : World) (checked : List (Ty × Value)) (f a : String) (types : List Ty),
      OpenEnvironment s.env → TagsApart s.env w.heap → s.signature.OccursOnly f [.var a []] →
      s.signature.OccursOnly a [] → s.Checked w checked → (s.bindings w).types? f = some types →
      ∃ C ∈ types, ∃ T : Ty, (∀ us, (s.bindings w).types? a = some us → T ∈ us) ∧
        ∀ p ∈ checked, p.1 = .var f [.var a []] → (C.withLast T).isMember w.heap p.2 = true := by
  intro hall
  obtain ⟨w, hrun, htags, hheap, hb⟩ := exists_checked_pair [.null, .bool true] [.bool true]
    (by decide +kernel) (by decide +kernel)
  have htypes : (ofPairs.bindings w).types? "f" = some [Builtin.array .unknown] := by rw [hb]; rfl
  have hus : (ofPairs.bindings w).types? "a" = some [Builtin.boolean] := by rw [hb]; rfl
  obtain ⟨C, hC, T, hT, hmember⟩ := hall ofPairs w _ "f" "a" _ openEnvironment_pairsFirst htags
    occursOnly_ofPairs.1 occursOnly_ofPairs.2 hrun htypes
  obtain rfl := List.mem_singleton.1 hC
  obtain rfl := List.mem_singleton.1 (hT _ hus)
  have hnull := hmember (_, .array 0) (by simp) rfl
  rw [hheap] at hnull
  revert hnull
  decide +kernel

end Session

end DynamicTypes
