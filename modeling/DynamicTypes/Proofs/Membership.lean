import Mathlib.Logic.Relation
import DynamicTypes.Proofs.TypeOrder
import DynamicTypes.Ty.Builtin
import DynamicTypes.Ty.Membership

/-!
# Membership, component by component

`violation?` looks for the first value out of place, so it stops early and keeps a
path. Most statements only ask whether there is one, and for them membership is two
conditions: the chain of predicates, and the components one by one. `isMember_iff`
says so for all kinds of types at once, in terms of the component types of
`children` and of what `extract` finds at each.

The two conditions are not of the same kind. The chain goes up through the
supertypes, the components do not: a type asks its supertypes for their predicates
and never for what their values hold. So a member of a type passes the chain of
every ancestor, and whether it is a member of the ancestor is left to the
ancestor's own components.
-/

namespace DynamicTypes.Ty

variable {h : Heap} {t : Ty} {v : Value}

/-! ## The chain -/

theorem testChains_iff {ts : List Ty} :
    testChains h ts v = true ↔ ∀ t ∈ ts, t.testChain h v = true := by
  induction ts with
  | nil => simp [testChains]
  | cons t ts ih => rw [testChains, Bool.and_eq_true, ih, List.forall_mem_cons]

/-- A value passes the chain of a type when it passes those of the supertypes and the
type's own predicate. -/
theorem testChain_iff :
    t.testChain h v = true ↔ (∀ s ∈ t.supertypes, s.testChain h v = true) ∧ t.test h v = true := by
  cases t with
  | con c supers params => rw [testChain, Bool.and_eq_true, testChains_iff]; rfl
  | record r supers fields => rw [testChain, Bool.and_eq_true, testChains_iff]; rfl
  | _ => simp [testChain, supertypes]

/-! ## The components -/

/-- Whether a value has all the components of a type, each with members of the
component's type. -/
def HoldsComponents (h : Heap) (t : Ty) (v : Value) : Prop :=
  ∀ (i : Nat) (key : String) (u : Ty), t.children[i]? = some (key, u) →
    t.holdsChild h i v = true ∧ ∀ x ∈ t.extract h i v, u.isMember h x = true

theorem getElem?_keyed {n i : Nat} {ts : List Ty} :
    (keyed n ts)[i]? = ts[i]?.map fun t => (paramKey (n + i), t) := by
  induction ts generalizing n i with
  | nil => rfl
  | cons t ts ih =>
      cases i with
      | zero => rfl
      | succ i =>
          rw [keyed, List.getElem?_cons_succ, List.getElem?_cons_succ, ih, Nat.add_right_comm]
          rfl

theorem paramViolation_eq_none {held : Nat → List Value} {i : Nat} {ts : List Ty} :
    paramViolation? h held i ts = none ↔
      ∀ (j : Nat) (t : Ty), ts[j]? = some t → ∀ x ∈ held (i + j), t.isMember h x = true := by
  induction ts generalizing i with
  | nil => simp [paramViolation?]
  | cons t ts ih =>
      rw [paramViolation?]
      split
      · next bad hbad =>
          obtain ⟨x, hx, hv⟩ := List.exists_of_findSome?_eq_some hbad
          refine iff_of_false (by simp) fun hall => ?_
          have hmem := hall 0 t rfl x hx
          rw [isMember, hv] at hmem
          cases hmem
      · next hnone =>
          rw [ih]
          constructor
          · intro hall j u hj x hx
            cases j with
            | zero =>
                cases hj
                rw [isMember, List.findSome?_eq_none_iff.1 hnone x hx]
                rfl
            | succ j => exact hall j u hj x (by rwa [Nat.add_right_comm])
          · intro hall j u hj x hx
            exact hall (j + 1) u hj x (by rwa [Nat.add_right_comm] at hx)

theorem fieldViolation_eq_none {fields : List (String × Ty)} :
    fieldViolation? h v fields = none ↔
      ∀ f ∈ fields, ∃ x, v.field? h f.1 = some x ∧ f.2.isMember h x = true := by
  induction fields with
  | nil => simp [fieldViolation?]
  | cons f fields ih =>
      obtain ⟨key, t⟩ := f
      rw [fieldViolation?, List.forall_mem_cons]
      split
      · next hfield => simp [hfield]
      · next x hfield =>
          split
          · next bad hbad => simp [hfield, isMember, hbad]
          · next hnone => simp [hfield, isMember, hnone, ih]

theorem isMember_con {c : Constructor} {supers params : List Ty} :
    (con c supers params).isMember h v = true ↔
      (con c supers params).testChain h v = true ∧
        ∀ (i : Nat) (p : Ty), params[i]? = some p → ∀ x ∈ c.held i h v, p.isMember h x = true := by
  rw [isMember, violation?]
  split
  · next hchain =>
      rw [Option.isNone_iff_eq_none, paramViolation_eq_none]
      simp only [Nat.zero_add, hchain, true_and]
  · next hchain => simp [hchain]

theorem isMember_record {r : RecordName} {supers : List Ty}
    {fields : List (String × Ty)} :
    (record r supers fields).isMember h v = true ↔
      (record r supers fields).testChain h v = true ∧
        ∀ f ∈ fields, ∃ x, v.field? h f.1 = some x ∧ f.2.isMember h x = true := by
  rw [isMember, violation?]
  split
  · next hchain =>
      rw [Option.isNone_iff_eq_none, fieldViolation_eq_none]
      simp only [hchain, true_and]
  · next hchain => simp [hchain]

/-- A value is a member of a type when it passes the chain and has the components. -/
theorem isMember_iff :
    t.isMember h v = true ↔ t.testChain h v = true ∧ t.HoldsComponents h v := by
  cases t with
  | con c supers params =>
      rw [isMember_con]
      refine and_congr_right fun _ => ⟨fun hall i key u hu => ⟨rfl, fun x hx => ?_⟩,
        fun hall i p hp x hx => ?_⟩
      · change (keyed 1 params)[i]? = _ at hu
        rw [getElem?_keyed] at hu
        obtain ⟨p, hp, heq⟩ := Option.map_eq_some_iff.1 hu
        cases heq
        exact hall i u hp x hx
      · refine (hall i (paramKey (1 + i)) p ?_).2 x hx
        change (keyed 1 params)[i]? = _
        rw [getElem?_keyed, hp]
        rfl
  | record r supers fields =>
      rw [isMember_record]
      refine and_congr_right fun _ => ⟨fun hall i key u hu => ?_, fun hall f hf => ?_⟩
      · change fields[i]? = _ at hu
        obtain ⟨x, hx, hmem⟩ := hall (key, u) (List.mem_of_getElem? hu)
        simp [holdsChild, extract, hu, hx, Value.field, hmem]
      · obtain ⟨i, hi⟩ := List.getElem?_of_mem hf
        obtain ⟨hchild, hmem⟩ := hall i f.1 f.2 hi
        simp only [holdsChild, hi, Option.any_some] at hchild
        obtain ⟨x, hx⟩ := Option.isSome_iff_exists.1 hchild
        refine ⟨x, hx, hmem x ?_⟩
        simp [extract, hi, Value.field, hx]
  | _ =>
      -- nothing is extracted from these, so only the chain is left
      rw [isMember, violation?]
      · refine ⟨fun hmem => ⟨?_, fun i key u _ => ⟨rfl, fun x hx => nomatch hx⟩⟩, fun hchain => ?_⟩
        · split at hmem
          · assumption
          · cases hmem
        · rw [if_pos hchain.1]
          rfl
      · exact fun _ _ _ => nofun
      · exact fun _ _ _ => nofun

/-! ## Ancestors -/

/-- A transitive supertype. -/
def Ancestor : Ty → Ty → Prop := Relation.TransGen fun s t => s ∈ t.supertypes

/-- What passes the chain of a type passes the chain of every ancestor. -/
theorem testChain_of_ancestor {s : Ty} (hs : Ancestor s t)
    (ht : t.testChain h v = true) :
    s.testChain h v = true := by
  induction hs with
  | single hst => exact (testChain_iff.1 ht).1 _ hst
  | tail _ hut ih => exact ih ((testChain_iff.1 ht).1 _ hut)

/-- A member of a type lacks nothing of an ancestor but, possibly, the ancestor's
components. -/
theorem isMember_ancestor {s : Ty} (hs : Ancestor s t) (ht : t.isMember h v = true) :
    s.isMember h v = true ↔ s.HoldsComponents h v := by
  rw [isMember_iff]
  exact and_iff_right (testChain_of_ancestor hs (isMember_iff.1 ht).1)

/-- A type with the given supertype that adds nothing to it. -/
def bareSubtype (s : Ty) : Ty := con ⟨"", "", fun _ _ => true, []⟩ [s] []

theorem ancestor_bareSubtype (s : Ty) : Ancestor s (bareSubtype s) :=
  .single (by simp [bareSubtype, supertypes])

/-- The members of a type that adds nothing are the values that pass its supertype's
chain. -/
theorem isMember_bareSubtype {s : Ty} :
    (bareSubtype s).isMember h v = true ↔ s.testChain h v = true := by
  rw [bareSubtype, isMember_con, testChain_iff]
  simp [supertypes, test]

/-- How far the members of a type are members of its ancestors. One value is a member of
the ancestor exactly if it has the ancestor's components. An ancestor takes in the
members of all its subtypes exactly if its chain alone tells its own members. -/
theorem isMember_of_ancestor_iff (s : Ty) :
    (∀ (t : Ty) (h : Heap) (v : Value), Ancestor s t → t.isMember h v = true →
      (s.isMember h v = true ↔ s.HoldsComponents h v)) ∧
    ((∀ (t : Ty) (h : Heap) (v : Value), Ancestor s t → t.isMember h v = true →
      s.isMember h v = true) ↔
      ∀ (h : Heap) (v : Value), s.testChain h v = true → s.HoldsComponents h v) := by
  refine ⟨fun t h v => isMember_ancestor, fun hall h v hchain => ?_, fun hall t h v hs ht => ?_⟩
  · have hmem := hall _ h v (ancestor_bareSubtype s) (isMember_bareSubtype.2 hchain)
    exact (isMember_iff.1 hmem).2
  · have hchain := testChain_of_ancestor hs (isMember_iff.1 ht).1
    exact isMember_iff.2 ⟨hchain, hall h v hchain⟩

/-- The pair `[true, null]` is an array because it has the only component asked for,
whatever the component holds. -/
theorem isMember_of_ancestor_iff_array2 :
    Ancestor (Builtin.array .unknown) (Builtin.array2 Builtin.boolean Builtin.null) ∧
    (Builtin.array2 Builtin.boolean Builtin.null).isMember ⟨#[[.bool true, .null]], #[]⟩ (.array 0)
      = true ∧
    ((Builtin.array .unknown).isMember ⟨#[[.bool true, .null]], #[]⟩ (.array 0) = true ↔
      (Builtin.array .unknown).HoldsComponents ⟨#[[.bool true, .null]], #[]⟩ (.array 0)) :=
  have hs : Ancestor (Builtin.array .unknown) (Builtin.array2 Builtin.boolean Builtin.null) :=
    .single (by simp [Builtin.array2, supertypes])
  ⟨hs, by decide, (isMember_of_ancestor_iff _).1 _ _ _ hs (by decide)⟩

/-- Members of a type need not be members of its supertypes: with the arrays of texts as
its supertype a type that adds nothing has the array `[true]` as a member. -/
theorem not_isMember_of_ancestor :
    ¬ ∀ (s t : Ty) (h : Heap) (v : Value), Ancestor s t → t.isMember h v = true →
      s.isMember h v = true := by
  intro hall
  have hmem := hall (Builtin.array Builtin.string) (bareSubtype (Builtin.array Builtin.string))
    ⟨#[[.bool true]], #[]⟩ (.array 0) (ancestor_bareSubtype _) (by decide)
  exact absurd hmem (by decide)

end DynamicTypes.Ty
