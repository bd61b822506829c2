import DynamicTypes.Proofs.Classification
import DynamicTypes.Proofs.Printing
import DynamicTypes.Ty.Builtin

/-!
# Classification comes to an end

Values are classified by what they hold, and a value may hold itself. The classifier keeps one
set of identities for the whole run: an identity is put in when a value is opened and taken
out again when it is done with. Here the classifier is written that way, as a computation on
the set that has no answer when calls are nested deeper than a limit.

Two things are to be shown of it. It has an answer as soon as the limit is higher than the
number of identities there are, and it gives the set back as it took it: `Returns` says both,
and there is one rule for each step of the computation. So what a part of a value leaves
behind cannot matter for the next part, and the answer is what `classify` gives, where each
call has the identities outside it as an argument.
-/

namespace DynamicTypes

namespace Classification

/-- Computations on the set of identities that are being classified. -/
abbrev Tracked := StateT (Finset Ref) Option

namespace Tracked

variable {α β : Type} {seen : Finset Ref}

/-- Whether a computation ends with an answer and leaves the set as it was. -/
def Returns (run : Tracked α) (seen : Finset Ref) (a : α) : Prop :=
  run.run seen = some (a, seen)

theorem returns_pure {a : α} : Returns (pure a) seen a := rfl

theorem Returns.bind {run : Tracked α} {next : α → Tracked β} {a : α} {b : β}
    (hrun : Returns run seen a) (hnext : Returns (next a) seen b) :
    Returns (run >>= next) seen b := by
  unfold Returns at *
  rw [StateT.run_bind, hrun]
  exact hnext

theorem returns_mapM {f : α → Tracked β} {g : α → β} {l : List α}
    (hf : ∀ x ∈ l, Returns (f x) seen (g x)) : Returns (l.mapM f) seen (l.map g) := by
  induction l with
  | nil => exact returns_pure
  | cons x l ih =>
      rw [List.forall_mem_cons] at hf
      rw [List.mapM_cons, List.map_cons]
      exact hf.1.bind ((ih hf.2).bind returns_pure)

theorem returns_foldlM {f : β → α → Tracked β} {g : β → α → β} {l : List α} {b : β}
    (hf : ∀ x ∈ l, ∀ b, Returns (f b x) seen (g b x)) :
    Returns (l.foldlM f b) seen (l.foldl g b) := by
  induction l generalizing b with
  | nil => exact returns_pure
  | cons x l ih =>
      rw [List.forall_mem_cons] at hf
      rw [List.foldlM_cons, List.foldl_cons]
      exact (hf.1 b).bind (ih hf.2)

/-! ## The computation -/

/-- Opens a value with the given identity to find its types; one that is open already
has none, and one without identity need not be opened. -/
def opening (types : Tracked (List Ty)) : Option Ref → Tracked (List Ty)
  | none => types
  | some r => do
    if r ∈ (← get) then return []
    modify (insert r)
    let found ← types
    modify (·.erase r)
    return found

/-- The types that values have in common, one value classified after the other. -/
def determineWith (h : Heap) (env : List Ty) (classify : Value → Tracked (List Ty)) :
    List Value → Tracked (List Ty)
  | [] => pure [.unknown]
  | v :: vs => do
    let first ← classify v
    let types ← vs.foldlM (fun types w => return Ty.intersect types (← classify w)) first
    if types.isEmpty then return [((commonTag? h (v :: vs)).map Ty.foreign).getD .inconsistent]
    return sort env types

/-- The type with its unknown parameters filled, one parameter after the other. -/
def expandWith (h : Heap) (determine : List Value → Tracked (List Ty)) (keep : Nat)
    (t : Ty) (v : Value) : Tracked (List Ty) := do
  let filled ← t.params.zipIdx.mapM fun p =>
    if p.2 + keep < t.arity && p.1.isUnknown then determine (t.extract h p.2 v) else pure [p.1]
  return (Ty.choices filled).map t.withParams

/-- The types of a value, one entry of the environment after the other. -/
def typesWith (h : Heap) (env : List Ty) (determine : List Value → Tracked (List Ty))
    (v : Value) :
    Tracked (List Ty) := do
  let found ← (env.filter (·.isMember h v)).mapM fun t => expandWith h determine 0 t v
  return Ty.unique found.flatten

/-- The types of one value, with no more than `limit` calls nested. -/
def classify (h : Heap) (env : List Ty) : Nat → Value → Tracked (List Ty)
  | 0, _ => failure
  | limit + 1, v =>
    opening (typesWith h env (determineWith h env (classify h env limit)) v) v.identity?

/-! ## One rule for each step -/

variable {h : Heap} {env : List Ty}

theorem returns_opening_again {types : Tracked (List Ty)} {r : Ref} (hr : r ∈ seen) :
    Returns (opening types (some r)) seen [] := by
  have hget : Returns get seen seen := rfl
  refine hget.bind ?_
  rw [if_pos hr]
  exact returns_pure

/-- An identity that is put in for one computation is taken out after it. -/
theorem returns_opening {types : Tracked (List Ty)} {r : Ref} {found : List Ty}
    (hr : r ∉ seen) (htypes : Returns types (insert r seen) found) :
    Returns (opening types (some r)) seen found := by
  have hget : Returns get seen seen := rfl
  refine hget.bind ?_
  rw [if_neg hr]
  show (types.run (insert r seen)).bind (fun p => some (p.1, p.2.erase r)) = some (found, seen)
  have hrun : types.run (insert r seen) = some (found, insert r seen) := htypes
  rw [hrun, Option.bind_some, Finset.erase_insert hr]

theorem returns_determineWith {classify : Value → Tracked (List Ty)}
    {answer : Value → List Ty} {values : List Value}
    (hclassify : ∀ v ∈ values, Returns (classify v) seen (answer v)) :
    Returns (determineWith h env classify values) seen (determineBy h env answer values) := by
  cases values with
  | nil => exact returns_pure
  | cons v vs =>
      rw [List.forall_mem_cons] at hclassify
      have hcommon : Returns (vs.foldlM (fun types w => return Ty.intersect types (← classify w))
          (answer v)) seen (common answer v vs) :=
        returns_foldlM fun w hw types => (hclassify.2 w hw).bind returns_pure
      refine hclassify.1.bind (hcommon.bind ?_)
      rw [determineBy_eq]
      by_cases hnil : common answer v vs = []
      · rw [if_pos (List.isEmpty_iff.2 hnil), if_pos hnil]
        exact returns_pure
      · rw [if_neg fun hempty => hnil (List.isEmpty_iff.1 hempty), if_neg hnil]
        exact returns_pure

theorem returns_expandWith {determine : List Value → Tracked (List Ty)}
    {answer : List Value → List Ty} {keep : Nat} {t : Ty} {v : Value}
    (hdetermine : ∀ i < t.arity,
      Returns (determine (t.extract h i v)) seen (answer (t.extract h i v))) :
    Returns (expandWith h determine keep t v) seen (expandBy h answer keep t v) := by
  have hfilled : Returns (t.params.zipIdx.mapM fun p =>
      if p.2 + keep < t.arity && p.1.isUnknown then determine (t.extract h p.2 v)
      else pure [p.1]) seen
      (t.params.zipIdx.map fun p =>
        if p.2 + keep < t.arity && p.1.isUnknown then answer (t.extract h p.2 v) else [p.1]) := by
    refine returns_mapM fun p hp => ?_
    split
    · exact hdetermine p.2 (List.snd_lt_of_mem_zipIdx hp)
    · exact returns_pure
  exact hfilled.bind returns_pure

theorem returns_typesWith {determine : List Value → Tracked (List Ty)}
    {answer : List Value → List Ty} {v : Value}
    (hdetermine : ∀ t ∈ env, ∀ i < t.arity,
      Returns (determine (t.extract h i v)) seen (answer (t.extract h i v))) :
    Returns (typesWith h env determine v) seen
      (Ty.unique ((env.filter (·.isMember h v)).flatMap (expandBy h answer 0 · v))) := by
  rw [List.flatMap_def]
  have hfound : Returns
      ((env.filter (·.isMember h v)).mapM fun t => expandWith h determine 0 t v) seen
      ((env.filter (·.isMember h v)).map (expandBy h answer 0 · v)) := by
    refine returns_mapM fun t ht => returns_expandWith ?_
    exact hdetermine t (List.mem_of_mem_filter ht)
  exact hfound.bind returns_pure

end Tracked

end Classification

/-! ## What bounds the nesting -/

/-- Whether the identity of a value, if it has one, is in a given set. -/
def Value.IsWithin (R : Finset Ref) (v : Value) : Prop := ∀ r ∈ v.identity?, r ∈ R

/-- Whether a type finds nothing in values without identity, and in others nothing but
values without identity and values of a given set. -/
def Ty.YieldsWithin (h : Heap) (R : Finset Ref) (t : Ty) : Prop :=
  ∀ i < t.arity, ∀ v : Value,
    (v.identity? = none → t.extract h i v = []) ∧ ∀ x ∈ t.extract h i v, x.IsWithin R

theorem Ty.YieldsWithin.mono {h : Heap} {R S : Finset Ref} {t : Ty}
    (ht : t.YieldsWithin h R) (hsub : R ⊆ S) : t.YieldsWithin h S :=
  fun i hi v => ⟨(ht i hi v).1, fun x hx r hr => hsub ((ht i hi v).2 x hx r hr)⟩

theorem Ty.YieldsWithin.inter {h : Heap} {R S : Finset Ref} {t : Ty}
    (hR : t.YieldsWithin h R) (hS : t.YieldsWithin h S) : t.YieldsWithin h (R ∩ S) :=
  fun i hi v => ⟨(hR i hi v).1, fun x hx r hr =>
    Finset.mem_inter.2 ⟨(hR i hi v).2 x hx r hr, (hS i hi v).2 x hx r hr⟩⟩

namespace Classification

open Tracked

variable {h : Heap} {env : List Ty} {R : Finset Ref} {limit depth : Nat} {seen : List Ref}
  {v : Value}

theorem classify_of_mem {r : Ref} (hv : v.identity? = some r) (hr : r ∈ seen) :
    classify h env (depth + 1) seen v = [] := by
  rw [classify, hv]
  exact if_pos (List.contains_iff_mem.2 hr)

theorem classify_of_not_mem (hv : ∀ r ∈ v.identity?, r ∉ seen) :
    classify h env (depth + 1) seen v = Ty.unique ((env.filter (·.isMember h v)).flatMap
      (expandBy h (determineBy h env (classify h env depth (v.identity?.toList ++ seen)))
        0 · v)) := by
  have hclosed : ¬ v.identity?.any seen.contains = true := by
    simpa [Option.any_eq_true] using hv
  rw [classify, if_neg hclosed]

/-- The identities that are not open yet bound how deep calls are nested. -/
theorem returns_classify (henv : ∀ t ∈ env, t.YieldsWithin h R) (hv : v.IsWithin R)
    (hlimit : (R \ seen.toFinset).card < limit)
    (hdepth : (R \ seen.toFinset).card < depth) :
    Returns (Tracked.classify h env limit v) seen.toFinset (classify h env depth seen v) := by
  induction limit generalizing depth seen v with
  | zero => omega
  | succ limit ih =>
      obtain ⟨depth, rfl⟩ : ∃ n, depth = n + 1 := ⟨depth - 1, by omega⟩
      rw [Tracked.classify]
      cases hid : v.identity? with
      | none =>
          -- there is nothing inside, so nothing is called
          rw [classify_of_not_mem (by simp [hid])]
          refine returns_typesWith fun t ht i hi => ?_
          rw [(henv t ht i hi v).1 hid]
          exact returns_pure
      | some r =>
          by_cases hr : r ∈ seen
          · rw [classify_of_mem hid hr]
            exact returns_opening_again (List.mem_toFinset.2 hr)
          · have hmem : r ∈ R \ seen.toFinset :=
              Finset.mem_sdiff.2 ⟨hv r hid, fun hseen => hr (List.mem_toFinset.1 hseen)⟩
            have hcard : (R \ (r :: seen).toFinset).card + 1 = (R \ seen.toFinset).card := by
              rw [List.toFinset_cons, Finset.sdiff_insert, Finset.card_erase_add_one hmem]
            have hnot : ∀ r ∈ v.identity?, r ∉ seen := by
              rw [hid]
              rintro r ⟨⟩
              exact hr
            rw [classify_of_not_mem hnot, hid]
            refine returns_opening (fun hseen => hr (List.mem_toFinset.1 hseen)) ?_
            rw [← List.toFinset_cons]
            refine returns_typesWith fun t ht i hi => returns_determineWith fun x hx => ?_
            exact ih ((henv t ht i hi v).2 x hx) (by omega) (by omega)

end Classification

/-! ## The identities of a heap -/

namespace Heap

variable {h : Heap} {v x : Value}

/-- The identities in the heap: its arrays and objects, and the functions that they
hold. -/
def references (h : Heap) : Finset Ref :=
  h.containerRefs ∪ ((h.stored.filter Value.isFunction).filterMap Value.identity?).toFinset

theorem card_references_le (h : Heap) : h.references.card ≤ h.size := by
  refine (Finset.card_union_le _ _).trans (Nat.add_le_add (card_containerRefs_le h) ?_)
  calc ((h.stored.filter Value.isFunction).filterMap Value.identity?).toFinset.card
      ≤ ((h.stored.filter Value.isFunction).filterMap Value.identity?).length :=
        List.toFinset_card_le _
    _ ≤ (h.stored.filter Value.isFunction).length := List.length_filterMap_le _ _
    _ = h.stored.countP Value.isFunction := List.countP_eq_length_filter.symm

theorem identity?_ne_none_of_holds (hvx : h.Holds v x) : v.identity? ≠ none := by
  obtain ⟨label, hmem⟩ := hvx
  intro hid
  cases v with
  | array | object | function => cases hid
  | _ => cases hmem

end Heap

namespace Builtin

variable {h : Heap} {R : Finset Ref} {v x : Value} {t : Ty}

/-- The types that look into arrays and objects, and those that look into nothing: types
without parameters, enumerations and records. -/
inductive Structural : Ty → Prop where
  | closed {t : Ty} (params : t.params = []) : Structural t
  | array (t : Ty) : Structural (array t)
  | array1 (t : Ty) : Structural (array1 t)
  | array2 (t u : Ty) : Structural (array2 t u)
  | strMap (t : Ty) : Structural (strMap t)

theorem holds_of_mem_items (hx : x ∈ items h v) : h.Holds v x := by
  cases v with
  | array a => exact ⟨none, List.mem_map.2 ⟨x, hx, rfl⟩⟩
  | _ => cases hx

theorem holds_of_mem_fieldValues (hx : x ∈ fieldValues h v) : h.Holds v x := by
  cases v with
  | object o =>
      obtain ⟨p, hp, rfl⟩ := List.mem_map.1 hx
      exact ⟨some p.1, List.mem_map.2 ⟨p, hp, rfl⟩⟩
  | _ => cases hx

theorem Structural.holds (ht : Structural t) {i : Nat} (hi : i < t.arity)
    (hx : x ∈ t.extract h i v) :
    h.Holds v x := by
  cases ht with
  | closed params =>
      rw [Ty.arity, params] at hi
      cases hi
  | array | array1 =>
      obtain rfl : i = 0 := Nat.lt_one_iff.1 hi
      exact holds_of_mem_items hx
  | array2 =>
      have hitem : ∀ i, x ∈ item i h v → h.Holds v x := by
        intro i hx
        exact holds_of_mem_items (List.mem_of_getElem? (Option.mem_toList.1 hx))
      have hcases : i = 0 ∨ i = 1 := by
        have : i < 2 := hi
        omega
      rcases hcases with rfl | rfl
      · exact hitem 0 hx
      · exact hitem 1 hx
  | strMap =>
      obtain rfl : i = 0 := Nat.lt_one_iff.1 hi
      exact holds_of_mem_fieldValues hx

/-- What such a type finds in a value the value holds. -/
theorem Structural.yieldsWithin (ht : Structural t)
    (hstored : ∀ x ∈ h.stored, x.IsWithin R) :
    t.YieldsWithin h R := by
  intro i hi v
  refine ⟨fun hid => ?_, fun x hx => hstored x (Heap.mem_stored_of_holds (ht.holds hi hx))⟩
  refine List.eq_nil_iff_forall_not_mem.2 fun x hx => ?_
  exact Heap.identity?_ne_none_of_holds (ht.holds hi hx) hid

end Builtin

namespace Classification

open Tracked

variable {h : Heap} {env : List Ty} {R : Finset Ref} {limit : Nat} {seen : List Ref} {v : Value}

/-- The heap gives room enough for everything in it and one value besides. -/
theorem returns_classify_size (henv : ∀ t ∈ env, t.YieldsWithin h R)
    (hheap : ∀ t ∈ env, t.YieldsWithin h h.references) (hv : v.IsWithin R)
    (hlimit : R.card < limit) :
    Returns (Tracked.classify h env limit v) ∅ (classify h env (h.size + 2) [] v) := by
  let S := h.references ∪ v.identity?.toFinset
  have hS : v.IsWithin (R ∩ S) := fun r hr =>
    Finset.mem_inter.2 ⟨hv r hr, Finset.mem_union_right _ (Option.mem_toFinset.2 hr)⟩
  have hcard : S.card ≤ h.size + 1 := by
    refine (Finset.card_union_le _ _).trans (Nat.add_le_add (Heap.card_references_le h) ?_)
    rw [Option.card_toFinset]
    cases v.identity? <;> simp
  have hR : (R ∩ S).card ≤ R.card := Finset.card_le_card Finset.inter_subset_left
  have hS' : (R ∩ S).card ≤ S.card := Finset.card_le_card Finset.inter_subset_right
  have hinter : ∀ t ∈ env, t.YieldsWithin h (R ∩ S) := fun t ht =>
    (henv t ht).inter ((hheap t ht).mono Finset.subset_union_left)
  rw [← List.toFinset_nil]
  refine returns_classify hinter hS ?_ ?_
  all_goals
    rw [List.toFinset_nil, Finset.sdiff_empty]
    omega

theorem returns_expand_size {t : Ty} {keep : Nat} (henv : ∀ t ∈ env, t.YieldsWithin h R)
    (hheap : ∀ t ∈ env, t.YieldsWithin h h.references) (ht : t.YieldsWithin h R)
    (htheap : t.YieldsWithin h h.references) (hlimit : R.card < limit) :
    Returns (expandWith h (determineWith h env (Tracked.classify h env limit)) keep t v)
      v.identity?.toList.toFinset (expand h env keep t v) := by
  have hR : (R ∩ h.references).card ≤ R.card := Finset.card_le_card Finset.inter_subset_left
  have hheap' : (R ∩ h.references).card ≤ h.size :=
    (Finset.card_le_card Finset.inter_subset_right).trans (Heap.card_references_le h)
  have hinter : ∀ t ∈ env, t.YieldsWithin h (R ∩ h.references) := fun t ht =>
    (henv t ht).inter (hheap t ht)
  refine returns_expandWith fun i hi => returns_determineWith fun x hx => ?_
  have hsdiff := Finset.card_le_card
    (Finset.sdiff_subset (s := R ∩ h.references) (t := v.identity?.toList.toFinset))
  exact returns_classify hinter ((ht.inter htheap i hi v).2 x hx) (by omega) (by omega)

/-- Classification comes to an end whatever the cycles in the heap, as long as the types
find nothing in values without identity and no others but those whose identities are in
a finite set. No more calls are nested than the set has members and one more, and every
call leaves the set of open identities as it found it. Types that look into arrays and
objects find nothing but what the heap holds. -/
theorem runs_end {values : List Value} (henv : ∀ t ∈ env, t.YieldsWithin h R)
    (hvalues : ∀ v ∈ values, v.IsWithin R) (hlimit : R.card + 1 ≤ limit) :
    (∀ (seen : List Ref) (depth : Nat), R.card + 1 ≤ depth →
      Returns (determineWith h env (Tracked.classify h env limit) values) seen.toFinset
        (determineBy h env (classify h env depth seen) values) ∧
      ∀ v ∈ values,
        Returns (Tracked.classify h env limit v) seen.toFinset (classify h env depth seen v) ∧
        ∀ (t : Ty) (keep : Nat), t.YieldsWithin h R →
          Returns (expandWith h (determineWith h env (Tracked.classify h env limit)) keep t v)
            seen.toFinset (expandBy h (determineBy h env (classify h env depth seen)) keep t v)) ∧
    ((∀ t ∈ env, t.YieldsWithin h h.references) →
      Returns (determineWith h env (Tracked.classify h env limit) values) ∅
        (determine h env values) ∧
      ∀ (t : Ty) (keep : Nat) (v : Value), t.YieldsWithin h R → t.YieldsWithin h h.references →
        Returns (expandWith h (determineWith h env (Tracked.classify h env limit)) keep t v)
          v.identity?.toList.toFinset (expand h env keep t v)) ∧
    ((∀ x ∈ h.stored, x.IsWithin R) → ∀ t, Builtin.Structural t → t.YieldsWithin h R) := by
  refine ⟨fun seen depth hdepth => ?_, fun hheap => ⟨?_, ?_⟩, fun hstored t ht => ?_⟩
  · have hsdiff := Finset.card_le_card (Finset.sdiff_subset (s := R) (t := seen.toFinset))
    have hclassify : ∀ v : Value, v.IsWithin R →
        Returns (Tracked.classify h env limit v) seen.toFinset (classify h env depth seen v) :=
      fun v hv => returns_classify henv hv (by omega) (by omega)
    refine ⟨returns_determineWith fun v hv => hclassify v (hvalues v hv), fun v hv => ?_⟩
    refine ⟨hclassify v (hvalues v hv), fun t keep ht => returns_expandWith fun i hi => ?_⟩
    exact returns_determineWith fun x hx => hclassify x ((ht i hi v).2 x hx)
  · exact returns_determineWith fun v hv => returns_classify_size henv hheap (hvalues v hv) hlimit
  · exact fun t keep v ht htheap => returns_expand_size henv hheap ht htheap hlimit
  · exact ht.yieldsWithin hstored

/-- An array of itself and an object, the object with a field for itself, for the array
and for a function. -/
def entangled : Heap where
  arrays := #[[.array 0, .object 0]]
  objects := #[⟨none, none,
    ⟨[("in", .array 0), ("run", .function 7 ⟨"f", 1, none⟩), ("self", .object 0)], by decide⟩⟩]

/-- Types that look into arrays and objects in different ways. -/
def lookingIn : List Ty :=
  [Builtin.array .unknown, Builtin.array1 .unknown, Builtin.array2 .unknown .unknown,
    Builtin.strMap .unknown, Builtin.anyFunction]

theorem runs_end_entangled :
    (∀ t ∈ lookingIn, t.YieldsWithin entangled entangled.references) ∧
    (∀ v ∈ [Value.array 0], v.IsWithin entangled.references) ∧ entangled.references.card = 3 ∧
    Returns
      (determineWith entangled lookingIn (Tracked.classify entangled lookingIn 4) [.array 0]) ∅
      (determine entangled lookingIn [.array 0]) ∧
    (determine entangled lookingIn [.array 0]).map Ty.format =
      ["Array ???", "Array2 ??? (StrMap ???)"] := by
  have hstored : ∀ x ∈ entangled.stored, ∀ r ∈ x.identity?, r ∈ entangled.references := by decide
  have hvalues : ∀ v ∈ [Value.array 0], ∀ r ∈ v.identity?, r ∈ entangled.references := by decide
  have hcard : entangled.references.card = 3 := by decide
  have hstructural : ∀ t ∈ lookingIn, Builtin.Structural t := by
    simp only [lookingIn, List.forall_mem_cons]
    exact ⟨.array _, .array1 _, .array2 _ _, .strMap _, .closed rfl, List.forall_mem_nil _⟩
  have henv : ∀ t ∈ lookingIn, t.YieldsWithin entangled entangled.references :=
    fun t ht => (hstructural t ht).yieldsWithin hstored
  refine ⟨henv, hvalues, hcard, ?_, by decide +kernel⟩
  exact ((runs_end henv hvalues (by rw [hcard])).2.1 henv).1

end Classification

end DynamicTypes
