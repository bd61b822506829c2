import Mathlib.Data.List.Sort
import DynamicTypes.Binding

/-!
# Reading maps and bindings after they have changed

A sorted map is read in two ways, by key and as the list of its pairs. They agree,
because keys do not repeat, and so what is proved of lookups holds of everything
that is read out.

Of bindings only two things are ever asked: which types a variable may stand for,
and which values have been seen for it. `Observed` is the second, wherever in the
signature the value was seen.
-/

namespace DynamicTypes

namespace SortedMap

variable {κ α : Type} [Ord κ] [Std.LawfulEqOrd κ]

theorem compare_beq_eq [DecidableEq κ] (a b : κ) :
    (compare a b == .eq) = decide (a = b) := by
  rw [Bool.eq_iff_iff]
  simp

theorem find?_insertEntry [DecidableEq κ] {key k : κ} {value : α} {l : List (κ × α)} :
    ((insertEntry key value l).find? fun p => compare p.1 k == .eq).map (·.2) =
      if key = k then some value else (l.find? fun p => compare p.1 k == .eq).map (·.2) := by
  simp only [compare_beq_eq]
  induction l with
  | nil => by_cases hk : key = k <;> simp [insertEntry, hk]
  | cons head rest ih =>
      rw [insertEntry]
      split
      · by_cases hk : key = k <;> simp [hk]
      · next heq =>
          have hkey : key = head.1 := Std.LawfulEqCmp.eq_of_compare heq
          by_cases hk : key = k <;> simp [← hkey, hk]
      · next hgt =>
          have hkey : key ≠ head.1 := by
            intro heq
            simp [heq] at hgt
          by_cases hk : head.1 = k
          · simp [hk, hk ▸ hkey]
          · simp [hk, ih]

/-- A key that has been set has the new value, and all others have the old ones. -/
theorem find?_insert [Std.TransOrd κ] [DecidableEq κ] (m : SortedMap κ α) (key k : κ)
    (value : α) :
    (m.insert key value).find? k = if key = k then some value else m.find? k :=
  find?_insertEntry

theorem find?_eq_some_iff {m : SortedMap κ α} {k : κ} {a : α} :
    m.find? k = some a ↔ (k, a) ∈ m.entries := by
  obtain ⟨entries, sorted⟩ := m
  simp only [find?, Option.map_eq_some_iff]
  constructor
  · rintro ⟨⟨k', a'⟩, hfind, rfl⟩
    have hk : k' = k := by simpa using List.find?_some hfind
    exact hk ▸ List.mem_of_find?_eq_some hfind
  · intro hmem
    induction entries with
    | nil => cases hmem
    | cons head rest ih =>
        obtain ⟨first, tail⟩ := List.pairwise_cons.1 sorted
        rcases List.mem_cons.1 hmem with rfl | hmem
        · exact ⟨(k, a), by simp, rfl⟩
        · have hlt := first _ hmem
          have hne : head.1 ≠ k := by
            rintro rfl
            simp [Std.ReflCmp.compare_self] at hlt
          simpa [List.find?_cons, hne] using ih tail hmem

/-- Maps that answer every lookup alike are the same. -/
theorem ext_find? [Std.TransOrd κ] {m m' : SortedMap κ α}
    (hfind : ∀ k, m.find? k = m'.find? k) : m = m' := by
  have hirrefl : Std.Irrefl fun a b : κ × α => compare a.1 b.1 = .lt := ⟨fun a h => by simp at h⟩
  have hantisymm : Std.Antisymm fun a b : κ × α => compare a.1 b.1 = .lt :=
    ⟨fun a b hab hba => by simp [Std.OrientedCmp.gt_of_lt hab] at hba⟩
  have hmem : ∀ p, p ∈ m.entries ↔ p ∈ m'.entries := by
    intro p
    rw [← find?_eq_some_iff, hfind, find?_eq_some_iff]
  obtain ⟨entries, sorted⟩ := m
  obtain ⟨entries', sorted'⟩ := m'
  cases sorted.eq_of_mem_iff sorted' hmem
  rfl

end SortedMap

namespace Bindings

variable {b : Bindings} {name : String}

/-- Whether a value has been seen for a variable, at whatever position. -/
def Observed (b : Bindings) (name : String) (v : Value) : Prop :=
  ∃ p ∈ b.observations name, v ∈ p.2

theorem observed_iff {v : Value} :
    b.Observed name v ↔
      ∃ locus, v ∈ (((b.find? name).getD default).observations.find? locus).getD [] := by
  unfold Observed observations
  cases b.find? name with
  | none => exact iff_of_false (by simp) fun ⟨_, hv⟩ => nomatch hv
  | some binding =>
      simp only [Option.map_some, Option.getD_some]
      constructor
      · rintro ⟨p, hp, hv⟩
        refine ⟨p.1, ?_⟩
        rw [SortedMap.find?_eq_some_iff.2 hp]
        exact hv
      · rintro ⟨locus, hv⟩
        cases hl : binding.observations.find? locus with
        | none => rw [hl] at hv; cases hv
        | some values =>
            rw [hl] at hv
            exact ⟨_, SortedMap.find?_eq_some_iff.1 hl, hv⟩

/-- A variable with a value has been bound. -/
theorem types_of_observed {v : Value} (hv : b.Observed name v) :
    ∃ types, b.types? name = some types := by
  obtain ⟨p, hp, _⟩ := hv
  unfold observations at hp
  unfold types?
  cases hb : b.find? name with
  | none => rw [hb] at hp; cases hp
  | some binding => exact ⟨binding.types, rfl⟩

theorem contains_eq : b.contains name = (b.types? name).isSome := by
  rw [types?, Option.isSome_map, SortedMap.contains]

theorem not_observed_empty {v : Value} : ¬ Observed ∅ name v := by
  rintro ⟨p, hp, _⟩
  cases hp

theorem types?_bind (types : List Ty) (other : String) :
    (b.bind name types).types? other = if name = other then some types else b.types? other := by
  rw [types?, bind, SortedMap.find?_insert]
  split
  · rfl
  · rfl

theorem types?_observe {locus : Locus} {values : List Value} {other : String}
    (hne : name ≠ other) :
    (b.observe name locus values).types? other = b.types? other := by
  rw [types?, observe, SortedMap.find?_insert, if_neg hne]
  rfl

theorem observed_bind {types : List Ty} {other : String} {v : Value} :
    (b.bind name types).Observed other v ↔ b.Observed other v := by
  rw [observed_iff, observed_iff, bind, SortedMap.find?_insert]
  split
  · next heq => rw [heq]; rfl
  · rfl

theorem observed_observe {locus : Locus} {values : List Value} {other : String}
    {v : Value} :
    (b.observe name locus values).Observed other v ↔
      b.Observed other v ∨ name = other ∧ v ∈ values := by
  rw [observed_iff, observed_iff, observe, SortedMap.find?_insert]
  split
  · next heq =>
      subst heq
      simp only [Option.getD_some, SortedMap.find?_insert, true_and]
      constructor
      · rintro ⟨l, hv⟩
        split at hv
        · rcases List.mem_append.1 hv with hv | hv
          · exact .inl ⟨locus, hv⟩
          · exact .inr hv
        · exact .inl ⟨l, hv⟩
      · rintro (⟨l, hv⟩ | hv)
        · refine ⟨l, ?_⟩
          split
          · next heq => exact List.mem_append_left _ (heq ▸ hv)
          · exact hv
        · exact ⟨locus, by simp [hv]⟩
  · next hne => simp [hne]

/-- A variable that has taken values remembers them, and no other has seen anything
new. -/
theorem observed_bind_observe {locus : Locus} {values : List Value} {types : List Ty}
    {other : String} {v : Value} :
    ((b.observe name locus values).bind name types).Observed other v ↔
      b.Observed other v ∨ name = other ∧ v ∈ values := by
  rw [observed_bind, observed_observe]

/-- The values seen for a variable, position by position. -/
def seen (b : Bindings) (name : String) : List Value :=
  (b.observations name).flatMap (·.2)

theorem mem_seen {v : Value} : v ∈ b.seen name ↔ b.Observed name v := List.mem_flatMap

theorem exists_mem_observations (b : Bindings) (name : String) (locus : Locus)
    (values : List Value) :
    ∃ all, (locus, all) ∈ (b.observe name locus values).observations name ∧
      ∀ v ∈ values, v ∈ all := by
  refine ⟨((((b.find? name).getD default).observations.find? locus).getD []) ++ values, ?_,
    fun v hv => List.mem_append_right _ hv⟩
  rw [observations, observe, SortedMap.find?_insert, if_pos rfl, Option.map_some, Option.getD_some]
  rw [← SortedMap.find?_eq_some_iff, SortedMap.find?_insert, if_pos rfl]

/-- Whether everything seen in some bindings is still there in others. -/
def Within (b b' : Bindings) : Prop :=
  ∀ (name : String) (v : Value), b.Observed name v → b'.Observed name v

theorem Within.refl (b : Bindings) : b.Within b := fun _ _ hv => hv

theorem Within.trans {b b' b'' : Bindings} (hb : b.Within b') (hb' : b'.Within b'') :
    b.Within b'' :=
  fun name v hv => hb' name v (hb name v hv)

end Bindings

end DynamicTypes
