import Mathlib.Data.List.Induction
import Mathlib.Data.List.Perm.Basic
import Mathlib.Data.String.Basic
import Mathlib.Order.Compare
import DynamicTypes.Proofs.Bindings
import DynamicTypes.Ty.Declaration

/-!
# Which records can be declared, and what they hold

Fields are declared one after the other, each put into its place among those before
it. The declaration fails at the first field that cannot be there: its name is not a
field name, or its type is not one that a field can have, or the name is taken.

`Declarable` says which sequences pass, without looking at the order, and `Fault` says
what is wrong with a field after others. A sequence is declarable, or it has a
declarable beginning with a fault behind it; the run of the declaration follows from
that, one field at a time. What is declared holds the fields that were given, sorted,
and since only one list of them is sorted, the order in which they were given cannot
be seen.
-/

namespace DynamicTypes

namespace SortedMap

variable {κ α : Type} [Ord κ]

theorem insertEntry_perm {key : κ} {value : α} {l : List (κ × α)}
    (hnew : ∀ p ∈ l, compare key p.1 ≠ .eq) :
    (insertEntry key value l).Perm ((key, value) :: l) := by
  induction l with
  | nil => exact .refl _
  | cons head rest ih =>
      rw [List.forall_mem_cons] at hnew
      rw [insertEntry]
      split
      · exact .refl _
      · next heq => exact absurd heq hnew.1
      · exact ((ih hnew.2).cons head).trans (.swap _ _ _)

theorem mem_keys_iff [Std.LawfulEqOrd κ] {m : SortedMap κ α} {key : κ} :
    key ∈ m.keys ↔ m.contains key = true := by
  rw [contains, Option.isSome_iff_exists, keys, List.mem_map]
  constructor
  · rintro ⟨p, hp, rfl⟩
    exact ⟨p.2, find?_eq_some_iff.2 hp⟩
  · rintro ⟨a, ha⟩
    exact ⟨(key, a), find?_eq_some_iff.1 ha, rfl⟩

theorem entries_insert_perm [Std.TransOrd κ] [Std.LawfulEqOrd κ] {m : SortedMap κ α}
    {key : κ} (hnew : key ∉ m.keys) (value : α) :
    (m.insert key value).entries.Perm ((key, value) :: m.entries) := by
  refine insertEntry_perm fun p hp heq => hnew ?_
  rw [Std.LawfulEqCmp.eq_of_compare heq]
  exact List.mem_map.2 ⟨p, hp, rfl⟩

end SortedMap

namespace Ty

variable {name : String} {t : Ty} {p : String × Ty} {before after pairs : List (String × Ty)}
  {e : DeclarationError}

/-! ## Fields that can be declared, and what is wrong with others -/

/-- Whether fields can be declared together. -/
structure Declarable (pairs : List (String × Ty)) : Prop where
  names : ∀ p ∈ pairs, p.1 ≠ "" ∧ p.1.toList.head? ≠ some '$'
  types : ∀ p ∈ pairs, p.2 ≠ inconsistent ∧ p.2 ≠ noArguments
  distinct : (pairs.map (·.1)).Nodup

/-- What is wrong with a field that comes after others. Its name is looked at before its
type, and the names of the others last. -/
inductive Fault (before : List (String × Ty)) :
    String × Ty → DeclarationError → Prop where
  | name {name : String} (t : Ty) (bad : name = "" ∨ name.toList.head? = some '$') :
      Fault before (name, t) (.invalidFieldName name)
  | type {name : String} {t : Ty} (named : name ≠ "" ∧ name.toList.head? ≠ some '$')
      (bad : t = inconsistent ∨ t = noArguments) :
      Fault before (name, t) (.invalidFieldType name t.format)
  | duplicate {name : String} {t : Ty} (named : name ≠ "" ∧ name.toList.head? ≠ some '$')
      (typed : t ≠ inconsistent ∧ t ≠ noArguments) (taken : name ∈ before.map (·.1)) :
      Fault before (name, t) (.duplicateField name)

theorem isFieldName_iff : isFieldName name = true ↔ name ≠ "" ∧ name.toList.head? ≠ some '$' := by
  rw [← String.toList_inj.ne, isFieldName]
  split
  · next h => simp [h]
  · next h => simp [h]
  · next hnil hdollar =>
      cases hname : name.toList with
      | nil => exact absurd hname hnil
      | cons c cs =>
          have hc : c ≠ '$' := fun heq => hdollar cs (heq ▸ hname)
          simpa using hc

theorem isFieldType_iff : t.isFieldType = true ↔ t ≠ inconsistent ∧ t ≠ noArguments := by
  cases t <;> simp [isFieldType]

theorem declarable_concat_iff : Declarable (before ++ [p]) ↔
    Declarable before ∧ (p.1 ≠ "" ∧ p.1.toList.head? ≠ some '$') ∧
      (p.2 ≠ inconsistent ∧ p.2 ≠ noArguments) ∧ p.1 ∉ before.map (·.1) := by
  constructor
  · rintro ⟨names, types, distinct⟩
    rw [List.forall_mem_append, List.forall_mem_singleton] at names types
    rw [List.map_append, List.map_singleton, List.nodup_append] at distinct
    refine ⟨⟨names.1, types.1, distinct.1⟩, names.2, types.2, fun hmem => ?_⟩
    exact distinct.2.2 p.1 hmem p.1 (List.mem_singleton.2 rfl) rfl
  · rintro ⟨⟨names, types, distinct⟩, hname, htype, hnew⟩
    refine ⟨?_, ?_, ?_⟩
    · rw [List.forall_mem_append, List.forall_mem_singleton]
      exact ⟨names, hname⟩
    · rw [List.forall_mem_append, List.forall_mem_singleton]
      exact ⟨types, htype⟩
    · rw [List.map_append, List.map_singleton, List.nodup_append]
      refine ⟨distinct, List.nodup_singleton _, ?_⟩
      rintro k hk l hl rfl
      exact hnew (List.mem_singleton.1 hl ▸ hk)

theorem Declarable.perm {pairs' : List (String × Ty)} (hpairs : Declarable pairs)
    (hperm : pairs'.Perm pairs) : Declarable pairs' :=
  ⟨fun p hp => hpairs.names p (hperm.mem_iff.1 hp), fun p hp => hpairs.types p (hperm.mem_iff.1 hp),
    (hperm.map _).nodup_iff.2 hpairs.distinct⟩

/-- One more field can be declared, or something is wrong with it. -/
theorem Declarable.concat_or_fault (hbefore : Declarable before) (p : String × Ty) :
    Declarable (before ++ [p]) ∨ ∃ e, Fault before p e := by
  obtain ⟨name, t⟩ := p
  by_cases hname : name ≠ "" ∧ name.toList.head? ≠ some '$'
  · by_cases htype : t ≠ inconsistent ∧ t ≠ noArguments
    · by_cases htaken : name ∈ before.map (·.1)
      · exact .inr ⟨_, .duplicate hname htype htaken⟩
      · exact .inl (declarable_concat_iff.2 ⟨hbefore, hname, htype, htaken⟩)
    · rw [not_and_or, not_not, not_not] at htype
      exact .inr ⟨_, .type hname htype⟩
  · rw [not_and_or, not_not, not_not] at hname
    exact .inr ⟨_, .name t hname⟩

/-- Fields that cannot be declared together have a first one at fault. -/
theorem exists_fault_of_not_declarable (hpairs : ¬ Declarable pairs) :
    ∃ before p after e, pairs = before ++ p :: after ∧ Declarable before ∧ Fault before p e := by
  induction pairs using List.reverseRecOn with
  | nil => exact absurd ⟨nofun, nofun, List.nodup_nil⟩ hpairs
  | append_singleton pairs p ih =>
      by_cases hbefore : Declarable pairs
      · obtain ⟨e, he⟩ := (hbefore.concat_or_fault p).resolve_left hpairs
        exact ⟨pairs, p, [], e, rfl, hbefore, he⟩
      · obtain ⟨before, q, after, e, rfl, hbefore, he⟩ := ih hbefore
        exact ⟨before, q, after ++ [p], e, by simp, hbefore, he⟩

/-! ## One field, then all of them -/

variable {declared : SortedMap String Ty}

theorem declareField_of_fault (hheld : declared.entries.Perm before)
    (hp : Fault before p e) :
    declareField declared p.1 p.2 = .error e := by
  unfold declareField
  cases hp with
  | @name name t bad =>
      have hname : isFieldName name = false := by
        rw [← Bool.not_eq_true, isFieldName_iff]
        exact fun h => bad.elim h.1 h.2
      simp [hname]
  | @type name t named bad =>
      have htype : t.isFieldType = false := by
        rw [← Bool.not_eq_true, isFieldType_iff]
        exact fun h => bad.elim h.1 h.2
      simp [isFieldName_iff.2 named, htype]
  | @duplicate name t named typed taken =>
      have htaken : declared.contains name = true :=
        SortedMap.mem_keys_iff.1 ((hheld.map _).mem_iff.2 taken)
      simp [isFieldName_iff.2 named, isFieldType_iff.2 typed, htaken]

theorem declareField_of_declarable (hheld : declared.entries.Perm before)
    (hp : Declarable (before ++ [p])) :
    ∃ declared', declareField declared p.1 p.2 = .ok declared' ∧
      declared'.entries.Perm (before ++ [p]) := by
  obtain ⟨_, hname, htype, hnew⟩ := declarable_concat_iff.1 hp
  have hfree : p.1 ∉ declared.keys := fun hmem => hnew ((hheld.map _).mem_iff.1 hmem)
  refine ⟨declared.insert p.1 p.2, ?_, ?_⟩
  · unfold declareField
    simp [isFieldName_iff.2 hname, isFieldType_iff.2 htype, ← SortedMap.mem_keys_iff, hfree]
  · exact ((SortedMap.entries_insert_perm hfree p.2).trans (hheld.cons p)).trans
      (List.perm_append_singleton p before).symm

theorem declareFields_append (declared : SortedMap String Ty)
    (before after : List (String × Ty)) :
    declareFields declared (before ++ after) =
      (declareFields declared before).bind (declareFields · after) := by
  induction before generalizing declared with
  | nil => rfl
  | cons p before ih =>
      rw [List.cons_append, declareFields, declareFields]
      split
      · rfl
      · exact ih _

theorem declareFields_of_declarable (hpairs : Declarable pairs) :
    ∃ declared, declareFields ∅ pairs = .ok declared ∧ declared.entries.Perm pairs := by
  induction pairs using List.reverseRecOn with
  | nil => exact ⟨∅, rfl, .refl _⟩
  | append_singleton pairs p ih =>
      obtain ⟨declared, hdeclared, hheld⟩ := ih (declarable_concat_iff.1 hpairs).1
      obtain ⟨declared', hfield, hheld'⟩ := declareField_of_declarable hheld hpairs
      refine ⟨declared', ?_, hheld'⟩
      rw [declareFields_append, hdeclared]
      show declareFields declared [p] = _
      rw [declareFields, hfield]
      rfl

theorem declareFields_of_fault (hbefore : Declarable before) (hp : Fault before p e) :
    declareFields ∅ (before ++ p :: after) = .error e := by
  obtain ⟨declared, hdeclared, hheld⟩ := declareFields_of_declarable hbefore
  rw [declareFields_append, hdeclared]
  show declareFields declared (p :: after) = _
  rw [declareFields, declareField_of_fault hheld hp]

/-! ## What is declared -/

theorem fieldType?_record {r : RecordName} {supers : List Ty} :
    (record r supers declared.entries).fieldType? name = declared.find? name := by
  rw [fieldType?, SortedMap.find?]
  congr 2
  funext p
  rw [SortedMap.compare_beq_eq]
  rfl

/-- The same fields, in whatever order they are given, make one map. -/
theorem eq_of_entries_perm {declared' : SortedMap String Ty}
    (h : declared.entries.Perm declared'.entries) : declared = declared' := by
  refine SortedMap.ext_find? fun key => Option.ext fun u => ?_
  rw [SortedMap.find?_eq_some_iff, SortedMap.find?_eq_some_iff, h.mem_iff]

/-- Whatever fields are given, a record with them can be declared exactly if they have
distinct field names and types that fields can have. Otherwise the error is that of the
first field at fault: its name, or else its type, or else that the name is taken. What
is declared holds the fields that were given, with names that strictly increase; each of
them is found under its name and nothing under any other name; and fields in another
order declare the same type. -/
theorem declareRecord_fields (pairs : List (String × Ty)) :
    ((∃ t, declareRecord pairs = .ok t) ↔ Declarable pairs) ∧
    (∀ e, declareRecord pairs = .error e ↔
      ∃ before p after, pairs = before ++ p :: after ∧ Declarable before ∧ Fault before p e) ∧
    ∀ t, declareRecord pairs = .ok t → ∃ fields, t = record ⟨none, ""⟩ [] fields ∧
      fields.Pairwise (fun f g => f.1 < g.1) ∧ fields.Perm pairs ∧
      (∀ name u, t.fieldType? name = some u ↔ (name, u) ∈ pairs) ∧
      (∀ name, name ∉ pairs.map (·.1) → t.fieldType? name = none) ∧
      ∀ pairs', pairs'.Perm pairs → declareRecord pairs' = .ok t := by
  by_cases hpairs : Declarable pairs
  · obtain ⟨declared, hdeclared, hheld⟩ := declareFields_of_declarable hpairs
    have hrecord : declareRecord pairs = .ok (record ⟨none, ""⟩ [] declared.entries) := by
      rw [declareRecord, hdeclared]
    refine ⟨iff_of_true ⟨_, hrecord⟩ hpairs, fun e => iff_of_false (by simp [hrecord]) ?_, ?_⟩
    · rintro ⟨before, p, after, rfl, hbefore, hp⟩
      cases hdeclared.symm.trans (declareFields_of_fault hbefore hp)
    · intro t ht
      cases hrecord.symm.trans ht
      have hfound : ∀ name u, (record ⟨none, ""⟩ [] declared.entries).fieldType? name = some u ↔
          (name, u) ∈ pairs := by
        intro name u
        rw [fieldType?_record, SortedMap.find?_eq_some_iff, hheld.mem_iff]
      refine ⟨declared.entries, rfl, declared.sorted.imp compare_lt_iff_lt.1, hheld, hfound,
        fun name hname => ?_, fun pairs' hperm => ?_⟩
      · refine Option.eq_none_iff_forall_ne_some.2 fun u hu => hname ?_
        exact List.mem_map.2 ⟨_, (hfound name u).1 hu, rfl⟩
      · obtain ⟨declared', hdeclared', hheld'⟩ := declareFields_of_declarable (hpairs.perm hperm)
        rw [declareRecord, hdeclared', eq_of_entries_perm ((hheld'.trans hperm).trans hheld.symm)]
  · obtain ⟨before, p, after, e, rfl, hbefore, hp⟩ := exists_fault_of_not_declarable hpairs
    have hfails : declareRecord (before ++ p :: after) = .error e := by
      rw [declareRecord, declareFields_of_fault hbefore hp]
    refine ⟨iff_of_false (by simp [hfails]) hpairs, fun e' => ⟨fun he' => ?_, ?_⟩, fun t ht => ?_⟩
    · cases hfails.symm.trans he'
      exact ⟨before, p, after, rfl, hbefore, hp⟩
    · rintro ⟨before', p', after', heq, hbefore', hp'⟩
      rw [heq, declareRecord, declareFields_of_fault hbefore' hp']
    · cases hfails.symm.trans ht

/-- Two fields declare the same record in either order, and a field with a name that is
taken and a type that no field has is refused for its type. -/
theorem declareRecord_fields_swapped :
    (∃ t, declareRecord [("y", .any), ("x", .unknown)] = .ok t ∧
      declareRecord [("x", .unknown), ("y", .any)] = .ok t ∧
      t.fieldType? "x" = some .unknown ∧ t.fieldType? "z" = none) ∧
    declareRecord [("y", .any), ("y", .inconsistent), ("", .any)] =
      .error (.invalidFieldType "y" (format .inconsistent)) := by
  have hy : Declarable [("y", .any)] := ⟨by decide, by simp, List.nodup_singleton _⟩
  have hyx : Declarable ([("y", .any)] ++ [("x", .unknown)]) :=
    declarable_concat_iff.2 ⟨hy, by decide, by simp, by decide⟩
  obtain ⟨hok, _, hfields⟩ := declareRecord_fields [("y", .any), ("x", .unknown)]
  obtain ⟨t, ht⟩ := hok.2 hyx
  obtain ⟨_, _, _, _, hfound, hnone, hperm⟩ := hfields t ht
  refine ⟨⟨t, ht, hperm _ (.swap _ _ _), (hfound _ _).2 (by simp), hnone "z" (by decide)⟩, ?_⟩
  exact ((declareRecord_fields _).2.1 _).2
    ⟨[("y", .any)], ("y", .inconsistent), [("", .any)], rfl, hy, .type (by decide) (.inl rfl)⟩

end Ty

end DynamicTypes
