import DynamicTypes.Classification
import DynamicTypes.Proofs.TypeOrder

/-!
# What the steps of classification compute

One lemma for each step, in terms of membership and of the order on types, so that
no later proof has to look into the lists that the steps build.

The lemma that carries the rest is `exists_le_common`. The types that several
values share are found by merging list after list, and which types come out
depends on the way there. What lies above them does not: a type is above a shared
type exactly if for each value it is above one of that value's own types.
-/

namespace DynamicTypes

namespace Ty

/-! ## Lists without repetitions -/

theorem mem_of_mem_addUnique {ts : List Ty} {t u : Ty} (h : u ∈ addUnique ts t) :
    u ∈ ts ∨ u = t := by
  unfold addUnique at h
  split at h
  · exact .inl h
  · rcases List.mem_append.1 h with h | h
    · exact .inl h
    · exact .inr (List.mem_singleton.1 h)

theorem subset_addUnique {ts : List Ty} {t u : Ty} (h : u ∈ ts) :
    u ∈ addUnique ts t := by
  unfold addUnique
  split
  · exact h
  · exact List.mem_append_left _ h

theorem exists_mem_addUnique (ts : List Ty) (t : Ty) :
    ∃ u ∈ addUnique ts t, (t == u) = true := by
  unfold addUnique
  split
  · next h => exact List.contains_iff_exists_mem_beq.1 h
  · exact ⟨t, by simp, BEq.rfl⟩

theorem distinct_addUnique {ts : List Ty} {t : Ty}
    (h : ts.Pairwise fun t u => (t == u) = false) :
    (addUnique ts t).Pairwise fun t u => (t == u) = false := by
  unfold addUnique
  split
  · exact h
  · next hnew =>
      refine List.pairwise_append.2 ⟨h, List.pairwise_singleton _ _, fun u hu t' ht' => ?_⟩
      rw [List.mem_singleton.1 ht']
      refine Bool.eq_false_iff.2 fun heq => hnew ?_
      exact List.contains_iff_exists_mem_beq.2 ⟨u, hu, BEq.symm heq⟩

theorem mem_of_mem_unique {ts : List Ty} {t : Ty} (h : t ∈ unique ts) : t ∈ ts := by
  have go : ∀ (ts acc : List Ty), t ∈ ts.foldl addUnique acc → t ∈ acc ∨ t ∈ ts := by
    intro ts
    induction ts with
    | nil => exact fun acc h => .inl h
    | cons u ts ih =>
        intro acc h
        rcases ih _ h with h | h
        · rcases mem_of_mem_addUnique h with h | rfl
          · exact .inl h
          · exact .inr (by simp)
        · exact .inr (by simp [h])
  rcases go ts [] h with h | h
  · cases h
  · exact h

/-- Each type of a list has an equal one left when repetitions are dropped. -/
theorem exists_mem_unique {ts : List Ty} {t : Ty} (h : t ∈ ts) :
    ∃ u ∈ unique ts, (t == u) = true := by
  have keep : ∀ (ts acc : List Ty) (u : Ty), u ∈ acc → u ∈ ts.foldl addUnique acc := by
    intro ts
    induction ts with
    | nil => exact fun acc u h => h
    | cons t ts ih => exact fun acc u h => ih _ u (subset_addUnique h)
  have go : ∀ (ts acc : List Ty), t ∈ ts → ∃ u ∈ ts.foldl addUnique acc, (t == u) = true := by
    intro ts
    induction ts with
    | nil => exact fun acc h => absurd h List.not_mem_nil
    | cons t' ts ih =>
        intro acc h
        rcases List.mem_cons.1 h with rfl | h
        · obtain ⟨u, hu, heq⟩ := exists_mem_addUnique acc t
          exact ⟨u, keep ts _ u hu, heq⟩
        · exact ih _ h
  exact go ts [] h

theorem distinct_unique (ts : List Ty) :
    (unique ts).Pairwise fun t u => (t == u) = false := by
  have go : ∀ (ts acc : List Ty), (acc.Pairwise fun t u => (t == u) = false) →
      (ts.foldl addUnique acc).Pairwise fun t u => (t == u) = false := by
    intro ts
    induction ts with
    | nil => exact fun acc h => h
    | cons t ts ih => exact fun acc h => ih _ (distinct_addUnique h)
  exact go ts [] .nil

/-! ## What two lists of types have in common -/

theorem mem_intersect {ts us : List Ty} {m : Ty} (h : m ∈ intersect ts us) :
    ∃ t ∈ ts, ∃ u ∈ us, merge? t u = some m := by
  obtain ⟨t, ht, hm⟩ := List.mem_flatMap.1 (mem_of_mem_unique h)
  obtain ⟨u, hu, hm⟩ := List.mem_filterMap.1 hm
  exact ⟨t, ht, u, hu, hm⟩

/-- What lies above a common type lies above a type of each list. -/
theorem exists_le_intersect {ts us : List Ty} {x : Ty} :
    (∃ m ∈ intersect ts us, m ≤ x) ↔ (∃ t ∈ ts, t ≤ x) ∧ ∃ u ∈ us, u ≤ x := by
  constructor
  · rintro ⟨m, hm, hmx⟩
    obtain ⟨t, ht, u, hu, hmerge⟩ := mem_intersect hm
    have hle := le_of_merge hmerge
    exact ⟨⟨t, ht, le_trans hle.1 hmx⟩, u, hu, le_trans hle.2 hmx⟩
  · rintro ⟨⟨t, ht, htx⟩, u, hu, hux⟩
    obtain ⟨m, hm, hmx⟩ := merge_of_le htx hux
    have hmem : m ∈ ts.flatMap fun t => us.filterMap (t.merge? ·) :=
      List.mem_flatMap.2 ⟨t, ht, List.mem_filterMap.2 ⟨u, hu, hm⟩⟩
    obtain ⟨m', hm', heq⟩ := exists_mem_unique hmem
    exact ⟨m', hm', le_trans (le_of_beq (BEq.symm heq)) hmx⟩

/-! ## Choices of parameters -/

theorem mem_choices {options : List (List Ty)} {ts : List Ty} :
    ts ∈ choices options ↔ List.Forall₂ (· ∈ ·) ts options := by
  induction options generalizing ts with
  | nil =>
      rw [choices, List.mem_singleton, List.forall₂_nil_right_iff]
  | cons first rest ih =>
      simp only [choices, List.mem_flatMap, List.mem_map, ih]
      constructor
      · rintro ⟨t, ht, us, hus, rfl⟩
        exact .cons ht hus
      · intro h
        cases h with
        | cons ht hus => exact ⟨_, ht, _, hus, rfl⟩

theorem withParams_con {c : Constructor} {supers ps qs : List Ty}
    (hlen : qs.length = ps.length) :
    (con c supers ps).withParams qs = con c supers qs := by
  show con c supers (qs.take ps.length ++ ps.drop qs.length) = _
  rw [← hlen, List.take_length, hlen, List.drop_length, List.append_nil]

end Ty

namespace Classification

open Ty (intersect)

variable {h : Heap} {env : List Ty}

/-! ## The types that values share -/

/-- The types that the classifications of the values have in common. -/
def common (classify : Value → List Ty) (v : Value) (vs : List Value) : List Ty :=
  vs.foldl (fun types w => intersect types (classify w)) (classify v)

/-- What lies above a type that the values share lies above a type of each of them. -/
theorem exists_le_common {classify : Value → List Ty} {v : Value} {vs : List Value}
    {x : Ty} :
    (∃ m ∈ common classify v vs, m ≤ x) ↔ ∀ w ∈ v :: vs, ∃ t ∈ classify w, t ≤ x := by
  have go : ∀ (vs : List Value) (init : List Ty),
      (∃ m ∈ vs.foldl (fun types w => intersect types (classify w)) init, m ≤ x) ↔
        (∃ t ∈ init, t ≤ x) ∧ ∀ w ∈ vs, ∃ t ∈ classify w, t ≤ x := by
    intro vs
    induction vs with
    | nil => simp
    | cons w vs ih =>
        intro init
        rw [List.foldl_cons, ih, Ty.exists_le_intersect, List.forall_mem_cons, and_assoc]
  rw [List.forall_mem_cons]
  exact go vs (classify v)

/-- A relation that merging keeps, and that holds among the types of each value, holds
among all types that the values share. -/
theorem common_induction {R : Ty → Ty → Prop} {classify : Value → List Ty}
    (merge : ∀ t t' u u' m m', R t t' → R u u' → Ty.merge? t u = some m →
      Ty.merge? t' u' = some m' → R m m') {v : Value} {vs : List Value}
    (hall : ∀ w ∈ v :: vs, ∀ t ∈ classify w, ∀ t' ∈ classify w, R t t') :
    ∀ m ∈ common classify v vs, ∀ m' ∈ common classify v vs, R m m' := by
  have go : ∀ (vs : List Value) (init : List Ty), (∀ t ∈ init, ∀ t' ∈ init, R t t') →
      (∀ w ∈ vs, ∀ t ∈ classify w, ∀ t' ∈ classify w, R t t') →
      ∀ m ∈ vs.foldl (fun types w => intersect types (classify w)) init,
        ∀ m' ∈ vs.foldl (fun types w => intersect types (classify w)) init, R m m' := by
    intro vs
    induction vs with
    | nil => exact fun init hinit _ => hinit
    | cons w vs ih =>
        intro init hinit hvs
        rw [List.forall_mem_cons] at hvs
        refine ih _ (fun m hm m' hm' => ?_) hvs.2
        obtain ⟨t, ht, u, hu, hmerge⟩ := Ty.mem_intersect hm
        obtain ⟨t', ht', u', hu', hmerge'⟩ := Ty.mem_intersect hm'
        exact merge t t' u u' m m' (hinit t ht t' ht') (hvs.1 u hu u' hu') hmerge hmerge'
  rw [List.forall_mem_cons] at hall
  exact go vs (classify v) hall.1 hall.2

/-- The types that values share are all different. -/
theorem distinct_common {classify : Value → List Ty} {v : Value} {vs : List Value}
    (hv : (classify v).Pairwise fun t u => (t == u) = false) :
    (common classify v vs).Pairwise fun t u => (t == u) = false := by
  have go : ∀ (vs : List Value) (init : List Ty), (init.Pairwise fun t u => (t == u) = false) →
      (vs.foldl (fun types w => intersect types (classify w)) init).Pairwise
        fun t u => (t == u) = false := by
    intro vs
    induction vs with
    | nil => exact fun init hinit => hinit
    | cons w vs ih => exact fun init _ => ih _ (Ty.distinct_unique _)
  exact go vs (classify v) hv

theorem commonTag_eq_some {v : Value} {vs : List Value} {tag : String} :
    commonTag? h (v :: vs) = some tag ↔ ∀ w ∈ v :: vs, w.tag? h = some tag := by
  rw [commonTag?, Option.filter_eq_some_iff, List.forall_mem_cons, List.all_eq_true]
  refine and_congr_right fun _ => ?_
  simp only [beq_iff_eq]

theorem perm_insertSorted {t : Ty} {types : List Ty} :
    (insertSorted env t types).Perm (t :: types) := by
  induction types with
  | nil => exact .refl _
  | cons u types ih =>
      rw [insertSorted]
      split
      · exact .refl _
      · exact (ih.cons u).trans (.swap t u types)

theorem perm_sort {types : List Ty} : (sort env types).Perm types := by
  induction types with
  | nil => exact .refl _
  | cons t types ih => exact perm_insertSorted.trans (ih.cons t)

theorem mem_sort {t : Ty} {types : List Ty} :
    t ∈ sort env types ↔ t ∈ types :=
  perm_sort.mem_iff

theorem determineBy_eq (h : Heap) (env : List Ty) (classify : Value → List Ty)
    (v : Value) (vs : List Value) :
    determineBy h env classify (v :: vs) =
      if common classify v vs = [] then
        [((commonTag? h (v :: vs)).map Ty.foreign).getD .inconsistent]
      else sort env (common classify v vs) := by
  rw [determineBy, ← common]
  split
  · next hnil =>
      rw [if_pos hnil]
      cases commonTag? h (v :: vs) <;> rfl
  · next hne => rw [if_neg hne]

/-- All that can come out when values are classified together. -/
theorem determineBy_cases (h : Heap) (env : List Ty) (classify : Value → List Ty)
    (v : Value) (vs : List Value) :
    (common classify v vs ≠ [] ∧
      determineBy h env classify (v :: vs) = sort env (common classify v vs)) ∨
    (common classify v vs = [] ∧ ∃ tag, commonTag? h (v :: vs) = some tag ∧
      determineBy h env classify (v :: vs) = [.foreign tag]) ∨
    (common classify v vs = [] ∧ commonTag? h (v :: vs) = none ∧
      determineBy h env classify (v :: vs) = [.inconsistent]) := by
  rw [determineBy_eq]
  split
  · next hnil =>
      cases htag : commonTag? h (v :: vs) with
      | some tag => exact .inr (.inl ⟨hnil, tag, rfl, rfl⟩)
      | none => exact .inr (.inr ⟨hnil, rfl, rfl⟩)
  · next hne => exact .inl ⟨hne, rfl⟩

/-! ## Parameters filled from what a value holds -/

/-- A type without parameters has nothing to fill. -/
theorem expandBy_of_params {determine : List Value → List Ty} {keep : Nat} {t : Ty}
    {v : Value} (hp : t.params = []) : expandBy h determine keep t v = [t] := by
  have hw : t.withParams [] = t := by cases t <;> simp_all [Ty.withParams, Ty.params]
  rw [expandBy, hp]
  show [t.withParams []] = [t]
  rw [hw]

/-- The instances of a constructor that a value gives: an unknown parameter, unless it
is one of the last `keep`, becomes a type of what the value holds there, and every other
stays. -/
theorem mem_expandBy_con {determine : List Value → List Ty} {keep : Nat}
    {c : Constructor} {supers ps : List Ty} {v : Value} {t : Ty} :
    t ∈ expandBy h determine keep (.con c supers ps) v ↔
      ∃ qs, t = .con c supers qs ∧ qs.length = ps.length ∧
        ∀ (i : Nat) (p q : Ty), ps[i]? = some p → qs[i]? = some q →
          if i + keep < ps.length && p.isUnknown then q ∈ determine (c.held i h v) else q = p := by
  have hoptions : ∀ (qs : List Ty),
      qs ∈ Ty.choices (ps.zipIdx.map fun x =>
        if x.2 + keep < ps.length && x.1.isUnknown then determine (c.held x.2 h v) else [x.1]) ↔
      qs.length = ps.length ∧ ∀ (i : Nat) (p q : Ty), ps[i]? = some p → qs[i]? = some q →
        if i + keep < ps.length && p.isUnknown then q ∈ determine (c.held i h v) else q = p := by
    intro qs
    rw [Ty.mem_choices, forall₂_iff_getElem?, List.length_map, List.length_zipIdx]
    refine and_congr_right fun _ => ⟨fun hall i p q hp hq => ?_, fun hall i q options hq ho => ?_⟩
    · have hmem := hall i q _ hq (by rw [List.getElem?_map, List.getElem?_zipIdx, hp]; rfl)
      simp only [Nat.zero_add] at hmem
      split at hmem
      · next hopen => rw [if_pos hopen]; exact hmem
      · next hopen => rw [if_neg hopen]; exact List.mem_singleton.1 hmem
    · rw [List.getElem?_map, List.getElem?_zipIdx] at ho
      simp only [Option.map_map, Option.map_eq_some_iff] at ho
      obtain ⟨p, hp, rfl⟩ := ho
      have hmem := hall i p q hp hq
      simp only [Function.comp_apply, Nat.zero_add]
      split at hmem
      · next hopen => rw [if_pos hopen]; exact hmem
      · next hopen => rw [if_neg hopen]; exact List.mem_singleton.2 hmem
  rw [expandBy, List.mem_map]
  constructor
  · rintro ⟨qs, hqs, rfl⟩
    have hspec := (hoptions qs).1 hqs
    exact ⟨qs, Ty.withParams_con hspec.1, hspec⟩
  · rintro ⟨qs, rfl, hspec⟩
    exact ⟨qs, (hoptions qs).2 hspec, Ty.withParams_con hspec.1⟩

/-- The types of a value are instances of the entries that it is a member of. -/
theorem mem_classify {depth : Nat} {seen : List Ref} {v : Value} {t : Ty}
    (ht : t ∈ classify h env (depth + 1) seen v) :
    ∃ e ∈ env, e.isMember h v = true ∧
      t ∈ expandBy h (determineBy h env (classify h env depth (v.identity?.toList ++ seen)))
        0 e v := by
  rw [classify] at ht
  split at ht
  · cases ht
  · obtain ⟨e, he, ht⟩ := List.mem_flatMap.1 (Ty.mem_of_mem_unique ht)
    obtain ⟨hmem, hmember⟩ := List.mem_filter.1 he
    exact ⟨e, hmem, hmember, ht⟩

theorem distinct_classify (depth : Nat) (seen : List Ref) (v : Value) :
    (classify h env depth seen v).Pairwise fun t u => (t == u) = false := by
  cases depth with
  | zero => exact .nil
  | succ depth =>
      rw [classify]
      split
      · exact .nil
      · exact Ty.distinct_unique _

end Classification

end DynamicTypes
