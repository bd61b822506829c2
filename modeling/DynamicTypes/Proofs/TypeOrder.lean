import Mathlib.Order.Bounds.Basic
import DynamicTypes.Proofs.Lists
import DynamicTypes.Ty.Merge

/-!
# The order of information on types

Two types are equal when they have the same names and equal components, whatever
their predicates are. That is not equality of the descriptors, so it has to be
shown to be an equivalence before anything can be concluded from it.

Above it stands an order: `t ≤ u` when `u` says all that `t` says, so that `u` is
`t` with some of its unknown parameters filled. Types below each other are equal,
and `merge?` is the join: it answers exactly when the two types have an upper
bound, and then with the least one. Everything that classification does with the
types of several values rests on that, and on nothing else about `merge?`.
-/

namespace DynamicTypes

namespace Ty

/-- Induction over a type, its supertypes and its components. -/
@[induction_eliminator]
theorem induct {motive : Ty → Prop}
    (unknown : motive .unknown) (inconsistent : motive .inconsistent)
    (noArguments : motive .noArguments) (any : motive .any)
    (con : ∀ c supers params, (∀ t ∈ supers, motive t) → (∀ t ∈ params, motive t) →
      motive (.con c supers params))
    (enumeration : ∀ e, motive (.enumeration e))
    (record : ∀ r supers fields, (∀ t ∈ supers, motive t) → (∀ f ∈ fields, motive f.2) →
      motive (.record r supers fields))
    (function : ∀ types, (∀ t ∈ types, motive t) → motive (.function types))
    (var : ∀ name params, (∀ t ∈ params, motive t) → motive (.var name params)) (t : Ty) :
    motive t := by
  refine @Ty.rec motive (fun ts => ∀ t ∈ ts, motive t) (fun fs => ∀ f ∈ fs, motive f.2)
    (fun f => motive f.2) unknown inconsistent noArguments any con enumeration record function
    var ?_ ?_ ?_ ?_ ?_ t
  · exact fun t ht => absurd ht List.not_mem_nil
  · exact fun t ts ht hts => List.forall_mem_cons.2 ⟨ht, hts⟩
  · exact fun f hf => absurd hf List.not_mem_nil
  · exact fun f fs hf hfs => List.forall_mem_cons.2 ⟨hf, hfs⟩
  · exact fun _ _ ht => ht

/-! ## Equality is an equivalence -/

theorem beqAll_iff {ts us : List Ty} :
    beqAll ts us = true ↔ List.Forall₂ (fun t u => (t == u) = true) ts us := by
  induction ts generalizing us with
  | nil => cases us <;> simp [beqAll]
  | cons t ts ih =>
      cases us with
      | nil => simp [beqAll]
      | cons u us =>
          rw [beqAll, Bool.and_eq_true, List.forall₂_cons, ih]
          rfl

theorem beqFields_iff {fs gs : List (String × Ty)} :
    beqFields fs gs = true ↔
      List.Forall₂ (fun f g => f.1 = g.1 ∧ (f.2 == g.2) = true) fs gs := by
  induction fs generalizing gs with
  | nil => cases gs <;> simp [beqFields]
  | cons f fs ih =>
      cases gs with
      | nil => simp [beqFields]
      | cons g gs =>
          rw [beqFields, Bool.and_eq_true, Bool.and_eq_true, List.forall₂_cons, ih, beq_iff_eq]
          rfl

theorem beq_con {c d : Constructor} {ss ss' ps qs : List Ty} :
    (con c ss ps == con d ss' qs) = true ↔
      c.name = d.name ∧ List.Forall₂ (fun t u => (t == u) = true) ps qs := by
  show beq _ _ = true ↔ _
  rw [beq, Bool.and_eq_true, beq_iff_eq, beqAll_iff]

theorem beq_record {r s : RecordName} {ss ss' : List Ty} {fs gs : List (String × Ty)} :
    (record r ss fs == record s ss' gs) = true ↔
      r.name = s.name ∧ List.Forall₂ (fun f g => f.1 = g.1 ∧ (f.2 == g.2) = true) fs gs := by
  show beq _ _ = true ↔ _
  rw [beq, Bool.and_eq_true, beq_iff_eq, beqFields_iff]

theorem beq_enumeration {e f : Enumeration} :
    (enumeration e == enumeration f) = true ↔ e.name = f.name ∧ e.texts.keys = f.texts.keys := by
  show beq _ _ = true ↔ _
  rw [beq, Bool.and_eq_true, beq_iff_eq, beq_iff_eq]

theorem beq_function {ts us : List Ty} :
    (function ts == function us) = true ↔ List.Forall₂ (fun t u => (t == u) = true) ts us := by
  show beq _ _ = true ↔ _
  rw [beq, beqAll_iff]

theorem beq_var {a b : String} {ps qs : List Ty} :
    (var a ps == var b qs) = true ↔
      a = b ∧ List.Forall₂ (fun t u => (t == u) = true) ps qs := by
  show beq _ _ = true ↔ _
  rw [beq, Bool.and_eq_true, beq_iff_eq, beqAll_iff]

theorem beq_self (t : Ty) : (t == t) = true := by
  induction t with
  | con c ss ps _ ih => exact beq_con.2 ⟨rfl, List.forall₂_same.2 ih⟩
  | record r ss fs _ ih =>
      exact beq_record.2 ⟨rfl, List.forall₂_same.2 fun f hf => ⟨rfl, ih f hf⟩⟩
  | enumeration e => exact beq_enumeration.2 ⟨rfl, rfl⟩
  | function ts ih => exact beq_function.2 (List.forall₂_same.2 ih)
  | var a ps ih => exact beq_var.2 ⟨rfl, List.forall₂_same.2 ih⟩
  | unknown | inconsistent | noArguments | any => rfl

/-- Types equal to one type are equal to each other. -/
theorem beq_euclid {t u v : Ty} (hu : (t == u) = true) (hv : (t == v) = true) :
    (u == v) = true := by
  induction t generalizing u v with
  | con c ss ps _ ih =>
      cases u <;> try cases hu
      cases v <;> try cases hv
      rw [beq_con] at hu hv ⊢
      exact ⟨hu.1.symm.trans hv.1, forall₂_span hu.2 hv.2 fun p hp _ _ => ih p hp⟩
  | record r ss fs _ ih =>
      cases u <;> try cases hu
      cases v <;> try cases hv
      rw [beq_record] at hu hv ⊢
      refine ⟨hu.1.symm.trans hv.1, forall₂_span hu.2 hv.2 fun f hf g g' hg hg' => ?_⟩
      exact ⟨hg.1.symm.trans hg'.1, ih f hf hg.2 hg'.2⟩
  | enumeration e =>
      cases u <;> try cases hu
      cases v <;> try cases hv
      rw [beq_enumeration] at hu hv ⊢
      exact ⟨hu.1.symm.trans hv.1, hu.2.symm.trans hv.2⟩
  | function ts ih =>
      cases u <;> try cases hu
      cases v <;> try cases hv
      rw [beq_function] at hu hv ⊢
      exact forall₂_span hu hv fun p hp _ _ => ih p hp
  | var a ps ih =>
      cases u <;> try cases hu
      cases v <;> try cases hv
      rw [beq_var] at hu hv ⊢
      exact ⟨hu.1.symm.trans hv.1, forall₂_span hu.2 hv.2 fun p hp _ _ => ih p hp⟩
  | unknown | inconsistent | noArguments | any =>
      cases u <;> try cases hu
      exact hv

instance : EquivBEq Ty where
  rfl := beq_self _
  symm h := beq_euclid h (beq_self _)
  trans h h' := beq_euclid (beq_euclid h (beq_self _)) h'

/-! ## The order -/

mutual

/-- Whether the second type says all that the first one says. -/
def refines : Ty → Ty → Bool
  | unknown, _ => true
  | con c _ ps, con d _ qs => c.name == d.name && refinesAll ps qs
  | var a ps, var b qs => a == b && refinesAll ps qs
  | t, u => t == u

def refinesAll : List Ty → List Ty → Bool
  | [], [] => true
  | t :: ts, u :: us => refines t u && refinesAll ts us
  | _, _ => false

end

/-- `t ≤ u` if `u` says all that `t` says. -/
instance : LE Ty := ⟨fun t u => refines t u = true⟩

theorem refinesAll_iff {ts us : List Ty} :
    refinesAll ts us = true ↔ List.Forall₂ (· ≤ ·) ts us := by
  induction ts generalizing us with
  | nil => cases us <;> simp [refinesAll]
  | cons t ts ih =>
      cases us with
      | nil => simp [refinesAll]
      | cons u us =>
          rw [refinesAll, Bool.and_eq_true, List.forall₂_cons, ih]
          rfl

theorem unknown_le (u : Ty) : unknown ≤ u := by
  show refines unknown u = true
  rw [refines]

theorem con_le_con {c d : Constructor} {ss ss' ps qs : List Ty} :
    con c ss ps ≤ con d ss' qs ↔ c.name = d.name ∧ List.Forall₂ (· ≤ ·) ps qs := by
  show refines _ _ = true ↔ _
  rw [refines, Bool.and_eq_true, beq_iff_eq, refinesAll_iff]

theorem var_le_var {a b : String} {ps qs : List Ty} :
    var a ps ≤ var b qs ↔ a = b ∧ List.Forall₂ (· ≤ ·) ps qs := by
  show refines _ _ = true ↔ _
  rw [refines, Bool.and_eq_true, beq_iff_eq, refinesAll_iff]

/-- What lies above an applied constructor is an application of it. -/
theorem eq_con_of_le {c : Constructor} {ss ps : List Ty} {u : Ty}
    (h : con c ss ps ≤ u) :
    ∃ d ss' qs, u = con d ss' qs ∧ c.name = d.name ∧ List.Forall₂ (· ≤ ·) ps qs := by
  cases u with
  | con d ss' qs => exact ⟨d, ss', qs, rfl, con_le_con.1 h⟩
  | _ => cases h

theorem eq_var_of_le {a : String} {ps : List Ty} {u : Ty} (h : var a ps ≤ u) :
    ∃ qs, u = var a qs ∧ List.Forall₂ (· ≤ ·) ps qs := by
  cases u with
  | var b qs =>
      obtain ⟨rfl, hps⟩ := var_le_var.1 h
      exact ⟨qs, rfl, hps⟩
  | _ => cases h

theorem le_of_beq {t u : Ty} (h : (t == u) = true) : t ≤ u := by
  induction t generalizing u with
  | con c ss ps _ ih =>
      cases u with
      | con d ss' qs =>
          rw [beq_con] at h
          exact con_le_con.2 ⟨h.1, forall₂_imp_of_mem h.2 fun p hp _ => ih p hp⟩
      | _ => cases h
  | var a ps ih =>
      cases u with
      | var b qs =>
          rw [beq_var] at h
          exact var_le_var.2 ⟨h.1, forall₂_imp_of_mem h.2 fun p hp _ => ih p hp⟩
      | _ => cases h
  | unknown => exact unknown_le u
  | inconsistent | noArguments | any | enumeration | record | function => exact h

theorem le_trans {t u v : Ty} (htu : t ≤ u) (huv : u ≤ v) : t ≤ v := by
  induction t generalizing u v with
  | unknown => exact unknown_le v
  | con c ss ps _ ih =>
      obtain ⟨d, ss', qs, rfl, hcd, hpq⟩ := eq_con_of_le htu
      obtain ⟨e, ss'', rs, rfl, hde, hqr⟩ := eq_con_of_le huv
      exact con_le_con.2 ⟨hcd.trans hde, forall₂_comp hpq hqr fun p hp _ _ => ih p hp⟩
  | var a ps ih =>
      obtain ⟨qs, rfl, hpq⟩ := eq_var_of_le htu
      obtain ⟨rs, rfl, hqr⟩ := eq_var_of_le huv
      exact var_le_var.2 ⟨rfl, forall₂_comp hpq hqr fun p hp _ _ => ih p hp⟩
  | inconsistent | noArguments | any =>
      cases u <;> try cases htu
      exact huv
  | enumeration e =>
      cases u <;> try cases htu
      exact BEq.trans htu huv
  | record r ss fs =>
      cases u <;> try cases htu
      exact BEq.trans htu huv
  | function ts =>
      cases u <;> try cases htu
      exact BEq.trans htu huv

instance : Preorder Ty where
  le_refl t := le_of_beq (beq_self t)
  le_trans _ _ _ := le_trans

/-- Types that say the same are equal. -/
theorem beq_of_le_of_le {t u : Ty} (htu : t ≤ u) (hut : u ≤ t) : (t == u) = true := by
  induction t generalizing u with
  | unknown =>
      cases u <;> try cases hut
      rfl
  | con c ss ps _ ih =>
      obtain ⟨d, ss', qs, rfl, hcd, hpq⟩ := eq_con_of_le htu
      have hqp := (con_le_con.1 hut).2
      exact beq_con.2 ⟨hcd, forall₂_meet hpq hqp.flip fun p hp _ => ih p hp⟩
  | var a ps ih =>
      obtain ⟨qs, rfl, hpq⟩ := eq_var_of_le htu
      have hqp := (var_le_var.1 hut).2
      exact beq_var.2 ⟨rfl, forall₂_meet hpq hqp.flip fun p hp _ => ih p hp⟩
  | inconsistent | noArguments | any | enumeration | record | function => exact htu

/-! ## Merging is the join -/

theorem merge_unknown_left (u : Ty) : merge? unknown u = some u := by rw [merge?]

theorem merge_unknown_right (t : Ty) : merge? t unknown = some t := by
  cases t <;> rfl

theorem merge_con {c d : Constructor} {ss ss' ps qs : List Ty} :
    merge? (con c ss ps) (con d ss' qs) =
      if c.name = d.name then (mergeAll? ps qs).map (con c ss) else none := by
  rw [merge?]
  simp only [beq_iff_eq]

theorem merge_var {a b : String} {ps qs : List Ty} :
    merge? (var a ps) (var b qs) = if a = b then (mergeAll? ps qs).map (var a) else none := by
  rw [merge?]
  simp only [beq_iff_eq]

/-- Lists of types merged item by item. -/
inductive MergedAll : List Ty → List Ty → List Ty → Prop where
  | nil : MergedAll [] [] []
  | cons {t u m : Ty} {ts us ms : List Ty} (head : merge? t u = some m)
      (tail : MergedAll ts us ms) : MergedAll (t :: ts) (u :: us) (m :: ms)

theorem mergeAll_iff {ts us ms : List Ty} :
    mergeAll? ts us = some ms ↔ MergedAll ts us ms := by
  constructor
  · intro h
    induction ts generalizing us ms with
    | nil =>
        cases us with
        | nil => cases h; exact .nil
        | cons u us => cases h
    | cons t ts ih =>
        cases us with
        | nil => cases h
        | cons u us =>
            rw [mergeAll?] at h
            split at h
            · next m ms' hm hms =>
                cases h
                exact .cons hm (ih hms)
            · cases h
  · intro h
    induction h with
    | nil => rfl
    | cons head _ ih => rw [mergeAll?, head, ih]

/-- All that can happen when two types are merged. -/
theorem merge_cases {t u m : Ty} (h : merge? t u = some m) :
    (t = unknown ∧ m = u) ∨ (u = unknown ∧ m = t) ∨
    (∃ c d ss ss' ps qs ms, t = con c ss ps ∧ u = con d ss' qs ∧ m = con c ss ms ∧
      c.name = d.name ∧ MergedAll ps qs ms) ∨
    (∃ a ps qs ms, t = var a ps ∧ u = var a qs ∧ m = var a ms ∧ MergedAll ps qs ms) ∨
    ((t == u) = true ∧ m = t) := by
  unfold merge? at h
  split at h
  · cases h
    exact .inl ⟨rfl, rfl⟩
  · cases h
    exact .inr (.inl ⟨rfl, rfl⟩)
  · next c ss ps d ss' qs =>
      split at h
      · next hname =>
          obtain ⟨ms, hms, rfl⟩ := Option.map_eq_some_iff.1 h
          exact .inr (.inr (.inl ⟨c, d, ss, ss', ps, qs, ms, rfl, rfl, rfl, beq_iff_eq.1 hname,
            mergeAll_iff.1 hms⟩))
      · cases h
  · next a ps b qs =>
      split at h
      · next hname =>
          obtain ⟨ms, hms, rfl⟩ := Option.map_eq_some_iff.1 h
          obtain rfl := beq_iff_eq.1 hname
          exact .inr (.inr (.inr (.inl ⟨a, ps, qs, ms, rfl, rfl, rfl, mergeAll_iff.1 hms⟩)))
      · cases h
  · split at h
    · next heq =>
        cases h
        exact .inr (.inr (.inr (.inr ⟨heq, rfl⟩)))
    · cases h

theorem le_of_mergedAll {ts us ms : List Ty} (h : MergedAll ts us ms)
    (ih : ∀ t ∈ ts, ∀ u m, merge? t u = some m → t ≤ m ∧ u ≤ m) :
    List.Forall₂ (· ≤ ·) ts ms ∧ List.Forall₂ (· ≤ ·) us ms := by
  induction h with
  | nil => exact ⟨.nil, .nil⟩
  | cons head _ ih' =>
      have hm := ih _ (by simp) _ _ head
      have hms := ih' fun t ht => ih t (by simp [ht])
      exact ⟨.cons hm.1 hms.1, .cons hm.2 hms.2⟩

/-- What is merged says all that the two types say. -/
theorem le_of_merge {t u m : Ty} (h : merge? t u = some m) : t ≤ m ∧ u ≤ m := by
  rcases merge_cases h with ⟨rfl, rfl⟩ | ⟨rfl, rfl⟩
    | ⟨c, d, ss, ss', ps, qs, ms, ht, rfl, rfl, hcd, hms⟩
    | ⟨a, ps, qs, ms, ht, rfl, rfl, hms⟩ | ⟨heq, rfl⟩
  · exact ⟨unknown_le _, le_refl _⟩
  · exact ⟨le_refl _, unknown_le _⟩
  · have hle := le_of_mergedAll hms fun p hp _ _ => le_of_merge
    rw [ht]
    exact ⟨con_le_con.2 ⟨rfl, hle.1⟩, con_le_con.2 ⟨hcd.symm, hle.2⟩⟩
  · have hle := le_of_mergedAll hms fun p hp _ _ => le_of_merge
    rw [ht]
    exact ⟨var_le_var.2 ⟨rfl, hle.1⟩, var_le_var.2 ⟨rfl, hle.2⟩⟩
  · exact ⟨le_refl _, le_of_beq (BEq.symm heq)⟩
termination_by sizeOf t
decreasing_by
  all_goals
    have := List.sizeOf_lt_of_mem hp
    simp only [ht, con.sizeOf_spec, var.sizeOf_spec]
    omega

theorem mergedAll_of_le {ts us xs : List Ty} (ht : List.Forall₂ (· ≤ ·) ts xs)
    (hu : List.Forall₂ (· ≤ ·) us xs)
    (ih : ∀ t ∈ ts, ∀ u x, t ≤ x → u ≤ x → ∃ m, merge? t u = some m ∧ m ≤ x) :
    ∃ ms, MergedAll ts us ms ∧ List.Forall₂ (· ≤ ·) ms xs := by
  induction ht generalizing us with
  | nil =>
      cases hu
      exact ⟨[], .nil, .nil⟩
  | cons htx _ ih' =>
      cases hu with
      | cons hux hu =>
          obtain ⟨m, hm, hmx⟩ := ih _ (by simp) _ _ htx hux
          obtain ⟨ms, hms, hmsx⟩ := ih' hu fun t ht => ih t (by simp [ht])
          exact ⟨m :: ms, .cons hm hms, .cons hmx hmsx⟩

/-- Types with an upper bound can be merged, and what is merged lies below the bound. -/
theorem merge_of_le {t u x : Ty} (ht : t ≤ x) (hu : u ≤ x) :
    ∃ m, merge? t u = some m ∧ m ≤ x := by
  induction t generalizing u x with
  | unknown => exact ⟨u, merge_unknown_left u, hu⟩
  | con c ss ps _ ih =>
      obtain ⟨d, ss', rs, rfl, hcd, hpr⟩ := eq_con_of_le ht
      cases u <;> try cases hu
      · exact ⟨_, merge_unknown_right _, ht⟩
      · next e ss'' qs =>
          obtain ⟨hed, hqr⟩ := con_le_con.1 hu
          obtain ⟨ms, hms, hmr⟩ := mergedAll_of_le hpr hqr fun p hp _ _ => ih p hp
          refine ⟨con c ss ms, ?_, con_le_con.2 ⟨hcd, hmr⟩⟩
          rw [merge_con, if_pos (hcd.trans hed.symm), mergeAll_iff.2 hms]
          rfl
  | var a ps ih =>
      obtain ⟨rs, rfl, hpr⟩ := eq_var_of_le ht
      cases u <;> try cases hu
      · exact ⟨_, merge_unknown_right _, ht⟩
      · next b qs =>
          obtain ⟨rfl, hqr⟩ := var_le_var.1 hu
          obtain ⟨ms, hms, hmr⟩ := mergedAll_of_le hpr hqr fun p hp _ _ => ih p hp
          refine ⟨var b ms, ?_, var_le_var.2 ⟨rfl, hmr⟩⟩
          rw [merge_var, if_pos rfl, mergeAll_iff.2 hms]
          rfl
  | inconsistent | noArguments | any =>
      cases x <;> try cases ht
      cases u <;> try cases hu
      · exact ⟨_, rfl, le_refl _⟩
      · exact ⟨_, rfl, le_refl _⟩
  | enumeration | record | function =>
      cases x <;> try cases ht
      cases u <;> try cases hu
      · exact ⟨_, merge_unknown_right _, ht⟩
      · refine ⟨_, ?_, ht⟩
        unfold merge?
        exact if_pos (BEq.trans ht (BEq.symm hu))

/-- Merging equal types gives equal types. -/
theorem merge_beq {t t' u u' m m' : Ty} (ht : (t == t') = true) (hu : (u == u') = true)
    (h : merge? t u = some m) (h' : merge? t' u' = some m') : (m == m') = true := by
  have below : ∀ {a a' b b' x x' : Ty}, (a == a') = true → (b == b') = true →
      merge? a b = some x → merge? a' b' = some x' → x ≤ x' := by
    intro a a' b b' x x' ha hb hx hx'
    have hle := le_of_merge hx'
    obtain ⟨y, hy, hyx⟩ :=
      merge_of_le (le_trans (le_of_beq ha) hle.1) (le_trans (le_of_beq hb) hle.2)
    rw [hx] at hy
    cases hy
    exact hyx
  exact beq_of_le_of_le (below ht hu h h') (below (BEq.symm ht) (BEq.symm hu) h' h)

/-! ## What the order keeps -/

theorem isUnknown_iff {t : Ty} : t.isUnknown = true ↔ t = unknown := by
  cases t <;> simp [isUnknown]

theorem name?_of_le {t u : Ty} (h : t ≤ u) (ht : t ≠ unknown) : u.name? = t.name? := by
  cases t with
  | unknown => exact absurd rfl ht
  | con c ss ps =>
      obtain ⟨d, ss', qs, rfl, hcd, _⟩ := eq_con_of_le h
      rw [name?, name?, hcd]
  | var a ps =>
      obtain ⟨qs, rfl, _⟩ := eq_var_of_le h
      rfl
  | enumeration e =>
      cases u <;> try cases h
      rw [name?, name?, (beq_enumeration.1 h).1]
  | record r ss fs =>
      cases u <;> try cases h
      exact (beq_record.1 h).1.symm
  | function | inconsistent | noArguments | any =>
      cases u <;> try cases h
      rfl

theorem allConsistent_iff {ts : List Ty} :
    allConsistent ts = true ↔ ∀ t ∈ ts, t.isConsistent = true := by
  induction ts with
  | nil => simp [allConsistent]
  | cons t ts ih => rw [allConsistent, Bool.and_eq_true, ih, List.forall_mem_cons]

/-- An inconsistency does not go away when more is said. -/
theorem isConsistent_of_le {t u : Ty} (h : t ≤ u) (hu : u.isConsistent = true) :
    t.isConsistent = true := by
  induction t generalizing u with
  | con c ss ps _ ih =>
      obtain ⟨d, ss', qs, rfl, _, hpq⟩ := eq_con_of_le h
      rw [isConsistent, allConsistent_iff] at hu ⊢
      intro p hp
      obtain ⟨i, hi, rfl⟩ := List.getElem_of_mem hp
      have hi' : i < qs.length := by rw [← hpq.length_eq]; exact hi
      exact ih _ hp (hpq.get hi hi') (hu _ (List.getElem_mem hi'))
  | inconsistent =>
      cases u <;> try cases h
      exact hu
  | unknown | noArguments | any | enumeration | record | function | var => rfl

theorem isConsistent_of_beq {t u : Ty} (h : (t == u) = true) :
    t.isConsistent = u.isConsistent := by
  rw [Bool.eq_iff_iff]
  exact ⟨isConsistent_of_le (le_of_beq (BEq.symm h)), isConsistent_of_le (le_of_beq h)⟩

end Ty

end DynamicTypes
