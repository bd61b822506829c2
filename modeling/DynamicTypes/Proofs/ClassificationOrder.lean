import DynamicTypes.Proofs.OpenEnvironment
import DynamicTypes.Proofs.TypeText

/-!
# Classification depends on the set of values only

The types that several values have in common are merged list by list, repetitions
are dropped on the way, and what is left is sorted by the place in the environment
and the text. All three steps look at the order of the values, at least in
principle.

What makes the order irrelevant is that the types of one value are *rivals*: any two
of them are equal, or differ in the name of some constructor at a place where both
know it. Merging keeps them so. Rivals below one type are equal, so the common types
are the least ones above which the classifications of all values lie, and a set of
least elements does not depend on how it was found. Rivals with one text are equal
too, so sorting leaves no choice.
-/

namespace DynamicTypes

open Ty (isPlainName Stops)

/-- Two types that are equal, or differ in the name of a constructor at a place that
both know. -/
inductive Rivals : Ty → Ty → Prop where
  | same {t u : Ty} (heq : (t == u) = true) : Rivals t u
  | apart {t u : Ty} {a b : String} (ht : t.name? = some a) (hu : u.name? = some b)
      (ha : isPlainName a = true) (hb : isPlainName b = true) (hne : a ≠ b) : Rivals t u
  | applied {c d : Constructor} {ss ss' ps qs : List Ty} (hname : c.name = d.name)
      (hplain : isPlainName c.name = true) (hlen : ps.length = qs.length)
      (hparams : ∀ (i : Nat) (p q : Ty), ps[i]? = some p → qs[i]? = some q → Rivals p q) :
      Rivals (.con c ss ps) (.con d ss' qs)

namespace Rivals

theorem ne_unknown {t : Ty} {a : String} (ht : t.name? = some a) : t ≠ .unknown := by
  rintro rfl
  cases ht

theorem unknown_iff {t u : Ty} (h : Rivals t u) : t = .unknown ↔ u = .unknown := by
  cases h with
  | same heq => cases t <;> cases u <;> first | rfl | cases heq | simp
  | apart ht hu => exact iff_of_false (ne_unknown ht) (ne_unknown hu)
  | applied => simp

/-- Rivals below one type are equal. -/
theorem beq_of_le {t u x : Ty} (h : Rivals t u) (ht : t ≤ x) (hu : u ≤ x) :
    (t == u) = true := by
  induction h generalizing x with
  | same heq => exact heq
  | apart hta hub _ _ hne =>
      have ha := Ty.name?_of_le ht (ne_unknown hta)
      have hb := Ty.name?_of_le hu (ne_unknown hub)
      rw [hta] at ha
      rw [ha, hub] at hb
      cases hb
      exact absurd rfl hne
  | applied hname _ hlen _ ih =>
      obtain ⟨e, ss, rs, rfl, _, hpr⟩ := Ty.eq_con_of_le ht
      have hqr := (Ty.con_le_con.1 hu).2
      rw [forall₂_iff_getElem?] at hpr hqr
      refine Ty.beq_con.2 ⟨hname, forall₂_iff_getElem?.2 ⟨hlen, fun i p q hp hq => ?_⟩⟩
      have hi : i < rs.length := hpr.1 ▸ (List.getElem?_eq_some_iff.1 hp).1
      have hr := List.getElem?_eq_getElem hi
      exact ih i p q hp hq (hpr.2 i p _ hp hr) (hqr.2 i q _ hq hr)

/-- The parameters of rivals with one name are rivals. -/
theorem params {c d : Constructor} {ss ss' ps qs : List Ty}
    (h : Rivals (.con c ss ps) (.con d ss' qs)) (hname : c.name = d.name) :
    ps.length = qs.length ∧
      ∀ (i : Nat) (p q : Ty), ps[i]? = some p → qs[i]? = some q → Rivals p q := by
  cases h with
  | same heq =>
      have hps := forall₂_iff_getElem?.1 (Ty.beq_con.1 heq).2
      exact ⟨hps.1, fun i p q hp hq => .same (hps.2 i p q hp hq)⟩
  | apart ht hu _ _ hne =>
      cases ht
      cases hu
      exact absurd hname hne
  | applied _ _ hlen hparams => exact ⟨hlen, hparams⟩

theorem mergedAll {ps qs ms ps' qs' ms' : List Ty} (hms : Ty.MergedAll ps qs ms)
    (hms' : Ty.MergedAll ps' qs' ms')
    (hps : ∀ (i : Nat) (p p' : Ty), ps[i]? = some p → ps'[i]? = some p' → Rivals p p')
    (hqs : ∀ (i : Nat) (q q' : Ty), qs[i]? = some q → qs'[i]? = some q' → Rivals q q')
    (ih : ∀ p ∈ ps, ∀ p' q q' m m', Rivals p p' → Rivals q q' → Ty.merge? p q = some m →
      Ty.merge? p' q' = some m' → Rivals m m') :
    ∀ (i : Nat) (m m' : Ty), ms[i]? = some m → ms'[i]? = some m' → Rivals m m' := by
  induction hms generalizing ps' qs' ms' with
  | nil => exact nofun
  | cons head _ ih' =>
      cases hms' with
      | nil => exact fun i m m' _ hm' => nomatch hm'
      | cons head' tail' =>
          rw [List.forall_mem_cons] at ih
          intro i m m' hm hm'
          cases i with
          | zero =>
              cases hm
              cases hm'
              exact ih.1 _ _ _ _ _ (hps 0 _ _ rfl rfl) (hqs 0 _ _ rfl rfl) head head'
          | succ i =>
              exact ih' tail' (fun i p p' => hps (i + 1) p p') (fun i q q' => hqs (i + 1) q q')
                ih.2 i m m' hm hm'

theorem merge_applied {c c' d d' : Constructor} {ss ss' ss₂ ss₂' ps ps' qs qs' : List Ty}
    {m m' : Ty}
    (hplain : isPlainName c.name = true) (hname : c.name = c'.name)
    (ht : Rivals (.con c ss ps) (.con c' ss' ps')) (hu : Rivals (.con d ss₂ qs) (.con d' ss₂' qs'))
    (hm : Ty.merge? (.con c ss ps) (.con d ss₂ qs) = some m)
    (hm' : Ty.merge? (.con c' ss' ps') (.con d' ss₂' qs') = some m')
    (ih : ∀ p ∈ ps, ∀ p' q q' m m', Rivals p p' → Rivals q q' → Ty.merge? p q = some m →
      Ty.merge? p' q' = some m' → Rivals m m') : Rivals m m' := by
  rw [Ty.merge_con] at hm hm'
  split at hm
  · next hcd =>
      split at hm'
      · next hcd' =>
          obtain ⟨ms, hms, rfl⟩ := Option.map_eq_some_iff.1 hm
          obtain ⟨ms', hms', rfl⟩ := Option.map_eq_some_iff.1 hm'
          rw [Ty.mergeAll_iff] at hms hms'
          obtain ⟨hlen, hps⟩ := ht.params hname
          obtain ⟨_, hqs⟩ := hu.params (hcd.symm.trans (hname.trans hcd'))
          have hlen₁ := (Ty.le_of_mergedAll hms fun _ _ _ _ => Ty.le_of_merge).1.length_eq
          have hlen₂ := (Ty.le_of_mergedAll hms' fun _ _ _ _ => Ty.le_of_merge).1.length_eq
          exact .applied hname hplain (by omega) (mergedAll hms hms' hps hqs ih)
      · cases hm'
  · cases hm

/-- If one of two types that are merged is an applied constructor, then so is the
other. -/
theorem con_of_merge {t u m : Ty} (hm : Ty.merge? t u = some m) (ht : t ≠ .unknown)
    (hu : u ≠ .unknown)
    (h : (∃ c ss ps, t = .con c ss ps) ∨ ∃ c ss ps, u = .con c ss ps) :
    ∃ c ss ps d ss' qs, t = .con c ss ps ∧ u = .con d ss' qs ∧ c.name = d.name := by
  rcases Ty.merge_cases hm with
    ⟨rfl, _⟩ | ⟨rfl, _⟩ | ⟨c, d, ss, ss', ps, qs, _, rfl, rfl, _, hcd, _⟩
    | ⟨a, ps, qs, ms, rfl, rfl, _⟩ | ⟨heq, _⟩
  · exact absurd rfl ht
  · exact absurd rfl hu
  · exact ⟨c, ss, ps, d, ss', qs, rfl, rfl, hcd⟩
  · rcases h with ⟨_, _, _, h⟩ | ⟨_, _, _, h⟩ <;> cases h
  · rcases h with ⟨c, ss, ps, rfl⟩ | ⟨d, ss', qs, rfl⟩
    · cases u <;> try cases heq
      exact ⟨c, ss, ps, _, _, _, rfl, rfl, (Ty.beq_con.1 heq).1⟩
    · cases t <;> try cases heq
      exact ⟨_, _, _, d, ss', qs, rfl, rfl, (Ty.beq_con.1 heq).1⟩

theorem merge_of_params {t t' u u' m m' : Ty} (ht : Rivals t t') (hu : Rivals u u')
    (hm : Ty.merge? t u = some m) (hm' : Ty.merge? t' u' = some m')
    (ih : ∀ c ss ps, t = .con c ss ps → ∀ p ∈ ps, ∀ p' q q' m m', Rivals p p' → Rivals q q' →
      Ty.merge? p q = some m → Ty.merge? p' q' = some m' → Rivals m m') : Rivals m m' := by
  by_cases hnt : t = .unknown
  · cases hnt
    cases ht.unknown_iff.1 rfl
    rw [Ty.merge_unknown_left] at hm hm'
    cases hm
    cases hm'
    exact hu
  by_cases hnu : u = .unknown
  · cases hnu
    cases hu.unknown_iff.1 rfl
    rw [Ty.merge_unknown_right] at hm hm'
    cases hm
    cases hm'
    exact ht
  have hnt' : t' ≠ .unknown := fun h => hnt (ht.unknown_iff.2 h)
  have hnu' : u' ≠ .unknown := fun h => hnu (hu.unknown_iff.2 h)
  have hle := Ty.le_of_merge hm
  have hle' := Ty.le_of_merge hm'
  -- names of different types stay different, and equal types merge to equal ones
  cases id ht with
  | apart hta hta' ha ha' hne =>
      exact .apart ((Ty.name?_of_le hle.1 hnt).trans hta) ((Ty.name?_of_le hle'.1 hnt').trans hta')
        ha ha' hne
  | same heq =>
      cases id hu with
      | apart hua hua' ha ha' hne =>
          exact .apart ((Ty.name?_of_le hle.2 hnu).trans hua)
            ((Ty.name?_of_le hle'.2 hnu').trans hua') ha ha' hne
      | same heq' => exact .same (Ty.merge_beq heq heq' hm hm')
      | applied hname hplain =>
          obtain ⟨c, ss, ps, d, ss', qs, rfl, hd, hcd⟩ :=
            con_of_merge hm hnt hnu (.inr ⟨_, _, _, rfl⟩)
          obtain ⟨c', ss₂, ps', d', ss₂', qs', rfl, hd', hcd'⟩ :=
            con_of_merge hm' hnt' hnu' (.inr ⟨_, _, _, rfl⟩)
          cases hd
          cases hd'
          exact merge_applied (hcd ▸ hplain) (Ty.beq_con.1 heq).1 ht hu hm hm' (ih c ss ps rfl)
  | applied hname hplain =>
      obtain ⟨c, ss, ps, d, ss', qs, hc, rfl, hcd⟩ := con_of_merge hm hnt hnu (.inl ⟨_, _, _, rfl⟩)
      obtain ⟨c', ss₂, ps', d', ss₂', qs', hc', rfl, hcd'⟩ :=
        con_of_merge hm' hnt' hnu' (.inl ⟨_, _, _, rfl⟩)
      exact merge_applied hplain hname ht hu hm hm' (ih _ _ _ rfl)

/-- What is merged from rivals and rivals are rivals. -/
theorem merge {t t' u u' m m' : Ty} (ht : Rivals t t') (hu : Rivals u u')
    (hm : Ty.merge? t u = some m) (hm' : Ty.merge? t' u' = some m') : Rivals m m' := by
  induction t generalizing t' u u' m m' with
  | con c ss ps _ ih =>
      refine merge_of_params ht hu hm hm' fun c' ss' ps' heq p hp p' q q' m m' => ?_
      cases heq
      exact ih p hp
  | _ => exact merge_of_params ht hu hm hm' nofun

/-! ## Rivals with one text -/

/-- Whether texts that start with two types show whether the types are equal. -/
def Readable (t u : Ty) : Prop :=
  ∀ r r' : List Char, Stops r → Stops r' → t.format.toList ++ r = u.format.toList ++ r' →
    (t == u) = true

theorem isCompound_eq {t u : Ty} (h : Rivals t u) :
    t.isCompound = u.isCompound ∨
      ∃ a b, t.name? = some a ∧ u.name? = some b ∧ isPlainName a = true ∧ isPlainName b = true := by
  cases h with
  | same heq => exact .inl (Ty.isCompound_of_beq heq)
  | apart ht hu ha hb _ => exact .inr ⟨_, _, ht, hu, ha, hb⟩
  | @applied c d ss ss' ps qs _ _ hlen =>
      refine .inl ?_
      cases ps <;> cases qs <;> first | rfl | cases hlen

/-- As parameters, too, rivals are told apart by their texts: only what stands in
parentheses starts with one. -/
theorem beq_of_paramText {t u : Ty} (h : Rivals t u) (hread : Readable t u)
    {r r' : List Char} (hr : Stops r) (hr' : Stops r')
    (heq : t.paramText.toList ++ r = u.paramText.toList ++ r') :
    (t == u) = true := by
  have bare : ∀ {t : Ty} {a : String} {r : List Char}, t.isCompound = false → t.name? = some a →
      isPlainName a = true → Stops r → (t.format.toList ++ r).head? ≠ some '(' := by
    intro t a r ht hname ha hr
    obtain ⟨k, hk, _, hnil⟩ := Ty.format_of_name hname
    rw [hk, hnil ht, List.append_nil]
    exact Ty.head_ne_of_name ha hr
  have names : t.isCompound ≠ u.isCompound → ∃ a b, t.name? = some a ∧ u.name? = some b ∧
      isPlainName a = true ∧ isPlainName b = true := h.isCompound_eq.resolve_left
  rw [Ty.toList_paramText, Ty.toList_paramText] at heq
  cases ht : t.isCompound <;> cases hu : u.isCompound <;>
    simp only [ht, hu, if_true, if_false, Bool.false_eq_true] at heq
  · exact hread r r' hr hr' heq
  · obtain ⟨a, b, hta, _, ha, _⟩ := names (by simp [ht, hu])
    exact absurd (by rw [heq]; rfl) (bare ht hta ha hr)
  · obtain ⟨a, b, _, hub, _, hb⟩ := names (by simp [ht, hu])
    exact absurd (by rw [← heq]; rfl) (bare hu hub hb hr')
  · rw [List.cons_append, List.cons_append, List.append_assoc, List.append_assoc] at heq
    exact hread _ _ (fun c hc => .inr (by cases hc; rfl)) (fun c hc => .inr (by cases hc; rfl))
      (List.cons.inj heq).2

theorem beq_of_paramsText {ps qs : List Ty} (hlen : ps.length = qs.length)
    (hparams : ∀ (i : Nat) (p q : Ty), ps[i]? = some p → qs[i]? = some q →
      Rivals p q ∧ Readable p q) {r r' : List Char} (hr : Stops r) (hr' : Stops r')
    (heq : (Ty.paramsText ps).toList ++ r = (Ty.paramsText qs).toList ++ r') :
    List.Forall₂ (fun p q => (p == q) = true) ps qs := by
  induction ps generalizing qs with
  | nil =>
      cases qs with
      | nil => exact .nil
      | cons q qs => cases hlen
  | cons p ps ih =>
      cases qs with
      | nil => cases hlen
      | cons q qs =>
          rw [Ty.paramsText, Ty.paramsText] at heq
          simp only [String.toList_append, List.append_assoc, List.append_cancel_left_eq] at heq
          obtain ⟨hrivals, hread⟩ := hparams 0 p q rfl rfl
          have hpq := hrivals.beq_of_paramText hread
            (Ty.stops_append (Ty.stops_paramsText ps) hr)
            (Ty.stops_append (Ty.stops_paramsText qs) hr') heq
          rw [Ty.paramText_of_beq (Ty.isCompound_of_beq hpq) (Ty.format_of_beq hpq)] at heq
          exact .cons hpq (ih (Nat.succ.inj hlen) (fun i p q => hparams (i + 1) p q)
            (List.append_cancel_left heq))

/-- Rivals are told apart by their texts. -/
theorem readable {t u : Ty} (h : Rivals t u) : Readable t u := by
  intro r r' hr hr' heq
  induction h generalizing r r' with
  | same h => exact h
  | apart ht hu ha hb hne =>
      obtain ⟨k, hk, hstop, _⟩ := Ty.format_of_name ht
      obtain ⟨k', hk', hstop', _⟩ := Ty.format_of_name hu
      rw [hk, hk', List.append_assoc, List.append_assoc] at heq
      exact absurd (Ty.name_eq_of_append ha hb (Ty.stops_append hstop hr)
        (Ty.stops_append hstop' hr') heq) hne
  | applied hname hplain hlen hparams ih =>
      rw [Ty.format_con, Ty.format_con, hname, String.toList_append, String.toList_append,
        List.append_assoc, List.append_assoc] at heq
      refine Ty.beq_con.2 ⟨hname, ?_⟩
      exact beq_of_paramsText hlen (fun i p q hp hq => ⟨hparams i p q hp hq, ih i p q hp hq⟩) hr hr'
        (List.append_cancel_left heq)

end Rivals

namespace Classification

variable {env : List Ty} {h : Heap}

/-! ## The order of the answers -/

theorem sameConstructor_of_beq {e t u : Ty} (htu : (t == u) = true) :
    e.sameConstructor t = e.sameConstructor u := by
  cases t with
  | con c ss ps =>
      cases u <;> try cases htu
      obtain ⟨hname, hps⟩ := Ty.beq_con.1 htu
      cases e with
      | con => simp only [Ty.sameConstructor, hname, hps.length_eq]
      | _ => rfl
  | var a ps =>
      cases u <;> try cases htu
      obtain ⟨rfl, hps⟩ := Ty.beq_var.1 htu
      cases e with
      | var => simp only [Ty.sameConstructor, hps.length_eq]
      | _ => rfl
  | unknown | inconsistent | noArguments | any =>
      cases u <;> try cases htu
      rfl
  | enumeration | record | function =>
      cases u <;> try cases htu
      rw [Ty.sameConstructor, Ty.sameConstructor, Bool.eq_iff_iff]
      · exact ⟨fun he => BEq.trans he htu, fun he => BEq.trans he (BEq.symm htu)⟩
      all_goals exact nofun

theorem precedes_iff {t u : Ty} : precedes env t u = true ↔
    rank env t < rank env u ∨
      rank env t = rank env u ∧ (compare t.format u.format).isLE = true := by
  simp [precedes]

theorem precedes_total (t u : Ty) :
    precedes env t u = true ∨ precedes env u t = true := by
  rw [precedes_iff, precedes_iff]
  have hformat :
      (compare t.format u.format).isLE = true ∨ (compare u.format t.format).isLE = true := by
    rw [Std.OrientedOrd.eq_swap (a := u.format)]
    cases compare t.format u.format <;> simp
  rcases Nat.lt_trichotomy (rank env t) (rank env u) with hlt | heq | hgt
  · exact .inl (.inl hlt)
  · exact hformat.imp (fun hf => .inr ⟨heq, hf⟩) fun hf => .inr ⟨heq.symm, hf⟩
  · exact .inr (.inl hgt)

theorem precedes_trans {t u v : Ty} (htu : precedes env t u = true)
    (huv : precedes env u v = true) :
    precedes env t v = true := by
  rw [precedes_iff] at *
  rcases htu with htu | ⟨htu, hf⟩
  · omega
  · rcases huv with huv | ⟨huv, hf'⟩
    · omega
    · exact .inr ⟨htu.trans huv, Std.TransCmp.isLE_trans hf hf'⟩

/-- Types that precede each other have one place and one text. -/
theorem format_of_precedes {t u : Ty} (htu : precedes env t u = true)
    (hut : precedes env u t = true) :
    t.format = u.format := by
  rw [precedes_iff] at htu hut
  rcases htu with htu | ⟨heq, hf⟩
  · omega
  · have hf' := (hut.resolve_left (by omega)).2
    exact Std.LawfulEqCmp.eq_of_compare (Std.OrientedCmp.isLE_antisymm hf hf')

theorem precedes_congr {t t' u u' : Ty} (ht : (t == t') = true)
    (hu : (u == u') = true) :
    precedes env t u = precedes env t' u' := by
  have hrank : ∀ {t u : Ty}, (t == u) = true → rank env t = rank env u := by
    intro t u htu
    unfold rank
    exact congrArg (env.findIdx ·) (funext fun e => sameConstructor_of_beq htu)
  rw [precedes, precedes, hrank ht, hrank hu, Ty.format_of_beq ht, Ty.format_of_beq hu]

theorem sorted_insertSorted {t : Ty} {types : List Ty}
    (hsorted : types.Pairwise fun t u => precedes env t u = true) :
    (insertSorted env t types).Pairwise fun t u => precedes env t u = true := by
  induction types with
  | nil => exact List.pairwise_singleton _ _
  | cons u types ih =>
      obtain ⟨hu, htypes⟩ := List.pairwise_cons.1 hsorted
      rw [insertSorted]
      split
      · next htu =>
          refine List.pairwise_cons.2 ⟨fun v hv => ?_, hsorted⟩
          rcases List.mem_cons.1 hv with rfl | hv
          · exact htu
          · exact precedes_trans htu (hu v hv)
      · next htu =>
          refine List.pairwise_cons.2 ⟨fun v hv => ?_, ih htypes⟩
          rcases List.mem_cons.1 (perm_insertSorted.mem_iff.1 hv) with rfl | hv
          · exact (precedes_total v u).resolve_left htu
          · exact hu v hv

theorem sorted_sort (types : List Ty) :
    (sort env types).Pairwise fun t u => precedes env t u = true := by
  induction types with
  | nil => exact .nil
  | cons t types ih => exact sorted_insertSorted ih

/-! ## The set of answers -/

/-- Whether the names of all entries are plain. -/
def PlainNames (env : List Ty) : Prop := ∀ t ∈ env, t.name?.all isPlainName = true

theorem plainNames_builtin : PlainNames Builtin.environment := by
  unfold PlainNames
  decide

theorem PlainNames.isPlainName_of_name (hnames : PlainNames env) {t : Ty} (ht : t ∈ env)
    {name : String} (hname : t.name? = some name) : isPlainName name = true := by
  have hall := hnames t ht
  rwa [hname] at hall

theorem rivals_common {classify : Value → List Ty}
    (hc : ∀ v, ∀ t ∈ classify v, ∀ u ∈ classify v, Rivals t u) (v : Value)
    (vs : List Value) :
    ∀ m ∈ common classify v vs, ∀ m' ∈ common classify v vs, Rivals m m' :=
  common_induction (fun _ _ _ _ _ _ => Rivals.merge) fun w _ => hc w

theorem rivals_determineBy {classify : Value → List Ty}
    (hc : ∀ v, ∀ t ∈ classify v, ∀ u ∈ classify v, Rivals t u) (values : List Value) :
    ∀ t ∈ determineBy h env classify values, ∀ u ∈ determineBy h env classify values,
      Rivals t u := by
  have single : ∀ a : Ty, ∀ t ∈ [a], ∀ u ∈ [a], Rivals t u := by
    intro a t ht u hu
    rw [List.mem_singleton.1 ht, List.mem_singleton.1 hu]
    exact .same BEq.rfl
  cases values with
  | nil => exact single .unknown
  | cons v vs =>
      rcases determineBy_cases h env classify v vs with ⟨_, hd⟩ | ⟨_, tag, _, hd⟩ | ⟨_, _, hd⟩
      · rw [hd]
        intro t ht u hu
        exact rivals_common hc v vs t (mem_sort.1 ht) u (mem_sort.1 hu)
      · exact hd ▸ single _
      · exact hd ▸ single _

/-- The types of one value are rivals. -/
theorem rivals_classify (henv : OpenEnvironment env) (hnames : PlainNames env)
    (depth : Nat) (seen : List Ref) (v : Value) :
    ∀ t ∈ classify h env depth seen v, ∀ u ∈ classify h env depth seen v, Rivals t u := by
  induction depth generalizing seen v with
  | zero => exact fun t ht => nomatch ht
  | succ depth ih =>
      intro t ht u hu
      obtain ⟨e, he, _, ht⟩ := mem_classify ht
      obtain ⟨e', he', _, hu⟩ := mem_classify hu
      have hname : ∀ {e t : Ty}, e ∈ env → t ∈ expandBy h (determineBy h env
          (classify h env depth (v.identity?.toList ++ seen))) 0 e v → t.name? = e.name? := by
        intro e t he ht
        rcases henv.mem_expandBy he ht with ⟨c, supers, ps, qs, rfl, rfl, _⟩ | ⟨_, rfl⟩ <;> rfl
      by_cases hee : e.name? = e'.name?
      · cases henv.eq_of_name he he' hee
        rcases henv.mem_expandBy he ht with ⟨c, supers, ps, qs, rfl, rfl, hlen, hqs⟩ | ⟨hatom, rfl⟩
        · rcases henv.mem_expandBy he hu with ⟨_, _, _, rs, heq, rfl, hlen', hrs⟩ | ⟨hatom, _⟩
          · cases heq
            refine .applied rfl (hnames.isPlainName_of_name he rfl) (hlen.trans hlen'.symm)
              fun i q r hq hr => ?_
            exact rivals_determineBy (ih _) _ q (hqs i q hq) r (hrs i r hr)
          · rcases hatom with ⟨_, heq⟩ | ⟨_, _, _, heq⟩ <;> cases heq
        · rcases henv.mem_expandBy he hu with ⟨_, _, _, _, rfl, _⟩ | ⟨_, rfl⟩
          · rcases hatom with ⟨_, heq⟩ | ⟨_, _, _, heq⟩ <;> cases heq
          · exact .same BEq.rfl
      · obtain ⟨a, ha⟩ := henv.exists_name he
        obtain ⟨b, hb⟩ := henv.exists_name he'
        refine .apart ((hname he ht).trans ha) ((hname he' hu).trans hb)
          (hnames.isPlainName_of_name he ha)
          (hnames.isPlainName_of_name he' hb) ?_
        rintro rfl
        exact hee (ha.trans hb.symm)

/-! ## Answers that depend on the set of values -/

/-- Lists in strict order with the same types in them are equal, type by type. -/
theorem beq_of_sorted {R : Ty → Ty → Prop} (hasymm : ∀ t u, R t u → ¬ R u t)
    (hcongr : ∀ t t' u u', (t == t') = true → (u == u') = true → R t u → R t' u')
    {ts us : List Ty} (hts : ts.Pairwise R) (hus : us.Pairwise R)
    (htu : ∀ t ∈ ts, ∃ u ∈ us, (t == u) = true)
    (hut : ∀ u ∈ us, ∃ t ∈ ts, (t == u) = true) :
    List.Forall₂ (fun t u => (t == u) = true) ts us := by
  induction ts generalizing us with
  | nil =>
      cases us with
      | nil => exact .nil
      | cons u us =>
          obtain ⟨t, ht, _⟩ := hut u (by simp)
          cases ht
  | cons t ts ih =>
      cases us with
      | nil =>
          obtain ⟨u, hu, _⟩ := htu t (by simp)
          cases hu
      | cons u us =>
          obtain ⟨ht, hts⟩ := List.pairwise_cons.1 hts
          obtain ⟨hu, hus⟩ := List.pairwise_cons.1 hus
          have hirrefl : ∀ x y, (x == y) = true → ¬ R x y := fun x y hxy hR =>
            hasymm x y hR (hcongr x y y x hxy (BEq.symm hxy) hR)
          -- if the heads differed, each would come before the other
          have hhead : (t == u) = true := by
            obtain ⟨u', hu', htu'⟩ := htu t (by simp)
            obtain ⟨t', ht', htu''⟩ := hut u (by simp)
            rcases List.mem_cons.1 hu' with rfl | hu'
            · exact htu'
            rcases List.mem_cons.1 ht' with rfl | ht'
            · exact htu''
            · exact absurd (hcongr u u u' t BEq.rfl (BEq.symm htu') (hu u' hu'))
                (hasymm _ _ (hcongr t t t' u BEq.rfl htu'' (ht t' ht')))
          refine .cons hhead (ih hts hus (fun x hx => ?_) fun y hy => ?_)
          · obtain ⟨y, hy, hxy⟩ := htu x (by simp [hx])
            rcases List.mem_cons.1 hy with rfl | hy
            · exact absurd (ht x hx) (hirrefl _ _ (BEq.trans hhead (BEq.symm hxy)))
            · exact ⟨y, hy, hxy⟩
          · obtain ⟨x, hx, hxy⟩ := hut y (by simp [hy])
            rcases List.mem_cons.1 hx with rfl | hx
            · exact absurd (hu y hy) (hirrefl _ _ (BEq.trans (BEq.symm hhead) hxy))
            · exact ⟨x, hx, hxy⟩

/-- Whether a type comes before another one that does not come before it. -/
def Before (env : List Ty) (t u : Ty) : Prop :=
  precedes env t u = true ∧ precedes env u t = false

/-- Different rivals are sorted strictly: no two of them tie. -/
theorem before_sort {types : List Ty} (hrivals : ∀ t ∈ types, ∀ u ∈ types, Rivals t u)
    (hdistinct : types.Pairwise fun t u => (t == u) = false) :
    (sort env types).Pairwise (Before env) := by
  have hsymm : ∀ {t u : Ty}, (t == u) = false → (u == t) = false := by
    intro t u h
    rw [Bool.eq_false_iff] at *
    exact fun h' => h (BEq.symm h')
  have hperm : (sort env types).Perm types := perm_sort
  have hdistinct' := (hperm.pairwise_iff hsymm).2 hdistinct
  refine ((sorted_sort types).and hdistinct').imp_of_mem fun {t u} ht hu htu => ⟨htu.1, ?_⟩
  refine Bool.eq_false_iff.2 fun hut => Bool.eq_false_iff.1 htu.2 ?_
  have hread := (hrivals t (mem_sort.1 ht) u (mem_sort.1 hu)).readable
  exact hread [] [] Ty.stops_nil Ty.stops_nil (by rw [format_of_precedes htu.1 hut])

/-- The types that values have in common are found again when the values come in another
order or more often. -/
theorem exists_mem_common {classify : Value → List Ty}
    (hc : ∀ v, ∀ t ∈ classify v, ∀ u ∈ classify v, Rivals t u) {v w : Value}
    {vs ws : List Value} (hsame : ∀ x, x ∈ v :: vs ↔ x ∈ w :: ws) :
    ∀ m ∈ common classify v vs, ∃ m' ∈ common classify w ws, (m == m') = true := by
  intro m hm
  have hbelow : ∀ x, (∃ m ∈ common classify v vs, m ≤ x) ↔ ∃ m ∈ common classify w ws, m ≤ x := by
    intro x
    rw [exists_le_common, exists_le_common]
    exact forall_congr' fun y => imp_congr (hsame y) .rfl
  -- down to a common type of the other list and back: rivals that are comparable are equal
  obtain ⟨m', hm', hle'⟩ := (hbelow m).1 ⟨m, hm, le_refl m⟩
  obtain ⟨m'', hm'', hle''⟩ := (hbelow m').2 ⟨m', hm', le_refl m'⟩
  have heq := (rivals_common hc v vs m hm m'' hm'').beq_of_le (le_refl m) (Ty.le_trans hle'' hle')
  exact ⟨m', hm', Ty.beq_of_le_of_le (Ty.le_trans (Ty.le_of_beq heq) hle'') hle'⟩

theorem determineBy_congr {classify : Value → List Ty}
    (hc : ∀ v, ∀ t ∈ classify v, ∀ u ∈ classify v, Rivals t u)
    (hd : ∀ v, (classify v).Pairwise fun t u => (t == u) = false) {vs ws : List Value}
    (hne : vs ≠ []) (hsame : ∀ x, x ∈ vs ↔ x ∈ ws) :
    List.Forall₂ (fun t u => (t == u) = true) (determineBy h env classify vs)
      (determineBy h env classify ws) := by
  obtain ⟨v, vs, rfl⟩ := List.exists_cons_of_ne_nil hne
  have hne' : ws ≠ [] := List.ne_nil_of_mem ((hsame v).1 (by simp))
  obtain ⟨w, ws, rfl⟩ := List.exists_cons_of_ne_nil hne'
  have hfind := exists_mem_common hc hsame
  have hfind' := exists_mem_common hc fun x => (hsame x).symm
  have htag : commonTag? h (v :: vs) = commonTag? h (w :: ws) := by
    ext tag
    rw [commonTag_eq_some, commonTag_eq_some]
    exact forall_congr' fun y => imp_congr (hsame y) .rfl
  have hnil : common classify v vs = [] ↔ common classify w ws = [] := by
    constructor <;> intro hnil <;> refine List.eq_nil_iff_forall_not_mem.2 fun m hm => ?_
    · obtain ⟨m', hm', _⟩ := hfind' m hm
      rw [hnil] at hm'
      cases hm'
    · obtain ⟨m', hm', _⟩ := hfind m hm
      rw [hnil] at hm'
      cases hm'
  rw [determineBy_eq, determineBy_eq, ← htag]
  split
  · next hcommon =>
      rw [if_pos (hnil.1 hcommon)]
      exact List.forall₂_same.2 fun t _ => BEq.rfl
  · next hcommon =>
      rw [if_neg fun h => hcommon (hnil.2 h)]
      refine beq_of_sorted (R := Before env) (fun t u htu hut => ?_) (fun t t' u u' ht hu htu => ?_)
        (before_sort (rivals_common hc v vs) (distinct_common (hd v)))
        (before_sort (rivals_common hc w ws) (distinct_common (hd w))) (fun t ht => ?_)
        fun u hu => ?_
      · exact absurd hut.1 (Bool.eq_false_iff.1 htu.2)
      · exact ⟨precedes_congr ht hu ▸ htu.1, precedes_congr hu ht ▸ htu.2⟩
      · obtain ⟨u, hu, htu⟩ := hfind t (mem_sort.1 ht)
        exact ⟨u, mem_sort.2 hu, htu⟩
      · obtain ⟨t, ht, hut⟩ := hfind' u (mem_sort.1 hu)
        exact ⟨t, mem_sort.2 ht, BEq.symm hut⟩

/-- What a filter that respects equality leaves of equal lists is equal. -/
theorem forall₂_filter {p : Ty → Bool} (hp : ∀ t u, (t == u) = true → p t = p u)
    {ts us : List Ty} (htu : List.Forall₂ (fun t u => (t == u) = true) ts us) :
    List.Forall₂ (fun t u => (t == u) = true) (ts.filter p) (us.filter p) := by
  induction htu with
  | nil => exact .nil
  | cons hhead _ ih =>
      rw [List.filter_cons, List.filter_cons, hp _ _ hhead]
      split
      · exact .cons hhead ih
      · exact ih

/-- Over an open environment whose names have no blanks and no parentheses, the types
that values have in common depend on the set of the values only: other lists of the same
values, in any order and with any repetitions, give the same types in the same order.
The heap is arbitrary. -/
theorem strict_loose_of_same_values (henv : OpenEnvironment env)
    (hnames : PlainNames env) {vs ws : List Value} (hne : vs ≠ [])
    (hsame : ∀ v, v ∈ vs ↔ v ∈ ws) :
    List.Forall₂ (fun t u => (t == u) = true) (strict h env vs) (strict h env ws) ∧
    List.Forall₂ (fun t u => (t == u) = true) (loose h env vs) (loose h env ws) := by
  have hsame' : List.Forall₂ (fun t u => (t == u) = true) (determine h env vs)
      (determine h env ws) :=
    determineBy_congr (rivals_classify henv hnames _ _) (distinct_classify _ _) hne hsame
  refine ⟨forall₂_filter (fun t u => Ty.isConsistent_of_beq) hsame',
    forall₂_filter (fun t u htu => ?_) hsame'⟩
  cases t <;> cases u <;> first | rfl | cases htu

/-- An empty array and an array of tagged objects are both arrays of such objects, in
whatever order they come. -/
theorem strict_loose_of_same_values_points :
    OpenEnvironment Builtin.environment ∧ PlainNames Builtin.environment ∧
    (strict ⟨#[[], [.object 0]], #[⟨some "Point", none, ∅⟩]⟩ Builtin.environment
      [.array 0, .array 1]).map Ty.format = ["Array Point"] ∧
    List.Forall₂ (fun t u => (t == u) = true)
      (strict ⟨#[[], [.object 0]], #[⟨some "Point", none, ∅⟩]⟩ Builtin.environment
        [.array 0, .array 1])
      (strict ⟨#[[], [.object 0]], #[⟨some "Point", none, ∅⟩]⟩ Builtin.environment
        [.array 1, .array 0, .array 0]) :=
  ⟨openEnvironment_builtin, plainNames_builtin, by decide +kernel,
    (strict_loose_of_same_values openEnvironment_builtin plainNames_builtin (by simp)
      (by simp [or_comm])).1⟩

end Classification

end DynamicTypes
