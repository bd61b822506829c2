import Mathlib.Data.List.Forall2
import Mathlib.Data.List.Nodup

/-!
# Facts about lists

What the proofs need to know of lists that has nothing to do with types or values: lists
related item by item, the first of two items, and look-ups in parts of a list.
-/

namespace DynamicTypes

/-! ## Lists related item by item -/

section Pointwise

variable {α β γ κ : Type} {R : α → β → Prop} {S : α → γ → Prop} {T : β → γ → Prop}

/-- Two lists related to one list are related to each other. -/
theorem forall₂_span {as : List α} {bs : List β} {cs : List γ}
    (hr : List.Forall₂ R as bs) (hs : List.Forall₂ S as cs)
    (h : ∀ a ∈ as, ∀ b c, R a b → S a c → T b c) :
    List.Forall₂ T bs cs := by
  induction hr generalizing cs with
  | nil => cases hs; exact .nil
  | cons hab _ ih =>
      cases hs with
      | cons hac hs =>
          exact .cons (h _ (by simp) _ _ hab hac) (ih hs fun a ha => h a (by simp [ha]))

/-- Two pointwise relations compose, if they do so at the items of the first list. -/
theorem forall₂_comp {S : β → γ → Prop} {T : α → γ → Prop} {as : List α} {bs : List β}
    {cs : List γ} (hr : List.Forall₂ R as bs) (hs : List.Forall₂ S bs cs)
    (h : ∀ a ∈ as, ∀ b c, R a b → S b c → T a c) : List.Forall₂ T as cs := by
  induction hr generalizing cs with
  | nil => cases hs; exact .nil
  | cons hab _ ih =>
      cases hs with
      | cons hbc hs =>
          exact .cons (h _ (by simp) _ _ hab hbc) (ih hs fun a ha => h a (by simp [ha]))

theorem forall₂_meet {S R' : α → β → Prop} {as : List α} {bs : List β}
    (hr : List.Forall₂ R as bs) (hs : List.Forall₂ S as bs)
    (h : ∀ a ∈ as, ∀ b, R a b → S a b → R' a b) : List.Forall₂ R' as bs := by
  induction hr with
  | nil => exact .nil
  | cons hab _ ih =>
      cases hs with
      | cons hab' hs =>
          exact .cons (h _ (by simp) _ hab hab') (ih hs fun a ha => h a (by simp [ha]))

/-- A pointwise relation may be weakened at the items of the first list. -/
theorem forall₂_imp_of_mem {R' : α → β → Prop} {as : List α} {bs : List β}
    (hr : List.Forall₂ R as bs) (h : ∀ a ∈ as, ∀ b, R a b → R' a b) :
    List.Forall₂ R' as bs := by
  induction hr with
  | nil => exact .nil
  | cons hab _ ih => exact .cons (h _ (by simp) _ hab) (ih fun a ha => h a (by simp [ha]))

/-- Two lists are related when they have one length and their items are related, place
by place. -/
theorem forall₂_iff_getElem? {as : List α} {bs : List β} :
    List.Forall₂ R as bs ↔ as.length = bs.length ∧
      ∀ (i : Nat) (a : α) (b : β), as[i]? = some a → bs[i]? = some b → R a b := by
  rw [List.forall₂_iff_get]
  refine and_congr_right fun hlen => ⟨fun h i a b ha hb => ?_, fun h i ha hb => ?_⟩
  · obtain ⟨ha', rfl⟩ := List.getElem?_eq_some_iff.1 ha
    obtain ⟨hb', rfl⟩ := List.getElem?_eq_some_iff.1 hb
    exact h i ha' hb'
  · exact h i _ _ (List.getElem?_eq_getElem ha) (List.getElem?_eq_getElem hb)

/-- Lists that agree item by item in some respect are related, if items that agree
are. -/
theorem forall₂_of_map_eq {f : α → β} {R : α → α → Prop} {as bs : List α}
    (hmap : as.map f = bs.map f) (h : ∀ a ∈ as, ∀ b ∈ bs, f a = f b → R a b) :
    List.Forall₂ R as bs := by
  induction as generalizing bs with
  | nil =>
      obtain rfl := List.map_eq_nil_iff.1 hmap.symm
      exact .nil
  | cons a as ih =>
      cases bs with
      | nil => cases hmap
      | cons b bs =>
          obtain ⟨hab, htail⟩ := List.cons.inj hmap
          exact .cons (h a (by simp) b (by simp) hab)
            (ih htail fun a ha b hb => h a (by simp [ha]) b (by simp [hb]))

theorem isEmpty_of_forall₂ {as : List α} {bs : List β} (hr : List.Forall₂ R as bs) :
    as.isEmpty = bs.isEmpty := by
  cases hr <;> rfl

theorem exists_forall₂ {l : List α} (hl : ∀ a ∈ l, ∃ b, R a b) :
    ∃ l', List.Forall₂ R l l' := by
  induction l with
  | nil => exact ⟨[], .nil⟩
  | cons a l ih =>
      rw [List.forall_mem_cons] at hl
      obtain ⟨b, hb⟩ := hl.1
      obtain ⟨l', hl'⟩ := ih hl.2
      exact ⟨b :: l', .cons hb hl'⟩

theorem exists_of_forall₂_right {l : List α} {l' : List β} (hl : List.Forall₂ R l l')
    {b : β} (hb : b ∈ l') : ∃ a ∈ l, R a b := by
  induction hl with
  | nil => cases hb
  | cons hab _ ih =>
      rcases List.mem_cons.1 hb with rfl | hb
      · exact ⟨_, List.mem_cons_self, hab⟩
      · obtain ⟨a, ha, hr⟩ := ih hb
        exact ⟨a, List.mem_cons_of_mem _ ha, hr⟩

/-- Lists are related label by label and part by part. -/
theorem forall₂_labels_iff {l : List (κ × α)} {l' : List (κ × β)} :
    List.Forall₂ (fun p q => p.1 = q.1 ∧ R p.2 q.2) l l' ↔
      l.map (·.1) = l'.map (·.1) ∧ ∀ (i : Nat) (p : κ × α) (q : κ × β),
        l[i]? = some p → l'[i]? = some q → R p.2 q.2 := by
  have hlabels : l.map (·.1) = l'.map (·.1) ↔ List.Forall₂ (fun p q => p.1 = q.1) l l' := by
    rw [← List.forall₂_eq_eq_eq, List.forall₂_map_left_iff, List.forall₂_map_right_iff]
  rw [hlabels, forall₂_iff_getElem?, forall₂_iff_getElem?, and_assoc]
  refine and_congr_right fun _ => ⟨fun hall => ⟨?_, ?_⟩, fun hall i p q hp hq => ?_⟩
  · exact fun i p q hp hq => (hall i p q hp hq).1
  · exact fun i p q hp hq => (hall i p q hp hq).2
  · exact ⟨hall.1 i p q hp hq, hall.2 i p q hp hq⟩

theorem mapM_eq_some_iff {f : α → Option β} {l : List α} {l' : List β} :
    l.mapM f = some l' ↔ List.Forall₂ (fun a b => f a = some b) l l' := by
  induction l generalizing l' with
  | nil => cases l' <;> simp
  | cons a l ih =>
      rw [List.mapM_cons, Option.bind_eq_bind, Option.bind_eq_some_iff]
      constructor
      · rintro ⟨b, hb, hrest⟩
        obtain ⟨bs, hbs, heq⟩ := Option.bind_eq_some_iff.1 hrest
        cases heq
        exact .cons hb (ih.1 hbs)
      · intro hall
        cases hall with
        | cons hb hbs => exact ⟨_, hb, Option.bind_eq_some_iff.2 ⟨_, ih.2 hbs, rfl⟩⟩

end Pointwise

variable {α β κ : Type}

/-! ## Items in order -/

theorem ordered_getElem? {l : List α} {i j : Nat} {a b : α} (hij : i < j)
    (ha : l[i]? = some a) (hb : l[j]? = some b) :
    ∃ xs ys zs, l = xs ++ a :: (ys ++ b :: zs) := by
  induction l generalizing i j with
  | nil => cases ha
  | cons x l ih =>
      obtain ⟨j, rfl⟩ : ∃ m, j = m + 1 := ⟨j - 1, by omega⟩
      rw [List.getElem?_cons_succ] at hb
      cases i with
      | zero =>
          cases ha
          obtain ⟨ys, zs, rfl⟩ := List.append_of_mem (List.mem_of_getElem? hb)
          exact ⟨[], ys, zs, rfl⟩
      | succ i =>
          obtain ⟨xs, ys, zs, rfl⟩ := ih (by omega) ha hb
          exact ⟨x :: xs, ys, zs, rfl⟩

theorem ordered_of_mem {l : List (κ × α)} {key key' : κ} {a a' : α} (ha : (key, a) ∈ l)
    (ha' : (key', a') ∈ l) (hne : key ≠ key') :
    (∃ xs ys zs, l = xs ++ (key, a) :: (ys ++ (key', a') :: zs)) ∨
    ∃ xs ys zs, l = xs ++ (key', a') :: (ys ++ (key, a) :: zs) := by
  obtain ⟨xs, ys, rfl⟩ := List.append_of_mem ha
  rcases List.mem_append.1 ha' with hbefore | hafter
  · obtain ⟨xs', ys', rfl⟩ := List.append_of_mem hbefore
    exact .inr ⟨xs', ys', ys, by simp⟩
  · rcases List.mem_cons.1 hafter with heq | hafter
    · cases heq
      exact absurd rfl hne
    · obtain ⟨xs', ys', rfl⟩ := List.append_of_mem hafter
      exact .inl ⟨xs, xs', ys', rfl⟩

theorem sublist_iff_erase [DecidableEq α] {x : α} {l as : List α} (hx : x ∉ l) :
    l.Sublist as ↔ l.Sublist (as.erase x) := by
  constructor
  · intro h
    have herase := h.erase x
    rwa [List.erase_of_not_mem hx] at herase
  · exact fun h => h.trans List.erase_sublist

/-- Two items come in the same order as their keys, if no two items have the same
key. -/
theorem sublist_of_map_sublist {p q : α × κ} {ps qs : List (α × κ)}
    (hnodup : (qs.map (·.2)).Nodup) (hsub : ps ⊆ qs) (hpq : [p, q].Sublist ps)
    (horder : [p.2, q.2].Sublist (qs.map (·.2))) : [p, q].Sublist qs := by
  obtain ⟨rs, hrs, heq⟩ := List.sublist_map_iff.1 horder
  obtain ⟨p', _, rfl, hp', heq⟩ := List.map_eq_cons_iff.1 heq.symm
  obtain ⟨q', _, rfl, hq', heq⟩ := List.map_eq_cons_iff.1 heq
  cases List.map_eq_nil_iff.1 heq
  have hinj := List.inj_on_of_nodup_map hnodup
  have hp : p' = p := hinj (hrs.subset (by simp)) (hsub (hpq.subset (by simp))) hp'
  have hq : q' = q := hinj (hrs.subset (by simp)) (hsub (hpq.subset (by simp))) hq'
  rwa [hp, hq] at hrs

theorem map_snd_zip_sublist (as : List α) (bs : List β) :
    ((as.zip bs).map (·.2)).Sublist bs := by
  induction as generalizing bs with
  | nil => exact List.nil_sublist bs
  | cons a as ih =>
      cases bs with
      | nil => exact .slnil
      | cons b bs => exact (ih bs).cons_cons b

/-! ## Look-ups -/

theorem find?_of_nodup {l : List (String × α)} (hl : (l.map (·.1)).Nodup) {key : String}
    {a : α} (ha : (key, a) ∈ l) : l.find? (·.1 == key) = some (key, a) := by
  induction l with
  | nil => cases ha
  | cons p l ih =>
      rw [List.map_cons, List.nodup_cons] at hl
      rcases List.mem_cons.1 ha with rfl | ha
      · simp
      · have hne : p.1 ≠ key := fun heq => hl.1 (List.mem_map.2 ⟨_, ha, heq.symm⟩)
        rw [List.find?_cons_of_neg (by simpa using hne), ih hl.2 ha]

theorem getElem?_filterMap {f : α → Option β} {as : List α}
    (hall : ∀ a ∈ as, (f a).isSome = true) (i : Nat) :
    (as.filterMap f)[i]? = as[i]?.bind f := by
  induction as generalizing i with
  | nil => rfl
  | cons a as ih =>
      rw [List.forall_mem_cons] at hall
      obtain ⟨b, hb⟩ := Option.isSome_iff_exists.1 hall.1
      rw [List.filterMap_cons_some hb]
      cases i with
      | zero => exact hb.symm
      | succ i => exact ih hall.2 i

theorem of_drop_eq_cons {l rest : List α} {n : Nat} {a : α} (h : l.drop n = a :: rest) :
    l[n]? = some a ∧ l.drop (n + 1) = rest := by
  constructor
  · rw [← List.head?_drop, h, List.head?_cons]
  · rw [← List.tail_drop, h, List.tail_cons]

end DynamicTypes
