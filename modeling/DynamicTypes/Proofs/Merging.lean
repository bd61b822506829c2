import Mathlib.Data.Option.Defs
import DynamicTypes.Proofs.TypeOrder
import DynamicTypes.Ty.Builtin

/-!
# Merging is the join of two types

A type refines another if it is the other with unknowns replaced: the type itself if
it is unknown, or parameters of applied constructors and variables, however deep.
Each occurrence is replaced on its own, so `fill` takes what to put at each place.
That is the order on types, and merging two types gives their least common
refinement, or nothing if they have none.

The laws of `merge?` need no look at its cases. What is merged is told by what lies
above it: the types above the merge of `a` and `b` are those above `a` and above
`b`, and if there are none the merge fails. Two answers with the same types above
them are equal, so a law holds if both of its sides bound the same types.
-/

namespace DynamicTypes.Ty

/-! ## Replacing unknowns -/

mutual

/-- The type with each unknown replaced by what `σ` has for its place; a place is the
path of parameters that leads to it. -/
def fill (σ : List Nat → Ty) : Ty → Ty
  | unknown => σ []
  | con c supers params => con c supers (fillAll σ 0 params)
  | var name params => var name (fillAll σ 0 params)
  | t => t

/-- The parameters with their unknowns replaced, the first one with index `i`. -/
def fillAll (σ : List Nat → Ty) (i : Nat) : List Ty → List Ty
  | [] => []
  | t :: ts => fill (fun path => σ (i :: path)) t :: fillAll σ (i + 1) ts

end

/-- Whether `u` is `t` with unknowns replaced by types. -/
def Refines (u t : Ty) : Prop := ∃ σ, (u == t.fill σ) = true

/-- What `σ` has for places inside the parameter `i`, and what `τ` has for all
others. -/
def graft (i : Nat) (σ τ : List Nat → Ty) : List Nat → Ty
  | [] => unknown
  | j :: path => if j = i then σ path else τ (j :: path)

variable {a b c t u x : Ty}

theorem fillAll_graft {i j : Nat} (hij : i < j) (σ τ : List Nat → Ty) (ts : List Ty) :
    fillAll (graft i σ τ) j ts = fillAll τ j ts := by
  induction ts generalizing j with
  | nil => rfl
  | cons t ts ih =>
      have hhead : (fun path => graft i σ τ (j :: path)) = fun path => τ (j :: path) :=
        funext fun path => if_neg (Nat.ne_of_gt hij)
      rw [fillAll, fillAll, hhead, ih (Nat.lt_succ_of_lt hij)]

/-- Types with unknowns replaced say all that was said before. -/
theorem le_fill (σ : List Nat → Ty) : t ≤ t.fill σ := by
  have hall : ∀ (ts : List Ty) (i : Nat) (σ : List Nat → Ty),
      (∀ t ∈ ts, ∀ σ, t ≤ t.fill σ) → List.Forall₂ (· ≤ ·) ts (fillAll σ i ts) := by
    intro ts
    induction ts with
    | nil => exact fun _ _ _ => .nil
    | cons t ts ih =>
        intro i σ hts
        rw [List.forall_mem_cons] at hts
        rw [fillAll]
        exact .cons (hts.1 _) (ih (i + 1) σ hts.2)
  induction t generalizing σ with
  | unknown => exact unknown_le _
  | con c supers params _ ih =>
      rw [fill]
      exact con_le_con.2 ⟨rfl, hall params 0 σ fun t ht σ => ih t ht σ⟩
  | var name params ih =>
      rw [fill]
      exact var_le_var.2 ⟨rfl, hall params 0 σ fun t ht σ => ih t ht σ⟩
  | _ => exact le_refl _

/-- Parameters that are each refined are refined together. -/
theorem exists_fillAll {ts us : List Ty}
    (h : List.Forall₂ (fun t u => u.Refines t) ts us) (i : Nat) :
    ∃ σ, List.Forall₂ (fun u v => (u == v) = true) us (fillAll σ i ts) := by
  induction h generalizing i with
  | nil => exact ⟨fun _ => unknown, .nil⟩
  | @cons t u ts us head _ ih =>
      obtain ⟨σ, hσ⟩ := head
      obtain ⟨τ, hτ⟩ := ih (i + 1)
      refine ⟨graft i σ τ, ?_⟩
      have hhead : (fun path => graft i σ τ (i :: path)) = σ := funext fun path => if_pos rfl
      rw [fillAll, hhead, fillAll_graft (Nat.lt_succ_self i)]
      exact .cons hσ hτ

theorem refines_of_le (h : t ≤ u) : u.Refines t := by
  induction t generalizing u with
  | unknown => exact ⟨fun _ => u, beq_self u⟩
  | con c supers params _ ih =>
      obtain ⟨d, supers', qs, rfl, hname, hparams⟩ := eq_con_of_le h
      obtain ⟨σ, hσ⟩ := exists_fillAll (forall₂_imp_of_mem hparams fun p hp _ => ih p hp) 0
      exact ⟨σ, beq_con.2 ⟨hname.symm, hσ⟩⟩
  | var name params ih =>
      obtain ⟨qs, rfl, hparams⟩ := eq_var_of_le h
      obtain ⟨σ, hσ⟩ := exists_fillAll (forall₂_imp_of_mem hparams fun p hp _ => ih p hp) 0
      exact ⟨σ, beq_var.2 ⟨rfl, hσ⟩⟩
  | inconsistent | noArguments | any | enumeration | record | function =>
      exact ⟨fun _ => unknown, BEq.symm h⟩

/-- The order on types is refinement. -/
theorem le_iff_refines : t ≤ u ↔ u.Refines t := by
  refine ⟨refines_of_le, ?_⟩
  rintro ⟨σ, hσ⟩
  exact le_trans (le_fill σ) (le_of_beq (BEq.symm hσ))

/-! ## What lies above a merge -/

/-- Whether two answers are both missing, or are equal types. -/
def Agree : Option Ty → Option Ty → Prop := Option.Rel fun t u => (t == u) = true

/-- The types above an answer, none if it is missing. -/
def Above (o : Option Ty) (x : Ty) : Prop := ∃ m ∈ o, m ≤ x

/-- Above the merge of two types is what lies above both. -/
theorem above_merge : Above (merge? a b) x ↔ a ≤ x ∧ b ≤ x := by
  constructor
  · rintro ⟨m, hm, hmx⟩
    obtain ⟨ham, hbm⟩ := le_of_merge hm
    exact ⟨le_trans ham hmx, le_trans hbm hmx⟩
  · rintro ⟨ha, hb⟩
    exact merge_of_le ha hb

/-- Above what is merged with a type afterwards is what lies above both. -/
theorem above_bind {o : Option Ty} {next : Ty → Option Ty}
    (hnext : ∀ m, Above (next m) x ↔ m ≤ x ∧ c ≤ x) :
    Above (o.bind next) x ↔ Above o x ∧ c ≤ x := by
  cases o with
  | none => simp [Above]
  | some m =>
      rw [Option.bind_some, hnext]
      simp [Above]

/-- Answers below the same types agree. -/
theorem agree_of_above {o o' : Option Ty} (h : ∀ x, Above o x ↔ Above o' x) :
    Agree o o' := by
  cases o with
  | none =>
      cases o' with
      | none => exact .none
      | some u =>
          obtain ⟨m, hm, _⟩ := (h u).2 ⟨u, rfl, le_refl u⟩
          cases hm
  | some t =>
      obtain ⟨u, rfl, hut⟩ := (h t).1 ⟨t, rfl, le_refl t⟩
      obtain ⟨m, hm, htu⟩ := (h u).2 ⟨u, rfl, le_refl u⟩
      cases hm
      exact .some (beq_of_le_of_le htu hut)

/-! ## The laws -/

theorem le_congr {t' : Ty} (h : (t == t') = true) : t ≤ x ↔ t' ≤ x :=
  ⟨le_trans (le_of_beq (BEq.symm h)), le_trans (le_of_beq h)⟩

theorem merge_congr {a' b' : Ty} (ha : (a == a') = true) (hb : (b == b') = true) :
    Agree (merge? a b) (merge? a' b') := by
  refine agree_of_above fun x => ?_
  rw [above_merge, above_merge, le_congr ha, le_congr hb]

theorem merge_comm (a b : Ty) : Agree (merge? a b) (merge? b a) := by
  refine agree_of_above fun x => ?_
  rw [above_merge, above_merge, and_comm]

theorem merge_assoc (a b c : Ty) :
    Agree ((merge? a b).bind (merge? · c)) ((merge? b c).bind (merge? a)) := by
  refine agree_of_above fun x => ?_
  calc Above ((merge? a b).bind (merge? · c)) x
      ↔ Above (merge? a b) x ∧ c ≤ x := above_bind fun m => above_merge
    _ ↔ Above (merge? b c) x ∧ a ≤ x := by rw [above_merge, above_merge, and_assoc, and_comm]
    _ ↔ Above ((merge? b c).bind (merge? a)) x :=
        (above_bind fun m => by rw [above_merge, and_comm]).symm

theorem merge_self (a : Ty) : Agree (merge? a a) (some a) := by
  refine agree_of_above fun x => ?_
  rw [above_merge, and_self]
  simp [Above]

/-- Equality of types is an equivalence, and merging is a join for it. Equal types have
equal merges; the order in which types are merged does not matter, neither of two nor of
three of them, in whether they can be merged and in what they give; a type merged with
itself or with the unknown type is that type; and what two types give is their least
common refinement, which is there whenever they have a common refinement at all. -/
theorem merge_isJoin (a b c : Ty) :
    ((a == a) = true ∧ ((a == b) = true → (b == a) = true) ∧
      ((a == b) = true → (b == c) = true → (a == c) = true)) ∧
    (∀ a' b', (a == a') = true → (b == b') = true → Agree (merge? a b) (merge? a' b')) ∧
    Agree (merge? a b) (merge? b a) ∧
    Agree ((merge? a b).bind (merge? · c)) ((merge? b c).bind (merge? a)) ∧
    Agree (merge? a a) (some a) ∧
    (merge? unknown a = some a ∧ merge? a unknown = some a) ∧
    (∀ m, merge? a b = some m →
      m.Refines a ∧ m.Refines b ∧ ∀ u : Ty, u.Refines a → u.Refines b → u.Refines m) ∧
    ((∃ u : Ty, u.Refines a ∧ u.Refines b) → ∃ m, merge? a b = some m) := by
  refine ⟨⟨beq_self a, BEq.symm, BEq.trans⟩, fun a' b' => merge_congr, merge_comm a b,
    merge_assoc a b c, merge_self a, ⟨merge_unknown_left a, merge_unknown_right a⟩,
    fun m hm => ?_, ?_⟩
  · simp only [← le_iff_refines]
    obtain ⟨ha, hb⟩ := le_of_merge hm
    refine ⟨ha, hb, fun u hau hbu => ?_⟩
    obtain ⟨m', hm', hle⟩ := above_merge.2 ⟨hau, hbu⟩
    cases hm.symm.trans hm'
    exact hle
  · simp only [← le_iff_refines]
    rintro ⟨u, hau, hbu⟩
    obtain ⟨m, hm, _⟩ := above_merge.2 ⟨hau, hbu⟩
    exact ⟨m, hm⟩

/-- Pairs of which one tells the first item and the other the second. -/
theorem merge_isJoin_pairs :
    merge? (Builtin.array2 unknown Builtin.boolean) (Builtin.array2 Builtin.null unknown) =
      some (Builtin.array2 Builtin.null Builtin.boolean) ∧
    (Builtin.array2 Builtin.null Builtin.boolean).Refines (Builtin.array2 unknown Builtin.boolean) ∧
    (Builtin.array2 Builtin.null Builtin.boolean).Refines (Builtin.array2 Builtin.null unknown) ∧
    Agree (merge? (Builtin.array2 Builtin.null unknown) (Builtin.array2 unknown Builtin.boolean))
      (some (Builtin.array2 Builtin.null Builtin.boolean)) := by
  have hmerge : merge? (Builtin.array2 unknown Builtin.boolean)
        (Builtin.array2 Builtin.null unknown) =
      some (Builtin.array2 Builtin.null Builtin.boolean) := rfl
  obtain ⟨_, _, hcomm, _, _, _, hleast, _⟩ := merge_isJoin (Builtin.array2 Builtin.null unknown)
    (Builtin.array2 unknown Builtin.boolean) unknown
  obtain ⟨hsecond, hfirst, _⟩ := hleast _ rfl
  exact ⟨hmerge, hfirst, hsecond, hmerge ▸ hcomm⟩

end DynamicTypes.Ty
