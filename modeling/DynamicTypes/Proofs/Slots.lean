import Mathlib.Data.List.Sort
import DynamicTypes.Application
import DynamicTypes.Proofs.Lists

/-!
# The slots of a function

A function takes its arguments in groups, and placeholders leave slots for later. Which
slots the arguments of a call go to depends on the numbers of arguments and on the
placeholders, and never on a check. So everything here is about lists: `taken` and `left`
say what a call does to the slots that are open, and `arrived` what a chain of calls does,
before anything is checked. If a chain fills all slots, then every slot is on its list just
once.
-/

namespace DynamicTypes.Application

/-- Slots after values have been put into them. -/
def put (slots : List (Option Value)) (ps : List (Value × Nat)) : List (Option Value) :=
  ps.foldl (fun slots p => slots.set p.2 (some p.1)) slots

/-- The arguments of a call, placeholders aside, with the open slots that they go to. -/
def taken (slots : List Nat) (args : List Value) : List (Value × Nat) :=
  (args.zip slots).filter fun p => !p.1.isPlaceholder

/-- The slots that a call leaves open. -/
def left (slots : List Nat) (args : List Value) : List Nat :=
  slots.filter fun i => !((taken slots args).map (·.2)).contains i

/-- Whether a call gives a function with the open slots no more arguments than it can
take, and at least one if it can take any. -/
def InArity (slots : List Nat) (args : List Value) : Prop :=
  args.length ≤ slots.length ∧ (args = [] → slots = [])

/-- Whether calls with these groups of arguments fill the open slots, the last one with
the last call. -/
inductive FillsAll : List Nat → List (List Value) → Prop where
  | last {slots : List Nat} {args : List Value} (inArity : InArity slots args)
      (full : left slots args = []) : FillsAll slots [args]
  | more {slots : List Nat} {args : List Value} {groups : List (List Value)}
      (inArity : InArity slots args) (open_ : left slots args ≠ [])
      (rest : FillsAll (left slots args) groups) : FillsAll slots (args :: groups)

/-- The arguments of a chain of calls with the slots that they go to, in the order of
their arrival. -/
def arrived : List Nat → List (List Value) → List (Value × Nat)
  | _, [] => []
  | slots, args :: groups => taken slots args ++ arrived (left slots args) groups

/-- The arguments of a call with the slots they go to. -/
def placed (a : Application) (args : List Value) : List (Value × Nat) :=
  taken a.openSlots args

theorem put_append {slots : List (Option Value)} {ps qs : List (Value × Nat)} :
    put slots (ps ++ qs) = put (put slots ps) qs := by
  rw [put, List.foldl_append]
  rfl

theorem length_put (slots : List (Option Value)) (ps : List (Value × Nat)) :
    (put slots ps).length = slots.length := by
  induction ps generalizing slots with
  | nil => rfl
  | cons p ps ih => rw [put, List.foldl_cons, ← put, ih, List.length_set]

theorem getElem?_put_of_not_mem {slots : List (Option Value)} {ps : List (Value × Nat)}
    {i : Nat} (hi : i ∉ ps.map (·.2)) : (put slots ps)[i]? = slots[i]? := by
  induction ps generalizing slots with
  | nil => rfl
  | cons p ps ih =>
      rw [List.map_cons, List.mem_cons, not_or] at hi
      rw [put, List.foldl_cons, ← put, ih hi.2, List.getElem?_set_ne (Ne.symm hi.1)]

/-- A slot has the value that was put there. -/
theorem getElem?_put_of_mem {slots : List (Option Value)} {ps : List (Value × Nat)}
    (hnodup : (ps.map (·.2)).Nodup) {v : Value} {i : Nat} (hp : (v, i) ∈ ps)
    (hi : i < slots.length) : (put slots ps)[i]? = some (some v) := by
  induction ps generalizing slots with
  | nil => cases hp
  | cons p ps ih =>
      rw [List.map_cons, List.nodup_cons] at hnodup
      rw [put, List.foldl_cons, ← put]
      rcases List.mem_cons.1 hp with rfl | hp
      · rw [getElem?_put_of_not_mem hnodup.1, List.getElem?_set_self hi]
      · exact ih hnodup.2 hp (by rwa [List.length_set])

theorem mem_openSlots {a : Application} {i : Nat} :
    i ∈ a.openSlots ↔ a.slots[i]? = some none := by
  simp only [openSlots, List.mem_map, List.mem_filter, Prod.exists, List.mem_zipIdx_iff_getElem?]
  constructor
  · rintro ⟨slot, j, ⟨hslot, hnone⟩, rfl⟩
    rwa [Option.isNone_iff_eq_none.1 hnone] at hslot
  · exact fun hi => ⟨none, i, ⟨hi, rfl⟩, rfl⟩

theorem sorted_openSlots (a : Application) : a.openSlots.Pairwise (· < ·) := by
  have hsub := (List.filter_sublist (p := (·.1.isNone)) (l := a.slots.zipIdx)).map (·.2)
  rw [List.zipIdx_map_snd] at hsub
  exact List.Pairwise.sublist hsub List.pairwise_lt_range'

theorem nodup_openSlots (a : Application) : a.openSlots.Nodup :=
  a.sorted_openSlots.imp Nat.ne_of_lt

/-- A function with all slots open. -/
theorem openSlots_of_replicate {a : Application} {n : Nat}
    (ha : a.slots = List.replicate n none) :
    a.openSlots = List.range n := by
  refine (sorted_openSlots a).eq_of_mem_iff List.pairwise_lt_range fun i => ?_
  rw [mem_openSlots, ha, List.getElem?_replicate, List.mem_range]
  simp

theorem isComplete_iff {a : Application} : a.isComplete = true ↔ a.openSlots = [] := by
  rw [isComplete, List.all_eq_true, List.eq_nil_iff_forall_not_mem]
  simp only [mem_openSlots]
  constructor
  · intro hall i hi
    cases hall none (List.mem_of_getElem? hi)
  · intro hopen slot hslot
    obtain ⟨i, hi⟩ := List.mem_iff_getElem?.1 hslot
    cases slot with
    | none => exact absurd hi (hopen i)
    | some => rfl

theorem eq_map_some {slots : List (Option Value)} (hall : slots.all (·.isSome) = true) :
    slots = (slots.filterMap id).map some := by
  induction slots with
  | nil => rfl
  | cons slot slots ih =>
      rw [List.all_cons, Bool.and_eq_true] at hall
      obtain ⟨v, rfl⟩ := Option.isSome_iff_exists.1 hall.1
      exact congrArg (some v :: ·) (ih hall.2)

section Taken

variable {slots : List Nat} {args : List Value}

theorem map_snd_taken_sublist (slots : List Nat) (args : List Value) :
    ((taken slots args).map (·.2)).Sublist slots :=
  (List.filter_sublist.map _).trans (map_snd_zip_sublist _ _)

theorem mem_left {i : Nat} :
    i ∈ left slots args ↔ i ∈ slots ∧ i ∉ (taken slots args).map (·.2) := by
  rw [left, List.mem_filter, Bool.not_eq_true', List.contains_eq_mem, decide_eq_false_iff_not]

theorem left_sublist (slots : List Nat) (args : List Value) :
    (left slots args).Sublist slots :=
  List.filter_sublist

/-- A call gives each open slot an argument or leaves it open. -/
theorem taken_append_left_perm (hnodup : slots.Nodup) (args : List Value) :
    ((taken slots args).map (·.2) ++ left slots args).Perm slots := by
  have hsub := map_snd_taken_sublist slots args
  refine (List.perm_ext_iff_of_nodup ?_ hnodup).2 fun i => ?_
  · rw [List.nodup_append']
    exact ⟨hsub.nodup hnodup, (left_sublist slots args).nodup hnodup,
      fun i hi hleft => (mem_left.1 hleft).2 hi⟩
  · rw [List.mem_append, mem_left]
    by_cases hi : i ∈ (taken slots args).map (·.2)
    · exact iff_of_true (.inl hi) (hsub.subset hi)
    · rw [or_iff_right hi, and_iff_left hi]

/-- The arguments of a chain that fills all slots come to each slot once. -/
theorem FillsAll.perm {groups : List (List Value)} (hfills : FillsAll slots groups)
    (hnodup : slots.Nodup) : ((arrived slots groups).map (·.2)).Perm slots := by
  induction hfills with
  | @last slots args _ full =>
      have hperm := taken_append_left_perm hnodup args
      rw [full] at hperm
      simpa [arrived] using hperm
  | @more slots args groups _ _ _ ih =>
      rw [arrived, List.map_append]
      exact ((ih ((left_sublist slots args).nodup hnodup)).append_left _).trans
        (taken_append_left_perm hnodup args)

end Taken

theorem nodup_placed (a : Application) (args : List Value) :
    ((a.placed args).map (·.2)).Nodup :=
  (map_snd_taken_sublist a.openSlots args).nodup a.nodup_openSlots

theorem mem_placed {a : Application} {args : List Value} {p : Value × Nat}
    (hp : p ∈ a.placed args) : a.slots[p.2]? = some none :=
  mem_openSlots.1 ((map_snd_taken_sublist a.openSlots args).subset (List.mem_map_of_mem hp))

/-- The application with more slots filled, and with another session. -/
def advance (a : Application) (ps : List (Value × Nat)) (state? : Option Nat) :
    Application :=
  { a with slots := put a.slots ps, state? }

theorem advance_advance {a : Application} {ps qs : List (Value × Nat)}
    {state? state?' : Option Nat} :
    (a.advance ps state?).advance qs state?' = a.advance (ps ++ qs) state?' := by
  rw [advance, advance, advance, put_append]

/-- A call leaves open what was open and what no argument has gone to. -/
theorem openSlots_advance (a : Application) (args : List Value) (state? : Option Nat) :
    (a.advance (a.placed args) state?).openSlots = left a.openSlots args := by
  refine (sorted_openSlots _).eq_of_mem_iff ((sorted_openSlots a).filter _) fun i => ?_
  rw [mem_openSlots, mem_left, mem_openSlots]
  change (put a.slots (a.placed args))[i]? = some none ↔ _ ∧ i ∉ (a.placed args).map (·.2)
  by_cases hi : i ∈ (a.placed args).map (·.2)
  · obtain ⟨p, hp, rfl⟩ := List.mem_map.1 hi
    have hlt := (List.getElem?_eq_some_iff.1 (mem_placed hp)).1
    rw [getElem?_put_of_mem (a.nodup_placed args) hp hlt]
    exact iff_of_false (by simp) fun hleft => hleft.2 hi
  · rw [getElem?_put_of_not_mem hi, and_iff_left hi]

/-- If every slot is given one value, then there are values for all slots. -/
theorem exists_values {n : Nat} {ps : List (Value × Nat)}
    (hperm : (ps.map (·.2)).Perm (List.range n)) :
    ∃ xs : List Value, xs.length = n ∧ ∀ p ∈ ps, xs[p.2]? = some p.1 := by
  let slots := put (List.replicate n none) ps
  have hlength : slots.length = n := (length_put _ _).trans List.length_replicate
  have hput : ∀ p ∈ ps, slots[p.2]? = some (some p.1) := by
    intro p hp
    have hi := List.mem_range.1 (hperm.subset (List.mem_map_of_mem hp))
    exact getElem?_put_of_mem (hperm.nodup_iff.2 List.nodup_range) hp (by simpa using hi)
  have hall : slots.all (·.isSome) = true := by
    refine List.all_eq_true.2 fun slot hslot => ?_
    obtain ⟨i, hi⟩ := List.mem_iff_getElem?.1 hslot
    have hlt := (List.getElem?_eq_some_iff.1 hi).1
    obtain ⟨p, hp, rfl⟩ := List.mem_map.1 (hperm.mem_iff.2 (List.mem_range.2 (hlength ▸ hlt)))
    cases (hput p hp).symm.trans hi
    rfl
  have hslots := eq_map_some hall
  refine ⟨slots.filterMap id, ?_, fun p hp => ?_⟩
  · rw [← hlength, hslots, List.length_map]
    simp
  · have hp := hput p hp
    rw [hslots, List.getElem?_map] at hp
    obtain ⟨v, hv, heq⟩ := Option.map_eq_some_iff.1 hp
    rw [hv, Option.some.inj heq]

/-- Once all slots are filled, each holds the argument that has arrived there. -/
theorem put_replicate {xs : List Value} {ps : List (Value × Nat)}
    (hperm : (ps.map (·.2)).Perm (List.range xs.length))
    (hxs : ∀ p ∈ ps, xs[p.2]? = some p.1) :
    put (List.replicate xs.length none) ps = xs.map some := by
  refine List.ext_getElem? fun i => ?_
  rw [List.getElem?_map]
  by_cases hi : i < xs.length
  · obtain ⟨p, hp, rfl⟩ := List.mem_map.1 (hperm.mem_iff.2 (List.mem_range.2 hi))
    rw [getElem?_put_of_mem (hperm.nodup_iff.2 List.nodup_range) hp (by simpa using hi), hxs p hp]
    rfl
  · rw [List.getElem?_eq_none (Nat.le_of_not_lt hi), List.getElem?_eq_none]
    · rfl
    · simpa [length_put] using hi

end DynamicTypes.Application
