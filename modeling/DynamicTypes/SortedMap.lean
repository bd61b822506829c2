/-!
# Maps kept in key order

Object fields, binding tables, observations and constraints are all read out in
the order of their keys, and two of them are the same exactly when they list the
same pairs. A sorted list of pairs says both at once: its order is the reading
order, and because the keys strictly increase there is one list per map, so
equality of maps is equality of lists.

The one thing to protect is that insertion keeps the keys strictly increasing;
the proof rides in the structure, so no caller has to restore it.
-/

namespace DynamicTypes

/-- A finite map, as the list of its pairs in strictly increasing key order. -/
structure SortedMap (κ α : Type) [Ord κ] where
  entries : List (κ × α)
  sorted : entries.Pairwise fun a b => compare a.1 b.1 = .lt

namespace SortedMap

variable {κ α : Type} [Ord κ]

/-- The pairs after `key` is set to `value`, an earlier value of `key` replaced. -/
def insertEntry (key : κ) (value : α) : List (κ × α) → List (κ × α)
  | [] => [(key, value)]
  | (k, a) :: rest =>
    match compare key k with
    | .lt => (key, value) :: (k, a) :: rest
    | .eq => (key, value) :: rest
    | .gt => (k, a) :: insertEntry key value rest

theorem mem_insertEntry {key : κ} {value : α} {p : κ × α} :
    ∀ {l : List (κ × α)}, p ∈ insertEntry key value l → p = (key, value) ∨ p ∈ l := by
  intro l
  induction l with
  | nil =>
    intro h
    exact .inl (List.mem_singleton.1 h)
  | cons head rest ih =>
    intro h
    unfold insertEntry at h
    split at h
    · exact List.mem_cons.1 h
    · rcases List.mem_cons.1 h with h | h
      · exact .inl h
      · exact .inr (List.mem_cons_of_mem _ h)
    · rcases List.mem_cons.1 h with h | h
      · exact .inr (h ▸ List.mem_cons_self)
      · exact (ih h).imp_right (List.mem_cons_of_mem _)

theorem sorted_insertEntry [Std.TransOrd κ] [Std.LawfulEqOrd κ] (key : κ) (value : α) :
    ∀ {l : List (κ × α)}, (l.Pairwise fun a b => compare a.1 b.1 = .lt) →
      (insertEntry key value l).Pairwise fun a b => compare a.1 b.1 = .lt := by
  intro l
  induction l with
  | nil => intro _; exact List.pairwise_singleton _ _
  | cons head rest ih =>
    intro h
    obtain ⟨first, tail⟩ := List.pairwise_cons.1 h
    unfold insertEntry
    split
    next hlt =>
      refine List.pairwise_cons.2 ⟨fun p hp => ?_, h⟩
      rcases List.mem_cons.1 hp with rfl | hp
      · exact hlt
      · exact Std.TransCmp.lt_trans hlt (first p hp)
    next heq =>
      have hkey : key = head.1 := Std.LawfulEqCmp.eq_of_compare heq
      exact List.pairwise_cons.2 ⟨fun p hp => hkey ▸ first p hp, tail⟩
    next hgt =>
      refine List.pairwise_cons.2 ⟨fun p hp => ?_, ih tail⟩
      rcases mem_insertEntry hp with rfl | hp
      · exact Std.OrientedCmp.gt_iff_lt.1 hgt
      · exact first p hp

/-- The map with no keys. -/
def empty : SortedMap κ α := ⟨[], .nil⟩

instance : EmptyCollection (SortedMap κ α) := ⟨empty⟩

instance : Inhabited (SortedMap κ α) := ⟨empty⟩

/-- The map with `key` set to `value`, an earlier value replaced. -/
def insert [Std.TransOrd κ] [Std.LawfulEqOrd κ] (m : SortedMap κ α) (key : κ)
    (value : α) :
    SortedMap κ α :=
  ⟨insertEntry key value m.entries, sorted_insertEntry key value m.sorted⟩

/-- The value of a key. -/
def find? (m : SortedMap κ α) (key : κ) : Option α :=
  (m.entries.find? fun p => compare p.1 key == .eq).map (·.2)

def contains (m : SortedMap κ α) (key : κ) : Bool := (m.find? key).isSome

def keys (m : SortedMap κ α) : List κ := m.entries.map (·.1)

def values (m : SortedMap κ α) : List α := m.entries.map (·.2)

def size (m : SortedMap κ α) : Nat := m.entries.length

def isEmpty (m : SortedMap κ α) : Bool := m.entries.isEmpty

/-- The map of a list of pairs; of two pairs with one key the later wins. -/
def ofList [Std.TransOrd κ] [Std.LawfulEqOrd κ] (pairs : List (κ × α)) :
    SortedMap κ α :=
  pairs.foldl (fun m p => m.insert p.1 p.2) empty

end SortedMap

end DynamicTypes
