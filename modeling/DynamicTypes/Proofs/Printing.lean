import Mathlib.Data.Set.Card
import Mathlib.Logic.Relation
import DynamicTypes.Proofs.TypeOrder
import DynamicTypes.Value.Printer

/-!
# Printing follows a value to its end

Arrays and objects may hold each other in any way, so following what a value holds need
not come to an end. Printing does, because it keeps the containers that are open and puts
a mark where one of them comes up again. The marks are there exactly if something holds
itself: a container that comes up twice side by side is printed twice, and without marks
the text is that of the tree which the value unfolds to.

Text is a poor witness of all this, since a string may look like a mark. So `calls?` keeps
the calls that printing makes as a tree: one node for each call, with a node of its own
for a mark. Like an interpreter on fuel it is given a limit, the number of calls that may
be nested, and has no answer where the limit is too low. The text that is printed is the
text of the tree.
-/

namespace DynamicTypes

/-- The two kinds of values that hold others. -/
inductive Shape where
  | array
  | object
  deriving DecidableEq

namespace Shape

def opening : Shape → String
  | array => "["
  | object => "\x7b"

def closing : Shape → String
  | array => "]"
  | object => "\x7d"

end Shape

namespace Value

/-- The shape and the identity of an array or object. -/
def container? : Value → Option (Shape × Ref)
  | array a => some (.array, .array a)
  | object o => some (.object, .object o)
  | _ => none

/-- The value without what tells a function from another that looks the same. -/
def anonymous : Value → Value
  | function _ info => function 0 info
  | v => v

theorem container?_inj {u v : Value} {shape shape' : Shape} {r : Ref}
    (hu : u.container? = some (shape, r)) (hv : v.container? = some (shape', r)) :
    u = v := by
  cases u <;> cases hu <;> cases v <;> cases hv <;> rfl

end Value

/-! ## What values hold -/

namespace Heap

variable {h : Heap} {v w : Value}

/-- What a value holds: the items of an array, and the fields of an object with their
keys. -/
def parts (h : Heap) : Value → List (Option String × Value)
  | .array a => (h.items a).map (none, ·)
  | .object o => (h.object o).fields.entries.map fun p => (some p.1, p.2)
  | _ => []

def Holds (h : Heap) (v w : Value) : Prop := ∃ label, (label, w) ∈ h.parts v

/-- Whether one value is another or holds it, at any depth. -/
def Reaches (h : Heap) : Value → Value → Prop := Relation.ReflTransGen h.Holds

/-- Whether something that holds itself can be reached. -/
def ReachesCycle (h : Heap) (v : Value) : Prop :=
  ∃ w, h.Reaches v w ∧ Relation.TransGen h.Holds w w

/-- The arrays and objects that can be reached. -/
def reachable (h : Heap) (v : Value) : Set Ref :=
  {r | ∃ w shape, h.Reaches v w ∧ w.container? = some (shape, r)}

theorem parts_of_container?_eq_none (hv : v.container? = none) : h.parts v = [] := by
  cases v with
  | array | object => cases hv
  | _ => rfl

theorem ReachesCycle.of_holds (hw : h.ReachesCycle w) (hvw : h.Holds v w) :
    h.ReachesCycle v := by
  obtain ⟨u, hu, hcycle⟩ := hw
  exact ⟨u, .head hvw hu, hcycle⟩

theorem mem_stored_of_holds (hvw : h.Holds v w) : w ∈ h.stored := by
  obtain ⟨label, hmem⟩ := hvw
  cases v with
  | array a =>
      obtain ⟨x, hx, heq⟩ := List.mem_map.1 hmem
      cases heq
      rw [items] at hx
      cases ha : h.arrays[a]? with
      | none =>
          rw [ha] at hx
          cases hx
      | some xs =>
          rw [ha] at hx
          exact List.mem_append_left _
            (List.mem_flatten.2 ⟨xs, Array.mem_toList_iff.2 (Array.mem_of_getElem? ha), hx⟩)
  | object o =>
      obtain ⟨p, hp, heq⟩ := List.mem_map.1 hmem
      cases heq
      rw [object] at hp
      cases ho : h.objects[o]? with
      | none =>
          rw [ho] at hp
          cases hp
      | some x =>
          rw [ho] at hp
          exact List.mem_append_right _ (List.mem_flatMap.2
            ⟨x, Array.mem_toList_iff.2 (Array.mem_of_getElem? ho), List.mem_map.2 ⟨p, hp, rfl⟩⟩)
  | _ => cases hmem

theorem finite_reachable (h : Heap) (v : Value) : (h.reachable v).Finite := by
  refine Set.Finite.subset
    (List.finite_toSet ((v :: h.stored).filterMap fun w => w.container?.map (·.2))) ?_
  rintro r ⟨w, shape, hreach, hw⟩
  refine List.mem_filterMap.2 ⟨w, ?_, by rw [hw]; rfl⟩
  rcases Relation.ReflTransGen.cases_tail hreach with rfl | ⟨u, _, hu⟩
  · exact List.mem_cons_self
  · exact List.mem_cons_of_mem _ (mem_stored_of_holds hu)

end Heap

/-! ## Trees of calls -/

/-- The calls that printing a value makes. -/
inductive Tree where
  /-- A value that holds nothing. -/
  | leaf (v : Value)
  /-- A container that is already open. -/
  | circular
  | node (shape : Shape) (parts : List (Option String × Tree))

namespace Tree

@[induction_eliminator]
theorem induct {motive : Tree → Prop} (leaf : ∀ v, motive (.leaf v))
    (circular : motive .circular)
    (node : ∀ shape parts, (∀ p ∈ parts, motive p.2) → motive (.node shape parts))
    (t : Tree) :
    motive t := by
  refine @Tree.rec motive (fun ps => ∀ p ∈ ps, motive p.2) (fun p => motive p.2) leaf circular node
    ?_ ?_ ?_ t
  · exact fun p hp => absurd hp List.not_mem_nil
  · exact fun p ps hp hps => List.forall_mem_cons.2 ⟨hp, hps⟩
  · exact fun _ _ ht => ht

/-- The key of a field, in front of its value. -/
def labelText : Option String → String
  | none => ""
  | some key => Text.quoted key ++ ": "

mutual

/-- The text that the calls make. -/
def text : Tree → String
  | leaf v => Heap.empty.print v
  | circular => Value.circularMark
  | node shape parts => shape.opening ++ ", ".intercalate (partTexts parts) ++ shape.closing

def partTexts : List (Option String × Tree) → List String
  | [] => []
  | (label, t) :: rest => (labelText label ++ text t) :: partTexts rest

end

mutual

/-- Whether one of the calls puts the mark. -/
def marked : Tree → Bool
  | leaf _ => false
  | circular => true
  | node _ parts => partsMarked parts

def partsMarked : List (Option String × Tree) → Bool
  | [] => false
  | (_, t) :: rest => marked t || partsMarked rest

end

theorem partTexts_eq_map (parts : List (Option String × Tree)) :
    partTexts parts = parts.map fun p => labelText p.1 ++ p.2.text := by
  induction parts with
  | nil => rfl
  | cons p parts ih => rw [partTexts, List.map_cons, ih]

theorem partsMarked_iff {parts : List (Option String × Tree)} :
    partsMarked parts = true ↔ ∃ p ∈ parts, p.2.marked = true := by
  induction parts with
  | nil => simp [partsMarked]
  | cons p parts ih => rw [partsMarked, Bool.or_eq_true, ih, List.exists_mem_cons_iff]

end Tree

namespace Heap

variable {h : Heap} {v w : Value} {limit : Nat} {path : List Ref} {shape : Shape} {r : Ref}
  {t : Tree}

/-- The calls that printing a value makes inside the containers `path`, no more than
`limit` of them nested. -/
def calls? (h : Heap) : Nat → List Ref → Value → Option Tree
  | 0, _, _ => none
  | limit + 1, path, v =>
    match v.container? with
    | none => some (.leaf v.anonymous)
    | some (shape, r) =>
      if r ∈ path then some .circular
      else
        ((h.parts v).mapM fun p => (h.calls? limit (r :: path) p.2).map (p.1, ·)).map (.node shape)

theorem calls?_leaf (hv : v.container? = none) :
    h.calls? (limit + 1) path v = some (.leaf v.anonymous) := by
  rw [calls?, hv]

theorem calls?_open (hv : v.container? = some (shape, r)) (hr : r ∈ path) :
    h.calls? (limit + 1) path v = some .circular := by
  rw [calls?, hv]
  exact if_pos hr

/-- A container that is not open yet calls for what it holds. -/
theorem calls?_node (hv : v.container? = some (shape, r)) (hr : r ∉ path) :
    h.calls? (limit + 1) path v = some t ↔
      ∃ parts, t = .node shape parts ∧ List.Forall₂
        (fun p q => p.1 = q.1 ∧ h.calls? limit (r :: path) p.2 = some q.2) (h.parts v) parts := by
  rw [calls?, hv]
  simp only [if_neg hr, Option.map_eq_some_iff, mapM_eq_some_iff]
  refine exists_congr fun parts => ?_
  rw [and_comm, eq_comm]
  refine and_congr_right fun _ => ?_
  have hiff : (fun (p : Option String × Value) (q : Option String × Tree) =>
      ∃ u, h.calls? limit (r :: path) p.2 = some u ∧ (p.1, u) = q) =
      fun p q => p.1 = q.1 ∧ h.calls? limit (r :: path) p.2 = some q.2 := by
    funext p q
    refine propext ⟨?_, ?_⟩
    · rintro ⟨u, hu, rfl⟩
      exact ⟨rfl, hu⟩
    · rintro ⟨hlabel, hu⟩
      exact ⟨q.2, hu, by rw [hlabel]⟩
  rw [hiff]

/-- All that a call can come to. -/
theorem calls?_cases (ht : h.calls? (limit + 1) path v = some t) :
    (v.container? = none ∧ t = .leaf v.anonymous) ∨
    ∃ shape r, v.container? = some (shape, r) ∧
      (r ∈ path ∧ t = .circular ∨ r ∉ path ∧ ∃ parts, t = .node shape parts ∧ List.Forall₂
        (fun p q => p.1 = q.1 ∧ h.calls? limit (r :: path) p.2 = some q.2) (h.parts v) parts) := by
  cases hv : v.container? with
  | none =>
      rw [calls?_leaf hv] at ht
      cases ht
      exact .inl ⟨rfl, rfl⟩
  | some x =>
      obtain ⟨shape, r⟩ := x
      refine .inr ⟨shape, r, rfl, ?_⟩
      by_cases hr : r ∈ path
      · rw [calls?_open hv hr] at ht
        cases ht
        exact .inl ⟨hr, rfl⟩
      · exact .inr ⟨hr, (calls?_node hv hr).1 ht⟩

/-- A higher limit changes nothing. -/
theorem calls?_mono {limit' : Nat} (ht : h.calls? limit path v = some t)
    (hle : limit ≤ limit') :
    h.calls? limit' path v = some t := by
  induction limit generalizing limit' path v t with
  | zero => cases ht
  | succ limit ih =>
      obtain ⟨n, rfl⟩ : ∃ n, limit' = n + 1 := ⟨limit' - 1, by omega⟩
      rcases calls?_cases ht with ⟨hv, rfl⟩ | ⟨shape, r, hv, ⟨hr, rfl⟩ | ⟨hr, parts, rfl, hparts⟩⟩
      · exact calls?_leaf hv
      · exact calls?_open hv hr
      · refine (calls?_node hv hr).2 ⟨parts, rfl, hparts.imp fun p q hpq => ?_⟩
        exact ⟨hpq.1, ih hpq.2 (by omega)⟩

/-- The containers that hold anything and are not open yet bound how deep calls are
nested. -/
theorem exists_calls? {bound : Finset Ref}
    (hbound : ∀ w shape r, h.Reaches v w → w.container? = some (shape, r) → h.parts w ≠ [] →
      r ∈ bound)
    (hlimit : (bound \ path.toFinset).card < limit) : ∃ t, h.calls? limit path v = some t := by
  induction limit generalizing path v with
  | zero => omega
  | succ limit ih =>
      cases hv : v.container? with
      | none => exact ⟨_, calls?_leaf hv⟩
      | some x =>
          obtain ⟨shape, r⟩ := x
          by_cases hr : r ∈ path
          · exact ⟨_, calls?_open hv hr⟩
          have heach : ∀ p ∈ h.parts v, ∃ q : Option String × Tree,
              p.1 = q.1 ∧ h.calls? limit (r :: path) p.2 = some q.2 := by
            intro p hp
            have hholds : h.Holds v p.2 := ⟨p.1, hp⟩
            have hmem : r ∈ bound \ path.toFinset := by
              have := hbound v shape r .refl hv (List.ne_nil_of_mem hp)
              simp [this, hr]
            have hcard : (bound \ (r :: path).toFinset).card < limit := by
              rw [List.toFinset_cons, Finset.sdiff_insert, Finset.card_erase_of_mem hmem]
              have := Finset.card_pos.2 ⟨r, hmem⟩
              omega
            obtain ⟨t, ht⟩ := ih (fun w shape r hw => hbound w shape r (.head hholds hw)) hcard
            exact ⟨(p.1, t), rfl, ht⟩
          obtain ⟨parts, hparts⟩ := exists_forall₂ heach
          exact ⟨_, (calls?_node hv hr).2 ⟨parts, rfl, hparts⟩⟩

/-! ## The text of the calls -/

theorem printWithin_leaf {depth : Nat} (hv : v.container? = none) :
    h.printWithin depth path v = (Tree.leaf v.anonymous).text := by
  cases v with
  | array | object => cases hv
  | _ => simp only [printWithin, Tree.text, Value.anonymous, print]

theorem printWithin_open {depth : Nat} (hv : v.container? = some (shape, r))
    (hr : r ∈ path) (hhook : ∀ o, v = .object o → (h.object o).hook = none) :
    h.printWithin (depth + 1) path v = Value.circularMark := by
  cases v with
  | array a =>
      cases hv
      rw [printWithin, if_pos (List.contains_iff_mem.2 hr)]
  | object o =>
      cases hv
      simp only [printWithin, hhook o rfl, if_pos (List.contains_iff_mem.2 hr)]
  | _ => cases hv

theorem printWithin_container {depth : Nat} (hv : v.container? = some (shape, r))
    (hr : r ∉ path) (hhook : ∀ o, v = .object o → (h.object o).hook = none) :
    h.printWithin (depth + 1) path v = shape.opening ++ ", ".intercalate
      ((h.parts v).map fun p => Tree.labelText p.1 ++ h.printWithin depth (r :: path) p.2) ++
      shape.closing := by
  have hclosed : ¬ path.contains r = true := fun hmem => hr (List.contains_iff_mem.1 hmem)
  cases v with
  | array a =>
      cases hv
      rw [printWithin, if_neg hclosed, parts, List.map_map]
      simp only [Function.comp_def, Tree.labelText, String.empty_append]
      rfl
  | object o =>
      cases hv
      simp only [printWithin, hhook o rfl, if_neg hclosed, parts, List.map_map, Function.comp_def,
        Tree.labelText]
      rfl
  | _ => cases hv

/-- The text is that of the calls, as far as no hook prints instead. -/
theorem printWithin_eq {depth : Nat} (ht : h.calls? limit path v = some t)
    (hle : limit ≤ depth)
    (hhooks : ∀ o, h.Reaches v (.object o) → (h.object o).hook = none) :
    h.printWithin depth path v = t.text := by
  induction limit generalizing depth path v t with
  | zero => cases ht
  | succ limit ih =>
      obtain ⟨depth, rfl⟩ : ∃ n, depth = n + 1 := ⟨depth - 1, by omega⟩
      have hhook : ∀ o, v = .object o → (h.object o).hook = none := by
        rintro o rfl
        exact hhooks o .refl
      rcases calls?_cases ht with ⟨hv, rfl⟩ | ⟨shape, r, hv, ⟨hr, rfl⟩ | ⟨hr, parts, rfl, hparts⟩⟩
      · exact printWithin_leaf hv
      · exact printWithin_open hv hr hhook
      · have hinner : ((h.parts v).map fun p =>
            Tree.labelText p.1 ++ h.printWithin depth (r :: path) p.2) =
            parts.map fun q => Tree.labelText q.1 ++ q.2.text := by
          rw [← List.forall₂_eq_eq_eq, List.forall₂_map_left_iff, List.forall₂_map_right_iff]
          refine forall₂_imp_of_mem hparts fun p hp q hpq => ?_
          rw [hpq.1, ih hpq.2 (by omega) fun o ho => hhooks o (.head ⟨p.1, hp⟩ ho)]
        rw [printWithin_container hv hr hhook, hinner, Tree.text, Tree.partTexts_eq_map]

/-- The identities of the arrays and objects of the heap. -/
def containerRefs (h : Heap) : Finset Ref :=
  (Finset.range h.arrays.size).image Ref.array ∪ (Finset.range h.objects.size).image Ref.object

theorem card_containerRefs_le (h : Heap) : h.containerRefs.card ≤ h.containers := by
  refine (Finset.card_union_le _ _).trans (Nat.add_le_add ?_ ?_)
  · exact Finset.card_image_le.trans_eq (Finset.card_range _)
  · exact Finset.card_image_le.trans_eq (Finset.card_range _)

/-- What holds anything is an array or object of the heap. -/
theorem mem_containerRefs (hv : v.container? = some (shape, r))
    (hparts : h.parts v ≠ []) :
    r ∈ h.containerRefs := by
  rw [containerRefs, Finset.mem_union, Finset.mem_image, Finset.mem_image]
  cases v with
  | array a =>
      cases hv
      refine .inl ⟨a, Finset.mem_range.2 (Nat.lt_of_not_le fun hle => hparts ?_), rfl⟩
      rw [parts, items, Array.getElem?_eq_none hle]
      rfl
  | object o =>
      cases hv
      refine .inr ⟨o, Finset.mem_range.2 (Nat.lt_of_not_le fun hle => hparts ?_), rfl⟩
      rw [parts, object, Array.getElem?_eq_none hle]
      rfl
  | _ => cases hv

/-- Printing never runs out of depth. -/
theorem exists_calls?_print (h : Heap) (v : Value)
    (hhooks : ∀ o, h.Reaches v (.object o) → (h.object o).hook = none) :
    ∃ t, h.calls? (h.containers + 1) [] v = some t ∧ h.print v = t.text := by
  have hlimit : (h.containerRefs \ ([] : List Ref).toFinset).card < h.containers + 1 := by
    have := card_containerRefs_le h
    simp only [List.toFinset_nil, Finset.sdiff_empty]
    omega
  obtain ⟨t, ht⟩ := exists_calls? (fun w shape r _ => mem_containerRefs) hlimit
  exact ⟨t, ht, printWithin_eq ht (Nat.le_mul_of_pos_left _ (by omega)) hhooks⟩

/-! ## Marks and cycles -/

/-- A mark is put where something holds itself. -/
theorem reachesCycle_of_marked (ht : h.calls? limit path v = some t) (hmarked : t.marked = true)
    (hpath : ∀ r ∈ path,
      ∃ u shape, u.container? = some (shape, r) ∧ Relation.TransGen h.Holds u v) :
    h.ReachesCycle v := by
  induction limit generalizing path v t with
  | zero => cases ht
  | succ limit ih =>
      rcases calls?_cases ht with ⟨_, rfl⟩ | ⟨shape, r, hv, ⟨hr, rfl⟩ | ⟨hr, parts, rfl, hparts⟩⟩
      · cases hmarked
      · obtain ⟨u, shape', hu, hcycle⟩ := hpath r hr
        cases Value.container?_inj hu hv
        exact ⟨_, .refl, hcycle⟩
      · rw [Tree.marked, Tree.partsMarked_iff] at hmarked
        obtain ⟨q, hq, hmarked⟩ := hmarked
        obtain ⟨p, hp, _, hcalls⟩ := exists_of_forall₂_right hparts hq
        have hholds : h.Holds v p.2 := ⟨p.1, hp⟩
        refine (ih hcalls hmarked fun r' hr' => ?_).of_holds hholds
        rcases List.mem_cons.1 hr' with rfl | hr'
        · exact ⟨v, shape, hv, .single hholds⟩
        · obtain ⟨u, shape', hu, hreach⟩ := hpath r' hr'
          exact ⟨u, shape', hu, hreach.tail hholds⟩

/-- What a value unfolds to: a tree with the same leaves and labels, in which nothing
tells whether two parts are the same container. -/
inductive Unfolds (h : Heap) : Value → Tree → Prop where
  | leaf {v : Value} (empty : v.container? = none) : Unfolds h v (.leaf v.anonymous)
  | node {v : Value} {shape : Shape} {r : Ref} {parts : List (Option String × Tree)}
      (container : v.container? = some (shape, r))
      (labels : (h.parts v).map (·.1) = parts.map (·.1))
      (each : ∀ (i : Nat) (p : Option String × Value) (q : Option String × Tree),
        (h.parts v)[i]? = some p → parts[i]? = some q → Unfolds h p.2 q.2) :
      Unfolds h v (.node shape parts)

theorem unfolds_of_calls? (ht : h.calls? limit path v = some t)
    (hmarked : t.marked = false) :
    h.Unfolds v t := by
  induction limit generalizing path v t with
  | zero => cases ht
  | succ limit ih =>
      rcases calls?_cases ht with ⟨hv, rfl⟩ | ⟨shape, r, hv, ⟨_, rfl⟩ | ⟨_, parts, rfl, hparts⟩⟩
      · exact .leaf hv
      · cases hmarked
      · obtain ⟨hlabels, hcalls⟩ :=
          (forall₂_labels_iff (R := fun v t => h.calls? limit (r :: path) v = some t)).1 hparts
        refine .node hv hlabels fun i p q hp hq => ih (hcalls i p q hp hq) ?_
        refine Bool.eq_false_iff.2 fun hq' => ?_
        rw [Tree.marked, Tree.partsMarked_iff.2 ⟨q, List.mem_of_getElem? hq, hq'⟩] at hmarked
        cases hmarked

/-- What unfolds to a tree has an end. -/
theorem Unfolds.acc (ht : h.Unfolds v t) : Acc (fun w v => h.Holds v w) v := by
  induction ht with
  | leaf hv =>
      refine ⟨_, fun w hw => ?_⟩
      obtain ⟨label, hmem⟩ := hw
      rw [parts_of_container?_eq_none hv] at hmem
      cases hmem
  | @node v shape r parts _ labels _ ih =>
      refine ⟨_, fun w hw => ?_⟩
      obtain ⟨label, hmem⟩ := hw
      obtain ⟨i, hi⟩ := List.getElem?_of_mem hmem
      have hlen : (h.parts v).length = parts.length := by simpa using congrArg List.length labels
      have hlt : i < parts.length := hlen ▸ (List.getElem?_eq_some_iff.1 hi).1
      exact ih i _ _ hi (List.getElem?_eq_getElem hlt)

theorem not_reachesCycle_of_acc (hv : Acc (fun w v => h.Holds v w) v) :
    ¬ h.ReachesCycle v := by
  induction hv with
  | intro v _ ih =>
      rintro ⟨w, hreach, hcycle⟩
      rcases Relation.ReflTransGen.cases_head hreach with rfl | ⟨u, hu, hreach⟩
      · -- the cycle leaves `v` and comes back, so it can be reached from its second member
        obtain ⟨u, hu, hback⟩ := Relation.TransGen.head'_iff.1 hcycle
        exact ih u hu ⟨v, hback, hcycle⟩
      · exact ih u hu ⟨w, hreach, hcycle⟩

/-- A value unfolds to one tree at most. -/
theorem Unfolds.unique {t' : Tree} (ht : h.Unfolds v t) (ht' : h.Unfolds v t') :
    t = t' := by
  induction ht generalizing t' with
  | leaf hv =>
      cases ht' with
      | leaf => rfl
      | node hv' => rw [hv] at hv'; cases hv'
  | @node v shape r parts hv labels _ ih =>
      cases ht' with
      | leaf hv' => rw [hv] at hv'; cases hv'
      | @node _ shape' r' parts' hv' labels' each' =>
          rw [hv] at hv'
          cases hv'
          have hlen : (h.parts v).length = parts.length := by
            simpa using congrArg List.length labels
          have hparts : List.Forall₂ (fun q q' => q.1 = q'.1 ∧ q.2 = q'.2) parts parts' := by
            refine forall₂_labels_iff.2 ⟨labels.symm.trans labels', fun i q q' hq hq' => ?_⟩
            have hlt : i < (h.parts v).length := hlen ▸ (List.getElem?_eq_some_iff.1 hq).1
            have hp := List.getElem?_eq_getElem hlt
            exact ih i _ q hp hq (each' i _ q' hp hq')
          have heq := hparts.imp fun q q' hqq' => Prod.ext hqq'.1 hqq'.2
          rw [List.forall₂_eq_eq_eq] at heq
          rw [heq]

/-- A value that unfolds to a tree prints as this tree. -/
theorem Unfolds.print_eq (ht : h.Unfolds v t)
    (hhooks : ∀ o, h.Reaches v (.object o) → (h.object o).hook = none) :
    h.print v = t.text := by
  obtain ⟨t', ht', hprint⟩ := exists_calls?_print h v hhooks
  have hmarked : t'.marked = false := by
    refine Bool.eq_false_iff.2 fun hmarked => not_reachesCycle_of_acc ht.acc ?_
    exact reachesCycle_of_marked ht' hmarked (List.forall_mem_nil _)
  rw [hprint, (unfolds_of_calls? ht' hmarked).unique ht]

/-- Printing comes to an end, with no more calls nested than there are arrays and
objects to be reached and one more, and the text is the same wherever there is room for
so many. It puts a mark exactly if something can be reached that holds itself. If there
is nothing of the kind, the value unfolds to a tree, and every value of any heap that
unfolds to the same tree prints the same. -/
theorem print_calls (h : Heap) (hhooks : ∀ o, (h.object o).hook = none) (v : Value) :
    ∃ t : Tree, (∀ limit, (h.reachable v).ncard + 1 ≤ limit →
        h.calls? limit [] v = some t ∧ h.printWithin limit [] v = t.text) ∧
      h.print v = t.text ∧ (t.marked = true ↔ h.ReachesCycle v) ∧
      (¬ h.ReachesCycle v → h.Unfolds v t ∧
        ∀ (h' : Heap) (v' : Value), (∀ o, (h'.object o).hook = none) → h'.Unfolds v' t →
          h'.print v' = h.print v) := by
  obtain ⟨t, ht, hprint⟩ := exists_calls?_print h v fun o _ => hhooks o
  have hcycle : t.marked = true ↔ h.ReachesCycle v := by
    refine ⟨fun hmarked => reachesCycle_of_marked ht hmarked (List.forall_mem_nil _),
      fun hcycle => ?_⟩
    by_contra hmarked
    exact not_reachesCycle_of_acc (unfolds_of_calls? ht (Bool.eq_false_iff.2 hmarked)).acc hcycle
  refine ⟨t, fun limit hlimit => ?_, hprint, hcycle, fun hnone => ⟨?_, fun h' v' hhooks' ht' => ?_⟩⟩
  · -- the reachable containers are enough of a bound, and limits that are high enough agree
    have hcard : ((finite_reachable h v).toFinset \ ([] : List Ref).toFinset).card < limit := by
      rw [List.toFinset_nil, Finset.sdiff_empty,
        ← Set.ncard_eq_toFinset_card _ (finite_reachable h v)]
      exact hlimit
    obtain ⟨t', ht'⟩ := exists_calls? (fun w shape r hw hr _ =>
      (finite_reachable h v).mem_toFinset.2 ⟨w, shape, hw, hr⟩) hcard
    have hmax := calls?_mono ht (Nat.le_max_left _ limit)
    rw [calls?_mono ht' (Nat.le_max_right _ limit)] at hmax
    rw [hmax] at ht'
    exact ⟨ht', printWithin_eq ht' (Nat.le_refl limit) fun o _ => hhooks o⟩
  · exact unfolds_of_calls? ht (Bool.eq_false_iff.2 fun hmarked => hnone (hcycle.1 hmarked))
  · rw [ht'.print_eq fun o _ => hhooks' o, hprint]

/-- An array of the same array twice, and an array of itself. -/
def sharedAndCyclic : Heap := ⟨#[[.array 1, .array 1], [.bool true], [.array 2]], #[]⟩

theorem print_calls_shared :
    (∀ o, (sharedAndCyclic.object o).hook = none) ∧
    sharedAndCyclic.print (.array 0) = "[[true], [true]]" ∧
    ¬ sharedAndCyclic.ReachesCycle (.array 0) ∧
    sharedAndCyclic.print (.array 2) = "[<Circular>]" ∧
    sharedAndCyclic.ReachesCycle (.array 2) := by
  have hhooks : ∀ o, (sharedAndCyclic.object o).hook = none := fun o => by
    simp [object, sharedAndCyclic]
  have hcycle : ∀ v t, sharedAndCyclic.calls? 3 [] v = some t →
      (t.marked = true ↔ sharedAndCyclic.ReachesCycle v) := by
    intro v t ht
    obtain ⟨t', ht', _, hiff, _⟩ := print_calls sharedAndCyclic hhooks v
    have hmax := (ht' _ (Nat.le_max_left _ 3)).1
    rw [calls?_mono ht (Nat.le_max_right _ 3)] at hmax
    rwa [Option.some.inj hmax]
  refine ⟨hhooks, by decide +kernel, fun hreach => ?_, by decide +kernel, (hcycle _ _ rfl).1 rfl⟩
  cases (hcycle (.array 0) _ rfl).2 hreach

end Heap

end DynamicTypes
