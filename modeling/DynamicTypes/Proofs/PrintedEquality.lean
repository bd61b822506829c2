import DynamicTypes.Proofs.Bindings
import DynamicTypes.Proofs.LeafText
import DynamicTypes.Proofs.Printing

/-!
# Equal texts are equal data

Values count as equal when they print alike, and the members of an enumeration are known by
their texts. So as far as data go the text has to say everything: two trees of data with
the same text are the same tree.

The argument reads the text from the left. The first one or two characters tell what kind of
value follows (`lead`), each kind shows where its text ends, and inside a container what
follows a part is a comma or the closing bracket. Hence the statement to be proved is about
texts with something behind them (`text_append_inj`), which a number must not run into.

Structural equality is stated on the values themselves, where objects may be shared or
tagged in any way; their fields are compared by key.
-/

namespace DynamicTypes

namespace Value

variable {v w : Value}

/-- Whether a value is undefined, null, a boolean, a number, a string or an error. -/
def isScalar : Value → Bool
  | undefined | null | bool _ | number _ | string _ | error _ => true
  | _ => false

theorem container?_of_isScalar (hv : v.isScalar = true) : v.container? = none := by
  cases v with
  | array | object => cases hv
  | _ => rfl

theorem anonymous_of_isScalar (hv : v.isScalar = true) : v.anonymous = v := by
  cases v with
  | function => cases hv
  | _ => rfl

theorem anonymous_eq_iff (hv : v.isScalar = true) :
    v.anonymous = w.anonymous ↔ v = w := by
  rw [anonymous_of_isScalar hv]
  cases w with
  | function r info =>
      refine iff_of_false ?_ ?_
      · rintro rfl
        cases hv
      · rintro rfl
        cases hv
  | _ => exact .rfl

end Value

namespace Tree

variable {numbers : Set Float} {t u : Tree} {v w : Value} {rest rest' : List Char}

/-- Whether a tree is made of data, with numbers from a given set. -/
inductive IsData (numbers : Set Float) : Tree → Prop where
  | leaf {v : Value} (scalar : v.isScalar = true) (mem : ∀ x, v = .number x → x ∈ numbers) :
      IsData numbers (.leaf v)
  | node {shape : Shape} {parts : List (Option String × Tree)}
      (labels : ∀ p ∈ parts, p.1.isSome = (shape == .object))
      (each : ∀ p ∈ parts, IsData numbers p.2) : IsData numbers (.node shape parts)

/-- What can be told of data from the first characters of their text. -/
inductive Kind where
  | undefined
  | null
  | bool (b : Bool)
  | number
  | string
  | error
  | container (shape : Shape)

def kind : Tree → Option Kind
  | leaf .undefined => some .undefined
  | leaf .null => some .null
  | leaf (.bool b) => some (.bool b)
  | leaf (.number _) => some .number
  | leaf (.string _) => some .string
  | leaf (.error _) => some .error
  | node shape _ => some (.container shape)
  | _ => none

/-- The kind of data that begin in a certain way; nothing begins with a closing
bracket. -/
def lead : List Char → Option Kind
  | 'u' :: _ => some .undefined
  | 'n' :: 'u' :: _ => some .null
  | 'n' :: _ => some .error
  | 't' :: _ => some (.bool true)
  | 'f' :: _ => some (.bool false)
  | '"' :: _ => some .string
  | '[' :: _ => some (.container .array)
  | '\x7b' :: _ => some (.container .object)
  | ']' :: _ => none
  | '\x7d' :: _ => none
  | _ => some .number

theorem toList_text_error (message : String) : (leaf (.error message)).text.toList =
    "new Error (".toList ++ (Text.quoted message).toList ++ [')'] := by
  show ("new Error (" ++ Text.quoted message ++ ")").toList = _
  rw [String.toList_append, String.toList_append]
  rfl

/-- The bracket that closes a container. -/
def closer : Shape → Char
  | .array => ']'
  | .object => '\x7d'

theorem toList_text_node (shape : Shape) (parts : List (Option String × Tree)) :
    (node shape parts).text.toList =
      shape.opening.toList ++ (", ".intercalate (partTexts parts)).toList ++ [closer shape] := by
  rw [text, String.toList_append, String.toList_append]
  cases shape <;> rfl

theorem lead_of_isNumber {number : List Char} (hnumber : IsNumber number) :
    lead (number ++ rest) = some .number := by
  obtain ⟨c, cs, rfl, hc⟩ := hnumber.first
  rw [List.cons_append]
  unfold lead
  split <;> simp_all

theorem lead_leaf (hv : v.isScalar = true) :
    lead ((leaf v).text.toList ++ rest) = (leaf v).kind := by
  cases v with
  | undefined | null => rfl
  | bool b => cases b <;> rfl
  | number x => exact lead_of_isNumber (Value.isNumber_numberText x)
  | string s =>
      show lead ((Text.quoted s).toList ++ rest) = _
      rw [Text.toList_quoted]
      rfl
  | error message =>
      rw [toList_text_error]
      rfl
  | _ => cases hv

/-- The first characters tell the kind. -/
theorem lead_text (ht : t.IsData numbers) (rest : List Char) :
    lead (t.text.toList ++ rest) = t.kind := by
  cases ht with
  | leaf hv => exact lead_leaf hv
  | @node shape parts =>
      rw [toList_text_node]
      cases shape <;> rfl

theorem IsData.isSome_kind (ht : t.IsData numbers) : t.kind.isSome = true := by
  cases ht with
  | @leaf v hv =>
      cases v with
      | undefined | null | bool | number | string | error => rfl
      | _ => cases hv
  | node => rfl

/-! ## Reading a text from the left -/

/-- Whether a number cannot run into what follows it. -/
def Stops (rest : List Char) : Prop := ∀ c ∈ rest.head?, isNumeral c = false

theorem takeWhile_numerals {number : List Char}
    (hnumber : ∀ c ∈ number, isNumeral c = true) (hrest : Stops rest) :
    (number ++ rest).takeWhile isNumeral = number := by
  rw [List.takeWhile_append_of_pos hnumber]
  cases rest with
  | nil => rw [List.takeWhile_nil, List.append_nil]
  | cons c rest =>
      rw [List.takeWhile_cons_of_neg, List.append_nil]
      simp [hrest c rfl]

/-- What follows the first of the parts of a container: the other parts, the bracket and
the rest. -/
def after (shape : Shape) (rest : List Char) : List (Option String × Tree) → List Char
  | [] => closer shape :: rest
  | p :: parts =>
    ',' :: ' ' :: ((labelText p.1).toList ++ (p.2.text.toList ++ after shape rest parts))

theorem stops_after (shape : Shape) (rest : List Char)
    (parts : List (Option String × Tree)) :
    Stops (after shape rest parts) := by
  intro c hc
  cases parts with
  | nil =>
      cases hc
      cases shape <;> decide
  | cons p parts =>
      cases hc
      decide

theorem toList_partTexts (shape : Shape) (rest : List Char) (p : Option String × Tree)
    (parts : List (Option String × Tree)) :
    (", ".intercalate (partTexts (p :: parts))).toList ++ closer shape :: rest =
      (labelText p.1).toList ++ (p.2.text.toList ++ after shape rest parts) := by
  induction parts generalizing p with
  | nil => simp [partTexts, after]
  | cons q parts ih =>
      have hp : partTexts (p :: q :: parts) =
          (labelText p.1 ++ p.2.text) :: partTexts (q :: parts) := rfl
      have hq : partTexts (q :: parts) = (labelText q.1 ++ q.2.text) :: partTexts parts := rfl
      rw [hp, hq, String.intercalate_cons_cons, ← hq, String.toList_append, String.toList_append,
        String.toList_append, List.append_assoc, List.append_assoc, List.append_assoc, ih, after]
      rfl

theorem number_inj {number number' : List Char} (hnumber : IsNumber number)
    (hnumber' : IsNumber number') (hrest : Stops rest) (hrest' : Stops rest')
    (heq : number ++ rest = number' ++ rest') :
    number = number' ∧ rest = rest' := by
  have hread := congrArg (List.takeWhile isNumeral) heq
  rw [takeWhile_numerals hnumber.numerals hrest,
    takeWhile_numerals hnumber'.numerals hrest'] at hread
  rw [hread] at heq
  exact ⟨hread, List.append_cancel_left heq⟩

theorem leaf_inj (hnumbers : numbers.InjOn Value.numberText)
    (hv : (leaf v).IsData numbers) (hw : (leaf w).IsData numbers) (hrest : Stops rest)
    (hrest' : Stops rest')
    (heq : (leaf v).text.toList ++ rest = (leaf w).text.toList ++ rest') :
    v = w ∧ rest = rest' := by
  have hkind : (leaf v).kind = (leaf w).kind := by rw [← lead_text hv rest, heq, lead_text hw]
  obtain ⟨hscalar, hmem⟩ := hv
  obtain ⟨_, hmem'⟩ := hw
  cases v with
  | undefined | null =>
      cases w with
      | undefined | null =>
          cases hkind
          all_goals exact ⟨rfl, List.append_cancel_left heq⟩
      | _ => cases hkind
  | bool b =>
      cases w with
      | bool b' =>
          cases hkind
          exact ⟨rfl, List.append_cancel_left heq⟩
      | _ => cases hkind
  | number x =>
      cases w with
      | number y =>
          obtain ⟨hxy, hrest⟩ := number_inj (Value.isNumber_numberText x)
            (Value.isNumber_numberText y) hrest hrest' heq
          rw [hnumbers (hmem x rfl) (hmem' y rfl) (String.toList_inj.1 hxy)]
          exact ⟨rfl, hrest⟩
      | _ => cases hkind
  | string s =>
      cases w with
      | string s' =>
          obtain ⟨rfl, hrest⟩ := Text.quoted_append_inj heq
          exact ⟨rfl, hrest⟩
      | _ => cases hkind
  | error message =>
      cases w with
      | error message' =>
          rw [toList_text_error, toList_text_error] at heq
          simp only [List.append_assoc] at heq
          obtain ⟨rfl, hrest⟩ := Text.quoted_append_inj (List.append_cancel_left heq)
          exact ⟨rfl, List.append_cancel_left hrest⟩
      | _ => cases hkind
  | _ => cases hscalar

/-- Whether the text of a tree tells it from all data, and where it ends. -/
def Readable (numbers : Set Float) (t : Tree) : Prop :=
  ∀ ⦃u : Tree⦄ ⦃rest rest' : List Char⦄, u.IsData numbers → Stops rest → Stops rest' →
    t.text.toList ++ rest = u.text.toList ++ rest' → t = u ∧ rest = rest'

theorem part_inj {p q : Option String × Tree} (hlabels : p.1.isSome = q.1.isSome)
    (hp : Readable numbers p.2) (hq : q.2.IsData numbers) (hrest : Stops rest)
    (hrest' : Stops rest')
    (heq : (labelText p.1).toList ++ (p.2.text.toList ++ rest) =
      (labelText q.1).toList ++ (q.2.text.toList ++ rest')) : p = q ∧ rest = rest' := by
  obtain ⟨label, t⟩ := p
  obtain ⟨label', u⟩ := q
  have hlabel : label = label' ∧ t.text.toList ++ rest = u.text.toList ++ rest' := by
    cases label with
    | none =>
        cases label' with
        | none => exact ⟨rfl, heq⟩
        | some => cases hlabels
    | some key =>
        cases label' with
        | none => cases hlabels
        | some key' =>
            simp only [labelText, String.toList_append, List.append_assoc] at heq
            obtain ⟨hkey, hrest⟩ := Text.quoted_append_inj heq
            exact ⟨congrArg some hkey, List.append_cancel_left hrest⟩
  obtain ⟨rfl, htexts⟩ := hlabel
  obtain ⟨rfl, hrest⟩ := hp hq hrest hrest' htexts
  exact ⟨rfl, hrest⟩

variable {shape : Shape} {parts parts' : List (Option String × Tree)}

theorem after_inj (hlabels : ∀ p ∈ parts, p.1.isSome = (shape == .object))
    (hlabels' : ∀ q ∈ parts', q.1.isSome = (shape == .object))
    (hparts : ∀ p ∈ parts, Readable numbers p.2)
    (hparts' : ∀ q ∈ parts', q.2.IsData numbers)
    (heq : after shape rest parts = after shape rest' parts') :
    parts = parts' ∧ rest = rest' := by
  induction parts generalizing parts' with
  | nil =>
      cases parts' with
      | nil => exact ⟨rfl, List.tail_eq_of_cons_eq heq⟩
      | cons q parts' => cases shape <;> cases List.head_eq_of_cons_eq heq
  | cons p parts ih =>
      cases parts' with
      | nil => cases shape <;> cases List.head_eq_of_cons_eq heq
      | cons q parts' =>
          rw [List.forall_mem_cons] at hlabels hlabels' hparts hparts'
          have htail := List.tail_eq_of_cons_eq (List.tail_eq_of_cons_eq heq)
          obtain ⟨rfl, hafter⟩ := part_inj (hlabels.1.trans hlabels'.1.symm) hparts.1 hparts'.1
            (stops_after _ _ _) (stops_after _ _ _) htail
          obtain ⟨rfl, hrest⟩ := ih hlabels.2 hlabels'.2 hparts.2 hparts'.2 hafter
          exact ⟨rfl, hrest⟩

/-- A part does not begin like the end of a container. -/
theorem part_ne_closer {q : Option String × Tree} (hq : q.2.IsData numbers)
    (rest rest' : List Char) :
    closer shape :: rest ≠ (labelText q.1).toList ++ (q.2.text.toList ++ rest') := by
  intro heq
  have hclosed : lead (closer shape :: rest) = none := by cases shape <;> rfl
  obtain ⟨label, u⟩ := q
  rw [heq] at hclosed
  cases label with
  | none =>
      rw [labelText, String.toList_empty, List.nil_append, lead_text hq] at hclosed
      have hkind := hq.isSome_kind
      rw [hclosed] at hkind
      cases hkind
  | some key =>
      rw [labelText, String.toList_append, Text.toList_quoted] at hclosed
      cases hclosed

theorem parts_inj (hlabels : ∀ p ∈ parts, p.1.isSome = (shape == .object))
    (hlabels' : ∀ q ∈ parts', q.1.isSome = (shape == .object))
    (hparts : ∀ p ∈ parts, p.2.IsData numbers) (hparts' : ∀ q ∈ parts', q.2.IsData numbers)
    (hreadable : ∀ p ∈ parts, Readable numbers p.2)
    (heq : (", ".intercalate (partTexts parts)).toList ++ closer shape :: rest =
      (", ".intercalate (partTexts parts')).toList ++ closer shape :: rest') :
    parts = parts' ∧ rest = rest' := by
  have hnil : (", ".intercalate (partTexts [])).toList = [] := by simp [partTexts]
  cases parts with
  | nil =>
      cases parts' with
      | nil =>
          rw [hnil] at heq
          exact ⟨rfl, List.tail_eq_of_cons_eq heq⟩
      | cons q parts' =>
          rw [hnil, toList_partTexts] at heq
          exact absurd heq (part_ne_closer (hparts' q List.mem_cons_self) _ _)
  | cons p parts =>
      cases parts' with
      | nil =>
          rw [hnil, toList_partTexts] at heq
          exact absurd heq.symm (part_ne_closer (hparts p List.mem_cons_self) _ _)
      | cons q parts' =>
          rw [toList_partTexts, toList_partTexts] at heq
          refine after_inj hlabels hlabels' hreadable hparts' ?_
          rw [after, after, heq]

/-- The text of data tells them from all other data, and where it ends. -/
theorem IsData.readable (hnumbers : numbers.InjOn Value.numberText)
    (ht : t.IsData numbers) :
    Readable numbers t := by
  induction ht with
  | @leaf v hscalar hmem =>
      intro u rest rest' hu hrest hrest' heq
      have hkind := congrArg lead heq
      rw [lead_leaf hscalar, lead_text hu] at hkind
      cases hu with
      | leaf hscalar' hmem' =>
          obtain ⟨rfl, hrest⟩ := leaf_inj hnumbers (.leaf hscalar hmem) (.leaf hscalar' hmem')
            hrest hrest' heq
          exact ⟨rfl, hrest⟩
      | node => cases v <;> cases hkind
  | @node shape parts hlabels hparts ih =>
      intro u rest rest' hu hrest hrest' heq
      have hkind := congrArg lead heq
      rw [lead_text (.node hlabels hparts), lead_text hu] at hkind
      cases hu with
      | @leaf w => cases w <;> cases hkind
      | @node shape' parts' hlabels' hparts' =>
          cases hkind
          simp only [toList_text_node, List.append_assoc] at heq
          obtain ⟨rfl, hrest⟩ := parts_inj hlabels hlabels' hparts hparts' ih
            (List.append_cancel_left heq)
          exact ⟨rfl, hrest⟩

/-- Data with the same text are the same. -/
theorem IsData.eq_of_text_eq (hnumbers : numbers.InjOn Value.numberText)
    (ht : t.IsData numbers) (hu : u.IsData numbers) (heq : t.text = u.text) :
    t = u := by
  have hnil : Stops [] := fun c hc => by cases hc
  exact (ht.readable hnumbers hu hnil hnil (by rw [heq])).1

end Tree

/-! ## Structural equality -/

namespace SortedMap

variable {κ α β : Type} [Ord κ] [Std.TransOrd κ] [Std.LawfulEqOrd κ]

/-- Maps with the same keys have them in the same order. -/
theorem keys_eq {m : SortedMap κ α} {m' : SortedMap κ β}
    (hkeys : ∀ k, (m.find? k).isSome = (m'.find? k).isSome) :
    m.entries.map (·.1) = m'.entries.map (·.1) := by
  have hirrefl : Std.Irrefl fun a b : κ => compare a b = .lt := ⟨fun a h => by simp at h⟩
  have hantisymm : Std.Antisymm fun a b : κ => compare a b = .lt :=
    ⟨fun a b hab hba => by simp [Std.OrientedCmp.gt_of_lt hab] at hba⟩
  have hmem : ∀ {γ : Type} (m : SortedMap κ γ) (k : κ),
      k ∈ m.entries.map (·.1) ↔ (m.find? k).isSome = true := by
    intro γ m k
    simp [Option.isSome_iff_exists, find?_eq_some_iff]
  have hsorted : (m.entries.map (·.1)).Pairwise fun a b => compare a b = .lt :=
    List.pairwise_map.2 m.sorted
  refine hsorted.eq_of_mem_iff (List.pairwise_map.2 m'.sorted) fun k => ?_
  rw [hmem, hmem, hkeys]

theorem forall₂_entries_iff {R : α → β → Prop} {m : SortedMap κ α}
    {m' : SortedMap κ β} :
    List.Forall₂ (fun p q => p.1 = q.1 ∧ R p.2 q.2) m.entries m'.entries ↔
      (∀ k, (m.find? k).isSome = (m'.find? k).isSome) ∧
      ∀ k x y, m.find? k = some x → m'.find? k = some y → R x y := by
  constructor
  · intro hall
    have hright : ∀ k x, m.find? k = some x → ∃ y, m'.find? k = some y ∧ R x y := by
      intro k x hx
      obtain ⟨⟨k', y⟩, hy, hkey, hxy⟩ := exists_of_forall₂_right hall.flip (find?_eq_some_iff.1 hx)
      cases hkey
      exact ⟨y, find?_eq_some_iff.2 hy, hxy⟩
    have hleft : ∀ k y, m'.find? k = some y → ∃ x, m.find? k = some x := by
      intro k y hy
      obtain ⟨⟨k', x⟩, hx, hkey, _⟩ := exists_of_forall₂_right hall (find?_eq_some_iff.1 hy)
      cases hkey
      exact ⟨x, find?_eq_some_iff.2 hx⟩
    refine ⟨fun k => ?_, fun k x y hx hy => ?_⟩
    · rw [Bool.eq_iff_iff, Option.isSome_iff_exists, Option.isSome_iff_exists]
      refine ⟨fun ⟨x, hx⟩ => ?_, fun ⟨y, hy⟩ => hleft k y hy⟩
      obtain ⟨y, hy, _⟩ := hright k x hx
      exact ⟨y, hy⟩
    · obtain ⟨y', hy', hxy⟩ := hright k x hx
      rw [hy] at hy'
      cases hy'
      exact hxy
  · rintro ⟨hkeys, heach⟩
    have hsame := keys_eq hkeys
    refine forall₂_labels_iff.2 ⟨hsame, fun i p q hp hq => heach p.1 p.2 q.2 ?_ ?_⟩
    · exact find?_eq_some_iff.2 (List.mem_of_getElem? hp)
    · have hkey : (m.entries.map (·.1))[i]? = (m'.entries.map (·.1))[i]? := by rw [hsame]
      simp only [List.getElem?_map, hp, hq, Option.map_some, Option.some.injEq] at hkey
      rw [hkey]
      exact find?_eq_some_iff.2 (List.mem_of_getElem? hq)

end SortedMap

namespace Heap

variable {h : Heap} {v w : Value} {shape : Shape} {r : Ref} {t u : Tree}

/-- Values that are built of scalars, arrays and objects, without cycles and without
hooks. -/
inductive Data (h : Heap) : Value → Prop where
  | scalar {v : Value} (scalar : v.isScalar = true) : Data h v
  | array {a : Nat} (items : ∀ x ∈ h.items a, Data h x) : Data h (.array a)
  | object {o : Nat} (plain : (h.object o).hook = none)
      (fields : ∀ p ∈ (h.object o).fields.entries, Data h p.2) : Data h (.object o)

/-- Structural equality: the same scalar, arrays of one length with equal items, or
objects that have the same keys with equal fields, whatever their tags. -/
inductive Same (h : Heap) : Value → Value → Prop where
  | scalar {v : Value} (scalar : v.isScalar = true) : Same h v v
  | array {a b : Nat} (length : (h.items a).length = (h.items b).length)
      (items : ∀ (i : Nat) (x y : Value), (h.items a)[i]? = some x → (h.items b)[i]? = some y →
        Same h x y) : Same h (.array a) (.array b)
  | object {o p : Nat}
      (keys : ∀ key,
        ((h.object o).fields.find? key).isSome = ((h.object p).fields.find? key).isSome)
      (fields : ∀ (key : String) (x y : Value), (h.object o).fields.find? key = some x →
        (h.object p).fields.find? key = some y → Same h x y) : Same h (.object o) (.object p)

theorem same_array_iff {a : Nat} : h.Same (.array a) w ↔
    ∃ b, w = .array b ∧ List.Forall₂ h.Same (h.items a) (h.items b) := by
  constructor
  · intro hsame
    cases hsame with
    | scalar hv => cases hv
    | array length items => exact ⟨_, rfl, forall₂_iff_getElem?.2 ⟨length, items⟩⟩
  · rintro ⟨b, rfl, hall⟩
    obtain ⟨length, items⟩ := forall₂_iff_getElem?.1 hall
    exact .array length items

theorem same_object_iff {o : Nat} : h.Same (.object o) w ↔
    ∃ p, w = .object p ∧ List.Forall₂ (fun x y => x.1 = y.1 ∧ h.Same x.2 y.2)
      (h.object o).fields.entries (h.object p).fields.entries := by
  constructor
  · intro hsame
    cases hsame with
    | scalar hv => cases hv
    | object keys fields => exact ⟨_, rfl, SortedMap.forall₂_entries_iff.2 ⟨keys, fields⟩⟩
  · rintro ⟨p, rfl, hall⟩
    obtain ⟨keys, fields⟩ := SortedMap.forall₂_entries_iff.1 hall
    exact .object keys fields

/-- Containers are equal if they have the same shape and equal parts. -/
theorem same_container_iff (hv : v.container? = some (shape, r)) : h.Same v w ↔
    ∃ r', w.container? = some (shape, r') ∧
      List.Forall₂ (fun p q => p.1 = q.1 ∧ h.Same p.2 q.2) (h.parts v) (h.parts w) := by
  cases v with
  | array a =>
      cases hv
      rw [same_array_iff]
      cases w with
      | array b =>
          simp [Value.container?, parts, List.forall₂_map_left_iff, List.forall₂_map_right_iff]
      | _ => simp [Value.container?]
  | object o =>
      cases hv
      rw [same_object_iff]
      cases w with
      | object p =>
          simp [Value.container?, parts, List.forall₂_map_left_iff, List.forall₂_map_right_iff]
      | _ => simp [Value.container?]
  | _ => cases hv

theorem unfolds_container_iff (hv : v.container? = some (shape, r)) : h.Unfolds v t ↔
    ∃ parts, t = .node shape parts ∧
      List.Forall₂ (fun p q => p.1 = q.1 ∧ h.Unfolds p.2 q.2) (h.parts v) parts := by
  constructor
  · intro ht
    cases ht with
    | leaf hempty => rw [hv] at hempty; cases hempty
    | @node _ _ _ parts container labels each =>
        rw [hv] at container
        cases container
        exact ⟨parts, rfl, forall₂_labels_iff.2 ⟨labels, each⟩⟩
  · rintro ⟨parts, rfl, hall⟩
    obtain ⟨labels, each⟩ := forall₂_labels_iff.1 hall
    exact .node hv labels each

theorem unfolds_leaf_iff (hv : v.container? = none) :
    h.Unfolds v t ↔ t = .leaf v.anonymous := by
  constructor
  · intro ht
    cases ht with
    | leaf => rfl
    | node container => rw [hv] at container; cases container
  · rintro rfl
    exact .leaf hv

/-- Parts that are equal to others wherever they unfold to the same trees. -/
theorem forall₂_same_iff {ps qs : List (Option String × Value)}
    {ts us : List (Option String × Tree)}
    (hts : List.Forall₂ (fun p q => p.1 = q.1 ∧ h.Unfolds p.2 q.2) ps ts)
    (hus : List.Forall₂ (fun p q => p.1 = q.1 ∧ h.Unfolds p.2 q.2) qs us)
    (heach : ∀ p ∈ ps, ∀ w t u, h.Unfolds p.2 t → h.Unfolds w u → (h.Same p.2 w ↔ t = u)) :
    List.Forall₂ (fun p q => p.1 = q.1 ∧ h.Same p.2 q.2) ps qs ↔ ts = us := by
  induction hts generalizing qs us with
  | nil =>
      cases hus with
      | nil => simp
      | cons => simp
  | @cons p t ps ts ht hts ih =>
      cases hus with
      | nil => simp
      | @cons q u qs us hu hus =>
          rw [List.forall_mem_cons] at heach
          rw [List.forall₂_cons, List.cons.injEq, ih hus heach.2, Prod.ext_iff, ht.1, hu.1,
            heach.1 q.2 t.2 u.2 ht.2 hu.2]

theorem same_iff_of_parts (hv : v.container? = some (shape, r)) (ht : h.Unfolds v t)
    (hu : h.Unfolds w u)
    (heach : ∀ p ∈ h.parts v, ∀ w t u, h.Unfolds p.2 t → h.Unfolds w u → (h.Same p.2 w ↔ t = u)) :
    h.Same v w ↔ t = u := by
  obtain ⟨ts, rfl, hts⟩ := (unfolds_container_iff hv).1 ht
  rw [same_container_iff hv]
  cases hw : w.container? with
  | none =>
      rw [(unfolds_leaf_iff hw).1 hu]
      simp
  | some x =>
      obtain ⟨shape', r'⟩ := x
      obtain ⟨us, rfl, hus⟩ := (unfolds_container_iff hw).1 hu
      rw [forall₂_same_iff hts hus heach]
      simp [eq_comm]

theorem same_scalar_iff (hv : v.isScalar = true) : h.Same v w ↔ v = w := by
  constructor
  · intro hsame
    cases hsame with
    | scalar => rfl
    | array | object => cases hv
  · rintro rfl
    exact .scalar hv

theorem Data.of_holds (hv : h.Data v) (hvw : h.Holds v w) : h.Data w := by
  obtain ⟨label, hmem⟩ := hvw
  cases hv with
  | scalar hv =>
      rw [parts_of_container?_eq_none (Value.container?_of_isScalar hv)] at hmem
      cases hmem
  | array items =>
      obtain ⟨x, hx, heq⟩ := List.mem_map.1 hmem
      cases heq
      exact items _ hx
  | object plain fields =>
      obtain ⟨x, hx, heq⟩ := List.mem_map.1 hmem
      cases heq
      exact fields x hx

/-- What holds of scalars, and of containers if it holds of their parts, holds of all
data. -/
theorem Data.induct_parts {motive : (v : Value) → h.Data v → Prop}
    (scalar : ∀ v (hv : v.isScalar = true), motive v (.scalar hv))
    (container : ∀ v shape r (hv : h.Data v), v.container? = some (shape, r) →
      (∀ p (hp : p ∈ h.parts v), motive p.2 (hv.of_holds ⟨p.1, hp⟩)) → motive v hv)
    (v : Value) (hv : h.Data v) : motive v hv := by
  induction hv with
  | scalar hv => exact scalar _ hv
  | array items ih =>
      refine container _ _ _ (.array items) rfl fun p hp => ?_
      obtain ⟨x, hx, rfl⟩ := List.mem_map.1 hp
      exact ih x hx
  | object plain fields ih =>
      refine container _ _ _ (.object plain fields) rfl fun p hp => ?_
      obtain ⟨x, hx, rfl⟩ := List.mem_map.1 hp
      exact ih x hx

/-- Data are equal exactly if they unfold to the same tree. -/
theorem Data.same_iff (hv : h.Data v) (ht : h.Unfolds v t) (hu : h.Unfolds w u) :
    h.Same v w ↔ t = u := by
  induction v, hv using Data.induct_parts generalizing w t u with
  | scalar v hv =>
      rw [same_scalar_iff hv, (unfolds_leaf_iff (Value.container?_of_isScalar hv)).1 ht]
      cases hw : w.container? with
      | none => rw [(unfolds_leaf_iff hw).1 hu, Tree.leaf.injEq, Value.anonymous_eq_iff hv]
      | some x =>
          obtain ⟨us, rfl, _⟩ := (unfolds_container_iff hw).1 hu
          refine iff_of_false ?_ (by simp)
          rintro rfl
          rw [Value.container?_of_isScalar hv] at hw
          cases hw
  | container v shape r _ hv ih => exact same_iff_of_parts hv ht hu fun p hp w t u => ih p hp

theorem Data.of_reaches (hv : h.Data v) (hvw : h.Reaches v w) : h.Data w := by
  induction hvw with
  | refl => exact hv
  | tail _ hholds ih => exact ih.of_holds hholds

theorem Data.hook_eq_none {o : Nat} (hv : h.Data v) (ho : h.Reaches v (.object o)) :
    (h.object o).hook = none := by
  cases hv.of_reaches ho with
  | scalar hscalar => cases hscalar
  | object plain => exact plain

theorem isSome_of_mem_parts {p : Option String × Value}
    (hv : v.container? = some (shape, r)) (hp : p ∈ h.parts v) :
    p.1.isSome = (shape == .object) := by
  cases v with
  | array a | object o =>
      cases hv
      obtain ⟨x, hx, rfl⟩ := List.mem_map.1 hp
      rfl
  | _ => cases hv

variable {numbers : Set Float}

theorem exists_unfolds_container (hv : v.container? = some (shape, r))
    (heach : ∀ p ∈ h.parts v, ∃ t, h.Unfolds p.2 t ∧ t.IsData numbers) :
    ∃ t, h.Unfolds v t ∧ t.IsData numbers := by
  have hparts : ∀ p ∈ h.parts v, ∃ q : Option String × Tree,
      (p.1 = q.1 ∧ h.Unfolds p.2 q.2) ∧ q.1.isSome = (shape == .object) ∧ q.2.IsData numbers := by
    intro p hp
    obtain ⟨t, ht, hdata⟩ := heach p hp
    exact ⟨(p.1, t), ⟨rfl, ht⟩, isSome_of_mem_parts hv hp, hdata⟩
  obtain ⟨parts, hall⟩ := exists_forall₂ hparts
  refine ⟨_, (unfolds_container_iff hv).2 ⟨parts, rfl, hall.imp fun p q hpq => hpq.1⟩, ?_⟩
  refine .node (fun q hq => ?_) fun q hq => ?_
  · obtain ⟨p, _, hpq⟩ := exists_of_forall₂_right hall hq
    exact hpq.2.1
  · obtain ⟨p, _, hpq⟩ := exists_of_forall₂_right hall hq
    exact hpq.2.2

/-- Data unfold to a tree. -/
theorem Data.exists_unfolds (hv : h.Data v)
    (hnumbers : ∀ x, h.Reaches v (.number x) → x ∈ numbers) :
    ∃ t, h.Unfolds v t ∧ t.IsData numbers := by
  induction v, hv using Data.induct_parts with
  | scalar v hv =>
      refine ⟨_, .leaf (Value.container?_of_isScalar hv), ?_⟩
      rw [Value.anonymous_of_isScalar hv]
      refine .leaf hv fun x hx => hnumbers x ?_
      rw [hx]
      exact .refl
  | container v shape r _ hv ih =>
      refine exists_unfolds_container hv fun p hp => ih p hp fun x hx => ?_
      exact hnumbers x (.head ⟨p.1, hp⟩ hx)

/-- Data are equal by their texts exactly if they are equal by their structure, as far
as the numbers in them can be told apart by how they are written. -/
theorem equal_iff_same {a b : Value} (ha : h.Data a) (hb : h.Data b)
    (hnumbers : {x | h.Reaches a (.number x) ∨ h.Reaches b (.number x)}.InjOn Value.numberText) :
    h.equal a b = true ↔ h.Same a b := by
  let numbers : Set Float := {x | h.Reaches a (.number x) ∨ h.Reaches b (.number x)}
  obtain ⟨t, ht, htdata⟩ : ∃ t, h.Unfolds a t ∧ t.IsData numbers :=
    ha.exists_unfolds fun x hx => .inl hx
  obtain ⟨u, hu, hudata⟩ : ∃ u, h.Unfolds b u ∧ u.IsData numbers :=
    hb.exists_unfolds fun x hx => .inr hx
  rw [equal, beq_iff_eq, ht.print_eq fun o => ha.hook_eq_none, hu.print_eq fun o => hb.hook_eq_none,
    ha.same_iff ht hu]
  exact ⟨htdata.eq_of_text_eq hnumbers hudata, congrArg Tree.text⟩

/-- Two objects that differ in tags and sharing only, and one that has two strings where
they have one with a comma in it. -/
def lookalikes : Heap where
  arrays := #[[.string "a, b"], [.string "a, b"], [.string "a", .string "b"]]
  objects := #[
    ⟨some "Pair", none, ⟨[("x", .array 0), ("y", .array 0), ("z", .number 1)], by decide⟩⟩,
    ⟨none, none, ⟨[("x", .array 0), ("y", .array 1), ("z", .number 1)], by decide⟩⟩,
    ⟨none, none, ⟨[("x", .array 0), ("y", .array 2), ("z", .number 1)], by decide⟩⟩]

theorem equal_iff_same_lookalikes :
    (∀ o < 3, lookalikes.Data (.object o)) ∧
    (∀ o p, {x | lookalikes.Reaches (.object o) (.number x) ∨
      lookalikes.Reaches (.object p) (.number x)}.InjOn Value.numberText) ∧
    lookalikes.equal (.object 0) (.object 1) = true ∧
    lookalikes.equal (.object 0) (.object 2) = false := by
  have hone : ∀ o x, lookalikes.Reaches (.object o) (.number x) → x = 1 := by
    intro o x hreach
    rcases Relation.ReflTransGen.cases_tail hreach with heq | ⟨u, _, hu⟩
    · cases heq
    · have hstored := mem_stored_of_holds hu
      simpa [stored, lookalikes, SortedMap.values] using hstored
  have hnumbers : ∀ o p, {x | lookalikes.Reaches (.object o) (.number x) ∨
      lookalikes.Reaches (.object p) (.number x)}.InjOn Value.numberText := by
    intro o p x hx y hy _
    rw [hx.elim (hone o x) (hone p x), hy.elim (hone o y) (hone p y)]
  have hdata : ∀ o < 3, lookalikes.Data (.object o) := by
    have hitems : ∀ a < 3, ∀ x ∈ lookalikes.items a, x.isScalar = true := by decide
    have hfields : ∀ o < 3, (lookalikes.object o).hook = none ∧
        ∀ p ∈ (lookalikes.object o).fields.entries,
          p.2.isScalar = true ∨ ∃ a < 3, p.2 = .array a := by
      decide
    intro o ho
    refine .object (hfields o ho).1 fun p hp => ?_
    rcases (hfields o ho).2 p hp with hscalar | ⟨a, ha, heq⟩
    · exact .scalar hscalar
    · rw [heq]
      exact .array fun x hx => .scalar (hitems a ha x hx)
  refine ⟨hdata, hnumbers, ?_, ?_⟩
  · refine (equal_iff_same (hdata 0 (by decide)) (hdata 1 (by decide)) (hnumbers 0 1)).2 ?_
    have hx : lookalikes.Same (.array 0) (.array 0) :=
      same_array_iff.2 ⟨0, rfl, .cons (.scalar rfl) .nil⟩
    have hy : lookalikes.Same (.array 0) (.array 1) :=
      same_array_iff.2 ⟨1, rfl, .cons (.scalar rfl) .nil⟩
    exact same_object_iff.2
      ⟨1, rfl, .cons ⟨rfl, hx⟩ (.cons ⟨rfl, hy⟩ (.cons ⟨rfl, .scalar rfl⟩ .nil))⟩
  · rw [Bool.eq_false_iff, ne_eq,
      equal_iff_same (hdata 0 (by decide)) (hdata 2 (by decide)) (hnumbers 0 2)]
    intro hsame
    obtain ⟨p, heq, hall⟩ := same_object_iff.1 hsame
    cases heq
    have hy := (forall₂_iff_getElem?.1 hall).2 1 ("y", .array 0) ("y", .array 2) rfl rfl
    obtain ⟨a, heq, hitems⟩ := same_array_iff.1 hy.2
    cases heq
    cases hitems.length_eq

end Heap

end DynamicTypes
