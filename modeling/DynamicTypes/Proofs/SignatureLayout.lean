import DynamicTypes.Proofs.TypeLayout

/-!
# Where positions stand in the text of a signature

What follows the name and the requirements of a signature is the text of a function
type, the one that takes the parameters and gives the result. So a position is a path
in that type, and the text at a position is found as in any other type, behind
what comes first. Requirements are found in the same way, in the row that lists them.
-/

namespace DynamicTypes

/-- The path to a position in the function type of a signature. -/
def Locus.keys (l : Locus) : List String := Ty.paramKey (l.index + 1) :: l.path

namespace Signature

open Piece Ty

variable {s : Signature}

/-! ## Positions -/

/-- The text of all requirements. -/
def required (s : Signature) : String :=
  let listed := ", ".intercalate (s.requirements.map requirementText)
  match s.requirements.length with
  | 0 => ""
  | 1 => listed ++ " => "
  | _ => "(" ++ listed ++ ") => "

/-- The text before that of the function type. -/
def preamble (s : Signature) : String := s.name ++ " :: " ++ s.required

/-- The function type that a signature declares. -/
def functionType (s : Signature) : Ty := .function s.types

theorem head_eq (s : Signature) :
    s.head = s.preamble ++ (if s.arity = 0 then "() -> " else "") := rfl

theorem pieces_functionType (s : Signature) :
    s.functionType.pieces =
      (if s.arity = 0 then [.text "() -> "] else []) ++ typePieces 1 s.types := by
  have hlength : s.types.length = s.arity + 1 := by
    rw [types, List.length_append]
    rfl
  rw [functionType, pieces, hlength]
  by_cases harity : s.arity = 0
  · rw [if_pos harity, if_pos (by omega)]
    rfl
  · rw [if_neg harity, if_neg (by omega)]
    rfl

theorem texts_takesNothing (s : Signature) :
    texts (if s.arity = 0 then [.text "() -> "] else []) =
      if s.arity = 0 then "() -> " else "" := by
  by_cases harity : s.arity = 0
  · rw [if_pos harity, if_pos harity]
    exact String.append_empty
  · rw [if_neg harity, if_neg harity]
    rfl

theorem texts_typePieces (n : Nat) (t : Ty) (ts : List Ty) :
    texts (typePieces n (t :: ts)) =
      " -> ".intercalate ((t :: ts).map fun t => (typeLayout t).text) := by
  induction ts generalizing n t with
  | nil =>
      rw [typePieces, List.map_singleton, String.intercalate_singleton]
      exact String.append_empty.trans (text_layout (.part (paramKey n) t t.isFunction)).symm
  | cons u ts ih =>
      have htext := text_layout (.part (paramKey n) t t.isFunction)
      have hrest := ih (n + 1) u
      rw [List.map_cons] at hrest
      rw [List.map_cons, List.map_cons, String.intercalate_cons_cons, ← hrest, String.append_assoc]
      exact congrArg (· ++ _) htext.symm

theorem format_eq (s : Signature) : s.format = s.preamble ++ s.functionType.format := by
  obtain ⟨t, ts, hts⟩ : ∃ t ts, s.types = t :: ts :=
    List.exists_cons_of_ne_nil (List.append_ne_nil_of_right_ne_nil _ (by simp))
  rw [format, head_eq, format_eq_texts, pieces_functionType, texts_append, texts_takesNothing, hts,
    texts_typePieces, String.append_assoc]

theorem typeAt?_eq (s : Signature) (l : Locus) :
    s.typeAt? l = s.types[l.index]?.bind (·.at? l.path) := by
  have hnone : ∀ path : List String, path.foldl
      (fun t? key => t?.bind fun t : Ty => (t.children.find? (·.1 == key)).map (·.2)) none =
      none := by
    intro path
    induction path with
    | nil => rfl
    | cons key path ih => exact ih
  have hsome : ∀ (path : List String) (t : Ty), path.foldl
      (fun t? key => t?.bind fun t : Ty => (t.children.find? (·.1 == key)).map (·.2)) (some t) =
      t.at? path := by
    intro path
    induction path with
    | nil => exact fun t => rfl
    | cons key path ih =>
        intro t
        rw [List.foldl_cons, Option.bind_some, at?]
        cases t.children.find? (·.1 == key) with
        | none => exact hnone path
        | some c => exact ih c.2
  rw [typeAt?]
  cases s.types[l.index]? with
  | none => exact hnone l.path
  | some t => exact hsome l.path t

theorem exists_of_typeAt? {l : Locus} {v : Ty} (hl : s.typeAt? l = some v) :
    ∃ t, s.types[l.index]? = some t ∧ t.at? l.path = some v :=
  Option.bind_eq_some_iff.1 ((s.typeAt?_eq l).symm.trans hl)

/-- Where the type at an index is placed. -/
theorem getElem?_place {ts : List Ty} {i : Nat} {t : Ty} (ht : ts[i]? = some t)
    (n column : Nat) :
    ∃ ps qs, typePieces n ts = ps ++ .part (paramKey (n + i)) t t.isFunction :: qs ∧
      (place column ts)[i]? = some (column + (texts ps).length, typeLayout t) := by
  induction ts generalizing i n column with
  | nil => cases ht
  | cons u ts ih =>
      cases i with
      | zero =>
          cases ht
          exact ⟨[], _, rfl, rfl⟩
      | succ i =>
          rw [List.getElem?_cons_succ] at ht
          obtain ⟨ps, qs, hpieces, hplace⟩ :=
            ih ht (n + 1) (column + (typeLayout u).width + " -> ".length)
          have hmore : ts.isEmpty = false := by
            cases ts with
            | nil => cases ht
            | cons => rfl
          refine ⟨.part (paramKey n) u u.isFunction :: .text " -> " :: ps, qs, ?_, ?_⟩
          · rw [typePieces, hmore, hpieces, Nat.add_right_comm]
            rfl
          · rw [place, List.getElem?_cons_succ, hplace]
            have hwidth : (typeLayout u).width =
                (Piece.format (.part (paramKey n) u u.isFunction)).length :=
              congrArg String.length (text_layout (.part (paramKey n) u u.isFunction))
            simp only [texts, String.length_append, hwidth]
            simp only [Piece.format, Nat.add_assoc]

/-- The position of the innermost type around a position that is displayed. -/
def displayed (s : Signature) (l : Locus) : Locus :=
  ⟨l.index, (s.types[l.index]?.map (·.displayed l.path)).getD []⟩

theorem displayed_eq {l : Locus} {t : Ty} (ht : s.types[l.index]? = some t) :
    s.displayed l = ⟨l.index, t.displayed l.path⟩ := by
  rw [displayed, ht]
  rfl

/-- Whether a signature shows a type at a position, and the texts before and after
it. -/
def Shows (s : Signature) (l : Locus) (u : Ty) (before after : String) : Prop :=
  ∃ lead, before = s.preamble ++ lead ∧ s.functionType.Shows l.keys u lead after

theorem Shows.format_eq {l : Locus} {u : Ty} {before after : String}
    (hshows : s.Shows l u before after) : s.format = before ++ (u.format ++ after) := by
  obtain ⟨lead, rfl, hshows⟩ := hshows
  rw [Signature.format_eq, hshows.format_eq, String.append_assoc]

/-- The columns looked up for a position are those of the type where it is displayed. -/
theorem span?_eq (hkeys : ∀ t ∈ s.types, t.KeysApart) {l : Locus} {v : Ty}
    (hl : s.typeAt? l = some v) :
    ∃ u before after, s.typeAt? (s.displayed l) = some u ∧
      (s.displayed l = l ∨ u.isNamedRecord = true) ∧ s.Shows (s.displayed l) u before after ∧
      s.span? l = some (spanBetween before u.format) := by
  obtain ⟨t, ht, hpath⟩ := exists_of_typeAt? hl
  obtain ⟨u, before, after, hu, hshows, hspan⟩ :=
    span?_layout (hkeys t (List.mem_of_getElem? ht)) hpath t.isFunction
  obtain ⟨ps, qs, hpieces, hplace⟩ := getElem?_place ht 1 s.head.length
  rw [Nat.add_comm 1] at hpieces
  have hsplit : s.functionType.pieces = ((if s.arity = 0 then [.text "() -> "] else []) ++ ps) ++
      .part (paramKey (l.index + 1)) t t.isFunction :: qs := by
    rw [pieces_functionType, hpieces, List.append_assoc]
  have hlead : s.head ++ texts ps =
      s.preamble ++ texts ((if s.arity = 0 then [.text "() -> "] else []) ++ ps) := by
    rw [head_eq, texts_append, texts_takesNothing, String.append_assoc]
  rw [displayed_eq ht]
  refine ⟨u, _, _, ?_, ?_, ⟨_, rfl, .part hsplit hshows⟩, ?_⟩
  · rw [typeAt?_eq, ht]
    exact hu
  · exact (displayed_eq_or hpath hu).imp_left fun heq => by rw [heq]
  · have hcolumn : s.head.length + (texts ps).length = (s.head ++ texts ps).length :=
      (String.length_append _ _).symm
    rw [span?, hplace]
    simp only [typeLayout, hspan, Option.map_some, Option.some.injEq]
    rw [hcolumn, shift_spanBetween, hlead, String.append_assoc]

/-! ## Requirements -/

/-- The text of requirements, each with a comma behind it. -/
def listed : List (String × String) → String
  | [] => ""
  | r :: rs => requirementText r ++ ", " ++ listed rs

theorem intercalate_requirements (earlier later : List (String × String))
    (r : String × String) :
    ∃ after, ", ".intercalate ((earlier ++ r :: later).map requirementText) =
      listed earlier ++ (requirementText r ++ after) := by
  induction earlier with
  | nil =>
      cases later with
      | nil =>
          refine ⟨"", ?_⟩
          rw [List.nil_append, List.map_singleton, String.intercalate_singleton, listed,
            String.empty_append, String.append_empty]
      | cons r' later =>
          refine ⟨", " ++ ", ".intercalate ((r' :: later).map requirementText), ?_⟩
          rw [List.nil_append, List.map_cons, List.map_cons, String.intercalate_cons_cons, listed,
            String.empty_append, String.append_assoc]
  | cons e earlier ih =>
      obtain ⟨after, hafter⟩ := ih
      obtain ⟨r', rs, hrs⟩ : ∃ r' rs, (earlier ++ r :: later).map requirementText = r' :: rs :=
        List.exists_cons_of_ne_nil (by simp)
      refine ⟨after, ?_⟩
      rw [List.cons_append, List.map_cons, hrs, String.intercalate_cons_cons, ← hrs, hafter, listed]
      simp only [String.append_assoc]

/-- The parenthesis before more than one requirement. -/
def openingOf (rs : List (String × String)) : String :=
  if 1 < rs.length then "(" else ""

theorem required_eq (hr : s.requirements ≠ []) :
    ∃ after, s.required =
      openingOf s.requirements ++
        (", ".intercalate (s.requirements.map requirementText) ++ after) := by
  have hlength : s.requirements.length ≠ 0 := fun h => hr (List.length_eq_zero_iff.1 h)
  rw [required, openingOf]
  by_cases hone : s.requirements.length = 1
  · refine ⟨" => ", ?_⟩
    simp only [hone, Nat.lt_irrefl, if_false, String.empty_append]
  · refine ⟨") => ", ?_⟩
    rw [if_pos (by omega)]
    simp only [String.append_assoc]

/-- The first requirement of a class on a variable, where the text of the signature has
it. -/
structure ShowsRequirement (s : Signature) (r : String × String)
    (before after : String) :
    Prop where
  format_eq : s.format = before ++ (requirementText r ++ after)
  first : ∃ earlier later, s.requirements = earlier ++ r :: later ∧ r ∉ earlier ∧
    before = s.name ++ " :: " ++ openingOf s.requirements ++ listed earlier

theorem find?_placeRequirements {earlier : List (String × String)} {r : String × String}
    (hearlier : r ∉ earlier) (later : List (String × String)) (lead : String) :
    ((placeRequirements lead.length (earlier ++ r :: later)).find? (·.1 == r)).map (·.2) =
      some (spanBetween (lead ++ listed earlier) (requirementText r)) := by
  induction earlier generalizing lead with
  | nil => simp [placeRequirements, listed, spanBetween]
  | cons e earlier ih =>
      rw [List.mem_cons, not_or] at hearlier
      have hcolumn : lead.length + (requirementText e).length + ", ".length =
          (lead ++ (requirementText e ++ ", ")).length := by
        rw [String.length_append, String.length_append, Nat.add_assoc]
      have hne : (e == r) = false := by simpa using Ne.symm hearlier.1
      rw [List.cons_append, placeRequirements, List.find?_cons]
      simp only [hne]
      rw [hcolumn, ih hearlier.2, listed]
      simp only [String.append_assoc]

/-- The columns looked up for a requirement are those of its first occurrence. -/
theorem exists_showsRequirement {name shortName : String}
    (hr : (name, shortName) ∈ s.requirements) :
    ∃ before after, s.ShowsRequirement (name, shortName) before after ∧
      s.requirementSpan? name shortName =
        some (spanBetween before (requirementText (name, shortName))) := by
  obtain ⟨earlier, later, hsplit, hearlier⟩ := List.eq_append_cons_of_mem hr
  obtain ⟨rest, hrequired⟩ := required_eq (List.ne_nil_of_mem hr)
  obtain ⟨after, hlisted⟩ := intercalate_requirements earlier later (name, shortName)
  rw [← hsplit] at hlisted
  refine ⟨s.name ++ " :: " ++ openingOf s.requirements ++ listed earlier,
    after ++ (rest ++ s.functionType.format), ⟨?_, earlier, later, hsplit, hearlier, rfl⟩, ?_⟩
  · rw [format_eq, preamble, hrequired, hlisted]
    simp only [String.append_assoc]
  · have hfind := find?_placeRequirements hearlier later
      (s.name ++ " :: " ++ openingOf s.requirements)
    rw [← hsplit] at hfind
    exact hfind

end Signature

end DynamicTypes
