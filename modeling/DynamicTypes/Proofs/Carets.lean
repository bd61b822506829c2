import DynamicTypes.Proofs.Lines
import DynamicTypes.Proofs.SignatureLayout

/-!
# Carets stand under what a failure is about

A report marks positions of a signature by carets on the line below it. That they stand
in the right place depends on everything before them: on the columns of types in types, on
what comes before the first type of a signature, on how carets are put on a line, and on
the lines of the report being where they seem to be, after it has been trimmed.

The last part needs that names are words: a name with a line feed in it would break the
line of the signature, and one that ends in a blank could be trimmed away. Nothing else is
asked of names. Carets are put one by one, so what holds of a line of carets (`Underlines`)
is shown for one caret, for those of a mark, and for all marks of a report.
-/

namespace DynamicTypes

open Text

/-! ## Legible texts -/

/-- Whether a text fits on a line and is not shortened when the line is trimmed. -/
structure Text.IsLegible (s : String) : Prop where
  inline : IsInline s.toList
  ends : EndsVisibly s.toList

instance (s : List Char) : Decidable (IsInline s) := List.decidableBAll _ s

theorem Text.isLegible_of_isWord {name : String} (hname : isWord name = true) :
    IsLegible name :=
  ⟨isInline_of_isWord hname, endsVisibly_of_isWord hname⟩

theorem Text.IsLegible.append {s t : String} (ht : IsLegible t)
    (hs : IsInline s.toList) :
    IsLegible (s ++ t) := by
  constructor
  · rw [String.toList_append]
    exact hs.append ht.inline
  · rw [String.toList_append]
    exact ht.ends.append _

namespace Ty

open Piece

mutual

/-- The names in a type. -/
def names : Ty → List String
  | con c _ params => c.name :: namesAll params
  | enumeration e => [e.name]
  | record r _ fields => r.name.toList ++ namesFields fields
  | function types => namesAll types
  | var name params => name :: namesAll params
  | _ => []

def namesAll : List Ty → List String
  | [] => []
  | t :: ts => names t ++ namesAll ts

def namesFields : List (String × Ty) → List String
  | [] => []
  | (key, t) :: fields => key :: (names t ++ namesFields fields)

end

theorem names_subset_namesAll {t : Ty} {ts : List Ty} (ht : t ∈ ts) :
    t.names ⊆ namesAll ts := by
  induction ts with
  | nil => cases ht
  | cons u us ih =>
      rw [namesAll]
      rcases List.mem_cons.1 ht with rfl | ht
      · exact List.subset_append_left _ _
      · exact List.Subset.trans (ih ht) (List.subset_append_right _ _)

theorem names_subset_namesFields {f : String × Ty} {fields : List (String × Ty)}
    (hf : f ∈ fields) :
    f.1 ∈ namesFields fields ∧ f.2.names ⊆ namesFields fields := by
  induction fields with
  | nil => cases hf
  | cons g fields ih =>
      rw [namesFields]
      rcases List.mem_cons.1 hf with rfl | hf
      · exact ⟨List.mem_cons_self, fun n hn => by simp [hn]⟩
      · exact ⟨by simp [(ih hf).1], fun n hn => by simp [(ih hf).2 hn]⟩

theorem isLegible_part {t : Ty} (ht : IsLegible t.format) (key : String) (wrap : Bool) :
    IsLegible (Piece.format (.part key t wrap)) := by
  cases wrap with
  | false =>
      rw [Piece.format, opening, closing, if_neg (by decide), if_neg (by decide),
        String.empty_append,
        String.append_empty]
      exact ht
  | true =>
      have hclosing : IsLegible ")" := ⟨by decide, ')', rfl, rfl⟩
      rw [Piece.format, String.append_assoc]
      exact (hclosing.append ht.inline).append (by decide)

theorem isLegible_paramPieces {ts : List Ty} (hts : ∀ t ∈ ts, IsLegible t.format)
    {lead : String} (hlead : IsLegible lead) (n : Nat) :
    IsLegible (lead ++ texts (paramPieces n ts)) := by
  induction ts generalizing lead n with
  | nil =>
      rw [paramPieces, texts, String.append_empty]
      exact hlead
  | cons t ts ih =>
      rw [List.forall_mem_cons] at hts
      have hpart := isLegible_part hts.1 (paramKey n) t.isCompound
      have hnext : IsLegible (lead ++ (" " ++ Piece.format (.part (paramKey n) t t.isCompound))) :=
        (hpart.append (s := " ") (by decide)).append hlead.inline
      have hrest := ih hts.2 hnext (n + 1)
      rw [String.append_assoc, String.append_assoc] at hrest
      exact hrest

theorem isInline_fieldPieces {fields : List (String × Ty)}
    (hfields : ∀ f ∈ fields, isWord f.1 = true ∧ IsLegible f.2.format) :
    IsInline (texts (fieldPieces fields)).toList := by
  induction fields with
  | nil => exact nofun
  | cons f fields ih =>
      rw [List.forall_mem_cons] at hfields
      have hpart := isLegible_part hfields.1.2 f.1 false
      have hcomma : IsInline (texts (if fields.isEmpty then [] else [.text ", "])).toList := by
        cases fields with
        | nil => decide
        | cons => exact (by decide : IsInline (texts [.text ", "]).toList)
      rw [fieldPieces, texts, texts, texts_append]
      simp only [String.toList_append]
      refine IsInline.append ?_ (hpart.inline.append (hcomma.append (ih hfields.2)))
      rw [Piece.format, String.toList_append]
      exact (isInline_of_isWord hfields.1.1).append (by decide)

theorem isLegible_typePieces {ts : List Ty} (hts : ∀ t ∈ ts, IsLegible t.format)
    (n : Nat) :
    IsLegible (texts (typePieces n ts)) := by
  induction ts generalizing n with
  | nil =>
      have hnothing : IsLegible noArguments.format := ⟨by decide, ')', rfl, rfl⟩
      rw [typePieces, texts, texts, String.append_empty]
      exact isLegible_part hnothing _ _
  | cons t ts ih =>
      rw [List.forall_mem_cons] at hts
      have hpart := isLegible_part hts.1 (paramKey n) t.isFunction
      rw [typePieces, texts]
      cases ts with
      | nil =>
          rw [List.isEmpty_nil, if_pos rfl, texts, String.append_empty]
          exact hpart
      | cons u ts => exact ((ih hts.2 (n + 1)).append (s := " -> ") (by decide)).append hpart.inline

/-- A type whose names are words has a legible text. -/
theorem isLegible_format {t : Ty} (ht : ∀ n ∈ t.names, isWord n = true) :
    IsLegible t.format := by
  have hall : ∀ {ts : List Ty}, (∀ t ∈ ts, (∀ n ∈ t.names, isWord n = true) → IsLegible t.format) →
      (∀ n ∈ namesAll ts, isWord n = true) → ∀ t ∈ ts, IsLegible t.format :=
    fun hts hnames t ht => hts t ht fun n hn => hnames n (names_subset_namesAll ht hn)
  induction t with
  | con c supers params _ ih =>
      rw [names, List.forall_mem_cons] at ht
      rw [format_eq_texts]
      exact isLegible_paramPieces (hall ih ht.2) (isLegible_of_isWord ht.1) 1
  | var name params ih =>
      rw [names, List.forall_mem_cons] at ht
      rw [format_eq_texts]
      exact isLegible_paramPieces (hall ih ht.2) (isLegible_of_isWord ht.1) 1
  | record r supers fields _ ih =>
      rw [names] at ht
      rw [format_eq_texts, pieces]
      cases hname : r.name with
      | some name =>
          rw [hname] at ht
          rw [texts, texts, String.append_empty]
          exact isLegible_of_isWord (ht name (by simp))
      | none =>
          have hfields : ∀ f ∈ fields, isWord f.1 = true ∧ IsLegible f.2.format := by
            intro f hf
            have hnames := names_subset_namesFields hf
            exact ⟨ht _ (List.mem_append_right _ hnames.1),
              ih f hf fun n hn => ht n (List.mem_append_right _ (hnames.2 hn))⟩
          cases fields with
          | nil => exact ⟨by decide, '\x7d', rfl, rfl⟩
          | cons f fields =>
              have hend : IsLegible (texts [.text " \x7d"]) := ⟨by decide, '\x7d', rfl, rfl⟩
              change IsLegible
                (texts (.text "\x7b " :: (fieldPieces (f :: fields) ++ [.text " \x7d"])))
              rw [texts, texts_append]
              exact (hend.append (isInline_fieldPieces hfields)).append (by decide)
  | function types ih =>
      rw [names] at ht
      have hts := isLegible_typePieces (hall ih ht) 1
      rw [format_eq_texts, pieces]
      split
      · exact hts.append (by decide)
      · exact hts
  | enumeration e =>
      rw [names] at ht
      rw [format_eq_texts, pieces, texts, texts, String.append_empty]
      exact isLegible_of_isWord (ht e.name (by simp))
  | unknown | inconsistent => exact ⟨by decide, '?', rfl, rfl⟩
  | noArguments => exact ⟨by decide, ')', rfl, rfl⟩
  | any => exact ⟨by decide, 'y', rfl, rfl⟩

theorem names_subset_of_children {t u : Ty} {key : String}
    (hu : (key, u) ∈ t.children) :
    u.names ⊆ t.names := by
  have hkeyed : ∀ {ts : List Ty}, (key, u) ∈ keyed 1 ts → u.names ⊆ namesAll ts := by
    intro ts hu
    obtain ⟨i, hi, _⟩ := mem_keyed.1 hu
    exact names_subset_namesAll (List.mem_of_getElem? hi)
  intro n hn
  cases t with
  | con c supers params => exact List.mem_cons_of_mem _ (hkeyed hu hn)
  | var name params => exact List.mem_cons_of_mem _ (hkeyed hu hn)
  | function types => exact hkeyed hu hn
  | record r supers fields =>
      exact List.mem_append_right _ ((names_subset_namesFields (f := (key, u)) hu).2 hn)
  | unknown | inconsistent | noArguments | any | enumeration => cases hu

theorem names_subset_of_at? {t u : Ty} {path : List String} (hu : t.at? path = some u) :
    u.names ⊆ t.names := by
  induction path generalizing t with
  | nil =>
      cases hu
      exact List.Subset.refl _
  | cons key path ih =>
      obtain ⟨c, hc, hrest⟩ := Option.bind_eq_some_iff.1 hu
      exact List.Subset.trans (ih hrest) (names_subset_of_children (List.mem_of_find?_eq_some hc))

end Ty

namespace Signature

variable {s : Signature}

/-- The names in a signature: of the function, in its types, and of the variables and
classes of its requirements. -/
def names (s : Signature) : List String :=
  s.name :: (Ty.namesAll s.types ++
    s.constraints.entries.flatMap fun p => p.1 :: p.2.map (·.name))

theorem isInline_shortName {c : TypeClass} (hc : isWord c.name = true) :
    IsInline c.shortName.toList := by
  intro ch hch
  rw [TypeClass.shortName, String.toList_ofList, List.mem_reverse] at hch
  exact isInline_of_isWord hc ch (List.mem_reverse.1 ((List.takeWhile_sublist _).subset hch))

theorem isInline_requirements (hnames : ∀ n ∈ s.names, isWord n = true)
    {r : String × String} (hr : r ∈ s.requirements) :
    IsInline (requirementText r).toList := by
  obtain ⟨p, hp, hmem⟩ := List.mem_flatMap.1 hr
  obtain ⟨c, hc, heq⟩ := List.mem_map.1 hmem
  subst heq
  have hentry : ∀ n ∈ p.1 :: p.2.map (·.name), isWord n = true := fun n hn =>
    hnames n (List.mem_cons_of_mem _ (List.mem_append_right _ (List.mem_flatMap.2 ⟨p, hp, hn⟩)))
  rw [List.forall_mem_cons] at hentry
  rw [requirementText, String.toList_append, String.toList_append]
  refine ((isInline_shortName ?_).append (by decide)).append (isInline_of_isWord hentry.1)
  exact hentry.2 _ (List.mem_map.2 ⟨c, hc, rfl⟩)

theorem isInline_intercalate {rs : List (String × String)}
    (hrs : ∀ r ∈ rs, IsInline (requirementText r).toList) :
    IsInline (", ".intercalate (rs.map requirementText)).toList := by
  induction rs with
  | nil => decide
  | cons r rs ih =>
      rw [List.forall_mem_cons] at hrs
      cases rs with
      | nil =>
          rw [List.map_singleton, String.intercalate_singleton]
          exact hrs.1
      | cons r' rs =>
          have hrest := ih hrs.2
          rw [List.map_cons] at hrest
          rw [List.map_cons, List.map_cons, String.intercalate_cons_cons, String.toList_append,
            String.toList_append]
          exact (hrs.1.append (by decide)).append hrest

/-- A signature whose names are words has a legible text. -/
theorem isLegible_format (hnames : ∀ n ∈ s.names, isWord n = true) :
    IsLegible s.format := by
  have hname : IsInline s.name.toList := isInline_of_isWord (hnames _ List.mem_cons_self)
  have htypes : IsLegible s.functionType.format := by
    refine Ty.isLegible_format fun n hn => hnames n ?_
    exact List.mem_cons_of_mem _ (List.mem_append_left _ hn)
  have hlisted : IsInline (", ".intercalate (s.requirements.map requirementText)).toList :=
    isInline_intercalate fun r hr => isInline_requirements hnames hr
  have hrequired : IsInline s.required.toList := by
    rw [required]
    split
    · decide
    · rw [String.toList_append]
      exact hlisted.append (by decide)
    · rw [String.toList_append, String.toList_append]
      exact (IsInline.append (by decide) hlisted).append (by decide)
  rw [format_eq, preamble]
  refine htypes.append ?_
  rw [String.toList_append, String.toList_append]
  exact (hname.append (by decide)).append hrequired

theorem isLegible_typeAt? (hnames : ∀ n ∈ s.names, isWord n = true) {l : Locus} {t : Ty}
    (ht : s.typeAt? l = some t) : IsLegible t.format := by
  obtain ⟨u, hu, hpath⟩ := exists_of_typeAt? ht
  refine Ty.isLegible_format fun n hn => hnames n ?_
  have hmem := Ty.names_subset_namesAll (List.mem_of_getElem? hu) (Ty.names_subset_of_at? hpath hn)
  exact List.mem_cons_of_mem _ (List.mem_append_left _ hmem)

end Signature

/-! ## A line of carets -/

namespace Report

theorem getElem?_put (row : List Char) (column : Nat) (ch : Char) (c : Nat) :
    (put row column ch)[c]? =
      if c = column then some ch
      else if c < row.length then row[c]? else if c < column then some ' ' else none := by
  unfold put
  by_cases hcolumn : column < row.length
  · rw [if_pos hcolumn, List.getElem?_set]
    by_cases heq : column = c
    · rw [if_pos heq, if_pos heq.symm, if_pos hcolumn]
    · rw [if_neg heq, if_neg (Ne.symm heq)]
      by_cases hc : c < row.length
      · rw [if_pos hc]
      · rw [if_neg hc, if_neg (by omega), List.getElem?_eq_none (by omega)]
  · rw [if_neg hcolumn, List.append_assoc, List.getElem?_append]
    by_cases hc : c < row.length
    · have hne : c ≠ column := by omega
      rw [if_pos hc, if_neg hne, if_pos hc]
    · -- behind the old end there are spaces up to the new character
      rw [if_neg hc, if_neg hc, List.getElem?_append, List.length_replicate,
        List.getElem?_replicate,
        List.getElem?_singleton]
      by_cases hspace : c < column
      · have hne : c ≠ column := by omega
        have hbefore : c - row.length < column - row.length := by omega
        rw [if_pos hbefore, if_pos hbefore, if_neg hne, if_pos hspace]
      · have hbehind : ¬ c - row.length < column - row.length := by omega
        have hiff : c - row.length - (column - row.length) = 0 ↔ c = column := by omega
        simp only [hbehind, hspace, hiff, if_false]

theorem length_put (row : List Char) (column : Nat) (ch : Char) :
    (put row column ch).length = max row.length (column + 1) := by
  unfold put
  split
  · rw [List.length_set]
    omega
  · simp
    omega

/-- Whether a line has carets in just these columns and spaces in the others, and ends
in a caret. -/
structure Underlines (row : List Char) (column : Nat → Prop) : Prop where
  caret_iff : ∀ c, row[c]? = some '^' ↔ column c
  space : ∀ ch ∈ row, ch = '^' ∨ ch = ' '
  ends : ∀ ch ∈ row.getLast?, ch = '^'

variable {row : List Char} {column : Nat → Prop}

theorem underlines_nil : Underlines [] fun _ => False :=
  ⟨fun c => by simp, nofun, nofun⟩

theorem Underlines.congr {column' : Nat → Prop} (hrow : Underlines row column)
    (hcolumn : ∀ c, column c ↔ column' c) : Underlines row column' :=
  ⟨fun c => (hrow.caret_iff c).trans (hcolumn c), hrow.space, hrow.ends⟩

/-- One more caret, on the line or behind it. -/
theorem Underlines.put (hrow : Underlines row column) (c : Nat) :
    Underlines (put row c '^') fun c' => column c' ∨ c' = c := by
  constructor
  · intro c'
    rw [getElem?_put, ← hrow.caret_iff c']
    by_cases heq : c' = c
    · simp [heq]
    · rw [if_neg heq, or_iff_left heq]
      split
      · exact Iff.rfl
      · next hlength =>
          rw [List.getElem?_eq_none (Nat.le_of_not_lt hlength)]
          split <;> simp
  · intro ch hch
    obtain ⟨c', hc'⟩ := List.mem_iff_getElem?.1 hch
    rw [getElem?_put] at hc'
    split at hc'
    · exact .inl (Option.some.inj hc').symm
    · split at hc'
      · exact hrow.space ch (List.mem_of_getElem? hc')
      · split at hc'
        · exact .inr (Option.some.inj hc').symm
        · cases hc'
  · intro ch hch
    rw [List.getLast?_eq_getElem?, getElem?_put, length_put, Option.mem_def] at hch
    split at hch
    · exact (Option.some.inj hch).symm
    · -- the line has not grown, so its last character is the old one
      have hlength : max row.length (c + 1) = row.length := by omega
      rw [hlength] at hch
      split at hch
      · rw [← List.getLast?_eq_getElem?] at hch
        exact hrow.ends ch hch
      · omega

theorem Underlines.putText (hrow : Underlines row column) (start n : Nat) :
    Underlines (putText row start (List.replicate n '^'))
      fun c => column c ∨ start ≤ c ∧ c < start + n := by
  induction n generalizing row column start with
  | zero =>
      refine hrow.congr fun c => ?_
      have hnone : ¬ (start ≤ c ∧ c < start + 0) := by omega
      exact (or_iff_left hnone).symm
  | succ n ih =>
      rw [List.replicate_succ, Report.putText]
      refine (ih (hrow.put start) (start + 1)).congr fun c => ?_
      have hiff : (c = start ∨ start + 1 ≤ c ∧ c < start + 1 + n) ↔
          start ≤ c ∧ c < start + (n + 1) := by omega
      rw [or_assoc, hiff]

/-- The carets of all marks. -/
theorem Underlines.marks (hrow : Underlines row column) (marks : List Mark) :
    Underlines (marks.foldl putCarets row)
      fun c => column c ∨ ∃ m ∈ marks, m.span.start ≤ c ∧ c < m.span.stop := by
  induction marks generalizing row column with
  | nil => exact hrow.congr fun c => by simp
  | cons m marks ih =>
      refine (ih (hrow.putText m.span.start (m.span.stop - m.span.start))).congr fun c => ?_
      have hiff : (m.span.start ≤ c ∧ c < m.span.start + (m.span.stop - m.span.start)) ↔
          m.span.start ≤ c ∧ c < m.span.stop := by omega
      simp only [hiff, List.exists_mem_cons_iff, or_assoc]

theorem Underlines.isInline (hrow : Underlines row column) : IsInline row := by
  intro ch hch hblank
  rcases hrow.space ch hch with rfl | rfl
  · exact absurd hblank (by decide)
  · rfl

theorem Underlines.endsVisibly (hrow : Underlines row column) {c : Nat}
    (hc : column c) :
    EndsVisibly row := by
  have hne : row ≠ [] := by
    intro hnil
    have hcaret := (hrow.caret_iff c).2 hc
    rw [hnil] at hcaret
    cases hcaret
  have hlast := List.getLast?_eq_getLast_of_ne_nil hne
  refine ⟨row.getLast hne, hlast, ?_⟩
  rw [hrow.ends _ hlast]
  decide

theorem lines_annotate_of_marks {text : String} (htext : IsInline text.toList)
    {marks : List Mark} (hmarks : marks ≠ []) (rest : List Char) :
    lines ((annotate text marks).toList ++ '\n' :: rest) =
      text.toList :: marks.foldl putCarets [] ::
        lines (if (marks.foldl putLabel []).isEmpty then rest
          else marks.foldl putLabel [] ++ '\n' :: rest) := by
  have hcarets := (underlines_nil.marks marks).isInline
  have hbreak : "\n".toList = ['\n'] := rfl
  -- a line feed follows the carets, with labels behind it or without
  have hbelow : (if (marks.foldl putLabel []).isEmpty then ""
      else "\n" ++ String.ofList (marks.foldl putLabel [])).toList ++ '\n' :: rest =
      '\n' :: (if (marks.foldl putLabel []).isEmpty then rest
        else marks.foldl putLabel [] ++ '\n' :: rest) := by
    split
    · rfl
    · rw [String.toList_append, hbreak, String.toList_ofList]
      rfl
  rw [annotate, if_neg (by simpa using hmarks)]
  simp only [String.toList_append, hbreak, String.toList_ofList, List.append_assoc, hbelow]
  rw [List.singleton_append, htext.lines_append, hcarets.lines_append]

theorem lines_annotate {text : String} (htext : IsInline text.toList)
    (marks : List Mark) (rest : List Char) :
    ∃ more, lines ((annotate text marks).toList ++ '\n' :: rest) = text.toList :: more ∧
      (marks ≠ [] → more.head? = some (marks.foldl putCarets [])) := by
  by_cases hmarks : marks = []
  · subst hmarks
    exact ⟨_, htext.lines_append rest, fun hne => absurd rfl hne⟩
  · exact ⟨_, lines_annotate_of_marks htext hmarks rest, fun _ => rfl⟩

theorem map_span_marksAt (s : Signature) (loci : List Locus) :
    (marksAt s loci).map (·.span) = loci.filterMap s.span? := by
  rw [marksAt, List.map_map]
  exact List.zipIdx_map_fst _ _

end Report

namespace Failure

variable {s : Signature} {f : Failure} {span : Span}

/-- The columns that a failure implicates: those of its positions and, if a value lacks
a class, those of the requirement. -/
inductive Implicates (s : Signature) : Failure → Span → Prop where
  | position {f : Failure} {l : Locus} {span : Span} (mem : l ∈ f.loci)
      (shown : s.span? l = some span) : Implicates s f span
  | requirement {name : String} {required : TypeClass} {l : Locus} {v : Value} {span : Span}
      (shown : s.requirementSpan? name required.shortName = some span) :
      Implicates s (.typeClassViolation name required l v) span

/-- The marks of a report are what the failure implicates. -/
theorem mem_marks (h : Heap) (env : List Ty) :
    (∃ m ∈ (f.report h s env).marks, m.span = span) ↔ f.Implicates s span := by
  have hmarksAt : ∀ loci : List Locus, (∃ m ∈ Report.marksAt s loci, m.span = span) ↔
      ∃ l ∈ loci, s.span? l = some span := by
    intro loci
    rw [← List.mem_map, Report.map_span_marksAt, List.mem_filterMap]
  have hposition : (∃ l ∈ f.loci, s.span? l = some span) → f.Implicates s span :=
    fun ⟨l, hl, hspan⟩ => .position hl hspan
  cases f with
  | typeClassViolation name required l v =>
      simp only [report, List.mem_append, or_and_right, exists_or, hmarksAt]
      constructor
      · rintro (⟨m, hm, heq⟩ | hl)
        · obtain ⟨span', hspan', rfl⟩ := List.mem_map.1 hm
          exact .requirement (heq ▸ Option.mem_toList.1 hspan')
        · exact hposition hl
      · intro himplicates
        cases himplicates with
        | position mem shown => exact .inr ⟨_, mem, shown⟩
        | requirement shown =>
            exact .inl ⟨⟨span, none⟩, List.mem_map.2 ⟨span, Option.mem_toList.2 shown, rfl⟩, rfl⟩
  | argumentCount expected args =>
      simp only [report, List.not_mem_nil, false_and, exists_false, false_iff]
      intro himplicates
      cases himplicates with
      | position mem _ => cases mem
  | invalidValue | typeVariableViolation | unrecognizedValue | callbackArity =>
      simp only [report, hmarksAt]
      refine ⟨hposition, fun himplicates => ?_⟩
      cases himplicates with
      | position mem shown => exact ⟨_, mem, shown⟩

theorem isInline_title (hnames : ∀ n ∈ s.names, isWord n = true)
    (hloci : ∀ l ∈ f.loci, ∃ t, s.typeAt? l = some t) (h : Heap) (env : List Ty) :
    IsInline (f.report h s env).title.toList := by
  have hname : IsInline s.name.toList := isInline_of_isWord (hnames _ List.mem_cons_self)
  cases f with
  | callbackArity l expected args =>
      obtain ⟨t, ht⟩ := hloci l List.mem_cons_self
      have hcallback := (Signature.isLegible_typeAt? hnames ht).inline
      simp only [report, ht, Option.map_some, Option.getD_some, String.toList_append]
      exact ((((IsInline.append (by decide) hname).append (by decide)).append hcallback).append
        (by decide))
  | argumentCount expected args =>
      simp only [report, String.toList_append]
      exact (IsInline.append (by decide) hname).append (by decide)
  | invalidValue | typeVariableViolation | typeClassViolation | unrecognizedValue =>
      simp only [report]
      decide

end Failure

/-- A line of the message of a diagnostic, counted from zero. -/
def Diagnostic.line? (d : Diagnostic) (n : Nat) : Option (List Char) :=
  (lines d.message.toList)[n]?

namespace Failure

variable {s : Signature} {f : Failure}

theorem underlines_marks (h : Heap) (env : List Ty) :
    Report.Underlines ((f.report h s env).marks.foldl Report.putCarets [])
      fun c => ∃ span, f.Implicates s span ∧ span.start ≤ c ∧ c < span.stop := by
  refine (Report.underlines_nil.marks (f.report h s env).marks).congr fun c => ?_
  rw [false_or]
  constructor
  · intro ⟨m, hm, hc⟩
    exact ⟨m.span, (mem_marks h env).1 ⟨m, hm, rfl⟩, hc⟩
  · intro ⟨span, hspan, hc⟩
    obtain ⟨m, hm, rfl⟩ := (mem_marks h env).2 hspan
    exact ⟨m, hm, hc⟩

/-- The lines of a diagnostic from the third on: the signature, and the carets if there
are marks. -/
theorem exists_line?_diagnostic (hnames : ∀ n ∈ s.names, isWord n = true)
    (hloci : ∀ l ∈ f.loci, ∃ t, s.typeAt? l = some t) (h : Heap) (env : List Ty) :
    ∃ more, (∀ n, (f.diagnostic h s env).line? (n + 2) =
        ((s.format.toList :: more).map trimEnd)[n]?) ∧
      ((f.report h s env).marks ≠ [] →
        more.head? = some ((f.report h s env).marks.foldl Report.putCarets [])) := by
  obtain ⟨rest, htext⟩ := Report.exists_lines_text (isInline_title hnames hloci h env) s
  obtain ⟨more, hlines, hmore⟩ := Report.lines_annotate (Signature.isLegible_format hnames).inline
    (f.report h s env).marks rest
  refine ⟨more, fun n => ?_, hmore⟩
  change (lines ((f.report h s env).text s).toList)[n + 2]? = _
  rw [htext, hlines]
  rfl

/-- The report on a failure of a check against a signature, if the names in the
signature are words and the failure points into it. Its third line is the signature.
Below it, if the failure has positions, is a line with carets in just the columns that
are implicated, and spaces between them. The columns of a position are those of the text
of the type there, unless the way to it leads through a record with a name, when they
are those of the first such record; and the columns of a requirement are those of the
first place where its class is required of its variable. -/
theorem carets_underline (hnames : ∀ n ∈ s.names, isWord n = true)
    (hkeys : ∀ t ∈ s.types, t.KeysApart)
    (hloci : ∀ l ∈ f.loci, ∃ t, s.typeAt? l = some t) (h : Heap) (env : List Ty) :
    (f.diagnostic h s env).line? 2 = some s.format.toList ∧
    (f.loci ≠ [] → ∃ carets, (f.diagnostic h s env).line? 3 = some carets ∧
      (∀ c, carets[c]? = some '^' ↔
        ∃ span, f.Implicates s span ∧ span.start ≤ c ∧ c < span.stop) ∧
      ∀ ch ∈ carets, ch = '^' ∨ ch = ' ') ∧
    (∀ l ∈ f.loci, ∃ u before after, s.typeAt? (s.displayed l) = some u ∧
      (s.displayed l = l ∨ u.isNamedRecord = true) ∧
      s.format = before ++ (u.format ++ after) ∧
      s.span? l = some ⟨before.length, before.length + u.format.length⟩) ∧
    ∀ name required l v, f = .typeClassViolation name required l v →
      (name, required.shortName) ∈ s.requirements →
      ∃ before after, s.ShowsRequirement (name, required.shortName) before after ∧
        s.requirementSpan? name required.shortName = some ⟨before.length, before.length +
          (Signature.requirementText (name, required.shortName)).length⟩ := by
  have hformat := Signature.isLegible_format hnames
  have hcarets := underlines_marks (f := f) (s := s) h env
  obtain ⟨more, hline, hmore⟩ := exists_line?_diagnostic hnames hloci h env
  have hposition : ∀ l ∈ f.loci, ∃ u before after, s.typeAt? (s.displayed l) = some u ∧
      (s.displayed l = l ∨ u.isNamedRecord = true) ∧ s.format = before ++ (u.format ++ after) ∧
      s.span? l = some (Ty.spanBetween before u.format) := by
    intro l hl
    obtain ⟨t, ht⟩ := hloci l hl
    obtain ⟨u, before, after, hu, hdisplayed, hshows, hspan⟩ := Signature.span?_eq hkeys ht
    exact ⟨u, before, after, hu, hdisplayed, hshows.format_eq, hspan⟩
  refine ⟨?_, fun hne => ?_, hposition, ?_⟩
  · rw [hline 0, List.map_cons, trimEnd_of_endsVisibly hformat.ends]
    rfl
  · obtain ⟨l, hl⟩ := List.exists_mem_of_ne_nil _ hne
    obtain ⟨u, before, after, hu, _, _, hspan⟩ := hposition l hl
    have himplicates : f.Implicates s (Ty.spanBetween before u.format) := .position hl hspan
    -- the text of a type is not empty, so its first column has a caret
    have hwidth : 0 < u.format.length := by
      have hne := (Signature.isLegible_typeAt? hnames hu).ends.ne_nil
      rw [← String.length_toList]
      exact List.length_pos_iff.2 hne
    have hends := hcarets.endsVisibly (c := before.length)
      ⟨_, himplicates, Nat.le_refl _, Nat.lt_add_of_pos_right hwidth⟩
    have hmarks : (f.report h s env).marks ≠ [] := by
      obtain ⟨m, hm, _⟩ := (mem_marks h env).2 himplicates
      exact List.ne_nil_of_mem hm
    obtain ⟨others, hothers⟩ := List.head?_eq_some_iff.1 (hmore hmarks)
    refine ⟨_, ?_, hcarets.caret_iff, hcarets.space⟩
    rw [hline 1, hothers, List.map_cons, List.map_cons, trimEnd_of_endsVisibly hends]
    rfl
  · intro name required l v _ hrequired
    exact Signature.exists_showsRequirement hrequired

/-- A field with a class required of it, inside a record that shows its name only: the
carets are under the requirement and under the name. -/
theorem carets_underline_record :
    ∃ (s : Signature) (f : Failure) (carets : List Char),
      (∀ n ∈ s.names, isWord n = true) ∧ (∀ t ∈ s.types, t.KeysApart) ∧
      f.loci = [⟨0, ["y"]⟩] ∧ s.typeAt? ⟨0, ["y"]⟩ = some (.var "a" []) ∧
      (f.diagnostic .empty s []).line? 2 = some "f :: Ord a => Point -> Any".toList ∧
      (f.diagnostic .empty s []).line? 3 = some carets ∧
      ∀ c, carets[c]? = some '^' ↔ 5 ≤ c ∧ c < 10 ∨ 14 ≤ c ∧ c < 19 := by
  let point : Ty := .record ⟨some "Point", ""⟩ [] [("y", .var "a" [])]
  let ord : TypeClass := ⟨"lib/Ord", "", fun _ _ => true⟩
  let s : Signature := ⟨"f", .ofList [("a", [ord])], [point], .any, by decide⟩
  let f : Failure := .typeClassViolation "a" ord ⟨0, ["y"]⟩ .null
  have hnames : ∀ n ∈ s.names, isWord n = true := by decide +kernel
  have hkeys : ∀ t ∈ s.types, t.KeysApart := by
    have hvar : (Ty.var "a" []).KeysApart := Ty.eachRecord_of_children nofun nofun
    have hpoint : point.KeysApart := by
      refine Ty.eachRecord_of_children (fun r supers fields heq => ?_) fun key u hu => ?_
      · obtain ⟨-, -, rfl⟩ := Ty.record.inj heq
        exact List.nodup_singleton _
      · cases List.mem_singleton.1 hu
        exact hvar
    have hany : Ty.any.KeysApart := Ty.eachRecord_of_children nofun nofun
    simpa [s, Signature.types] using ⟨hpoint, hany⟩
  have hat : s.typeAt? ⟨0, ["y"]⟩ = some (.var "a" []) := rfl
  have hloci : ∀ l ∈ f.loci, ∃ t, s.typeAt? l = some t := by
    intro l hl
    cases List.mem_singleton.1 hl
    exact ⟨_, hat⟩
  have hformat : s.format = "f :: Ord a => Point -> Any" := by decide +kernel
  have hposition : s.span? ⟨0, ["y"]⟩ = some ⟨14, 19⟩ := by decide +kernel
  have hrequirement : s.requirementSpan? "a" ord.shortName = some ⟨5, 10⟩ := by decide +kernel
  obtain ⟨hline, hcarets, _⟩ := carets_underline hnames hkeys hloci .empty []
  obtain ⟨carets, hcarets, hiff, _⟩ := hcarets (List.cons_ne_nil _ _)
  rw [hformat] at hline
  refine ⟨s, f, carets, hnames, hkeys, rfl, hat, hline, hcarets, fun c => ?_⟩
  rw [hiff c]
  constructor
  · rintro ⟨span, himplicates, hc⟩
    change Implicates s (.typeClassViolation "a" ord ⟨0, ["y"]⟩ .null) span at himplicates
    cases himplicates with
    | position mem shown =>
        cases List.mem_singleton.1 mem
        cases hposition.symm.trans shown
        exact .inr hc
    | requirement shown =>
        cases hrequirement.symm.trans shown
        exact .inl hc
  · intro hc
    rcases hc with hc | hc
    · exact ⟨_, .requirement hrequirement, hc⟩
    · exact ⟨_, .position (List.mem_singleton.2 rfl) hposition, hc⟩

end Failure

end DynamicTypes
