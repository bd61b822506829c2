import Mathlib.Data.Nat.Find
import DynamicTypes.Proofs.DeclarationOrder

/-!
# The columns that a layout records

A layout carries a list of paths with columns, which grows as the text does, and whoever
wants to point into the text looks paths up in it. What makes that safe is stated here once
for all types: the list has each path that leads to something displayed, once, and no other;
the columns of a path are those of the text of the type there; they nest as components do
and are ordered as components are. So a look-up is never ambiguous, and it cannot fail,
whatever the keys: the whole type is always recorded, and stands in for what is not.

A function type without any types, which cannot be declared, is the one exception. It shows
a result that it does not have, and the columns of that result belong to no component.
-/

namespace DynamicTypes

namespace Layout

/-- The characters in a range of columns. -/
def within (l : Layout) (span : Span) : List Char :=
  l.text.toList.extract span.start span.stop

/-- The columns looked up for a path are those of its longest part that has any. -/
theorem exists_longest {l : Layout} (hnodup : (l.spans.map (·.1)).Nodup) {whole : Span}
    (hwhole : ([], whole) ∈ l.spans) (path : List String) :
    ∃ shown span, shown <+: path ∧ (shown, span) ∈ l.spans ∧
      (∀ longer other, longer <+: path → (longer, other) ∈ l.spans → longer.length ≤ shown.length) ∧
      l.span? path = some span := by
  classical
  let Recorded (n : Nat) : Prop := ∃ span, (path.take n, span) ∈ l.spans
  let n := Nat.findGreatest Recorded path.length
  have hn : n ≤ path.length := Nat.findGreatest_le _
  obtain ⟨span, hspan⟩ : Recorded n :=
    Nat.findGreatest_spec (P := Recorded) (Nat.zero_le _) ⟨whole, by simpa using hwhole⟩
  have hlongest : ∀ m, n < m → m ≤ path.length → ∀ other, (path.take m, other) ∉ l.spans :=
    fun m hlt hle other hother => Nat.findGreatest_is_greatest hlt hle ⟨other, hother⟩
  have honly : ∀ other, (path.take n, other) ∈ l.spans → other = span := by
    intro other hother
    exact congrArg Prod.snd (List.inj_on_of_nodup_map hnodup hother hspan rfl)
  refine ⟨path.take n, span, List.take_prefix n path, hspan, fun longer other hprefix hother => ?_,
    span?_eq hn hspan honly hlongest⟩
  rw [List.length_take, Nat.min_eq_left hn]
  by_contra hlt
  rw [List.prefix_iff_eq_take.1 hprefix] at hother
  exact hlongest _ (by omega) hprefix.length_le other hother

end Layout

namespace Ty

open Piece

variable {t u c : Ty} {key : String} {path : List String}

/-! ## Paths to what is displayed -/

/-- Whether a path through components leads from a type to another one, and not below a
record with a name. -/
inductive Exposes : Ty → List String → Ty → Prop where
  | whole (t : Ty) : Exposes t [] t
  | part {t c u : Ty} {key : String} {path : List String} (shown : t.isNamedRecord = false)
      (mem : (key, c) ∈ t.children) (rest : Exposes c path u) : Exposes t (key :: path) u

/-- Whether every function type that is displayed has a result. -/
def HasResults (t : Ty) : Prop := ∀ path, ¬ t.Exposes path (.function [])

theorem HasResults.ne_function (ht : t.HasResults) : t ≠ .function [] :=
  fun heq => ht [] (heq ▸ .whole _)

theorem HasResults.child (ht : t.HasResults) (hshown : t.isNamedRecord = false)
    (hc : (key, c) ∈ t.children) : c.HasResults :=
  fun path hpath => ht (key :: path) (.part hshown hc hpath)

theorem hasResults_of_children (hne : t ≠ .function [])
    (hchildren : ∀ key c, (key, c) ∈ t.children → c.HasResults) : t.HasResults := by
  intro path hpath
  -- the function type is an index of `Exposes`, which `cases` does not take apart
  generalize hu : Ty.function [] = u at hpath
  cases hpath with
  | whole => exact hne hu.symm
  | part shown mem rest => exact hchildren _ _ mem _ (hu ▸ rest)

theorem Exposes.keysApart (hu : t.Exposes path u) (ht : t.KeysApart) : u.KeysApart := by
  induction hu with
  | whole t => exact ht
  | part shown mem _ ih => exact ih (ht.child mem)

theorem Exposes.hasResults (hu : t.Exposes path u) (ht : t.HasResults) :
    u.HasResults := by
  induction hu with
  | whole t => exact ht
  | part shown mem _ ih => exact ih (ht.child shown mem)

/-- The components in the text of a type that has its results are its components. -/
theorem components_eq (hne : t ≠ .function []) (hshown : t.isNamedRecord = false) :
    t.components = t.children := by
  cases t with
  | record r supers fields => exact if_neg (Bool.eq_false_iff.1 hshown)
  | function types =>
      cases types with
      | nil => exact absurd rfl hne
      | cons t types => rfl
  | con | var | enumeration | unknown | inconsistent | noArguments | any => rfl

theorem Shows.mem_components {before after : String}
    (hshows : t.Shows (key :: path) u before after) :
    ∃ c, (key, c) ∈ t.components := by
  cases hshows with
  | @part _ c _ _ wrap _ before after ps qs split shown =>
      exact ⟨c, parts_pieces t ▸ mem_parts.2 ⟨ps, wrap, qs, split⟩⟩

theorem Shows.isNamedRecord_eq_false {before after : String}
    (hshows : t.Shows (key :: path) u before after) : t.isNamedRecord = false := by
  obtain ⟨c, hc⟩ := hshows.mem_components
  rw [Bool.eq_false_iff]
  intro hnamed
  rw [components_of_isNamedRecord hnamed] at hc
  cases hc

/-- What a type shows is what it exposes. -/
theorem exists_shows_iff (ht : t.HasResults) :
    (∃ before after, t.Shows path u before after) ↔ t.Exposes path u := by
  induction path generalizing t with
  | nil =>
      constructor
      · rintro ⟨before, after, hshows⟩
        cases hshows
        exact .whole _
      · intro hexposes
        cases hexposes
        exact ⟨"", "", .whole _⟩
  | cons key path ih =>
      constructor
      · rintro ⟨before, after, hshows⟩
        have hshown := hshows.isNamedRecord_eq_false
        cases hshows with
        | @part _ c _ _ wrap _ before after ps qs split shown =>
            have hc : (key, c) ∈ t.components := parts_pieces t ▸ mem_parts.2 ⟨ps, wrap, qs, split⟩
            rw [components_eq ht.ne_function hshown] at hc
            exact .part hshown hc ((ih (ht.child hshown hc)).1 ⟨before, after, shown⟩)
      · intro hexposes
        cases hexposes with
        | @part _ c _ _ _ shown mem rest =>
            obtain ⟨before, after, hshows⟩ := (ih (ht.child shown mem)).2 rest
            have hc := mem_components_of_children shown mem
            rw [← parts_pieces] at hc
            obtain ⟨ps, wrap, qs, split⟩ := mem_parts.1 hc
            exact ⟨_, _, .part split hshows⟩

/-! ## Each path once -/

/-- The paths that a layout of a type records, in their order. -/
def recordedPaths (t : Ty) : List (List String) := t.inner.marked.spans.map (·.1)

theorem paths_layout (t : Ty) (wrap : Bool) :
    (t.layout wrap).spans.map (·.1) = t.recordedPaths := by
  cases wrap with
  | false => rfl
  | true =>
      rw [layout, Layout.wrapped, if_pos rfl, Layout.spans_append, Layout.spans_append]
      simp [Layout.plain, recordedPaths, Function.comp_def]

theorem paths_joined (ps : List Piece) :
    (joined ps).spans.map (·.1) =
      (parts ps).flatMap fun p => p.2.recordedPaths.map (p.1 :: ·) := by
  induction ps with
  | nil => rfl
  | cons p ps ih =>
      have hshifted : ((joined ps).spans.map fun q => (q.1, q.2.shift p.layout.text.length)).map
          (·.1) = (joined ps).spans.map (·.1) := by
        rw [List.map_map]
        rfl
      rw [joined, Layout.spans_append, List.map_append, hshifted, ih]
      cases p with
      | text characters => rfl
      | part key t wrap =>
          rw [parts, List.flatMap_cons, ← paths_layout t wrap, List.map_map]
          simp only [Piece.layout, Layout.under, List.map_map]
          rfl

theorem recordedPaths_eq (t : Ty) :
    t.recordedPaths =
      (t.components.flatMap fun p => p.2.recordedPaths.map (p.1 :: ·)) ++ [[]] := by
  rw [← parts_pieces, ← paths_joined, ← inner_eq_joined, recordedPaths, Layout.marked,
    List.map_append]
  rfl

theorem KeysApart.nodup_recordedPaths (ht : t.KeysApart) : t.recordedPaths.Nodup := by
  induction t using induct_components with
  | step t ih =>
      rw [recordedPaths_eq, List.nodup_append]
      refine ⟨List.nodup_flatMap.2 ⟨fun p hp => ?_, ?_⟩, List.nodup_singleton _, ?_⟩
      · exact (ih p.1 p.2 hp (ht.component hp)).map fun a b heq => (List.cons.inj heq).2
      · -- paths under different keys start differently
        have hkeys : t.components.Pairwise fun p q => p.1 ≠ q.1 :=
          List.pairwise_map.1 ht.nodup_components
        refine hkeys.imp fun {p q} hne path hp hq => ?_
        obtain ⟨p', _, rfl⟩ := List.mem_map.1 hp
        obtain ⟨q', _, heq⟩ := List.mem_map.1 hq
        exact hne (List.cons.inj heq).1.symm
      · intro path hpath rest hrest
        obtain ⟨p, _, hp⟩ := List.mem_flatMap.1 hpath
        obtain ⟨p', _, rfl⟩ := List.mem_map.1 hp
        rw [List.mem_singleton.1 hrest]
        exact List.cons_ne_nil _ _

/-! ## Columns of nested and of neighbouring types -/

theorem Shows.of_append {p q : List String} {v : Ty} {before after : String}
    (hshows : t.Shows (p ++ q) v before after) :
    ∃ u outer outer' inner inner', t.Shows p u outer outer' ∧ u.Shows q v inner inner' ∧
      before = outer ++ inner ∧ after = inner' ++ outer' := by
  induction p generalizing t before after with
  | nil =>
      exact ⟨t, "", "", before, after, .whole t, hshows, String.empty_append.symm,
        String.append_empty.symm⟩
  | cons key p ih =>
      cases hshows with
      | part split shown =>
          obtain ⟨u, outer, outer', inner, inner', hu, hv, rfl, rfl⟩ := ih shown
          refine ⟨u, _, _, inner, inner', .part split hu, hv, ?_, ?_⟩
          · simp only [String.append_assoc]
          · simp only [String.append_assoc]

/-- The columns recorded for a path are those of the type that is shown there. -/
theorem mem_spans_layout_iff {wrap : Bool} {span : Span} :
    (path, span) ∈ (t.layout wrap).spans ↔ ∃ u before after, t.Shows path u before after ∧
      span = spanBetween (opening wrap ++ before) u.format := by
  rw [mem_spans_layout]
  constructor
  · rintro ⟨inner, hinner, rfl⟩
    obtain ⟨u, before, after, hshows, rfl⟩ := mem_spans_inner.1 hinner
    exact ⟨u, before, after, hshows, shift_spanBetween _ _ _⟩
  · rintro ⟨u, before, after, hshows, rfl⟩
    exact ⟨_, mem_spans_inner.2 ⟨u, before, after, hshows, rfl⟩, (shift_spanBetween _ _ _).symm⟩

theorem text_layout_eq (t : Ty) (wrap : Bool) :
    (t.layout wrap).text = opening wrap ++ t.format ++ closing wrap :=
  Piece.text_layout (.part "" t wrap)

theorem within_of_shows {wrap : Bool} {before after : String}
    (hshows : t.Shows path u before after) :
    (t.layout wrap).within (spanBetween (opening wrap ++ before) u.format) = u.format.toList := by
  have htext : (t.layout wrap).text.toList = (opening wrap ++ before).toList ++
      (u.format.toList ++ (after ++ closing wrap).toList) := by
    rw [text_layout_eq, hshows.format_eq]
    simp only [String.toList_append, List.append_assoc]
  rw [Layout.within, htext, spanBetween, List.extract_eq_take_drop, ← String.length_toList,
    List.drop_left, Nat.add_sub_cancel_left, ← String.length_toList, List.take_left]

end Ty

/-- Whether the columns that a layout records are those of what a type displays. -/
structure Layout.Records (l : Layout) (t : Ty) : Prop where
  /-- No path is recorded twice. -/
  once : (l.spans.map (·.1)).Nodup
  /-- The paths recorded are those that do not lead below a record with a name. -/
  paths : ∀ path, (∃ span, (path, span) ∈ l.spans) ↔ ∃ u, t.Exposes path u
  /-- In the columns of a path is the text of the type there. -/
  text : ∀ path span u, (path, span) ∈ l.spans → t.Exposes path u → l.within span = u.format.toList
  /-- A component stands inside the type that it is a component of. -/
  nested : ∀ path key outer inner, (path, outer) ∈ l.spans → (path ++ [key], inner) ∈ l.spans →
    outer.start ≤ inner.start ∧ inner.stop ≤ outer.stop
  /-- Of two components of a type, the first stands before the second. -/
  ordered : ∀ path u (i j : Nat) key key' c c' span span', t.Exposes path u → i < j →
    u.children[i]? = some (key, c) → u.children[j]? = some (key', c') →
    (path ++ [key], span) ∈ l.spans → (path ++ [key'], span') ∈ l.spans → span.stop < span'.start
  /-- A path is looked up as its longest part that is recorded, and there always is
  one. -/
  lookup : ∀ path, ∃ shown span, shown <+: path ∧ (shown, span) ∈ l.spans ∧
    (∀ longer other, longer <+: path → (longer, other) ∈ l.spans → longer.length ≤ shown.length) ∧
    l.span? path = some span ∧ span.start ≤ span.stop ∧ span.stop ≤ l.width

namespace Ty

open Piece

variable {t u : Ty} {wrap : Bool} {path : List String} {span : Span} {before after : String}

/-- What is recorded at a path is where the type there is shown. -/
theorem eq_spanBetween_of_shows (hkeys : t.KeysApart)
    (hspan : (path, span) ∈ (t.layout wrap).spans)
    (hshows : t.Shows path u before after) :
    span = spanBetween (opening wrap ++ before) u.format := by
  obtain ⟨u', before', after', hshows', rfl⟩ := mem_spans_layout_iff.1 hspan
  obtain ⟨rfl, rfl, -⟩ := hshows.unique hkeys hshows'
  rfl

theorem exists_span_iff (hresults : t.HasResults) :
    (∃ span, (path, span) ∈ (t.layout wrap).spans) ↔ ∃ u, t.Exposes path u := by
  constructor
  · rintro ⟨span, hspan⟩
    obtain ⟨u, before, after, hshows, -⟩ := mem_spans_layout_iff.1 hspan
    exact ⟨u, (exists_shows_iff hresults).1 ⟨before, after, hshows⟩⟩
  · rintro ⟨u, hu⟩
    obtain ⟨before, after, hshows⟩ := (exists_shows_iff hresults).2 hu
    exact ⟨_, mem_spans_layout_iff.2 ⟨u, before, after, hshows, rfl⟩⟩

theorem span_nested (hkeys : t.KeysApart) {key : String} {inner : Span}
    (hspan : (path, span) ∈ (t.layout wrap).spans)
    (hinner : (path ++ [key], inner) ∈ (t.layout wrap).spans) :
    span.start ≤ inner.start ∧ inner.stop ≤ span.stop := by
  obtain ⟨v, before, after, hshows, rfl⟩ := mem_spans_layout_iff.1 hinner
  obtain ⟨u, lead, trail, lead', trail', hu, hv, rfl, rfl⟩ := hshows.of_append
  rw [eq_spanBetween_of_shows hkeys hspan hu]
  have hlength := congrArg String.length hv.format_eq
  simp only [spanBetween, String.length_append] at hlength ⊢
  omega

theorem span_ordered (hkeys : t.KeysApart) (hresults : t.HasResults) {i j : Nat}
    {key key' : String} {c c' : Ty} {span' : Span} (hu : t.Exposes path u) (hij : i < j)
    (hi : u.children[i]? = some (key, c)) (hj : u.children[j]? = some (key', c'))
    (hspan : (path ++ [key], span) ∈ (t.layout wrap).spans)
    (hspan' : (path ++ [key'], span') ∈ (t.layout wrap).spans) :
    span.stop < span'.start := by
  obtain ⟨v, before, after, hshows, rfl⟩ := mem_spans_layout_iff.1 hspan
  obtain ⟨v', before', after', hshows', rfl⟩ := mem_spans_layout_iff.1 hspan'
  obtain ⟨_, lead, _, inner, _, hlead, hinner, rfl, -⟩ := hshows.of_append
  obtain ⟨_, lead', _, inner', _, hlead', hinner', rfl, -⟩ := hshows'.of_append
  -- both stand inside the text of the type that they are components of
  obtain ⟨_, _, hshown⟩ := (exists_shows_iff hresults).2 hu
  obtain ⟨rfl, rfl, -⟩ := hshown.unique hkeys hlead
  obtain ⟨rfl, rfl, -⟩ := hshown.unique hkeys hlead'
  obtain ⟨xs, ys, zs, horder⟩ := ordered_getElem? hij hi hj
  have hcomponents :=
    components_eq (hu.hasResults hresults).ne_function hinner.isNamedRecord_eq_false
  have hlt := hinner.before_lt (hu.keysApart hkeys) (hcomponents.trans horder) hinner'
  simp only [spanBetween, String.length_append]
  omega

theorem span_le_width (hspan : (path, span) ∈ (t.layout wrap).spans) :
    span.start ≤ span.stop ∧ span.stop ≤ (t.layout wrap).width := by
  obtain ⟨u, before, after, hshows, rfl⟩ := mem_spans_layout_iff.1 hspan
  have hlength := congrArg String.length hshows.format_eq
  rw [Layout.width, text_layout_eq]
  simp only [spanBetween, String.length_append] at hlength ⊢
  omega

/-- The layout of a type records the columns of what it displays, in parentheses or not,
if the records inside it tell their fields apart and the function types that it displays
have results. -/
theorem layout_records (hkeys : t.KeysApart) (hresults : t.HasResults) (wrap : Bool) :
    (t.layout wrap).Records t := by
  have hnodup : ((t.layout wrap).spans.map (·.1)).Nodup := by
    rw [paths_layout]
    exact hkeys.nodup_recordedPaths
  refine ⟨hnodup, fun path => exists_span_iff hresults, ?_,
    fun path key outer inner => span_nested hkeys,
    fun path u i j key key' c c' span span' => span_ordered hkeys hresults, fun path => ?_⟩
  · intro path span u hspan hu
    obtain ⟨before, after, hshows⟩ := (exists_shows_iff hresults).2 hu
    rw [eq_spanBetween_of_shows hkeys hspan hshows]
    exact within_of_shows hshows
  · obtain ⟨whole, hwhole⟩ : ∃ span, ([], span) ∈ (t.layout wrap).spans :=
      ⟨_, mem_spans_layout_iff.2 ⟨t, "", "", .whole t, rfl⟩⟩
    obtain ⟨shown, span, hprefix, hspan, hlongest, hlookup⟩ :=
      Layout.exists_longest hnodup hwhole path
    exact ⟨shown, span, hprefix, hspan, hlongest, hlookup, span_le_width hspan⟩

/-- A function from points, which show their name only, to functions that take nothing.
The slot in the parentheses has columns of its own, and what is looked for inside a
point has those of the name. -/
theorem layout_records_thunk :
    ∃ t : Ty, t.KeysApart ∧ t.HasResults ∧ (t.layout true).Records t ∧
      (t.layout true).text = "(Point -> (() -> a))" ∧
      (t.layout true).span? ["$2", "$1"] = some ⟨17, 18⟩ ∧
      (t.layout true).span? ["$1", "x", "$1"] = some ⟨1, 6⟩ := by
  let point : Ty := .record ⟨some "Point", ""⟩ [] [("x", .any)]
  let thunk : Ty := .function [.var "a" []]
  have hslots : ∀ {p : Ty → Prop}, p point → p thunk →
      ∀ key u, (key, u) ∈ (Ty.function [point, thunk]).children → p u := by
    intro p hpoint hthunk key u hu
    obtain ⟨i, hi, _⟩ := mem_keyed.1 hu
    rcases List.mem_pair.1 (List.mem_of_getElem? hi) with rfl | rfl
    · exact hpoint
    · exact hthunk
  have hkeys : (Ty.function [point, thunk]).KeysApart := by
    refine eachRecord_of_children nofun (hslots ?_ ?_)
    · refine eachRecord_of_children (fun r supers fields heq => ?_) fun key u hu => ?_
      · obtain ⟨-, -, rfl⟩ := Ty.record.inj heq
        exact List.nodup_singleton _
      · cases List.mem_singleton.1 hu
        exact eachRecord_of_children nofun nofun
    · refine eachRecord_of_children nofun fun key u hu => ?_
      cases List.mem_singleton.1 hu
      exact eachRecord_of_children nofun nofun
  have hresults : (Ty.function [point, thunk]).HasResults := by
    have hdeclared : ∀ (t : Ty) (ts : List Ty), Ty.function (t :: ts) ≠ .function [] :=
      fun t ts heq => List.cons_ne_nil _ _ (Ty.function.inj heq)
    refine hasResults_of_children (hdeclared _ _) (hslots ?_ ?_)
    · refine hasResults_of_children nofun fun key u hu => ?_
      cases List.mem_singleton.1 hu
      exact hasResults_of_children nofun nofun
    · refine hasResults_of_children (hdeclared _ _) fun key u hu => ?_
      cases List.mem_singleton.1 hu
      exact hasResults_of_children nofun nofun
  exact ⟨_, hkeys, hresults, layout_records hkeys hresults true, by decide +kernel,
    by decide +kernel, by decide +kernel⟩

end Ty

end DynamicTypes
