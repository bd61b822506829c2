import DynamicTypes.Proofs.Loci
import DynamicTypes.Proofs.TypeText

/-!
# Where the parts of a type stand in its text

The text of a type comes with columns, and both are put together in one pass over the
type, with a different rule for each kind of type. Taken one level at a time the rules
are all alike: a type is a row of pieces, some of them just characters and some of them
components, with or without parentheses. `pieces` gives the row, and `inner_eq_joined` says
that the layout is that of the row.

`Shows` then says what stands in the text without counting columns: a type shows another
one under a path if the text of the one is some text, the text of the other, and some
text. The columns that are recorded are those of the types shown, no more and no less.
A record with a name shows nothing but the name, so the way to a component may end
before it does; `displayed` is the part of a path that can be seen.
-/

namespace DynamicTypes

namespace Layout

variable {path : List String} {span : Span}

theorem spans_append (a b : Layout) :
    (a ++ b).spans = a.spans ++ b.spans.map fun p => (p.1, p.2.shift a.text.length) := rfl

theorem append_assoc (a b c : Layout) : a ++ b ++ c = a ++ (b ++ c) := by
  have htext : (a ++ b ++ c).text = (a ++ (b ++ c)).text := String.append_assoc
  have hspans : (a ++ b ++ c).spans = (a ++ (b ++ c)).spans := by
    simp only [spans_append, List.map_append, List.append_assoc, List.map_map]
    simp [Function.comp_def, Span.shift, String.length_append, Nat.add_comm, Nat.add_left_comm]
  exact congrArg₂ Layout.mk htext hspans

theorem empty_append (l : Layout) : plain "" ++ l = l := by
  have hspans : (plain "" ++ l).spans = l.spans := by
    rw [spans_append]
    exact List.map_id _
  exact congrArg₂ Layout.mk String.empty_append hspans

theorem append_empty (l : Layout) : l ++ plain "" = l :=
  congrArg₂ Layout.mk String.append_empty (List.append_nil _)

theorem mem_spans_append {a b : Layout} :
    (path, span) ∈ (a ++ b).spans ↔ (path, span) ∈ a.spans ∨
      ∃ inner, (path, inner) ∈ b.spans ∧ span = inner.shift a.text.length := by
  rw [spans_append, List.mem_append, List.mem_map]
  refine or_congr_right ⟨?_, ?_⟩
  · rintro ⟨p, hp, heq⟩
    cases heq
    exact ⟨p.2, hp, rfl⟩
  · rintro ⟨inner, hinner, rfl⟩
    exact ⟨_, hinner, rfl⟩

theorem mem_spans_under {key : String} {l : Layout} :
    (path, span) ∈ (l.under key).spans ↔ ∃ rest, path = key :: rest ∧ (rest, span) ∈ l.spans := by
  constructor
  · intro h
    obtain ⟨p, hp, heq⟩ := List.mem_map.1 h
    cases heq
    exact ⟨p.1, rfl, hp⟩
  · rintro ⟨rest, rfl, h⟩
    exact List.mem_map.2 ⟨_, h, rfl⟩

theorem mem_spans_marked {l : Layout} :
    (path, span) ∈ l.marked.spans ↔
      (path, span) ∈ l.spans ∨ path = [] ∧ span = ⟨0, l.text.length⟩ := by
  rw [marked, List.mem_append, List.mem_singleton, Prod.mk.injEq]
  rfl

/-- The columns recorded for exactly this path. -/
def recorded? (l : Layout) (path : List String) : Option Span :=
  (l.spans.find? fun entry => entry.1 == path).map (·.2)

theorem recorded?_eq_some {l : Layout} (hmem : (path, span) ∈ l.spans)
    (honly : ∀ other, (path, other) ∈ l.spans → other = span) :
    l.recorded? path = some span := by
  obtain ⟨entry, hentry⟩ : ∃ entry, l.spans.find? (fun entry => entry.1 == path) = some entry :=
    Option.isSome_iff_exists.1 (List.find?_isSome.2 ⟨_, hmem, by simp⟩)
  have hkey : entry.1 = path := by simpa using List.find?_some hentry
  rw [recorded?, hentry, Option.map_some, honly entry.2 (hkey ▸ List.mem_of_find?_eq_some hentry)]

theorem recorded?_eq_none {l : Layout} (hnone : ∀ other, (path, other) ∉ l.spans) :
    l.recorded? path = none := by
  rw [recorded?, Option.map_eq_none_iff, List.find?_eq_none]
  intro entry hentry heq
  have hkey : entry.1 = path := by simpa using heq
  exact hnone entry.2 (hkey ▸ hentry)

/-- The columns looked up for a path are those recorded for the longest part of it. -/
theorem span?_eq {l : Layout} {n : Nat} (hn : n ≤ path.length)
    (hmem : (path.take n, span) ∈ l.spans)
    (honly : ∀ other, (path.take n, other) ∈ l.spans → other = span)
    (hlongest : ∀ m, n < m → m ≤ path.length → ∀ other, (path.take m, other) ∉ l.spans) :
    l.span? path = some span := by
  have hsucc : ∀ m, ((List.range (m + 1)).reverse.findSome? fun m => l.recorded? (path.take m)) =
      (l.recorded? (path.take m)).or
        ((List.range m).reverse.findSome? fun m => l.recorded? (path.take m)) := by
    intro m
    rw [List.range_succ, List.reverse_append, List.reverse_singleton, List.singleton_append,
      List.findSome?_cons]
    cases l.recorded? (path.take m) <;> rfl
  -- from the whole path downwards nothing is recorded until the first `n` keys are left
  have hdown : ∀ k, n + k ≤ path.length →
      ((List.range (n + k + 1)).reverse.findSome? fun m => l.recorded? (path.take m)) =
        some span := by
    intro k
    induction k with
    | zero =>
        intro _
        rw [Nat.add_zero, hsucc, recorded?_eq_some hmem honly]
        rfl
    | succ k ih =>
        intro hk
        rw [hsucc, recorded?_eq_none (hlongest _ (by omega) hk)]
        exact ih (by omega)
  have hwhole := hdown (path.length - n) (by omega)
  rwa [Nat.add_sub_cancel' hn] at hwhole

end Layout

/-! ## Pieces -/

/-- A stretch of the text of a type: characters, or a component and whether it is in
parentheses. -/
inductive Piece where
  | text (characters : String)
  | part (key : String) (t : Ty) (wrap : Bool)

namespace Piece

def opening (wrap : Bool) : String := if wrap then "(" else ""

def closing (wrap : Bool) : String := if wrap then ")" else ""

def layout : Piece → Layout
  | text characters => .plain characters
  | part key t wrap => (t.layout wrap).under key

def format : Piece → String
  | text characters => characters
  | part _ t wrap => opening wrap ++ t.format ++ closing wrap

/-- The layout of a row of pieces. -/
def joined : List Piece → Layout
  | [] => .plain ""
  | p :: ps => p.layout ++ joined ps

/-- The text of a row of pieces. -/
def texts : List Piece → String
  | [] => ""
  | p :: ps => p.format ++ texts ps

/-- The components in a row of pieces. -/
def parts : List Piece → List (String × Ty)
  | [] => []
  | text _ :: ps => parts ps
  | part key t _ :: ps => (key, t) :: parts ps

variable {ps qs : List Piece}

theorem texts_append : texts (ps ++ qs) = texts ps ++ texts qs := by
  induction ps with
  | nil => exact String.empty_append.symm
  | cons p ps ih => rw [List.cons_append, texts, texts, ih, String.append_assoc]

theorem joined_append : joined (ps ++ qs) = joined ps ++ joined qs := by
  induction ps with
  | nil => exact (Layout.empty_append _).symm
  | cons p ps ih => rw [List.cons_append, joined, joined, ih, Layout.append_assoc]

theorem parts_append : parts (ps ++ qs) = parts ps ++ parts qs := by
  induction ps with
  | nil => rfl
  | cons p ps ih => cases p <;> simp [parts, ih]

theorem text_layout (p : Piece) : p.layout.text = p.format := by
  cases p with
  | text characters => rfl
  | part key t wrap =>
      cases wrap with
      | false => exact (String.append_empty.trans String.empty_append).symm
      | true => rfl

theorem text_joined (ps : List Piece) : (joined ps).text = texts ps := by
  induction ps with
  | nil => rfl
  | cons p ps ih => rw [joined, texts, Layout.text_append, text_layout, ih]

theorem mem_parts {key : String} {t : Ty} :
    (key, t) ∈ parts ps ↔ ∃ ps₁ wrap ps₂, ps = ps₁ ++ part key t wrap :: ps₂ := by
  constructor
  · intro h
    induction ps with
    | nil => cases h
    | cons p ps ih =>
        cases p with
        | text characters =>
            obtain ⟨ps₁, wrap, ps₂, rfl⟩ := ih h
            exact ⟨text characters :: ps₁, wrap, ps₂, rfl⟩
        | part key' u wrap =>
            rcases List.mem_cons.1 h with heq | h
            · cases heq
              exact ⟨[], wrap, ps, rfl⟩
            · obtain ⟨ps₁, wrap', ps₂, rfl⟩ := ih h
              exact ⟨part key' u wrap :: ps₁, wrap', ps₂, rfl⟩
  · rintro ⟨ps₁, wrap, ps₂, rfl⟩
    rw [parts_append]
    exact List.mem_append_right _ List.mem_cons_self

/-- Components with different keys are found in one place only. -/
theorem split_unique {key : String} {t u : Ty} {wrap wrap' : Bool}
    {ps₁ ps₂ qs₁ qs₂ : List Piece}
    (hnodup : ((parts (ps₁ ++ part key t wrap :: ps₂)).map (·.1)).Nodup)
    (heq : ps₁ ++ part key t wrap :: ps₂ = qs₁ ++ part key u wrap' :: qs₂) :
    ps₁ = qs₁ ∧ t = u ∧ wrap = wrap' ∧ ps₂ = qs₂ := by
  induction ps₁ generalizing qs₁ with
  | nil =>
      cases qs₁ with
      | nil =>
          cases heq
          exact ⟨rfl, rfl, rfl, rfl⟩
      | cons q qs₁ =>
          obtain ⟨rfl, rfl⟩ := List.cons.inj heq
          rw [List.nil_append, parts, List.map_cons, List.nodup_cons] at hnodup
          refine absurd (List.mem_map.2 ⟨(key, u), ?_, rfl⟩) hnodup.1
          exact mem_parts.2 ⟨_, _, _, rfl⟩
  | cons p ps₁ ih =>
      cases qs₁ with
      | nil =>
          obtain ⟨rfl, rfl⟩ := List.cons.inj heq
          rw [List.cons_append, parts, List.map_cons, List.nodup_cons] at hnodup
          refine absurd (List.mem_map.2 ⟨(key, t), ?_, rfl⟩) hnodup.1
          exact mem_parts.2 ⟨_, _, _, rfl⟩
      | cons q qs₁ =>
          obtain ⟨rfl, hrest⟩ := List.cons.inj heq
          have htail : ((parts (ps₁ ++ part key t wrap :: ps₂)).map (·.1)).Nodup := by
            cases p with
            | text characters => exact hnodup
            | part key' t' wrap' => exact (List.nodup_cons.1 hnodup).2
          obtain ⟨rfl, hsame⟩ := ih htail hrest
          exact ⟨rfl, hsame⟩

end Piece

namespace Ty

open Piece

def paramPieces (n : Nat) : List Ty → List Piece
  | [] => []
  | t :: ts => .text " " :: .part (paramKey n) t t.isCompound :: paramPieces (n + 1) ts

def fieldPieces : List (String × Ty) → List Piece
  | [] => []
  | f :: fields =>
    .text (f.1 ++ " :: ") :: .part f.1 f.2 false ::
      ((if fields.isEmpty then [] else [.text ", "]) ++ fieldPieces fields)

def typePieces (n : Nat) : List Ty → List Piece
  | [] => [.part (paramKey n) noArguments false]
  | t :: ts =>
    .part (paramKey n) t t.isFunction ::
      if ts.isEmpty then [] else .text " -> " :: typePieces (n + 1) ts

/-- A type as a row of pieces. -/
def pieces : Ty → List Piece
  | unknown => [.text "???"]
  | inconsistent => [.text "???"]
  | noArguments => [.text "()"]
  | any => [.text "Any"]
  | con c _ params => .text c.name :: paramPieces 1 params
  | enumeration e => [.text e.name]
  | record r _ fields =>
    match r.name with
    | some name => [.text name]
    | none =>
      if fields.isEmpty then [.text "\x7b\x7d"]
      else .text "\x7b " :: (fieldPieces fields ++ [.text " \x7d"])
  | function types =>
    if types.length ≤ 1 then .text "() -> " :: typePieces 1 types else typePieces 1 types
  | var name params => .text name :: paramPieces 1 params

theorem innerParams_eq_joined (n : Nat) (ts : List Ty) :
    innerParams n ts = joined (paramPieces n ts) := by
  induction ts generalizing n with
  | nil => rfl
  | cons t ts ih =>
      rw [innerParams, ih, Layout.append_assoc]
      rfl

theorem innerFields_eq_joined (fields : List (String × Ty)) :
    innerFields fields = joined (fieldPieces fields) := by
  induction fields with
  | nil => rfl
  | cons f fields ih =>
      rw [innerFields, ih, fieldPieces, joined, joined, joined_append]
      cases fields with
      | nil =>
          rw [Layout.append_assoc, Layout.append_assoc]
          rfl
      | cons g fields =>
          rw [Layout.append_assoc, Layout.append_assoc]
          exact congrArg _ (congrArg _ (by rw [← Layout.append_empty (Layout.plain ", ")]; rfl))

theorem innerTypes_eq_joined (n : Nat) (ts : List Ty) :
    innerTypes n ts = joined (typePieces n ts) := by
  induction ts generalizing n with
  | nil => exact (Layout.append_empty _).symm
  | cons t ts ih =>
      rw [innerTypes, ih, typePieces]
      cases ts with
      | nil => exact (Layout.append_empty _).symm
      | cons u ts => exact Layout.append_assoc _ _ _

/-- The layout of a type is that of its pieces. -/
theorem inner_eq_joined (t : Ty) : t.inner = joined t.pieces := by
  have hplain : ∀ text : String, Layout.plain text = joined [.text text] :=
    fun text => (Layout.append_empty _).symm
  cases t with
  | con c supers params =>
      rw [inner, innerParams_eq_joined]
      rfl
  | var name params =>
      rw [inner, innerParams_eq_joined]
      rfl
  | record r supers fields =>
      rw [inner, pieces]
      cases r.name with
      | some name => exact hplain name
      | none =>
          simp only
          split
          · exact hplain _
          · rw [innerFields_eq_joined, joined, joined_append, hplain " \x7d", Layout.append_assoc]
            rfl
  | function types =>
      rw [inner, pieces, innerTypes_eq_joined]
      split <;> rfl
  | enumeration e =>
      rw [inner]
      exact hplain _
  | unknown | inconsistent | noArguments | any =>
      rw [inner]
      exact hplain _

theorem format_eq_texts (t : Ty) : t.format = texts t.pieces := by
  rw [format, inner_eq_joined, text_joined]

/-! ## Components -/

def isNamedRecord : Ty → Bool
  | record r _ _ => r.name.isSome
  | _ => false

/-- The components in the text of a type: all of them, unless the type is a record with
a name. In place of a result that is not declared there is one that takes nothing. -/
def components : Ty → List (String × Ty)
  | record r _ fields => if r.name.isSome then [] else fields
  | function types => keyed 1 (if types.isEmpty then [noArguments] else types)
  | t => keyed 1 t.params

theorem mem_components {t u : Ty} {key : String} (hu : (key, u) ∈ t.components) :
    (key, u) ∈ t.children ∨ u = noArguments := by
  cases t with
  | record r supers fields =>
      rw [components] at hu
      split at hu
      · cases hu
      · exact .inl hu
  | function types =>
      cases types with
      | nil =>
          cases List.mem_singleton.1 hu
          exact .inr rfl
      | cons t types => exact .inl hu
  | con | var | enumeration | unknown | inconsistent | noArguments | any => exact .inl hu

theorem mem_components_of_children {t u : Ty} {key : String}
    (ht : t.isNamedRecord = false) (hu : (key, u) ∈ t.children) :
    (key, u) ∈ t.components := by
  cases t with
  | record r supers fields =>
      have hname : r.name.isSome = false := ht
      rw [components, hname]
      exact hu
  | function types =>
      cases types with
      | nil => cases hu
      | cons t types => exact hu
  | con | var | enumeration | unknown | inconsistent | noArguments | any => exact hu

theorem components_of_isNamedRecord {t : Ty} (ht : t.isNamedRecord = true) :
    t.components = [] := by
  cases t with
  | record r supers fields => exact if_pos ht
  | _ => cases ht

theorem parts_paramPieces (n : Nat) (ts : List Ty) :
    parts (paramPieces n ts) = keyed n ts := by
  induction ts generalizing n with
  | nil => rfl
  | cons t ts ih => exact congrArg _ (ih (n + 1))

theorem parts_fieldPieces (fields : List (String × Ty)) :
    parts (fieldPieces fields) = fields := by
  induction fields with
  | nil => rfl
  | cons f fields ih =>
      rw [fieldPieces, parts, parts, parts_append, ih]
      cases fields <;> rfl

theorem parts_typePieces (n : Nat) (t : Ty) (ts : List Ty) :
    parts (typePieces n (t :: ts)) = keyed n (t :: ts) := by
  induction ts generalizing n t with
  | nil => rfl
  | cons u ts ih => exact congrArg _ (ih (n + 1) u)

theorem parts_pieces (t : Ty) : parts t.pieces = t.components := by
  cases t with
  | con c supers params => exact parts_paramPieces 1 params
  | var name params => exact parts_paramPieces 1 params
  | record r supers fields =>
      rw [pieces, components]
      cases r.name with
      | some name => rfl
      | none =>
          cases fields with
          | nil => rfl
          | cons f fields =>
              change parts (fieldPieces (f :: fields) ++ [_]) = f :: fields
              rw [parts_append, parts_fieldPieces]
              exact List.append_nil _
  | function types =>
      rw [pieces]
      match types with
      | [] => rfl
      | [t] => rfl
      | t :: u :: types => exact parts_typePieces 1 t (u :: types)
  | enumeration | unknown | inconsistent | noArguments | any => rfl

/-- What a type has if its components have it, all types have. -/
theorem induct_components {motive : Ty → Prop}
    (step : ∀ t : Ty, (∀ key u, (key, u) ∈ t.components → motive u) → motive t)
    (t : Ty) :
    motive t := by
  have hnone : motive noArguments := step _ nofun
  -- a component is a child, or else the result that is not declared
  have hchild : ∀ t : Ty, (∀ key u, (key, u) ∈ t.children → motive u) → motive t := by
    intro t ht
    refine step t fun key u hu => ?_
    rcases mem_components hu with hu | rfl
    · exact ht key u hu
    · exact hnone
  have hkeyed : ∀ {ts : List Ty}, (∀ t ∈ ts, motive t) →
      ∀ key u, (key, u) ∈ keyed 1 ts → motive u := by
    intro ts hts key u hu
    obtain ⟨i, hi, _⟩ := mem_keyed.1 hu
    exact hts u (List.mem_of_getElem? hi)
  induction t with
  | con c supers params _ ih => exact hchild _ (hkeyed ih)
  | var name params ih => exact hchild _ (hkeyed ih)
  | function types ih => exact hchild _ (hkeyed ih)
  | record r supers fields _ ih => exact hchild _ fun key u hu => ih _ hu
  | enumeration | unknown | inconsistent | noArguments | any => exact hchild _ nofun

theorem KeysApart.nodup_components {t : Ty} (ht : t.KeysApart) :
    (t.components.map (·.1)).Nodup := by
  cases t with
  | record r supers fields =>
      rw [components]
      split
      · exact List.nodup_nil
      · exact ht.nodup_children
  | _ => exact nodup_keyed 1 _

theorem KeysApart.component {t u : Ty} {key : String} (ht : t.KeysApart)
    (hu : (key, u) ∈ t.components) : u.KeysApart := by
  rcases mem_components hu with hu | rfl
  · exact ht.child hu
  · exact eachRecord_of_children nofun nofun

/-! ## What a type shows -/

/-- Whether a type shows another under a path, and the texts before and after it. -/
inductive Shows : Ty → List String → Ty → String → String → Prop where
  | whole (t : Ty) : Shows t [] t "" ""
  | part {t c u : Ty} {key : String} {wrap : Bool} {path : List String} {before after : String}
      {ps qs : List Piece} (split : t.pieces = ps ++ .part key c wrap :: qs)
      (shown : Shows c path u before after) :
      Shows t (key :: path) u (texts ps ++ (opening wrap ++ before))
        (after ++ (closing wrap ++ texts qs))

/-- What is shown stands in the text. -/
theorem Shows.format_eq {t u : Ty} {path : List String} {before after : String}
    (hshows : Shows t path u before after) :
    t.format = before ++ (u.format ++ after) := by
  induction hshows with
  | whole t => exact (String.empty_append.trans String.append_empty).symm
  | part split _ ih =>
      rw [format_eq_texts, split, texts_append, texts, Piece.format, ih]
      simp only [String.append_assoc]

/-- The columns of a text between two others. -/
def spanBetween (before text : String) : Span :=
  ⟨before.length, before.length + text.length⟩

theorem shift_spanBetween (before text : String) (lead : String) :
    (spanBetween before text).shift lead.length = spanBetween (lead ++ before) text := by
  rw [spanBetween, spanBetween, Span.shift, String.length_append]
  simp only [Span.mk.injEq]
  omega

theorem mem_spans_layout {t : Ty} {wrap : Bool} {path : List String} {span : Span} :
    (path, span) ∈ (t.layout wrap).spans ↔
      ∃ inner, (path, inner) ∈ t.inner.marked.spans ∧ span = inner.shift (opening wrap).length := by
  cases wrap with
  | false => exact ⟨fun h => ⟨span, h, rfl⟩, fun ⟨inner, h, heq⟩ => heq ▸ h⟩
  | true =>
      rw [layout, Layout.wrapped, if_pos rfl, Layout.mem_spans_append, Layout.mem_spans_append]
      simp [Layout.plain, opening]

theorem mem_spans_joined {ps : List Piece} {path : List String} {span : Span} :
    (path, span) ∈ (joined ps).spans ↔ ∃ ps₁ key c wrap ps₂ rest inner,
      ps = ps₁ ++ .part key c wrap :: ps₂ ∧ path = key :: rest ∧
      (rest, inner) ∈ c.inner.marked.spans ∧
      span = inner.shift (texts ps₁ ++ opening wrap).length := by
  induction ps generalizing span with
  | nil => simp [joined, Layout.plain]
  | cons p ps ih =>
      rw [joined, Layout.mem_spans_append, text_layout]
      simp only [ih]
      constructor
      · rintro (h | ⟨outer, ⟨ps₁, key, c, wrap, ps₂, rest, inner, rfl, rfl, hinner, rfl⟩, rfl⟩)
        · cases p with
          | text characters => cases h
          | part key c wrap =>
              obtain ⟨rest, rfl, hrest⟩ := Layout.mem_spans_under.1 h
              obtain ⟨inner, hinner, rfl⟩ := mem_spans_layout.1 hrest
              refine ⟨[], key, c, wrap, ps, rest, inner, rfl, rfl, hinner, ?_⟩
              rw [texts, String.empty_append]
        · refine ⟨p :: ps₁, key, c, wrap, ps₂, rest, inner, rfl, rfl, hinner, ?_⟩
          simp only [Span.shift, texts, String.length_append, Span.mk.injEq]
          omega
      · rintro ⟨ps₁, key, c, wrap, ps₂, rest, inner, heq, rfl, hinner, rfl⟩
        cases ps₁ with
        | nil =>
            obtain ⟨rfl, rfl⟩ := List.cons.inj heq
            refine .inl
              (Layout.mem_spans_under.2 ⟨rest, rfl, mem_spans_layout.2 ⟨inner, hinner, ?_⟩⟩)
            rw [texts, String.empty_append]
        | cons q ps₁ =>
            obtain ⟨rfl, rfl⟩ := List.cons.inj heq
            refine .inr ⟨_, ⟨ps₁, key, c, wrap, ps₂, rest, inner, rfl, rfl, hinner, rfl⟩, ?_⟩
            simp only [Span.shift, texts, String.length_append, Span.mk.injEq]
            omega

/-- The columns recorded for a type are those of the types that it shows. -/
theorem mem_spans_inner {t : Ty} {path : List String} {span : Span} :
    (path, span) ∈ t.inner.marked.spans ↔
      ∃ u before after, Shows t path u before after ∧ span = spanBetween before u.format := by
  induction t using induct_components generalizing path span with
  | step t ih =>
      rw [Layout.mem_spans_marked, inner_eq_joined, mem_spans_joined, text_joined,
        ← format_eq_texts]
      have hih : ∀ {ps₁ ps₂ : List Piece} {key : String} {c : Ty} {wrap : Bool},
          t.pieces = ps₁ ++ .part key c wrap :: ps₂ → ∀ {path : List String} {span : Span},
          (path, span) ∈ c.inner.marked.spans ↔
            ∃ u before after, Shows c path u before after ∧ span = spanBetween before u.format := by
        intro ps₁ ps₂ key c wrap heq
        exact ih key c (parts_pieces t ▸ mem_parts.2 ⟨ps₁, wrap, ps₂, heq⟩)
      constructor
      · rintro (⟨ps₁, key, c, wrap, ps₂, rest, inner, heq, rfl, hinner, rfl⟩ | ⟨rfl, rfl⟩)
        · obtain ⟨u, before, after, hshows, rfl⟩ := (hih heq).1 hinner
          refine ⟨u, _, _, .part heq hshows, ?_⟩
          rw [shift_spanBetween, String.append_assoc]
        · refine ⟨t, "", "", .whole t, ?_⟩
          rw [spanBetween, String.length_empty, Nat.zero_add]
      · rintro ⟨u, before, after, hshows, rfl⟩
        cases hshows with
        | whole =>
            refine .inr ⟨rfl, ?_⟩
            rw [spanBetween, String.length_empty, Nat.zero_add]
        | @part _ c _ key wrap path before after ps qs split shown =>
            refine .inl ⟨ps, key, c, wrap, qs, path, _, split, rfl,
              (hih split).2 ⟨u, before, after, shown, rfl⟩, ?_⟩
            rw [shift_spanBetween, String.append_assoc]

/-- A type shows one type under a path, in one place. -/
theorem Shows.unique {t u u' : Ty} {path : List String}
    {before before' after after' : String} (ht : t.KeysApart)
    (hshows : Shows t path u before after) (hshows' : Shows t path u' before' after') :
    u = u' ∧ before = before' ∧ after = after' := by
  induction hshows generalizing u' before' after' with
  | whole t =>
      cases hshows'
      exact ⟨rfl, rfl, rfl⟩
  | @part t c u key wrap path before after ps qs split shown ih =>
      cases hshows' with
      | @part _ c' _ _ wrap' _ before' after' ps' qs' split' shown' =>
          have hnodup := ht.nodup_components
          rw [← parts_pieces, split] at hnodup
          obtain ⟨rfl, rfl, rfl, rfl⟩ := split_unique hnodup (split.symm.trans split')
          have hc : (key, c) ∈ t.components := parts_pieces t ▸ mem_parts.2 ⟨ps, wrap, qs, split⟩
          obtain ⟨rfl, rfl, rfl⟩ := ih (ht.component hc) shown'
          exact ⟨rfl, rfl, rfl⟩

/-! ## The part of a path that is displayed -/

/-- The type at a path. -/
def at? : Ty → List String → Option Ty
  | t, [] => some t
  | t, key :: path => (t.children.find? (·.1 == key)).bind fun c => at? c.2 path

/-- The keys of a path that lead to types which are shown: those up to the first record
with a name. -/
def displayed : Ty → List String → List String
  | _, [] => []
  | t, key :: path =>
    if t.isNamedRecord then []
    else key :: ((t.children.find? (·.1 == key)).map fun c => displayed c.2 path).getD []

theorem displayed_cons {t c : Ty} {key key' : String} (hnamed : t.isNamedRecord = false)
    (hc : t.children.find? (·.1 == key) = some (key', c)) (path : List String) :
    t.displayed (key :: path) = key :: c.displayed path := by
  rw [displayed, hnamed, hc]
  rfl

/-- At the end of what is displayed of a path stands the type there. -/
theorem exists_shows {t v : Ty} {path : List String} (hpath : t.at? path = some v) :
    ∃ u before after, t.at? (t.displayed path) = some u ∧
      Shows t (t.displayed path) u before after := by
  induction path generalizing t with
  | nil => exact ⟨t, "", "", rfl, .whole t⟩
  | cons key path ih =>
      obtain ⟨⟨key', c⟩, hc, hrest⟩ := Option.bind_eq_some_iff.1 hpath
      obtain rfl : key' = key := by simpa using List.find?_some hc
      cases hnamed : t.isNamedRecord with
      | true =>
          refine ⟨t, "", "", ?_, ?_⟩
          · rw [displayed, hnamed]
            rfl
          · rw [displayed, hnamed]
            exact .whole t
      | false =>
          obtain ⟨u, before, after, hu, hshows⟩ := ih hrest
          have hmem := mem_components_of_children hnamed (List.mem_of_find?_eq_some hc)
          rw [← parts_pieces] at hmem
          obtain ⟨ps, wrap, qs, split⟩ := mem_parts.1 hmem
          rw [displayed_cons hnamed hc]
          refine ⟨u, _, _, ?_, .part split hshows⟩
          rw [at?, hc]
          exact hu

/-- A path is displayed to its end, or else as far as to a record with a name. -/
theorem displayed_eq_or {t u v : Ty} {path : List String} (hpath : t.at? path = some v)
    (hu : t.at? (t.displayed path) = some u) :
    t.displayed path = path ∨ u.isNamedRecord = true := by
  induction path generalizing t with
  | nil => exact .inl rfl
  | cons key path ih =>
      obtain ⟨c, hc, hrest⟩ := Option.bind_eq_some_iff.1 hpath
      cases hnamed : t.isNamedRecord with
      | true =>
          rw [displayed, hnamed] at hu
          cases hu
          exact .inr hnamed
      | false =>
          rw [displayed_cons hnamed hc] at hu ⊢
          rw [at?, hc] at hu
          rcases ih hrest hu with heq | hrecord
          · exact .inl (congrArg _ heq)
          · exact .inr hrecord

theorem displayed_isPrefix (t : Ty) (path : List String) :
    t.displayed path <+: path := by
  induction path generalizing t with
  | nil => exact List.prefix_rfl
  | cons key path ih =>
      rw [displayed]
      split
      · exact ⟨_, rfl⟩
      · refine (List.prefix_cons_inj key).2 ?_
        cases t.children.find? (·.1 == key) with
        | none => exact ⟨_, rfl⟩
        | some c => exact ih c.2

/-- Nothing is shown further down a path than it is displayed. -/
theorem Shows.length_le {t u v : Ty} (ht : t.KeysApart) {path shown : List String}
    {before after : String} (hshows : Shows t shown u before after)
    (hshown : shown <+: path) (hpath : t.at? path = some v) :
    shown.length ≤ (t.displayed path).length := by
  induction hshows generalizing path with
  | whole t => exact Nat.zero_le _
  | @part t c u key wrap rest before after ps qs split shown ih =>
      obtain ⟨more, rfl⟩ := hshown
      obtain ⟨⟨key', c'⟩, hc', hrest⟩ := Option.bind_eq_some_iff.1 hpath
      obtain rfl : key' = key := by simpa using List.find?_some hc'
      have hc : (key', c) ∈ t.components := parts_pieces t ▸ mem_parts.2 ⟨ps, wrap, qs, split⟩
      cases hnamed : t.isNamedRecord with
      | true =>
          rw [components_of_isNamedRecord hnamed] at hc
          cases hc
      | false =>
          have hmem := mem_components_of_children hnamed (List.mem_of_find?_eq_some hc')
          have hsame := find?_of_nodup ht.nodup_components hc
          rw [find?_of_nodup ht.nodup_components hmem] at hsame
          cases hsame
          have hlength := ih (ht.component hc) (List.prefix_append rest more) hrest
          rw [List.cons_append, displayed_cons hnamed hc']
          exact Nat.succ_le_succ hlength

/-- The columns looked up for a path are those of the type where it is displayed. -/
theorem span?_layout {t v : Ty} (ht : t.KeysApart) {path : List String}
    (hpath : t.at? path = some v) (wrap : Bool) :
    ∃ u before after, t.at? (t.displayed path) = some u ∧
      Shows t (t.displayed path) u before after ∧
      (t.layout wrap).span? path = some (spanBetween (opening wrap ++ before) u.format) := by
  obtain ⟨u, before, after, hu, hshows⟩ := exists_shows hpath
  have hdisplayed := t.displayed_isPrefix path
  have htake : path.take (t.displayed path).length = t.displayed path :=
    (List.prefix_iff_eq_take.1 hdisplayed).symm
  refine ⟨u, before, after, hu, hshows, Layout.span?_eq hdisplayed.length_le ?_ ?_ ?_⟩
  · rw [htake]
    refine mem_spans_layout.2 ⟨_, mem_spans_inner.2 ⟨u, before, after, hshows, rfl⟩, ?_⟩
    rw [shift_spanBetween]
  · intro other hother
    rw [htake] at hother
    obtain ⟨inner, hinner, rfl⟩ := mem_spans_layout.1 hother
    obtain ⟨u', before', after', hshows', rfl⟩ := mem_spans_inner.1 hinner
    obtain ⟨rfl, rfl, -⟩ := hshows.unique ht hshows'
    rw [shift_spanBetween]
  · intro m hm hlength other hother
    obtain ⟨inner, hinner, -⟩ := mem_spans_layout.1 hother
    obtain ⟨u', before', after', hshows', -⟩ := mem_spans_inner.1 hinner
    have hle := hshows'.length_le ht ⟨_, List.take_append_drop m path⟩ hpath
    rw [List.length_take] at hle
    omega

end Ty

end DynamicTypes
