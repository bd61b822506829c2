import Mathlib.Data.List.Basic

/-!
# The notation of types can be read in one way

An `Outline` is what is left of a type in its text. It has three forms, words with
parameters, fields, and arrows, and each of them can stand in three places: as a parameter,
between arrows, or by itself. The place says which outlines need parentheses, and also what
may come next, which is how a reader knows where an outline ends.

`Told` says that in every place two outlines are told apart by what is written there, and by
nothing further on. That is the statement an induction needs, since the text of a part is
followed by the rest of the whole. What makes it true differs from form to form: a name ends
at a delimiter, parameters end where no outline begins, types between arrows where no arrow
comes next, fields where no comma does, and `()` in front of an arrow is no type.
-/

namespace DynamicTypes

/-- What the text of a type is written from. -/
inductive Outline where
  | word (name : String) (params : List Outline)
  | fields (entries : List (String × Outline))
  | arrows (types : List Outline)

/-- Where an outline stands: behind a word, between arrows, or by itself. -/
inductive Place where
  | param
  | slot
  | whole

namespace Place

/-- Whether an outline needs no parentheses in the place. -/
def admits : Place → Outline → Bool
  | param, .word _ params => params.isEmpty
  | param, .fields _ => true
  | param, .arrows _ => false
  | slot, .arrows _ => false
  | slot, _ => true
  | whole, _ => true

/-- Whether a text can come next to an outline in the place. -/
def endsAt : Place → List Char → Bool
  | _, [] => true
  | _, ')' :: _ => true
  | _, ',' :: _ => true
  | param, ' ' :: _ => true
  | slot, ' ' :: '-' :: _ => true
  | _, ' ' :: '\x7d' :: _ => true
  | _, _ => false

end Place

namespace Outline

mutual

/-- The text of an outline by itself. -/
def text : Outline → List Char
  | word name params => name.toList ++ paramsText params
  | fields entries =>
    if entries.isEmpty then ['\x7b', '\x7d']
    else '\x7b' :: ' ' :: (fieldsText entries ++ [' ', '\x7d'])
  | arrows types => (if types.length ≤ 1 then "() -> ".toList else []) ++ typesText types

def paramsText : List Outline → List Char
  | [] => []
  | o :: os =>
    ' ' :: ((if Place.param.admits o then text o else '(' :: (text o ++ [')'])) ++ paramsText os)

def fieldsText : List (String × Outline) → List Char
  | [] => []
  | e :: entries =>
    e.1.toList ++ (" :: ".toList ++ (text e.2 ++
      ((if entries.isEmpty then [] else ", ".toList) ++ fieldsText entries)))

def typesText : List Outline → List Char
  | [] => "()".toList
  | o :: os =>
    (if Place.slot.admits o then text o else '(' :: (text o ++ [')'])) ++
      if os.isEmpty then [] else " -> ".toList ++ typesText os

end

/-- The text of an outline in a place. -/
def textAt (place : Place) (o : Outline) : List Char :=
  if place.admits o then o.text else '(' :: (o.text ++ [')'])

/-- The characters that words are separated by. -/
def isDelimiter (c : Char) : Bool :=
  [' ', '(', ')', '\x7b', '\x7d', ',', '-'].contains c

/-- Whether a name is not empty and has no delimiters. -/
def isName (name : String) : Bool :=
  !name.toList.isEmpty && name.toList.all (!isDelimiter ·)

/-- Whether all words are names, and arrows have something to point to. -/
inductive Legible : Outline → Prop where
  | word {name : String} {params : List Outline} (isName : isName name = true)
      (each : ∀ p ∈ params, Legible p) : Legible (.word name params)
  | fields {entries : List (String × Outline)} (names : ∀ e ∈ entries, isName e.1 = true)
      (each : ∀ e ∈ entries, Legible e.2) : Legible (.fields entries)
  | arrows {types : List Outline} (hasResult : types ≠ []) (each : ∀ t ∈ types, Legible t) :
      Legible (.arrows types)

variable {o o' : Outline} {place : Place} {rest rest' : List Char}

/-! ## How texts begin and end -/

theorem exists_head_name {name : String} (hname : isName name = true) :
    ∃ c cs, name.toList = c :: cs ∧ isDelimiter c = false := by
  simp only [isName, Bool.and_eq_true, List.all_eq_true, Bool.not_eq_true',
    List.isEmpty_eq_false_iff] at hname
  obtain ⟨c, cs, heq⟩ := List.exists_cons_of_ne_nil hname.1
  exact ⟨c, cs, heq, hname.2 c (heq ▸ List.mem_cons_self)⟩

/-- Whether a character can begin an outline: it is that of a name, or it opens fields
or parentheses, where these are allowed. -/
def Begins (parentheses : Bool) (c : Char) : Prop :=
  isDelimiter c = false ∨ c = '\x7b' ∨ parentheses = true ∧ c = '('

theorem Begins.ne {parentheses : Bool} {c : Char} (hc : Begins parentheses c) (d : Char)
    (hd : d ∈ [' ', ')', '\x7d', ',', '-']) : c ≠ d := by
  rintro rfl
  rcases hc with hc | rfl | ⟨_, rfl⟩
  · simp only [List.mem_cons, List.not_mem_nil, or_false] at hd
    rcases hd with rfl | rfl | rfl | rfl | rfl <;> cases hc
  · exact absurd hd (by decide)
  · exact absurd hd (by decide)

theorem exists_head_textAt (place : Place) {parentheses : Bool}
    (hhead : ∃ c cs, o.text = c :: cs ∧ Begins parentheses c) :
    ∃ c cs, textAt place o = c :: cs ∧ Begins true c := by
  rw [textAt]
  split
  · obtain ⟨c, cs, heq, hc⟩ := hhead
    exact ⟨c, cs, heq, hc.imp_right (Or.imp_right fun h => ⟨rfl, h.2⟩)⟩
  · exact ⟨'(', _, rfl, .inr (.inr ⟨rfl, rfl⟩)⟩

theorem exists_head_text (ho : o.Legible) :
    ∃ c cs, o.text = c :: cs ∧ Begins (!Place.slot.admits o) c := by
  induction ho with
  | @word name params hname =>
      obtain ⟨c, cs, heq, hc⟩ := exists_head_name hname
      refine ⟨c, cs ++ paramsText params, ?_, .inl hc⟩
      rw [text, heq]
      rfl
  | @fields entries =>
      rw [text]
      split
      · exact ⟨'\x7b', _, rfl, .inr (.inl rfl)⟩
      · exact ⟨'\x7b', _, rfl, .inr (.inl rfl)⟩
  | @arrows types hne _ ih =>
      rw [text]
      split
      · exact ⟨'(', _, rfl, .inr (.inr ⟨rfl, rfl⟩)⟩
      · cases types with
        | nil => exact absurd rfl hne
        | cons t ts =>
            obtain ⟨c, cs, heq, hc⟩ := exists_head_textAt .slot (ih t List.mem_cons_self)
            rw [List.nil_append, typesText, ← textAt, heq]
            exact ⟨c, _, List.cons_append, hc⟩

theorem endsAt_whole_slot (hrest : Place.whole.endsAt rest = true) :
    Place.slot.endsAt rest = true := by
  unfold Place.endsAt at hrest
  split at hrest <;> first | rfl | contradiction

/-- Where an outline ends, no name goes on. -/
theorem head_of_endsAt (hrest : place.endsAt rest = true) {c : Char}
    (hc : c ∈ rest.head?) :
    isDelimiter c = true := by
  unfold Place.endsAt at hrest
  split at hrest <;> first | contradiction | (cases hc; rfl)

theorem endsAt_param (hrest : place.endsAt rest = true) :
    Place.param.endsAt rest = true := by
  unfold Place.endsAt at hrest
  split at hrest <;> first | rfl | contradiction

theorem endsAt_paramsText (hrest : place.endsAt rest = true) (params : List Outline) :
    Place.param.endsAt (paramsText params ++ rest) = true := by
  cases params with
  | nil => exact endsAt_param hrest
  | cons p params => rfl

theorem takeWhile_name {name : String} (hname : isName name = true)
    (hrest : ∀ c ∈ rest.head?, isDelimiter c = true) :
    (name.toList ++ rest).takeWhile (!isDelimiter ·) = name.toList := by
  simp only [isName, Bool.and_eq_true, List.all_eq_true] at hname
  rw [List.takeWhile_append_of_pos hname.2]
  cases rest with
  | nil => rw [List.takeWhile_nil, List.append_nil]
  | cons c rest =>
      rw [List.takeWhile_cons_of_neg, List.append_nil]
      simp [hrest c rfl]

theorem name_inj {name name' : String} (hname : isName name = true)
    (hname' : isName name' = true) (hrest : ∀ c ∈ rest.head?, isDelimiter c = true)
    (hrest' : ∀ c ∈ rest'.head?, isDelimiter c = true)
    (heq : name.toList ++ rest = name'.toList ++ rest') :
    name = name' ∧ rest = rest' := by
  have hread := congrArg (List.takeWhile (!isDelimiter ·)) heq
  rw [takeWhile_name hname hrest, takeWhile_name hname' hrest'] at hread
  rw [hread] at heq
  exact ⟨String.toList_inj.1 hread, List.append_cancel_left heq⟩

/-! ## Telling outlines apart -/

/-- Whether two outlines are told apart wherever they need no parentheses, and it shows
where they end. -/
def Told (o o' : Outline) : Prop :=
  ∀ (place : Place) {rest rest' : List Char}, place.admits o = true → place.admits o' = true →
    place.endsAt rest = true → place.endsAt rest' = true → o.text ++ rest = o'.text ++ rest' →
    o = o' ∧ rest = rest'

theorem Told.symm (h : Told o o') : Told o' o := by
  intro place rest rest' ho' ho hrest' hrest heq
  obtain ⟨rfl, rfl⟩ := h place ho ho' hrest hrest' heq.symm
  exact ⟨rfl, rfl⟩

theorem admits_slot (hadmits : place.admits o = true)
    (hother : place.admits o' = false) :
    Place.slot.admits o = true := by
  cases place with
  | param =>
      cases o with
      | word | fields => rfl
      | arrows => cases hadmits
  | slot => exact hadmits
  | whole => cases hother

theorem text_ne_parenthesis (ho : o.Legible) (hsimple : Place.slot.admits o = true) :
    o.text ++ rest ≠ '(' :: rest' := by
  intro heq
  obtain ⟨c, cs, hhead, hc⟩ := exists_head_text ho
  rw [hhead] at heq
  obtain rfl : c = '(' := (List.cons.inj heq).1
  rw [hsimple] at hc
  rcases hc with hc | hc | ⟨hc, _⟩ <;> cases hc

/-- Parentheses keep outlines apart: what needs none does not begin with one. -/
theorem textAt_inj (ho : o.Legible) (ho' : o'.Legible) (htold : Told o o')
    (hrest : place.endsAt rest = true) (hrest' : place.endsAt rest' = true)
    (heq : textAt place o ++ rest = textAt place o' ++ rest') :
    o = o' ∧ rest = rest' := by
  rw [textAt, textAt] at heq
  cases hadmits : place.admits o with
  | true =>
      cases hadmits' : place.admits o' with
      | true =>
          rw [hadmits, hadmits'] at heq
          exact htold place hadmits hadmits' hrest hrest' heq
      | false =>
          rw [hadmits, hadmits'] at heq
          exact absurd heq (text_ne_parenthesis ho (admits_slot hadmits hadmits'))
  | false =>
      cases hadmits' : place.admits o' with
      | true =>
          rw [hadmits, hadmits'] at heq
          exact absurd heq.symm (text_ne_parenthesis ho' (admits_slot hadmits' hadmits))
      | false =>
          rw [hadmits, hadmits'] at heq
          have hinner : o.text ++ ')' :: rest = o'.text ++ ')' :: rest' := by simpa using heq
          obtain ⟨rfl, hclosed⟩ := htold .whole rfl rfl rfl rfl hinner
          exact ⟨rfl, (List.cons.inj hclosed).2⟩

section Rows

variable {os os' : List Outline}

theorem ne_paramsText (ho : o.Legible) (hrest : Place.slot.endsAt rest = true) :
    rest ≠ paramsText (o :: os) ++ rest' := by
  obtain ⟨c, cs, hhead, hc⟩ := exists_head_textAt .param (exists_head_text ho)
  rw [paramsText, ← textAt, hhead]
  rintro rfl
  have hbrace := hc.ne '\x7d' (by decide)
  have hdash := hc.ne '-' (by decide)
  simp [Place.endsAt, hbrace, hdash] at hrest

variable (hlegible : ∀ o ∈ os, Legible o) (hlegible' : ∀ o ∈ os', Legible o)
  (htold : ∀ o ∈ os, ∀ o', Legible o' → Told o o')

include hlegible hlegible' htold

/-- Parameters end where what follows does not begin like one. -/
theorem paramsText_inj (hrest : Place.slot.endsAt rest = true)
    (hrest' : Place.slot.endsAt rest' = true)
    (heq : paramsText os ++ rest = paramsText os' ++ rest') :
    os = os' ∧ rest = rest' := by
  induction os generalizing os' with
  | nil =>
      cases os' with
      | nil => exact ⟨rfl, heq⟩
      | cons o' os' => exact absurd heq (ne_paramsText (hlegible' o' List.mem_cons_self) hrest)
  | cons o os ih =>
      rw [List.forall_mem_cons] at hlegible htold
      cases os' with
      | nil => exact absurd heq.symm (ne_paramsText hlegible.1 hrest')
      | cons o' os' =>
          rw [List.forall_mem_cons] at hlegible'
          rw [paramsText, paramsText, ← textAt, ← textAt, List.cons_append, List.cons_append,
            List.append_assoc, List.append_assoc] at heq
          obtain ⟨rfl, htail⟩ := textAt_inj hlegible.1 hlegible'.1 (htold.1 o' hlegible'.1)
            (endsAt_paramsText hrest os) (endsAt_paramsText hrest' os') (List.cons.inj heq).2
          obtain ⟨rfl, rfl⟩ := ih hlegible.2 hlegible'.2 htold.2 htail
          exact ⟨rfl, rfl⟩

/-- Types between arrows end where no arrow comes next. -/
theorem typesText_inj (hne : os ≠ []) (hne' : os' ≠ [])
    (hrest : Place.whole.endsAt rest = true) (hrest' : Place.whole.endsAt rest' = true)
    (heq : typesText os ++ rest = typesText os' ++ rest') :
    os = os' ∧ rest = rest' := by
  have hends : ∀ {os : List Outline} {rest : List Char}, Place.whole.endsAt rest = true →
      Place.slot.endsAt ((if os.isEmpty then [] else " -> ".toList ++ typesText os) ++ rest) =
        true := by
    intro os rest hrest
    cases os with
    | nil => exact endsAt_whole_slot hrest
    | cons o os => rfl
  induction os generalizing os' with
  | nil => exact absurd rfl hne
  | cons o os ih =>
      rw [List.forall_mem_cons] at hlegible htold
      cases os' with
      | nil => exact absurd rfl hne'
      | cons o' os' =>
          rw [List.forall_mem_cons] at hlegible'
          rw [typesText, typesText, ← textAt, ← textAt, List.append_assoc, List.append_assoc] at heq
          obtain ⟨rfl, htail⟩ := textAt_inj hlegible.1 hlegible'.1 (htold.1 o' hlegible'.1)
            (hends hrest) (hends hrest') heq
          cases os with
          | nil =>
              cases os' with
              | nil => exact ⟨rfl, htail⟩
              | cons p' os' =>
                  obtain rfl : rest = _ := htail
                  cases hrest
          | cons p os =>
              cases os' with
              | nil =>
                  obtain rfl : _ = rest' := htail
                  cases hrest'
              | cons p' os' =>
                  have hnext : typesText (p :: os) ++ rest = typesText (p' :: os') ++ rest' := by
                    simpa using htail
                  obtain ⟨hsame, rfl⟩ := ih hlegible.2 hlegible'.2 htold.2 (List.cons_ne_nil _ _)
                    (List.cons_ne_nil _ _) hnext
                  exact ⟨congrArg _ hsame, rfl⟩

end Rows

/-- Fields end where no comma comes next. -/
theorem fieldsText_inj {es es' : List (String × Outline)} (hnames : ∀ e ∈ es, isName e.1 = true)
    (hnames' : ∀ e ∈ es', isName e.1 = true) (hlegible' : ∀ e ∈ es', e.2.Legible)
    (htold : ∀ e ∈ es, ∀ o', Legible o' → Told e.2 o') (hne : es ≠ []) (hne' : es' ≠ [])
    (heq : fieldsText es ++ (' ' :: '\x7d' :: rest) = fieldsText es' ++ (' ' :: '\x7d' :: rest')) :
    es = es' ∧ rest = rest' := by
  have hends : ∀ {es : List (String × Outline)} {rest : List Char}, Place.whole.endsAt
      ((if es.isEmpty then [] else ", ".toList) ++ (fieldsText es ++ (' ' :: '\x7d' :: rest))) =
      true := by
    intro es rest
    cases es with
    | nil => rfl
    | cons e es => rfl
  induction es generalizing es' with
  | nil => exact absurd rfl hne
  | cons e es ih =>
      obtain ⟨name, o⟩ := e
      rw [List.forall_mem_cons] at hnames htold
      cases es' with
      | nil => exact absurd rfl hne'
      | cons e' es' =>
          obtain ⟨name', o'⟩ := e'
          rw [List.forall_mem_cons] at hnames' hlegible'
          simp only [fieldsText, List.append_assoc] at heq
          obtain ⟨rfl, hafter⟩ := name_inj hnames.1 hnames'.1 (by simp [isDelimiter])
            (by simp [isDelimiter]) heq
          obtain ⟨rfl, htail⟩ := htold.1 o' hlegible'.1 .whole rfl rfl hends hends
            (List.append_cancel_left hafter)
          cases es with
          | nil =>
              cases es' with
              | nil => exact ⟨rfl, by simpa [fieldsText] using htail⟩
              | cons f' es' => cases htail
          | cons f es =>
              cases es' with
              | nil => cases htail
              | cons f' es' =>
                  obtain ⟨hsame, rfl⟩ := ih hnames.2 hnames'.2 hlegible'.2 htold.2
                    (List.cons_ne_nil _ _) (List.cons_ne_nil _ _) (List.append_cancel_left htail)
                  exact ⟨congrArg _ hsame, rfl⟩

/-! ### Form against form -/

theorem told_word_word {name name' : String} {ps ps' : List Outline}
    (hname : isName name = true) (hname' : isName name' = true)
    (hlegible : ∀ p ∈ ps, Legible p) (hlegible' : ∀ p ∈ ps', Legible p)
    (htold : ∀ p ∈ ps, ∀ o', Legible o' → Told p o') :
    Told (.word name ps) (.word name' ps') := by
  intro place rest rest' hadmits hadmits' hrest hrest' heq
  rw [text, text, List.append_assoc, List.append_assoc] at heq
  obtain ⟨rfl, hparams⟩ := name_inj hname hname'
    (fun _ => head_of_endsAt (endsAt_paramsText hrest ps))
    (fun _ => head_of_endsAt (endsAt_paramsText hrest' ps')) heq
  cases place with
  | param =>
      obtain rfl := List.isEmpty_iff.1 hadmits
      obtain rfl := List.isEmpty_iff.1 hadmits'
      exact ⟨rfl, hparams⟩
  | slot =>
      obtain ⟨rfl, rfl⟩ := paramsText_inj hlegible hlegible' htold hrest hrest' hparams
      exact ⟨rfl, rfl⟩
  | whole =>
      obtain ⟨rfl, rfl⟩ := paramsText_inj hlegible hlegible' htold (endsAt_whole_slot hrest)
        (endsAt_whole_slot hrest') hparams
      exact ⟨rfl, rfl⟩

theorem told_word_fields {name : String} {ps : List Outline}
    {es : List (String × Outline)} (hname : isName name = true) :
    Told (.word name ps) (.fields es) := by
  intro place rest rest' _ _ _ _ heq
  obtain ⟨c, cs, hc, hplain⟩ := exists_head_name hname
  rw [text, hc, text] at heq
  have hbrace : c = '\x7b' := by
    split at heq
    · exact (List.cons.inj heq).1
    · exact (List.cons.inj heq).1
  rw [hbrace] at hplain
  cases hplain

theorem told_fields_fields {es es' : List (String × Outline)}
    (hnames : ∀ e ∈ es, isName e.1 = true) (hnames' : ∀ e ∈ es', isName e.1 = true)
    (hlegible' : ∀ e ∈ es', e.2.Legible)
    (htold : ∀ e ∈ es, ∀ o', Legible o' → Told e.2 o') :
    Told (.fields es) (.fields es') := by
  intro place rest rest' _ _ _ _ heq
  cases es with
  | nil =>
      cases es' with
      | nil => exact ⟨rfl, (List.cons.inj (List.cons.inj heq).2).2⟩
      | cons e' es' => cases heq
  | cons e es =>
      cases es' with
      | nil => cases heq
      | cons e' es' =>
          have hentries : fieldsText (e :: es) ++ (' ' :: '\x7d' :: rest)
              = fieldsText (e' :: es') ++ (' ' :: '\x7d' :: rest') := by
            simpa [text] using heq
          obtain ⟨hsame, rfl⟩ := fieldsText_inj hnames hnames' hlegible' htold
            (List.cons_ne_nil _ _) (List.cons_ne_nil _ _) hentries
          exact ⟨congrArg _ hsame, rfl⟩

/-- What is not made of arrows is told from what is: the arrow behind the first type
cannot follow it. -/
theorem told_arrows {types : List Outline} (ho : o.Legible)
    (hsimple : Place.slot.admits o = true) (hlegible : ∀ t ∈ types, Legible t)
    (htold : ∀ t ∈ types, Told o t) (hne : types ≠ []) :
    Told o (.arrows types) := by
  intro place rest rest' _ hadmits hrest _ heq
  cases place with
  | param | slot => cases hadmits
  | whole =>
      cases types with
      | nil => exact absurd rfl hne
      | cons t types =>
          cases types with
          | nil => exact absurd heq (text_ne_parenthesis ho hsimple)
          | cons u types =>
              have hfirst : textAt .slot o ++ rest
                  = textAt .slot t ++ (" -> ".toList ++ typesText (u :: types) ++ rest') := by
                rw [textAt, hsimple, if_pos rfl, heq, text, typesText, ← textAt]
                simp
              obtain ⟨_, rfl⟩ := textAt_inj ho (hlegible t List.mem_cons_self)
                (htold t List.mem_cons_self) (endsAt_whole_slot hrest) rfl hfirst
              cases hrest

theorem textAt_slot_ne_unit (ho : o.Legible) :
    textAt .slot o ++ rest ≠ '(' :: ')' :: rest' := by
  rw [textAt]
  split
  · next hsimple => exact text_ne_parenthesis ho hsimple
  · intro heq
    obtain ⟨c, cs, hhead, hc⟩ := exists_head_text ho
    rw [hhead] at heq
    exact hc.ne ')' (by decide) (List.cons.inj (List.cons.inj heq).2).1

theorem told_arrows_arrows {types types' : List Outline} (hne : types ≠ [])
    (hne' : types' ≠ []) (hlegible : ∀ t ∈ types, Legible t)
    (hlegible' : ∀ t ∈ types', Legible t)
    (htold : ∀ t ∈ types, ∀ o', Legible o' → Told t o') :
    Told (.arrows types) (.arrows types') := by
  -- A function of no parameters begins with `()`, and no type does.
  have hunit : ∀ {t u : Outline} {types : List Outline} {tail rest : List Char}, t.Legible →
      typesText (t :: u :: types) ++ rest ≠ "() -> ".toList ++ tail := by
    intro t u types tail rest ht heq
    rw [typesText, ← textAt, List.append_assoc] at heq
    exact textAt_slot_ne_unit ht heq
  have hread : ∀ {rest rest' : List Char}, Place.whole.endsAt rest = true →
      Place.whole.endsAt rest' = true → typesText types ++ rest = typesText types' ++ rest' →
      Outline.arrows types = .arrows types' ∧ rest = rest' := by
    intro rest rest' hrest hrest' heq
    obtain ⟨rfl, rfl⟩ := typesText_inj hlegible hlegible' htold hne hne' hrest hrest' heq
    exact ⟨rfl, rfl⟩
  intro place rest rest' hadmits _ hrest hrest' heq
  cases place with
  | param | slot => cases hadmits
  | whole =>
      rw [text, text, List.append_assoc, List.append_assoc] at heq
      obtain ⟨t, types, rfl⟩ := List.exists_cons_of_ne_nil hne
      obtain ⟨t', types', rfl⟩ := List.exists_cons_of_ne_nil hne'
      cases types with
      | nil =>
          cases types' with
          | nil => exact hread hrest hrest' (List.append_cancel_left heq)
          | cons u' types' => exact absurd heq.symm (hunit (hlegible' t' List.mem_cons_self))
      | cons u types =>
          cases types' with
          | nil => exact absurd heq (hunit (hlegible t List.mem_cons_self))
          | cons u' types' => exact hread hrest hrest' heq

/-- Legible outlines are told apart by their texts. -/
theorem told (ho : o.Legible) (ho' : o'.Legible) : Told o o' := by
  -- Arrows call for their types to be told from the other outline, so that one is an induction too.
  induction ho generalizing o' with
  | word hname hps ih =>
      induction ho' with
      | word hname' hps' => exact told_word_word hname hname' hps hps' fun p hp _ => ih p hp
      | fields => exact told_word_fields hname
      | arrows hne hts ih' => exact told_arrows (.word hname hps) rfl hts ih' hne
  | fields hnames hes ih =>
      induction ho' with
      | word hname' => exact (told_word_fields hname').symm
      | fields hnames' hes' => exact told_fields_fields hnames hnames' hes' fun e he _ => ih e he
      | arrows hne hts ih' => exact told_arrows (.fields hnames hes) rfl hts ih' hne
  | arrows hne hts ih =>
      cases ho' with
      | word hname' hps' =>
          have ho' := Legible.word hname' hps'
          exact (told_arrows ho' rfl hts (fun t ht => (ih t ht ho').symm) hne).symm
      | fields hnames' hes' =>
          have ho' := Legible.fields hnames' hes'
          exact (told_arrows ho' rfl hts (fun t ht => (ih t ht ho').symm) hne).symm
      | arrows hne' hts' => exact told_arrows_arrows hne hne' hts hts' fun t ht _ => ih t ht

theorem text_inj (ho : o.Legible) (ho' : o'.Legible) (heq : o.text = o'.text) :
    o = o' :=
  (told ho ho' .whole rfl rfl rfl rfl (congrArg (· ++ []) heq)).1

end Outline

end DynamicTypes
