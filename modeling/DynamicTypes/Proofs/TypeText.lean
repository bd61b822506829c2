import DynamicTypes.Proofs.TypeOrder
import DynamicTypes.Ty.Layout

/-!
# What the text of a type tells

Equal types have equal texts. The converse fails, since the unknown and the
inconsistent type print alike and names are arbitrary. But a text that starts with a
name which is free of blanks and parentheses shows where the name ends, whatever
follows the type in a larger text: after it comes a blank, a closing parenthesis, or
nothing.
-/

namespace DynamicTypes

namespace Layout

@[simp] theorem text_append (a b : Layout) : (a ++ b).text = a.text ++ b.text := rfl

@[simp] theorem text_plain (text : String) : (plain text).text = text := rfl

@[simp] theorem text_under (key : String) (l : Layout) :
    (l.under key).text = l.text :=
  rfl

@[simp] theorem text_marked (l : Layout) : l.marked.text = l.text := rfl

@[simp] theorem text_wrapped (wrap : Bool) (l : Layout) :
    (l.wrapped wrap).text = if wrap then "(" ++ l.text ++ ")" else l.text := by
  cases wrap <;> rfl

end Layout

namespace Ty

/-- The text of a type as a parameter. -/
def paramText (t : Ty) : String :=
  if t.isCompound then "(" ++ t.format ++ ")" else t.format

/-- The text of parameters, each behind a blank. -/
def paramsText : List Ty → String
  | [] => ""
  | t :: ts => " " ++ t.paramText ++ paramsText ts

theorem toList_paramText (t : Ty) :
    t.paramText.toList =
      if t.isCompound then '(' :: (t.format.toList ++ [')']) else t.format.toList := by
  rw [paramText]
  split
  · simp
  · rfl

theorem paramText_of_beq {t u : Ty} (h : t.isCompound = u.isCompound)
    (hf : t.format = u.format) :
    t.paramText = u.paramText := by
  rw [paramText, paramText, h, hf]

theorem text_innerParams {n : Nat} {ts : List Ty} :
    (innerParams n ts).text = paramsText ts := by
  induction ts generalizing n with
  | nil => rfl
  | cons t ts ih =>
      rw [innerParams, paramsText, Layout.text_append, ih]
      simp [paramText, format]

theorem format_con {c : Constructor} {supers params : List Ty} :
    (con c supers params).format = c.name ++ paramsText params := by
  rw [format, inner, Layout.text_append, text_innerParams, Layout.text_plain]

theorem format_var {name : String} {params : List Ty} :
    (var name params).format = name ++ paramsText params := by
  rw [format, inner, Layout.text_append, text_innerParams, Layout.text_plain]

/-! ## Equal types have equal texts -/

theorem isCompound_of_beq {t u : Ty} (h : (t == u) = true) :
    t.isCompound = u.isCompound := by
  cases t with
  | con c ss ps =>
      cases u <;> try cases h
      rw [isCompound, isCompound, isEmpty_of_forall₂ (beq_con.1 h).2]
  | var a ps =>
      cases u <;> try cases h
      rw [isCompound, isCompound, isEmpty_of_forall₂ (beq_var.1 h).2]
  | unknown | inconsistent | noArguments | any | enumeration | record | function =>
      cases u <;> try cases h
      rfl

theorem isFunction_of_beq {t u : Ty} (h : (t == u) = true) :
    t.isFunction = u.isFunction := by
  cases t <;> cases u <;> first | rfl | cases h

theorem paramsText_of_beq {ts us : List Ty}
    (h : List.Forall₂ (fun t u => (t == u) = true ∧ t.format = u.format) ts us) :
    paramsText ts = paramsText us := by
  induction h with
  | nil => rfl
  | cons htu _ ih =>
      rw [paramsText, paramsText, paramText_of_beq (isCompound_of_beq htu.1) htu.2, ih]

theorem innerFields_of_beq {fs gs : List (String × Ty)}
    (h : List.Forall₂ (fun f g => f.1 = g.1 ∧ f.2.format = g.2.format) fs gs) :
    (innerFields fs).text = (innerFields gs).text := by
  induction h with
  | nil => rfl
  | @cons f g fs gs hfg htail ih =>
      obtain ⟨key, t⟩ := f
      obtain ⟨key', u⟩ := g
      obtain ⟨rfl, htext⟩ := hfg
      rw [innerFields, innerFields, isEmpty_of_forall₂ htail]
      simp only [Layout.text_append, Layout.text_under, Layout.text_marked, ih]
      rw [← format, ← format, htext]

theorem innerTypes_of_beq {n : Nat} {ts us : List Ty}
    (h : List.Forall₂ (fun t u => (t == u) = true ∧ t.format = u.format) ts us) :
    (innerTypes n ts).text = (innerTypes n us).text := by
  induction h generalizing n with
  | nil => rfl
  | @cons t u ts us htu htail ih =>
      have htext : t.inner.text = u.inner.text := htu.2
      rw [innerTypes, innerTypes, isEmpty_of_forall₂ htail]
      simp only [isFunction_of_beq htu.1]
      split
      · simp [htext]
      · simp [htext, ih]

/-- Equal types have the same text. -/
theorem format_of_beq {t u : Ty} (h : (t == u) = true) : t.format = u.format := by
  induction t generalizing u with
  | con c ss ps _ ih =>
      cases u <;> try cases h
      obtain ⟨hname, hps⟩ := beq_con.1 h
      rw [format_con, format_con, hname,
        paramsText_of_beq (forall₂_imp_of_mem hps fun p hp _ hpq => ⟨hpq, ih p hp hpq⟩)]
  | var a ps ih =>
      cases u <;> try cases h
      obtain ⟨rfl, hps⟩ := beq_var.1 h
      rw [format_var, format_var,
        paramsText_of_beq (forall₂_imp_of_mem hps fun p hp _ hpq => ⟨hpq, ih p hp hpq⟩)]
  | record r ss fs _ ih =>
      cases u <;> try cases h
      next s ss' gs =>
        obtain ⟨hname, hfs⟩ := beq_record.1 h
        have htexts := innerFields_of_beq
          (forall₂_imp_of_mem hfs fun f hf _ hfg => ⟨hfg.1, ih f hf hfg.2⟩)
        rw [format, format, inner, inner, hname, isEmpty_of_forall₂ hfs]
        split
        · rfl
        · split
          · rfl
          · simp [htexts]
  | function ts ih =>
      cases u <;> try cases h
      have htexts := fun n => innerTypes_of_beq (n := n)
        (forall₂_imp_of_mem (beq_function.1 h) fun p hp _ hpq => ⟨hpq, ih p hp hpq⟩)
      rw [format, format, inner, inner, (beq_function.1 h).length_eq]
      split
      · simp [htexts]
      · exact htexts 1
  | enumeration e =>
      cases u <;> try cases h
      rw [format, format, inner, inner, (beq_enumeration.1 h).1]
  | unknown | inconsistent | noArguments | any =>
      cases u <;> try cases h
      rfl

/-! ## Names that show where they end -/

/-- Whether a name has no blanks and no parentheses. -/
def isPlainName (name : String) : Bool :=
  name.toList.all fun c => c != ' ' && c != '(' && c != ')'

/-- Whether a text can follow a type in a larger text. -/
def Stops (text : List Char) : Prop := ∀ c, text.head? = some c → c = ' ' ∨ c = ')'

theorem stops_nil : Stops [] := nofun

theorem stops_append {k r : List Char} (hk : Stops k) (hr : Stops r) :
    Stops (k ++ r) := by
  cases k with
  | nil => exact hr
  | cons c k => exact fun c' hc' => hk c' hc'

theorem stops_paramsText (ts : List Ty) : Stops (paramsText ts).toList := by
  cases ts with
  | nil => exact nofun
  | cons t ts =>
      intro c hc
      simp [paramsText] at hc
      exact .inl hc.symm

theorem takeWhile_of_stops {r : List Char} (hr : Stops r) :
    r.takeWhile (fun c => c != ' ' && c != '(' && c != ')') = [] := by
  cases r with
  | nil => rfl
  | cons c r => rcases hr c rfl with rfl | rfl <;> rfl

/-- Plain names are told apart by the texts that start with them. -/
theorem name_eq_of_append {a b : String} (ha : isPlainName a = true)
    (hb : isPlainName b = true) {r r' : List Char} (hr : Stops r) (hr' : Stops r')
    (h : a.toList ++ r = b.toList ++ r') :
    a = b := by
  rw [isPlainName, List.all_eq_true] at ha hb
  have hnames := congrArg (List.takeWhile fun c => c != ' ' && c != '(' && c != ')') h
  rw [List.takeWhile_append_of_pos ha, List.takeWhile_append_of_pos hb, takeWhile_of_stops hr,
    takeWhile_of_stops hr', List.append_nil, List.append_nil] at hnames
  exact String.toList_inj.1 hnames

/-- A text that starts with a plain name does not start with a parenthesis. -/
theorem head_ne_of_name {a : String} (ha : isPlainName a = true) {r : List Char}
    (hr : Stops r) :
    (a.toList ++ r).head? ≠ some '(' := by
  rw [isPlainName, List.all_eq_true] at ha
  intro hhead
  cases hname : a.toList with
  | nil =>
      rw [hname] at hhead
      rcases hr '(' hhead with h | h <;> cases h
  | cons c cs =>
      rw [hname] at hhead
      have hc := ha c (by simp [hname])
      cases hhead
      simp at hc

/-- The text of a type with a name starts with the name. -/
theorem format_of_name {t : Ty} {name : String} (h : t.name? = some name) :
    ∃ k, t.format.toList = name.toList ++ k ∧ Stops k ∧ (t.isCompound = false → k = []) := by
  have applied : ∀ ps : List Ty, (!ps.isEmpty) = false → (paramsText ps).toList = [] := by
    intro ps hps
    cases ps with
    | nil => rfl
    | cons p ps => cases hps
  cases t with
  | con c ss ps =>
      cases h
      exact ⟨_, by rw [format_con, String.toList_append], stops_paramsText ps, applied ps⟩
  | var a ps =>
      cases h
      exact ⟨_, by rw [format_var, String.toList_append], stops_paramsText ps, applied ps⟩
  | record r ss fs =>
      refine ⟨[], ?_, stops_nil, fun _ => rfl⟩
      rw [format, inner, show r.name = some name from h, List.append_nil]
      rfl
  | enumeration e =>
      cases h
      exact ⟨[], (List.append_nil _).symm, stops_nil, fun _ => rfl⟩
  | any =>
      cases h
      exact ⟨[], rfl, stops_nil, fun _ => rfl⟩
  | unknown | inconsistent | noArguments | function => cases h

end Ty

end DynamicTypes
