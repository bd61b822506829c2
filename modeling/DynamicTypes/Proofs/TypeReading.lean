import DynamicTypes.Proofs.Outlines
import DynamicTypes.Proofs.TypeText

/-!
# Types can be read back from their texts

Answers are listed in the order of their texts, and reports tell types by them, so it
matters that different types have different texts. They have, as far as texts can tell: once
it is settled what each name stands for, and names keep clear of the signs that types are
written with.

The text of a type is that of its outline, so types with one text have one outline. From an
outline a type is known up to what its words stand for, and that is what a `Vocabulary` says.
-/

namespace DynamicTypes

/-! ## The outlines of types -/

namespace Ty

mutual

/-- What is left of a type in its text. -/
def outline : Ty → Outline
  | unknown => .word "???" []
  | inconsistent => .word "???" []
  | noArguments => .word "()" []
  | any => .word "Any" []
  | con c _ params => .word c.name (outlines params)
  | enumeration e => .word e.name []
  | record r _ fields =>
    match r.name with
    | some name => .word name []
    | none => .fields (fieldOutlines fields)
  | function types => .arrows (outlines types)
  | var name params => .word name (outlines params)

def outlines : List Ty → List Outline
  | [] => []
  | t :: ts => outline t :: outlines ts

def fieldOutlines : List (String × Ty) → List (String × Outline)
  | [] => []
  | (key, t) :: fields => (key, outline t) :: fieldOutlines fields

end

theorem outlines_eq (ts : List Ty) : outlines ts = ts.map outline := by
  induction ts with
  | nil => rfl
  | cons t ts ih => rw [outlines, ih, List.map_cons]

theorem fieldOutlines_eq (fs : List (String × Ty)) :
    fieldOutlines fs = fs.map fun f => (f.1, f.2.outline) := by
  induction fs with
  | nil => rfl
  | cons f fs ih => rw [fieldOutlines, ih, List.map_cons]

theorem admits_param_outline (t : Ty) :
    Place.param.admits t.outline = !t.isCompound := by
  cases t with
  | con c ss ps => cases ps <;> rfl
  | var a ps => cases ps <;> rfl
  | record r ss fs =>
      rw [outline]
      split <;> rfl
  | unknown | inconsistent | noArguments | any | enumeration | function => rfl

theorem admits_slot_outline (t : Ty) : Place.slot.admits t.outline = !t.isFunction := by
  cases t with
  | record r ss fs =>
      rw [outline]
      split <;> rfl
  | unknown | inconsistent | noArguments | any | con | enumeration | function | var => rfl

section Texts

variable {t : Ty} {ts : List Ty} {fs : List (String × Ty)}

theorem toList_wrapped (ht : t.format.toList = t.outline.text) {place : Place}
    {wrap : Bool} (hplace : place.admits t.outline = !wrap) :
    ((inner t).marked.wrapped wrap).text.toList = Outline.textAt place t.outline := by
  rw [Layout.text_wrapped, Layout.text_marked, Outline.textAt, hplace, ← ht, format]
  cases wrap with
  | true => simp
  | false => rfl

theorem toList_innerParams (hts : ∀ t ∈ ts, t.format.toList = t.outline.text)
    (n : Nat) :
    (innerParams n ts).text.toList = Outline.paramsText (outlines ts) := by
  induction ts generalizing n with
  | nil => rfl
  | cons t ts ih =>
      rw [List.forall_mem_cons] at hts
      rw [innerParams, outlines, Outline.paramsText, ← Outline.textAt,
        ← toList_wrapped hts.1 (admits_param_outline t), ← ih hts.2 (n + 1)]
      simp

theorem toList_innerTypes (hts : ∀ t ∈ ts, t.format.toList = t.outline.text) (n : Nat) :
    (innerTypes n ts).text.toList = Outline.typesText (outlines ts) := by
  induction ts generalizing n with
  | nil => rfl
  | cons t ts ih =>
      rw [List.forall_mem_cons] at hts
      rw [innerTypes, outlines, Outline.typesText, ← Outline.textAt,
        ← toList_wrapped hts.1 (admits_slot_outline t)]
      cases ts with
      | nil => exact (List.append_nil _).symm
      | cons u ts =>
          rw [← ih hts.2 (n + 1)]
          simp [outlines]

theorem toList_innerFields (hfs : ∀ f ∈ fs, f.2.format.toList = f.2.outline.text) :
    (innerFields fs).text.toList = Outline.fieldsText (fieldOutlines fs) := by
  induction fs with
  | nil => rfl
  | cons f fs ih =>
      obtain ⟨key, t⟩ := f
      rw [List.forall_mem_cons] at hfs
      rw [innerFields, fieldOutlines, Outline.fieldsText, ← ih hfs.2, ← hfs.1, format]
      cases fs with
      | nil => simp [fieldOutlines]
      | cons f fs => simp [fieldOutlines]

theorem toList_format (t : Ty) : t.format.toList = t.outline.text := by
  induction t with
  | con c ss ps _ ih =>
      rw [format, inner, outline, Outline.text, ← toList_innerParams ih 1]
      simp
  | var a ps ih =>
      rw [format, inner, outline, Outline.text, ← toList_innerParams ih 1]
      simp
  | record r ss fs _ ih =>
      rw [format, inner, outline]
      cases r.name with
      | some name => exact (List.append_nil _).symm
      | none =>
          simp only [Outline.text, ← toList_innerFields ih]
          cases fs with
          | nil => rfl
          | cons f fs => simp [fieldOutlines]
  | function ts ih =>
      rw [format, inner, outline, Outline.text, ← toList_innerTypes ih 1, outlines_eq,
        List.length_map]
      split
      · simp
      · rfl
  | enumeration e => exact (List.append_nil _).symm
  | unknown | inconsistent | noArguments | any => rfl

end Texts

end Ty

/-! ## Vocabularies -/

/-- What a name stands for: a constructor or a variable of some arity, the values with
certain texts, or the objects with certain fields. -/
inductive Meaning where
  | constructor (arity : Nat)
  | variable (arity : Nat)
  | enumeration (texts : List String)
  | record (fields : List (String × Ty))

/-- What names stand for, each of them free of the signs that types are written with. -/
structure Vocabulary where
  meaning : String → Option Meaning
  isName {name : String} {m : Meaning} : meaning name = some m →
    Outline.isName name = true ∧ name ≠ "Any" ∧ name ≠ "???"

namespace Vocabulary

/-- Whether a type is built from a vocabulary, where a record may also go without a
name. -/
inductive Expresses (V : Vocabulary) : Ty → Prop where
  | unknown : V.Expresses .unknown
  | any : V.Expresses .any
  | con {c : Constructor} {supers params : List Ty}
      (means : V.meaning c.name = some (.constructor params.length))
      (each : ∀ p ∈ params, V.Expresses p) : V.Expresses (.con c supers params)
  | var {name : String} {params : List Ty}
      (means : V.meaning name = some (.variable params.length))
      (each : ∀ p ∈ params, V.Expresses p) : V.Expresses (.var name params)
  | enumeration {e : Enumeration} (means : V.meaning e.name = some (.enumeration e.texts.keys)) :
      V.Expresses (.enumeration e)
  | named {r : RecordName} {name : String} {supers : List Ty} {fields : List (String × Ty)}
      (named : r.name = some name) (means : V.meaning name = some (.record fields)) :
      V.Expresses (.record r supers fields)
  | anonymous {r : RecordName} {supers : List Ty} {fields : List (String × Ty)}
      (anonymous : r.name = none) (names : ∀ f ∈ fields, Outline.isName f.1 = true)
      (each : ∀ f ∈ fields, V.Expresses f.2) : V.Expresses (.record r supers fields)
  | function {types : List Ty} (hasResult : types ≠ []) (each : ∀ t ∈ types, V.Expresses t) :
      V.Expresses (.function types)

variable {V : Vocabulary} {t u : Ty}

theorem Expresses.legible (ht : V.Expresses t) : t.outline.Legible := by
  induction ht with
  | unknown | any => exact .word rfl (by simp)
  | con means each ih =>
      refine .word (V.isName means).1 ?_
      rw [Ty.outlines_eq]
      exact List.forall_mem_map.2 ih
  | var means each ih =>
      refine .word (V.isName means).1 ?_
      rw [Ty.outlines_eq]
      exact List.forall_mem_map.2 ih
  | enumeration means => exact .word (V.isName means).1 (by simp)
  | named hname means =>
      rw [Ty.outline, hname]
      exact .word (V.isName means).1 (by simp)
  | anonymous hname names each ih =>
      rw [Ty.outline, hname, Ty.fieldOutlines_eq]
      exact .fields (List.forall_mem_map.2 names) (List.forall_mem_map.2 ih)
  | function hne each ih =>
      rw [Ty.outline, Ty.outlines_eq]
      exact .arrows (by simpa using hne) (List.forall_mem_map.2 ih)

/-- What the word that an outline begins with stands for. -/
def sense? (V : Vocabulary) : Outline → Option Meaning
  | .word name _ => V.meaning name
  | .fields _ | .arrows _ => none

end Vocabulary

/-- What the name of a type stands for. -/
def Ty.sense? : Ty → Option Meaning
  | .con _ _ params => some (.constructor params.length)
  | .var _ params => some (.variable params.length)
  | .enumeration e => some (.enumeration e.texts.keys)
  | .record r _ fields => r.name.map fun _ => .record fields
  | .unknown | .inconsistent | .noArguments | .any | .function _ => none

namespace Vocabulary

variable {V : Vocabulary} {t u : Ty}

theorem meaning_eq_none (name : String) (hname : name = "Any" ∨ name = "???") :
    V.meaning name = none := by
  cases hmeaning : V.meaning name with
  | none => rfl
  | some m =>
      obtain ⟨_, hany, hunknown⟩ := V.isName hmeaning
      exact absurd hname (not_or.2 ⟨hany, hunknown⟩)

/-- The outline of a type shows what its name stands for. -/
theorem Expresses.sense? (ht : V.Expresses t) : V.sense? t.outline = t.sense? := by
  cases ht with
  | unknown => exact meaning_eq_none "???" (.inr rfl)
  | any => exact meaning_eq_none "Any" (.inl rfl)
  | con means | var means | enumeration means => exact means
  | named hname means =>
      rw [Ty.outline, Ty.sense?, hname]
      exact means
  | anonymous hname =>
      rw [Ty.outline, Ty.sense?, hname]
      rfl
  | function => rfl

theorem Expresses.sense?_eq (ht : V.Expresses t) (hu : V.Expresses u)
    (heq : t.outline = u.outline) : t.sense? = u.sense? := by
  rw [← ht.sense?, ← hu.sense?, heq]

/-- Lists of types with the same outlines are equal, if the types in them are. -/
theorem forall₂_of_outlines_eq {ts us : List Ty} (heq : Ty.outlines ts = Ty.outlines us)
    (hus : ∀ u ∈ us, V.Expresses u)
    (ih : ∀ t ∈ ts, ∀ {u}, V.Expresses u → t.outline = u.outline → (t == u) = true) :
    List.Forall₂ (fun t u => (t == u) = true) ts us := by
  rw [Ty.outlines_eq, Ty.outlines_eq] at heq
  exact forall₂_of_map_eq heq fun t ht u hu => ih t ht (hus u hu)

/-- Types with one outline are equal: it shows their form and, with the vocabulary, what
their names stand for. -/
theorem Expresses.beq_of_outline_eq (ht : V.Expresses t) (hu : V.Expresses u)
    (heq : t.outline = u.outline) : (t == u) = true := by
  induction ht generalizing u with
  | unknown =>
      have hsense := Expresses.unknown.sense?_eq hu heq
      cases hu with
      | unknown => rfl
      | _ => simp_all [Ty.outline, Ty.sense?]
  | any =>
      have hsense := Expresses.any.sense?_eq hu heq
      cases hu with
      | any => rfl
      | _ => simp_all [Ty.outline, Ty.sense?]
  | con means each ih =>
      have hsense := (Expresses.con means each).sense?_eq hu heq
      cases hu with
      | con means' each' =>
          obtain ⟨hname, hparams⟩ := Outline.word.inj heq
          exact Ty.beq_con.2 ⟨hname, forall₂_of_outlines_eq hparams each' ih⟩
      | _ => simp_all [Ty.outline, Ty.sense?]
  | var means each ih =>
      have hsense := (Expresses.var means each).sense?_eq hu heq
      cases hu with
      | var means' each' =>
          obtain ⟨hname, hparams⟩ := Outline.word.inj heq
          exact Ty.beq_var.2 ⟨hname, forall₂_of_outlines_eq hparams each' ih⟩
      | _ => simp_all [Ty.outline, Ty.sense?]
  | enumeration means =>
      have hsense := (Expresses.enumeration means).sense?_eq hu heq
      cases hu with
      | enumeration means' =>
          refine Ty.beq_enumeration.2 ⟨(Outline.word.inj heq).1, ?_⟩
          exact Meaning.enumeration.inj (Option.some.inj hsense)
      | _ => simp_all [Ty.outline, Ty.sense?]
  | named hname means =>
      have hsense := (Expresses.named hname means).sense?_eq hu heq
      cases hu with
      | named hname' means' =>
          rw [Ty.outline, Ty.outline, hname, hname'] at heq
          rw [Ty.sense?, Ty.sense?, hname, hname'] at hsense
          obtain rfl := Meaning.record.inj (Option.some.inj hsense)
          refine Ty.beq_record.2 ⟨?_, List.forall₂_same.2 fun f _ => ⟨rfl, Ty.beq_self f.2⟩⟩
          rw [hname, hname', (Outline.word.inj heq).1]
      | _ => simp_all [Ty.outline, Ty.sense?]
  | anonymous hname names each ih =>
      cases hu with
      | anonymous hname' names' each' =>
          rw [Ty.outline, Ty.outline, hname, hname'] at heq
          have hfields := Outline.fields.inj heq
          rw [Ty.fieldOutlines_eq, Ty.fieldOutlines_eq] at hfields
          refine Ty.beq_record.2 ⟨hname.trans hname'.symm, forall₂_of_map_eq hfields ?_⟩
          intro f hf g hg hfg
          obtain ⟨hkey, houtline⟩ := Prod.mk.inj hfg
          exact ⟨hkey, ih f hf (each' g hg) houtline⟩
      | _ => simp_all [Ty.outline]
  | function hne each ih =>
      cases hu with
      | function hne' each' =>
          exact Ty.beq_function.2 (forall₂_of_outlines_eq (Outline.arrows.inj heq) each' ih)
      | _ => simp_all [Ty.outline]

/-- Over a vocabulary, types have the same text exactly if they are equal. -/
theorem format_eq_iff (ht : V.Expresses t) (hu : V.Expresses u) :
    t.format = u.format ↔ (t == u) = true := by
  refine ⟨fun htexts => ?_, Ty.format_of_beq⟩
  have houtlines : t.outline = u.outline := by
    apply Outline.text_inj ht.legible hu.legible
    rw [← Ty.toList_format, ← Ty.toList_format, htexts]
  exact ht.beq_of_outline_eq hu houtlines

/-- Variables `a` and `b`, and `f` for constructors. -/
def letters : Vocabulary where
  meaning name :=
    if name = "a" ∨ name = "b" then some (.variable 0)
    else if name = "f" then some (.variable 1) else none
  isName := by
    intro name m hmeans
    split at hmeans
    · next hname =>
        rcases hname with rfl | rfl <;> decide
    · split at hmeans
      · next hname =>
          subst hname
          decide
      · cases hmeans

/-- Parentheses between arrows tell two types apart. -/
theorem format_eq_iff_arrows :
    let a : Ty := .var "a" []
    let result : Ty := .function [.var "b" [], a]
    let t : Ty := .function [.var "f" [.var "f" [a]], result]
    let u : Ty := .function [.var "f" [.var "f" [a]], .var "b" [], a]
    t.format = "f (f a) -> (b -> a)" ∧ u.format = "f (f a) -> b -> a" ∧
      (t.format = u.format ↔ (t == u) = true) := by
  intro a result t u
  have ha : letters.Expresses a := .var rfl (by simp)
  have hb : letters.Expresses (.var "b" []) := .var rfl (by simp)
  have hf : letters.Expresses (.var "f" [.var "f" [a]]) :=
    .var rfl (List.forall_mem_singleton.2 (.var rfl (List.forall_mem_singleton.2 ha)))
  have hresult : letters.Expresses result :=
    .function (List.cons_ne_nil _ _) (by simpa using ⟨hb, ha⟩)
  have ht : letters.Expresses t := .function (List.cons_ne_nil _ _) (by simpa using ⟨hf, hresult⟩)
  have hu : letters.Expresses u := .function (List.cons_ne_nil _ _) (by simpa using ⟨hf, hb, ha⟩)
  exact ⟨by decide +kernel, by decide +kernel, format_eq_iff ht hu⟩

end Vocabulary

end DynamicTypes
