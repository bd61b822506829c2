import Mathlib.Data.List.TakeWhile
import DynamicTypes.Value.Printer

/-!
# Where the text of a string or a number ends

Values are printed next to each other, so the text of each has to show where it ends. The
text of a string does so by itself: a quote inside it is escaped, so the first quote that
is not ends it. The text of a number is made of letters, digits, dots and signs, and ends
where anything else begins.
-/

namespace DynamicTypes

namespace Text

/-! ## Quoted text -/

/-- The value of a hexadecimal digit. -/
def hexValue (c : Char) : Nat :=
  if c.isDigit then c.toNat - '0'.toNat else c.toNat - 'a'.toNat + 10

/-- Reads one character as it is written inside quotes. -/
def unescape? : List Char → Option (Char × List Char)
  | '\\' :: 'u' :: '0' :: '0' :: a :: b :: rest =>
    some (Char.ofNat (16 * hexValue a + hexValue b), rest)
  | '\\' :: 'b' :: rest => some ('\x08', rest)
  | '\\' :: 't' :: rest => some ('\t', rest)
  | '\\' :: 'n' :: rest => some ('\n', rest)
  | '\\' :: 'f' :: rest => some ('\x0c', rest)
  | '\\' :: 'r' :: rest => some ('\r', rest)
  | '\\' :: c :: rest => some (c, rest)
  | c :: rest => some (c, rest)
  | [] => none

theorem ofNat_hexDigits {n : Nat} (hn : n < 32) :
    16 * hexValue (hexDigit (n / 16)) + hexValue (hexDigit n) = n := by
  revert n
  decide

theorem unescape?_cons {c : Char} (hc : c ≠ '\\') (rest : List Char) :
    unescape? (c :: rest) = some (c, rest) := by
  unfold unescape?
  split <;> simp_all

/-- One character can be read back whatever follows it. -/
theorem unescape?_escape (c : Char) (rest : List Char) :
    unescape? (escape c ++ rest) = some (c, rest) := by
  unfold escape
  split
  · rfl
  · rfl
  · rfl
  · rfl
  · rfl
  · rfl
  · rfl
  · next c hquote hbackslash _ _ _ _ _ =>
      split
      · next hcontrol =>
          show some (Char.ofNat _, rest) = _
          rw [ofNat_hexDigits hcontrol, Char.ofNat_toNat]
      · exact unescape?_cons hbackslash rest

/-- Escaped characters end at the first quote. -/
theorem escaped_append_inj {l l' rest rest' : List Char}
    (heq : l.flatMap escape ++ '"' :: rest = l'.flatMap escape ++ '"' :: rest') :
    l = l' ∧ rest = rest' := by
  have hends : ∀ {c : Char} {l rest : List Char} {rest' : List Char},
      (c :: l).flatMap escape ++ '"' :: rest ≠ '"' :: rest' := by
    intro c l rest rest' heq
    have hread := congrArg unescape? heq
    rw [List.flatMap_cons, List.append_assoc, unescape?_escape, unescape?_cons (by decide)] at hread
    cases hread
    cases heq
  induction l generalizing l' with
  | nil =>
      cases l' with
      | nil => exact ⟨rfl, List.tail_eq_of_cons_eq heq⟩
      | cons c' l' => exact absurd heq.symm hends
  | cons c l ih =>
      cases l' with
      | nil => exact absurd heq hends
      | cons c' l' =>
          have hread := congrArg unescape? heq
          rw [List.flatMap_cons, List.flatMap_cons, List.append_assoc, List.append_assoc,
            unescape?_escape, unescape?_escape] at hread
          injection hread with hread
          injection hread with hc hrest
          obtain ⟨hl, hrest⟩ := ih hrest
          exact ⟨by rw [hc, hl], hrest⟩

theorem toList_quoted (s : String) :
    (quoted s).toList = '"' :: s.toList.flatMap escape ++ ['"'] :=
  String.toList_ofList

/-- Quoted texts are told apart by the texts that start with them. -/
theorem quoted_append_inj {s s' : String} {rest rest' : List Char}
    (heq : (quoted s).toList ++ rest = (quoted s').toList ++ rest') :
    s = s' ∧ rest = rest' := by
  rw [toList_quoted, toList_quoted] at heq
  have hinner : s.toList.flatMap escape ++ '"' :: rest =
      s'.toList.flatMap escape ++ '"' :: rest' := by
    simpa using heq
  obtain ⟨hs, hrest⟩ := escaped_append_inj hinner
  exact ⟨String.toList_inj.1 hs, hrest⟩

end Text

/-! ## Numbers -/

/-- The characters that numbers are written with. -/
def isNumeral (c : Char) : Bool := c.isAlphanum || c == '.' || c == '+' || c == '-'

/-- Whether a text is made of letters, digits, dots and signs, and begins with a digit,
a sign or one of the letters that the words for other values do not begin with. -/
structure IsNumber (text : List Char) : Prop where
  numerals : ∀ c ∈ text, isNumeral c = true
  first : ∃ c rest, text = c :: rest ∧ (c.isDigit = true ∨ c ∈ ['-', 'e', 'I', 'N'])

theorem isNumeral_of_isDigit {c : Char} (hc : c.isDigit = true) :
    isNumeral c = true := by
  simp [isNumeral, Char.isAlphanum, hc]

theorem isNumber_of_digits {text : List Char} (hne : text ≠ [])
    (hdigits : ∀ c ∈ text, c.isDigit = true) : IsNumber text where
  numerals c hc := isNumeral_of_isDigit (hdigits c hc)
  first := by
    obtain ⟨c, rest, rfl⟩ := List.exists_cons_of_ne_nil hne
    exact ⟨c, rest, rfl, .inl (hdigits c List.mem_cons_self)⟩

theorem IsNumber.append {text more : List Char} (htext : IsNumber text)
    (hmore : ∀ c ∈ more, isNumeral c = true) : IsNumber (text ++ more) where
  numerals := List.forall_mem_append.2 ⟨htext.numerals, hmore⟩
  first := by
    obtain ⟨c, rest, rfl, hc⟩ := htext.first
    exact ⟨c, rest ++ more, rfl, hc⟩

theorem isNumber_of_first {c : Char} {rest : List Char} (hc : c ∈ ['-', 'e', 'I', 'N'])
    (hrest : ∀ c ∈ rest, isNumeral c = true) : IsNumber (c :: rest) where
  numerals := by
    refine List.forall_mem_cons.2 ⟨?_, hrest⟩
    have hall : ∀ c ∈ ['-', 'e', 'I', 'N'], isNumeral c = true :=
      List.all_eq_true.1 (by decide)
    exact hall c hc
  first := ⟨c, rest, rfl, .inr hc⟩

namespace Decimal

theorem isDigit_ofPoint {point : Nat} {power : Int} {c : Char}
    (hc : c ∈ (ofPoint point power).digits) : c.isDigit = true := by
  have hmem : c ∈ Nat.toDigits 10 point := by
    have hdropped := (List.dropWhile_sublist _).mem (List.mem_reverse.1 hc)
    exact List.mem_reverse.1 hdropped
  exact Nat.isDigit_of_mem_toDigits (by decide) (by decide) hmem

theorem isDigit_shortest {mantissa : Nat} {exponent : Int} {c : Char}
    (hc : c ∈ (shortest mantissa exponent).digits) : c.isDigit = true := by
  unfold shortest at hc
  simp only at hc
  split at hc
  · next decimal hfound =>
      obtain ⟨power, _, hpower⟩ := List.exists_of_findSome?_eq_some hfound
      obtain ⟨point, _, rfl⟩ := Option.map_eq_some_iff.1 hpower
      exact isDigit_ofPoint hc
  · exact isDigit_ofPoint hc

end Decimal

namespace NumberStyle

variable {d : Decimal}

theorem isNumber_positional (hd : ∀ c ∈ d.digits, c.isDigit = true) :
    IsNumber (positional d).toList := by
  have hzeros : ∀ n, ∀ c ∈ List.replicate n '0', c.isDigit = true := by
    intro n c hc
    rw [List.eq_of_mem_replicate hc]
    rfl
  unfold positional
  split
  · rw [String.toList_append]
    have hstart : IsNumber "0.".toList :=
      (isNumber_of_digits (by simp) (hzeros 1)).append (List.all_eq_true.1 (by decide))
    refine hstart.append fun c hc => isNumeral_of_isDigit ?_
    rw [String.toList_ofList] at hc
    exact List.forall_mem_append.2 ⟨hzeros _, hd⟩ c hc
  · simp only
    split
    · next hle =>
        rw [String.toList_ofList]
        refine isNumber_of_digits (fun hnil => ?_) (List.forall_mem_append.2 ⟨hd, hzeros _⟩)
        have := congrArg List.length hnil
        simp only [List.length_append, List.length_replicate, List.length_nil] at this
        omega
    · next hlt =>
        rw [String.toList_ofList]
        have htake : d.digits.take (d.exponent.toNat + 1) ≠ [] := by
          intro hnil
          have := congrArg List.length hnil
          simp only [List.length_take, List.length_nil] at this
          omega
        have hstart := isNumber_of_digits htake fun c hc => hd c (List.mem_of_mem_take hc)
        refine hstart.append (List.forall_mem_cons.2 ⟨rfl, fun c hc => isNumeral_of_isDigit ?_⟩)
        exact hd c (List.mem_of_mem_drop hc)

theorem isNumber_scientific (hd : ∀ c ∈ d.digits, c.isDigit = true) :
    IsNumber (Value.numberStyle.scientific d).toList := by
  have hnat : ∀ n : Nat, ∀ c ∈ (toString n).toList, isNumeral c = true := by
    intro n c hc
    rw [Nat.toString_eq_ofList_toDigits, String.toList_ofList] at hc
    exact isNumeral_of_isDigit (Nat.isDigit_of_mem_toDigits (by decide) (by decide) hc)
  have hpower : ∀ c ∈
      (if d.exponent < 0 then Value.numberStyle.minus ++ toString (-d.exponent).toNat
      else Value.numberStyle.plus ++ toString d.exponent.toNat).toList, isNumeral c = true := by
    split
    · rw [String.toList_append]
      exact List.forall_mem_append.2 ⟨List.all_eq_true.1 (by decide), hnat _⟩
    · rw [String.toList_append]
      exact List.forall_mem_append.2 ⟨List.all_eq_true.1 (by decide), hnat _⟩
  have hmark : ∀ c ∈ Value.numberStyle.mark.toList, isNumeral c = true :=
    List.all_eq_true.1 (by decide)
  unfold scientific
  simp only
  rw [String.toList_append, String.toList_append]
  split
  · exact (isNumber_of_first (by decide) (List.all_eq_true.1 (by decide))).append hpower
  · next c hdigits =>
      have hc := hd c (hdigits ▸ List.mem_cons_self)
      have hstart : IsNumber c.toString.toList := by
        rw [Char.toString_eq_singleton, String.toList_singleton]
        exact isNumber_of_digits (by simp) (by simpa using hc)
      exact (hstart.append hmark).append hpower
  · next c rest _ hdigits =>
      rw [hdigits, List.forall_mem_cons] at hd
      have hfirst : IsNumber [c] := isNumber_of_digits (by simp) (by simpa using hd.1)
      have hstart : IsNumber (String.ofList (c :: '.' :: rest)).toList := by
        rw [String.toList_ofList]
        refine hfirst.append (List.forall_mem_cons.2 ⟨rfl, fun c hc => ?_⟩)
        exact isNumeral_of_isDigit (hd.2 c hc)
      exact (hstart.append hmark).append hpower

end NumberStyle

namespace Value

/-- Numbers are written with letters, digits, dots and signs, and begin unlike any other
word. -/
theorem isNumber_numberText (x : Float) : IsNumber (numberText x).toList := by
  unfold numberText NumberStyle.write
  split
  · exact isNumber_of_first (by decide) (List.all_eq_true.1 (by decide))
  · next negative _ =>
      cases negative with
      | true => exact isNumber_of_first (by decide) (List.all_eq_true.1 (by decide))
      | false => exact isNumber_of_first (by decide) (List.all_eq_true.1 (by decide))
  · next negative mantissa exponent _ =>
      have hd : ∀ c ∈ (Decimal.shortest mantissa exponent).digits, c.isDigit = true :=
        fun c => Decimal.isDigit_shortest
      have hsigned : ∀ text : String, IsNumber text.toList →
          IsNumber ((if negative = true then numberStyle.minus else "") ++ text).toList := by
        intro text htext
        rw [String.toList_append]
        split
        · exact isNumber_of_first (by decide) htext.numerals
        · exact htext
      simp only
      split
      · exact hsigned "0" (isNumber_of_digits (by decide) (List.all_eq_true.1 (by decide)))
      · split
        · exact hsigned _ (NumberStyle.isNumber_scientific hd)
        · exact hsigned _ (NumberStyle.isNumber_positional hd)

end Value

end DynamicTypes
