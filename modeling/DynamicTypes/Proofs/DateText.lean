import Mathlib.Data.Nat.Digits.Defs
import DynamicTypes.Proofs.Gregorian
import DynamicTypes.Proofs.LeafText

/-!
# Dates print as the instants they are

A date holds a double, and prints as the civil form of the instant it names. What the
text says is found by reading it: `read?` accepts the one form that dates are written
in, digit by digit and with nothing behind it, and gives the fields. What the fields
denote is counted in the calendar.

Two things stand between the number and the text. Every whole number of milliseconds
in range is a double, because fifty-three binary digits are enough for it, and its
reading is exact. And a field has as many digits as its place has, since the years in
range have six digits at most; so reading takes it apart as writing put it together.
-/

namespace DynamicTypes

/-! ## Whole numbers as doubles -/

namespace Binary64

variable {x : Binary64} {m : Int} {bound : Nat}

/-- A whole number within a bound is found to be so, and has no fraction to drop. -/
theorem magnitudeLe_of_integer? (hm : x.integer? = some m) (hbound : m.natAbs ≤ bound) :
    x.magnitudeLe bound = true ∧ x.truncate? = some m := by
  cases x with
  | nan | infinite => cases hm
  | finite negative n e =>
      rw [integer?] at hm
      split at hm
      · next hwhole =>
          refine ⟨?_, hm⟩
          have hn : (if 0 ≤ e then n * twoTo e.toNat else n / twoTo (-e).toNat) = m.natAbs := by
            injection hm with hm
            generalize (if 0 ≤ e then n * twoTo e.toNat else n / twoTo (-e).toNat) = whole at hm ⊢
            rw [← hm]
            cases negative <;> simp
          rw [magnitudeLe]
          split at hn
          · next he => rw [if_pos he, hn, decide_eq_true hbound]
          · next he =>
              have hdivides := Nat.div_mul_cancel (Nat.dvd_of_mod_eq_zero (hwhole.resolve_left he))
              rw [if_neg he, ← hdivides, hn]
              exact decide_eq_true (Nat.mul_le_mul_right _ hbound)
      · cases hm

/-- A number that has as many zeros at its end as its exponent takes away is whole. -/
theorem integer?_shifted (negative : Bool) (n j : Nat) :
    (finite negative (n * 2 ^ j) (-(j : Int))).integer? =
      some (if negative then -(n : Int) else n) := by
  have hwhole : (if 0 ≤ -(j : Int) then n * 2 ^ j * twoTo (-(j : Int)).toNat
      else n * 2 ^ j / twoTo (-(-(j : Int))).toNat) = n := by
    split
    · next hj =>
        obtain rfl : j = 0 := by omega
        simp [twoTo]
    · rw [Int.neg_neg, Int.toNat_natCast]
      exact Nat.mul_div_cancel n (Nat.two_pow_pos j)
  have hdivides : n * 2 ^ j % twoTo (-(-(j : Int))).toNat = 0 := by
    rw [Int.neg_neg, Int.toNat_natCast]
    exact Nat.mul_mod_left n (2 ^ j)
  simp only [integer?, truncate?, hwhole, hdivides, or_true, if_true]

/-- The bits of a double that is neither very small nor infinite. -/
def bitsOf (negative : Bool) (power fraction : Nat) : Nat :=
  (if negative then 2 ^ 63 else 0) + power * 2 ^ 52 + fraction

theorem ofBits_bitsOf (negative : Bool) {power fraction : Nat}
    (hpower : 0 < power ∧ power < 2047) (hfraction : fraction < 2 ^ 52) :
    ofBits (bitsOf negative power fraction) =
      finite negative (2 ^ 52 + fraction) ((power : Int) - 1075) := by
  have hsign : bitsOf negative power fraction / twoTo 63 % 2 = if negative then 1 else 0 := by
    show ((if negative then 2 ^ 63 else 0) + power * 2 ^ 52 + fraction) / 2 ^ 63 % 2 = _
    split <;> omega
  have hmiddle : bitsOf negative power fraction / twoTo 52 % twoTo 11 = power := by
    show ((if negative then 2 ^ 63 else 0) + power * 2 ^ 52 + fraction) / 2 ^ 52 % 2 ^ 11 = _
    split <;> omega
  have hlast : bitsOf negative power fraction % twoTo 52 = fraction := by
    show ((if negative then 2 ^ 63 else 0) + power * 2 ^ 52 + fraction) % 2 ^ 52 = _
    split <;> omega
  rw [ofBits]
  simp only [hsign, hmiddle, hlast]
  rw [if_neg (by omega), if_neg (by omega)]
  cases negative <;> rfl

/-- All bits whose exponent is not the largest one are those of a number. -/
theorem exists_ofFloat_eq (bits : Nat) (hbits : bits < 2 ^ 64)
    (hpower : bits / 2 ^ 52 % 2 ^ 11 ≠ 2047) :
    ∃ x : Float, ofFloat x = ofBits bits := by
  have htoNat : (UInt64.ofNat bits).toNat = bits := by
    rw [UInt64.toNat_ofNat']
    exact Nat.mod_eq_of_lt hbits
  have hvalid : Float.Model.Format.binary64.Valid (UInt64.ofNat bits).toBitVec := by
    refine ⟨fun hexponent => absurd (congrArg BitVec.toNat hexponent) ?_⟩
    simpa [Float.Model.UnpackedFloat.unpackExponent, Nat.shiftRight_eq_div_pow, htoNat] using hpower
  exact ⟨⟨⟨UInt64.ofNat bits, hvalid⟩⟩, congrArg ofBits htoNat⟩

/-- Every whole number of at most fifty-three binary digits is a double. -/
theorem exists_integer (hm : m.natAbs < 2 ^ 53) :
    ∃ x : Float, (ofFloat x).integer? = some m := by
  have hsign : m = if decide (m < 0) then -(m.natAbs : Int) else m.natAbs := by
    simp only [decide_eq_true_eq]
    split <;> omega
  generalize decide (m < 0) = negative at hsign
  generalize m.natAbs = n at hm hsign
  rw [hsign]
  by_cases hzero : n = 0
  · obtain ⟨x, hx⟩ := exists_ofFloat_eq 0 (by decide) (by decide)
    have hread : ofBits 0 = finite false (0 * 2 ^ 1074) (-(1074 : Nat)) := by
      rw [Nat.zero_mul]
      rfl
    refine ⟨x, ?_⟩
    rw [hx, hread, integer?_shifted, hzero]
    cases negative <;> rfl
  · -- the digits are moved up until the first one stands in the fifty-third place
    have hlog : n.log2 < 53 := (Nat.log2_lt hzero).2 hm
    obtain ⟨j, hj⟩ : ∃ j, n.log2 + j = 52 := ⟨52 - n.log2, by omega⟩
    have hlow : 2 ^ 52 ≤ n * 2 ^ j := by
      rw [← hj, Nat.pow_add]
      exact Nat.mul_le_mul_right _ (Nat.log2_self_le hzero)
    have hhigh : n * 2 ^ j < 2 ^ 53 := by
      have hsplit : 2 ^ 53 = 2 ^ (n.log2 + 1) * 2 ^ j := by
        rw [← Nat.pow_add, Nat.add_right_comm, hj]
      rw [hsplit]
      exact Nat.mul_lt_mul_of_pos_right Nat.lt_log2_self (Nat.two_pow_pos j)
    have hpower : 0 < n.log2 + 1023 ∧ n.log2 + 1023 < 2047 := by omega
    have hfraction : n * 2 ^ j - 2 ^ 52 < 2 ^ 52 := by omega
    obtain ⟨x, hx⟩ := exists_ofFloat_eq (bitsOf negative (n.log2 + 1023) (n * 2 ^ j - 2 ^ 52))
      (by unfold bitsOf; split <;> omega) (by unfold bitsOf; split <;> omega)
    have hexponent : ((n.log2 + 1023 : Nat) : Int) - 1075 = -(j : Int) := by omega
    refine ⟨x, ?_⟩
    rw [hx, ofBits_bitsOf negative hpower hfraction, Nat.add_sub_cancel' hlow, hexponent,
      integer?_shifted]

end Binary64

/-! ## Reading a date -/

namespace Civil

/-- Reads a number of exactly `width` digits and the character behind it: the number,
and the rest. -/
def field? (width : Nat) (stop : Char) (text : List Char) : Option (Nat × List Char) :=
  if (text.take width).all Char.isDigit = true ∧ (text.drop width).head? = some stop then
    some (Nat.ofDigitChars 10 (text.take width) 0, text.drop (width + 1))
  else none

/-- Reads a year and the dash behind it. A year from 0 to 9999 has four digits and no
sign, any other one a sign and six digits. -/
def year? (text : List Char) : Option (Int × List Char) :=
  if text.head? = some '-' then
    (field? 6 '-' text.tail).bind fun year => if 0 < year.1 then some (-year.1, year.2) else none
  else if text.head? = some '+' then
    (field? 6 '-' text.tail).bind fun year => if 9999 < year.1 then some (year.1, year.2) else none
  else (field? 4 '-' text).map fun year => (year.1, year.2)

/-- Reads a date and a time, written like `2000-01-01T00:00:00.000Z` and with nothing
behind it. -/
def read? (text : String) : Option Civil :=
  (year? text.toList).bind fun year =>
  (field? 2 '-' year.2).bind fun month =>
  (field? 2 'T' month.2).bind fun day =>
  (field? 2 ':' day.2).bind fun hour =>
  (field? 2 ':' hour.2).bind fun minute =>
  (field? 2 '.' minute.2).bind fun second =>
  (field? 3 'Z' second.2).bind fun millisecond =>
  if millisecond.2.isEmpty then
    some ⟨year.1, month.1, day.1, hour.1, minute.1, second.1, millisecond.1⟩
  else none

theorem toList_padded {width n : Nat} : (padded width n).toList =
    List.replicate (width - (Nat.toDigits 10 n).length) '0' ++ Nat.toDigits 10 n :=
  String.toList_ofList

theorem length_padded {width n : Nat} (hwidth : 0 < width) (hn : n < 10 ^ width) :
    (padded width n).toList.length = width := by
  have hle := (Nat.length_toDigits_le_iff (by decide) hwidth).2 hn
  rw [toList_padded, List.length_append, List.length_replicate, Nat.sub_add_cancel hle]

theorem ofDigitChars_zeros (k : Nat) (digits : List Char) :
    Nat.ofDigitChars 10 (List.replicate k '0' ++ digits) 0 = Nat.ofDigitChars 10 digits 0 := by
  induction k with
  | zero => rfl
  | succ k ih => exact ih

theorem isDigit_padded {width n : Nat} {c : Char} (hc : c ∈ (padded width n).toList) :
    c.isDigit = true := by
  rw [toList_padded, List.mem_append] at hc
  rcases hc with hzero | hdigit
  · rw [(List.mem_replicate.1 hzero).2]
    rfl
  · exact Nat.isDigit_of_mem_toDigits (by decide) (by decide) hdigit

/-- A number written with its full width is read back. -/
theorem field?_padded {width n : Nat} (hwidth : 0 < width) (hn : n < 10 ^ width)
    (stop : Char) (rest : List Char) :
    field? width stop ((padded width n).toList ++ stop :: rest) = some (n, rest) := by
  have hlength := length_padded hwidth hn
  have htake : ((padded width n).toList ++ stop :: rest).take width = (padded width n).toList :=
    List.take_left' hlength
  have hdrop : ((padded width n).toList ++ stop :: rest).drop width = stop :: rest :=
    List.drop_left' hlength
  have hdigits : (padded width n).toList.all Char.isDigit = true :=
    List.all_eq_true.2 fun c hc => isDigit_padded hc
  have hvalue : Nat.ofDigitChars 10 (padded width n).toList 0 = n := by
    rw [toList_padded, ofDigitChars_zeros, Nat.ofDigitChars_ten_toDigits]
  rw [field?, htake, hdrop, if_pos ⟨hdigits, rfl⟩, hvalue, ← List.drop_drop, hdrop]
  rfl

theorem head?_padded {width n : Nat} (hwidth : 0 < width) (hn : n < 10 ^ width)
    {c : Char} (hc : c.isDigit = false) (rest : List Char) :
    ((padded width n).toList ++ rest).head? ≠ some c := by
  have hne : (padded width n).toList ≠ [] := by
    rw [← List.length_pos_iff, length_padded hwidth hn]
    exact hwidth
  obtain ⟨d, digits, hdigits⟩ := List.exists_cons_of_ne_nil hne
  have hd : d.isDigit = true := isDigit_padded (hdigits ▸ List.mem_cons_self)
  rw [hdigits, List.cons_append, List.head?_cons]
  rintro ⟨⟩
  rw [hd] at hc
  cases hc

/-- Years of up to six digits are read back. -/
theorem year?_yearText {year : Int} (hyear : year.natAbs ≤ 999999) (rest : List Char) :
    year? ((yearText year).toList ++ '-' :: rest) = some (year, rest) := by
  unfold yearText
  split
  · next hshort =>
      have hfits : year.toNat < 10 ^ 4 := by omega
      rw [year?, if_neg (head?_padded (by decide) hfits rfl _),
        if_neg (head?_padded (by decide) hfits rfl _), field?_padded (by decide) hfits,
        Option.map_some, Int.toNat_of_nonneg hshort.1]
  · next hlong =>
      split
      · next hneg =>
          have hfits : (-year).toNat < 10 ^ 6 := by omega
          have hpos : 0 < (-year).toNat := by omega
          have hsign : "-".toList = ['-'] := rfl
          rw [String.toList_append, List.append_assoc, hsign, List.singleton_append]
          rw [year?, List.head?_cons, if_pos rfl, List.tail_cons, field?_padded (by decide) hfits,
            Option.bind_some, if_pos hpos, Int.toNat_of_nonneg (by omega), Int.neg_neg]
      · next hneg =>
          have hfits : year.toNat < 10 ^ 6 := by omega
          have hlarge : 9999 < year.toNat := by omega
          have hsign : "+".toList = ['+'] := rfl
          rw [String.toList_append, List.append_assoc, hsign, List.singleton_append]
          rw [year?, List.head?_cons, if_neg (by decide), if_pos rfl, List.tail_cons,
            field?_padded (by decide) hfits, Option.bind_some, if_pos hlarge,
            Int.toNat_of_nonneg (by omega)]

/-- A date whose fields fit their places is read back from its text. -/
theorem read?_text {c : Civil} (hc : c.IsValid) (hyear : c.year.natAbs ≤ 999999) :
    read? c.text = some c := by
  have htext : c.text.toList = (yearText c.year).toList ++ '-' ::
      ((padded 2 c.month).toList ++ '-' :: ((padded 2 c.day).toList ++ 'T' ::
      ((padded 2 c.hour).toList ++ ':' :: ((padded 2 c.minute).toList ++ ':' ::
      ((padded 2 c.second).toList ++ '.' ::
      ((padded 3 c.millisecond).toList ++ 'Z' :: [])))))) := by
    simp [text, String.toList_append]
  have hday := hc.day.2.trans (monthLength_le c.year c.month)
  obtain ⟨hmonth, _, hhour, hminute, hsecond, hmillisecond⟩ := hc
  rw [read?, htext, year?_yearText hyear, Option.bind_some,
    field?_padded (by decide) (by omega), Option.bind_some,
    field?_padded (by decide) (by omega), Option.bind_some,
    field?_padded (by decide) (by omega), Option.bind_some,
    field?_padded (by decide) (by omega), Option.bind_some,
    field?_padded (by decide) (by omega), Option.bind_some,
    field?_padded (by decide) (by omega), Option.bind_some]
  rfl

end Civil

/-! ## Printing a date -/

namespace Value

variable {ms : Float} {m : Int} {iso iso' : String}

theorem instantText?_of_integer? (hm : (Binary64.ofFloat ms).integer? = some m)
    (hbound : m.natAbs ≤ maxTimestamp) :
    instantText? ms = some (Civil.ofMilliseconds m).text := by
  obtain ⟨hinstant, hwhole⟩ := Binary64.magnitudeLe_of_integer? hm hbound
  rw [instantText?, isInstant, if_pos hinstant, hwhole, Option.map_some]

theorem print_date (h : Heap) (ms : Float) : h.print (.date ms) = dateText ms := by
  rw [Heap.print, Heap.printWithin]

theorem dateText_of_instantText? (hiso : instantText? ms = some iso) :
    (dateText ms).toList = "new Date (".toList ++ ((Text.quoted iso).toList ++ [')']) := by
  rw [dateText, hiso, String.toList_append, String.toList_append, List.append_assoc]
  rfl

/-- Dates that print alike have the same instant, as a text. -/
theorem instantText?_inj {ms' : Float} (hiso : instantText? ms = some iso)
    (hiso' : instantText? ms' = some iso') (heq : dateText ms = dateText ms') :
    iso = iso' := by
  have htexts := congrArg String.toList heq
  rw [dateText_of_instantText? hiso, dateText_of_instantText? hiso',
    List.append_cancel_left_eq] at htexts
  exact (Text.quoted_append_inj htexts).1

/-- An instant does not print like a date without one. -/
theorem dateText_ne_of_not_isInstant {ms' : Float} (hiso : instantText? ms = some iso)
    (hnone : isInstant ms' = false) : dateText ms ≠ dateText ms' := by
  intro heq
  have htexts := congrArg String.toList heq
  have hnan : dateText ms' = "new Date (NaN)" := by
    rw [dateText, instantText?, hnone]
    rfl
  rw [dateText_of_instantText? hiso, hnan, Text.toList_quoted] at htexts
  cases htexts

/-- Every whole number of milliseconds in range is the timestamp of a date, and whatever
date has it prints as its instant: the text is read as a year, month, day, hour, minute,
second and millisecond that the calendar has and that denote the timestamp. So dates
with different timestamps in range print differently, and none of them prints like a
date that is not an instant. -/
theorem print_date_instant (m : Int) (hm : m.natAbs ≤ maxTimestamp) :
    (∃ ms : Float, (Binary64.ofFloat ms).integer? = some m) ∧
    ∀ ms : Float, (Binary64.ofFloat ms).integer? = some m →
      (∃ iso c, instantText? ms = some iso ∧ Civil.read? iso = some c ∧ c.IsValid ∧
        c.year.natAbs ≤ 999999 ∧ c.toMilliseconds = m) ∧
      ∀ (h h' : Heap) (ms' : Float),
        (∀ m', (Binary64.ofFloat ms').integer? = some m' → m'.natAbs ≤ maxTimestamp → m' ≠ m →
          h.print (.date ms) ≠ h'.print (.date ms')) ∧
        (isInstant ms' = false → h.print (.date ms) ≠ h'.print (.date ms')) := by
  -- what a timestamp in range is read back as
  have hread : ∀ m : Int, m.natAbs ≤ maxTimestamp → ∃ c,
      Civil.read? (Civil.ofMilliseconds m).text = some c ∧ c.IsValid ∧ c.year.natAbs ≤ 999999 ∧
        c.toMilliseconds = m := by
    intro m hm
    obtain ⟨hvalid, hinstant⟩ := Civil.ofMilliseconds_valid m
    have hyear := hvalid.natAbs_year_le (hinstant.symm ▸ hm)
    exact ⟨_, Civil.read?_text hvalid hyear, hvalid, hyear, hinstant⟩
  obtain ⟨c, hc, hvalid, hyear, hinstant⟩ := hread m hm
  refine ⟨Binary64.exists_integer (Nat.lt_of_le_of_lt hm (by decide)), fun ms hms => ?_⟩
  have hiso := instantText?_of_integer? hms hm
  refine ⟨⟨_, c, hiso, hc, hvalid, hyear, hinstant⟩, fun h h' ms' => ⟨?_, ?_⟩⟩
  · intro m' hms' hm' hne heq
    rw [print_date, print_date] at heq
    obtain ⟨c', hc', _, _, hinstant'⟩ := hread m' hm'
    rw [← instantText?_inj hiso (instantText?_of_integer? hms' hm') heq, hc] at hc'
    cases hc'
    exact hne (hinstant'.symm.trans hinstant)
  · intro hnone
    rw [print_date, print_date]
    exact dateText_ne_of_not_isInstant hiso hnone

/-- The last millisecond of the year before the year 0, and the start of 1970. -/
theorem print_date_instant_before_zero :
    (-62167219200001 : Int).natAbs ≤ maxTimestamp ∧ ∃ ms ms₀ : Float,
      (Binary64.ofFloat ms).integer? = some (-62167219200001) ∧
      (Binary64.ofFloat ms₀).integer? = some 0 ∧
      (∃ iso c, instantText? ms = some iso ∧ Civil.read? iso = some c ∧ c.IsValid ∧
        c.toMilliseconds = -62167219200001) ∧
      Heap.empty.print (.date ms) ≠ Heap.empty.print (.date ms₀) := by
  have hm : (-62167219200001 : Int).natAbs ≤ maxTimestamp := by decide
  have hzero : (0 : Int).natAbs ≤ maxTimestamp := by decide
  obtain ⟨⟨ms₀, hms₀⟩, _⟩ := print_date_instant 0 hzero
  obtain ⟨⟨ms, hms⟩, hall⟩ := print_date_instant (-62167219200001) hm
  obtain ⟨⟨iso, c, hiso, hc, hvalid, _, hinstant⟩, hother⟩ := hall ms hms
  exact ⟨hm, ms, ms₀, hms, hms₀, ⟨iso, c, hiso, hc, hvalid, hinstant⟩,
    (hother .empty .empty ms₀).1 0 hms₀ hzero (by decide)⟩

end Value

end DynamicTypes
