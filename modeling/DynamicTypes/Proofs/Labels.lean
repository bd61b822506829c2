import Mathlib.Data.List.Induction
import DynamicTypes.Proofs.Carets
import DynamicTypes.Proofs.RecordedSpans

/-!
# The numbers below the carets

A report on a variable lists the values seen at each of its positions in a numbered block.
The numbers also stand below the carets, each in the middle of the columns of its position,
so that a block can be found in the signature. They are put on one line, one after the other,
and where two of them meet the later one stays.

Two positions meet in two ways only. They are hidden in one record that shows nothing but its
name, and then they have the same columns. Or the first is a variable applied to parameters,
the second stands in one of these, and the middle of the whole happens to be that of the part.
Columns of other positions are apart, since what is displayed is nested or apart.
-/

namespace DynamicTypes

open Text

/-- The column in the middle, or left of it. -/
def Span.centre (span : Span) : Nat := span.start + (span.stop - span.start - 1) / 2

/-! ## A line of numbers -/

namespace Report

variable {row : List Char} {columns : List Nat}

/-- Whether a line has in each of a list of columns the number of the last place where
the list has it, counted from one, and spaces in the other columns, and ends in a
number. -/
structure Numbers (row : List Char) (columns : List Nat) : Prop where
  number : ∀ c k, columns[k]? = some c → (∀ m, k < m → columns[m]? ≠ some c) →
    row[c]? = some (Nat.digitChar (k + 1))
  space : ∀ c, c ∉ columns → ∀ ch ∈ row[c]?, ch = ' '
  ends : ∀ c, c + 1 = row.length → c ∈ columns

theorem numbers_nil : Numbers [] [] :=
  ⟨fun c k hk => by simp at hk, fun c _ => by simp, fun c hc => by simp at hc⟩

/-- One more number, in a new column or in place of an earlier one. -/
theorem Numbers.put (hrow : Numbers row columns) (column : Nat) :
    Numbers (put row column (Nat.digitChar (columns.length + 1))) (columns ++ [column]) := by
  have hget : ∀ k, (columns ++ [column])[k]? =
      if k < columns.length then columns[k]?
      else if k = columns.length then some column else none := by
    intro k
    rw [List.getElem?_append, List.getElem?_singleton]
    have hiff : k - columns.length = 0 ↔ k ≤ columns.length := by omega
    split
    · rfl
    · simp only [hiff]
      split <;> split <;> first | rfl | omega
  constructor
  · intro c k hk hlast
    rw [getElem?_put]
    have hnew := hlast columns.length
    rw [hget, if_neg (Nat.lt_irrefl _), if_pos rfl] at hnew
    rw [hget] at hk
    split at hk
    · next hlt =>
        have hne : c ≠ column := fun heq => hnew hlt (congrArg some heq.symm)
        have hold := hrow.number c k hk fun m hm hc => by
          refine hlast m hm ?_
          rw [hget, if_pos (List.getElem?_eq_some_iff.1 hc).1, hc]
        have hinside := (List.getElem?_eq_some_iff.1 hold).1
        rw [if_neg hne, if_pos hinside, hold]
    · split at hk
      · next heq =>
          cases hk
          rw [if_pos rfl, heq]
      · cases hk
  · intro c hc ch hch
    rw [List.mem_append, List.mem_singleton, not_or] at hc
    rw [getElem?_put, if_neg hc.2] at hch
    split at hch
    · exact hrow.space c hc.1 ch hch
    · split at hch
      · exact (Option.some.inj hch).symm
      · cases hch
  · intro c hc
    rw [length_put] at hc
    rw [List.mem_append, List.mem_singleton]
    by_cases heq : c = column
    · exact .inr heq
    · exact .inl (hrow.ends c (by omega))

theorem exists_last {c : Nat} (hc : c ∈ columns) :
    ∃ k : Nat, columns[k]? = some c ∧ ∀ m, k < m → columns[m]? ≠ some c := by
  induction columns with
  | nil => cases hc
  | cons d columns ih =>
      by_cases hlater : c ∈ columns
      · obtain ⟨k, hk, hlast⟩ := ih hlater
        refine ⟨k + 1, hk, fun m hm => ?_⟩
        obtain ⟨m, rfl⟩ : ∃ n, m = n + 1 := ⟨m - 1, by omega⟩
        exact hlast m (by omega)
      · refine ⟨0, ?_, fun m hm heq => ?_⟩
        · rcases List.mem_cons.1 hc with rfl | hc
          · rfl
          · exact absurd hc hlater
        · obtain ⟨m, rfl⟩ : ∃ n, m = n + 1 := ⟨m - 1, by omega⟩
          exact hlater (List.mem_of_getElem? heq)

/-- In a column of the list there is a number. -/
theorem Numbers.exists_number (hrow : Numbers row columns) {c : Nat}
    (hc : c ∈ columns) :
    ∃ k < columns.length, columns[k]? = some c ∧ row[c]? = some (Nat.digitChar (k + 1)) := by
  obtain ⟨k, hk, hlast⟩ := exists_last hc
  exact ⟨k, (List.getElem?_eq_some_iff.1 hk).1, hk, hrow.number c k hk hlast⟩

theorem isBlank_digitChar {n : Nat} (hn : n < 10) :
    isBlank (Nat.digitChar n) = false := by
  have hall : ∀ n < 10, isBlank (Nat.digitChar n) = false := by decide
  exact hall n hn

theorem digitChar_inj {m n : Nat} (hm : m < 10) (hn : n < 10)
    (heq : Nat.digitChar m = Nat.digitChar n) : m = n := by
  have hall : ∀ m < 10, ∀ n < 10, Nat.digitChar m = Nat.digitChar n → m = n := by decide
  exact hall m hm n hn heq

theorem Numbers.isInline (hrow : Numbers row columns) (hfew : columns.length < 10) :
    IsInline row := by
  intro ch hch hblank
  obtain ⟨c, hc⟩ := List.mem_iff_getElem?.1 hch
  by_cases hcolumn : c ∈ columns
  · obtain ⟨k, hk, _, hnumber⟩ := hrow.exists_number hcolumn
    cases hc.symm.trans hnumber
    rw [isBlank_digitChar (by omega)] at hblank
    cases hblank
  · exact hrow.space c hcolumn ch hc

theorem Numbers.endsVisibly (hrow : Numbers row columns) (hfew : columns.length < 10)
    (hne : columns ≠ []) : EndsVisibly row := by
  obtain ⟨c, hc⟩ := List.exists_mem_of_ne_nil _ hne
  obtain ⟨_, _, _, hnumber⟩ := hrow.exists_number hc
  have hpos : 0 < row.length := Nat.zero_lt_of_lt (List.getElem?_eq_some_iff.1 hnumber).1
  obtain ⟨k, hk, _, hlast⟩ := hrow.exists_number (hrow.ends (row.length - 1) (by omega))
  refine ⟨_, ?_, isBlank_digitChar (n := k + 1) (by omega)⟩
  rw [List.getLast?_eq_getElem?]
  exact hlast

/-- A number stands in its column exactly if it has no later one in the same column. -/
theorem Numbers.getElem?_eq_iff (hrow : Numbers row columns)
    (hfew : columns.length < 10) {c k : Nat} (hk : columns[k]? = some c) :
    row[c]? = some (Nat.digitChar (k + 1)) ↔ ∀ m, k < m → columns[m]? ≠ some c := by
  refine ⟨fun hshown => ?_, hrow.number c k hk⟩
  obtain ⟨k', hk', hlast⟩ := exists_last (List.mem_of_getElem? hk)
  have hnumber := hrow.number c k' hk' hlast
  have hlt := (List.getElem?_eq_some_iff.1 hk).1
  have hlt' := (List.getElem?_eq_some_iff.1 hk').1
  have heq := digitChar_inj (by omega) (by omega) (Option.some.inj (hshown.symm.trans hnumber))
  obtain rfl : k = k' := by omega
  exact hlast

/-! ## The line of a report -/

theorem putLabel_digit (row : List Char) (span : Span) {n : Nat} (hn : n < 10) :
    putLabel row ⟨span, some (toString n)⟩ = put row span.centre (Nat.digitChar n) := by
  have hdigit : ∀ n < 10, (toString n).toList = [Nat.digitChar n] := by decide
  have hlength : (toString n).length = 1 := by
    rw [← String.length_toList, hdigit n hn]
    rfl
  rw [putLabel]
  simp only [hdigit n hn, hlength]
  rfl

theorem marksAt_append_singleton (s : Signature) (loci : List Locus) (l : Locus) :
    marksAt s (loci ++ [l]) = marksAt s loci ++ (s.span? l).toList.map fun span =>
      ⟨span, some (toString ((loci.filterMap s.span?).length + 1))⟩ := by
  rw [marksAt, marksAt, List.filterMap_append, List.zipIdx_append, List.map_append]
  congr 1
  cases hspan : s.span? l with
  | none => simp [hspan]
  | some span => simp [hspan]

theorem numbers_marksAt (s : Signature) {loci : List Locus} (hfew : loci.length < 10) :
    Numbers ((marksAt s loci).foldl putLabel []) ((loci.filterMap s.span?).map Span.centre) := by
  induction loci using List.reverseRecOn with
  | nil => exact numbers_nil
  | append_singleton loci l ih =>
      rw [List.length_append, List.length_singleton] at hfew
      have hrow := ih (by omega)
      rw [marksAt_append_singleton, List.foldl_append, List.filterMap_append]
      cases hspan : s.span? l with
      | none => simpa [hspan] using hrow
      | some span =>
          have hle := List.length_filterMap_le s.span? loci
          have hput := hrow.put span.centre
          rw [List.length_map] at hput
          rw [Option.toList_some, List.map_singleton, List.foldl_cons, List.foldl_nil,
            putLabel_digit _ _ (by omega), List.filterMap_cons_some hspan, List.filterMap_nil,
            List.map_append, List.map_singleton]
          exact hput

end Report

/-! ## Positions that meet -/

namespace Ty

open Piece

variable {t u u' : Ty} {p q : List String} {before before' after after' : String}

/-- Of what is shown under two paths, one stands in the other or the two are apart. -/
theorem Shows.nested_or_apart (ht : t.KeysApart) (hp : t.Shows p u before after)
    (hq : t.Shows q u' before' after') :
    p <+: q ∨ q <+: p ∨ before.length + u.format.length < before'.length ∨
      before'.length + u'.format.length < before.length := by
  induction p generalizing t q before before' after after' with
  | nil => exact .inl List.nil_prefix
  | cons key p ih =>
      cases q with
      | nil => exact .inr (.inl List.nil_prefix)
      | cons key' q =>
          obtain ⟨c, hc⟩ := hp.mem_components
          obtain ⟨c', hc'⟩ := hq.mem_components
          by_cases hkey : key = key'
          · subst hkey
            obtain ⟨lead, inner, rest, inner', rest', hinner, hinner', rfl, rfl⟩ := hp.tail ht hc hq
            rw [List.prefix_cons_inj, List.prefix_cons_inj]
            refine (ih (ht.component hc) hinner hinner').imp_right (Or.imp_right fun hapart => ?_)
            simp only [String.length_append]
            omega
          · rcases ordered_of_mem hc hc' hkey with ⟨xs, ys, zs, horder⟩ | ⟨xs, ys, zs, horder⟩
            · exact .inr (.inr (.inl (hp.before_lt ht horder hq)))
            · exact .inr (.inr (.inr (hq.before_lt ht horder hp)))

/-- The middle of a text that is not empty is one of its columns. -/
theorem centre_spanBetween (before : String) {text : String} (htext : 0 < text.length) :
    before.length ≤ (spanBetween before text).centre ∧
      (spanBetween before text).centre < before.length + text.length := by
  simp only [Span.centre, spanBetween]
  omega

end Ty

theorem compare_append (path : List String) (key : String) (rest : List String) :
    compare path (path ++ key :: rest) = .lt := by
  induction path with
  | nil => rfl
  | cons k path ih =>
      rw [List.cons_append, List.compare_cons_cons]
      simpa using ih

theorem Locus.eq_of_keys_append {l l' : Locus} {rest : List String}
    (heq : l.keys ++ rest = l'.keys) : l' = ⟨l.index, l.path ++ rest⟩ := by
  obtain ⟨index, path⟩ := l'
  obtain ⟨hkey, rfl⟩ := List.cons.inj heq
  have hindex : l.index + 1 = index + 1 := Ty.paramKey_inj.1 hkey
  rw [Locus.mk.injEq]
  exact ⟨by omega, rfl⟩

namespace Signature

variable {s : Signature} {l l' : Locus}

/-- The column in the middle of what is displayed of a position. -/
def centre? (s : Signature) (l : Locus) : Option Nat := (s.span? l).map Span.centre

/-- Whether two positions are inside one record that shows its name only. -/
def Hides (s : Signature) (l l' : Locus) : Prop :=
  s.displayed l = s.displayed l' ∧
    ∃ u, s.typeAt? (s.displayed l) = some u ∧ u.isNamedRecord = true

/-- Whether a variable is applied to parameters at a position, and another position is
displayed in one of them. -/
def Encloses (s : Signature) (l l' : Locus) : Prop :=
  (∃ name params, s.typeAt? l = some (.var name params) ∧ params ≠ []) ∧
    ∃ key rest, s.displayed l' = ⟨l.index, l.path ++ key :: rest⟩

theorem centre?_of_displayed_eq (hkeys : ∀ t ∈ s.types, t.KeysApart) {v v' : Ty}
    (hl : s.typeAt? l = some v) (hl' : s.typeAt? l' = some v')
    (heq : s.displayed l = s.displayed l') : s.centre? l = s.centre? l' := by
  obtain ⟨u, _, _, _, _, ⟨lead, rfl, hshows⟩, hspan⟩ := span?_eq hkeys hl
  obtain ⟨u', _, _, _, _, ⟨lead', rfl, hshows'⟩, hspan'⟩ := span?_eq hkeys hl'
  rw [heq] at hshows
  obtain ⟨rfl, rfl, -⟩ := hshows.unique (keysApart_functionType hkeys) hshows'
  rw [centre?, centre?, hspan, hspan']

/-- A position below which something is displayed is displayed itself. -/
theorem displayed_of_longer (hkeys : ∀ t ∈ s.types, t.KeysApart) {u v w : Ty}
    (hl : s.typeAt? l = some v) (hu : s.typeAt? (s.displayed l) = some u)
    (hdisplayed : s.displayed l = l ∨ u.isNamedRecord = true) {before after : String}
    (hshows : s.functionType.Shows (s.displayed l).keys u before after) {key : String}
    {rest : List String} {before' after' : String}
    (hlonger : s.functionType.Shows ((s.displayed l).keys ++ key :: rest) w before' after') :
    s.displayed l = l ∧ v.components ≠ [] := by
  obtain ⟨u', _, _, _, _, hu', hinner, -, -⟩ := hlonger.of_append
  obtain ⟨rfl, -, -⟩ := hshows.unique (keysApart_functionType hkeys) hu'
  have hself : s.displayed l = l := by
    refine hdisplayed.resolve_right ?_
    rw [hinner.isNamedRecord_eq_false]
    exact Bool.false_ne_true
  rw [hself, hl] at hu
  cases hu
  obtain ⟨c, hc⟩ := hinner.mem_components
  exact ⟨hself, List.ne_nil_of_mem hc⟩

theorem displayed_path_isPrefix (s : Signature) (l : Locus) :
    (s.displayed l).path <+: l.path := by
  rw [displayed]
  cases s.types[l.index]? with
  | none => exact List.nil_prefix
  | some t => exact t.displayed_isPrefix l.path

/-- Variables are displayed with one middle only if they are hidden in one record, or
the first is applied and the other stands in what it is applied to. -/
theorem hides_or_encloses (hnames : ∀ n ∈ s.names, isWord n = true)
    (hkeys : ∀ t ∈ s.types, t.KeysApart) {name name' : String}
    {params params' : List Ty} (hl : s.typeAt? l = some (.var name params))
    (hl' : s.typeAt? l' = some (.var name' params')) (hlt : compare l l' = .lt)
    (hsame : s.centre? l = s.centre? l') :
    s.Hides l l' ∨ s.Encloses l l' := by
  have hwidth : ∀ {l : Locus} {u : Ty}, s.typeAt? l = some u → 0 < u.format.length := by
    intro l u hu
    rw [← String.length_toList]
    exact List.length_pos_iff.2 (isLegible_typeAt? hnames hu).ends.ne_nil
  have hwhole := keysApart_functionType hkeys
  obtain ⟨u, _, _, hu, hdisplayed, ⟨lead, rfl, hshows⟩, hspan⟩ := span?_eq hkeys hl
  obtain ⟨u', _, _, hu', hdisplayed', ⟨lead', rfl, hshows'⟩, hspan'⟩ := span?_eq hkeys hl'
  rw [centre?, centre?, hspan, hspan', Option.map_some, Option.map_some, Option.some.injEq] at hsame
  have hcentre := Ty.centre_spanBetween (s.preamble ++ lead) (hwidth hu)
  have hcentre' := Ty.centre_spanBetween (s.preamble ++ lead') (hwidth hu')
  simp only [String.length_append] at hcentre hcentre'
  have hhides : s.displayed l = s.displayed l' → s.Hides l l' := by
    intro heq
    refine ⟨heq, u, hu, ?_⟩
    rw [← heq, hu] at hu'
    cases hu'
    -- the two positions differ, so one of them at least is not where it is displayed
    rcases hdisplayed with hself | hnamed
    · rcases hdisplayed' with hself' | hnamed
      · have hsame : l = l' := hself.symm.trans (heq.trans hself')
        have heq : compare l' l' = .eq := Std.ReflCmp.compare_self
        rw [hsame, heq] at hlt
        cases hlt
      · exact hnamed
    · exact hnamed
  rcases hshows.nested_or_apart hwhole hshows' with ⟨rest, hrest⟩ | ⟨rest, hrest⟩ | hapart | hapart
  · have hinside := Locus.eq_of_keys_append hrest
    cases rest with
    | nil => exact .inl (hhides (by rw [hinside, List.append_nil]))
    | cons key rest =>
        rw [← hrest] at hshows'
        obtain ⟨hself, hcomponents⟩ := displayed_of_longer hkeys hl hu hdisplayed hshows hshows'
        rw [hself] at hinside
        refine .inr ⟨⟨name, params, hl, ?_⟩, key, rest, hinside⟩
        rintro rfl
        exact hcomponents rfl
  · have hinside := Locus.eq_of_keys_append hrest
    cases rest with
    | nil => exact .inl (hhides (by rw [hinside, List.append_nil]))
    | cons key rest =>
        -- then the second position would come before the first
        rw [← hrest] at hshows
        obtain ⟨hself, _⟩ := displayed_of_longer hkeys hl' hu' hdisplayed' hshows' hshows
        rw [hself] at hinside
        obtain ⟨more, hmore⟩ := s.displayed_path_isPrefix l
        have hindex : l.index = l'.index := show (s.displayed l).index = _ by rw [hinside]
        have hfirst : compare l'.path l.path = .lt := by
          rw [← hmore, hinside, List.append_assoc]
          exact compare_append _ _ _
        rcases compare_locus hlt with hlt | ⟨_, hlt⟩
        · omega
        · rw [Std.OrientedCmp.gt_of_lt hlt] at hfirst
          cases hfirst
  · omega
  · omega

/-- Whether a line has the numbers of positions, counted from one, in the middle of what
is displayed of them, as far as there is room. -/
structure Labels (s : Signature) (loci : List Locus) (row : List Char) : Prop where
  /-- The number of a position is in its column unless that of a later one is. -/
  shown : ∀ j l, loci[j]? = some l → ∃ c, s.centre? l = some c ∧
    (row[c]? = some (Nat.digitChar (j + 1)) ↔
      ∀ k l', j < k → loci[k]? = some l' → s.centre? l' ≠ some c)
  /-- Nothing else is on the line. -/
  space : ∀ c, (∀ l ∈ loci, s.centre? l ≠ some c) → ∀ ch ∈ row[c]?, ch = ' '
  /-- Positions meet if they are displayed as one. -/
  meet : ∀ l ∈ loci, ∀ l' ∈ loci, s.displayed l = s.displayed l' → s.centre? l = s.centre? l'
  /-- Positions that meet are hidden in one record, or the first is around the
  second. -/
  apart : loci.Pairwise fun l l' => s.centre? l = s.centre? l' → s.Hides l l' ∨ s.Encloses l l'
  /-- So if no two positions are displayed as one and no variable is applied, every
  number is there. -/
  all : (loci.Pairwise fun l l' => s.displayed l ≠ s.displayed l') →
    (∀ l ∈ loci, ∃ name, s.typeAt? l = some (.var name [])) → ∀ j l, loci[j]? = some l →
    ∃ c, s.centre? l = some c ∧ row[c]? = some (Nat.digitChar (j + 1))

theorem labels_of_numbers (hnames : ∀ n ∈ s.names, isWord n = true)
    (hkeys : ∀ t ∈ s.types, t.KeysApart) {loci : List Locus}
    (hsorted : loci.Pairwise fun l l' => compare l l' = .lt)
    (hvar : ∀ l ∈ loci, ∃ name params, s.typeAt? l = some (.var name params))
    {row : List Char} (hfew : loci.length < 10)
    (hrow : Report.Numbers row (loci.filterMap s.centre?)) :
    s.Labels loci row := by
  have hcentre : ∀ l ∈ loci, (s.centre? l).isSome = true := by
    intro l hl
    obtain ⟨name, params, hat⟩ := hvar l hl
    obtain ⟨u, _, _, _, _, _, hspan⟩ := span?_eq hkeys hat
    rw [centre?, hspan]
    rfl
  have hget := getElem?_filterMap hcentre
  have hfew : (loci.filterMap s.centre?).length < 10 :=
    Nat.lt_of_le_of_lt (List.length_filterMap_le _ _) hfew
  have hshown : ∀ j l, loci[j]? = some l → ∃ c, s.centre? l = some c ∧
      (row[c]? = some (Nat.digitChar (j + 1)) ↔
        ∀ k l', j < k → loci[k]? = some l' → s.centre? l' ≠ some c) := by
    intro j l hj
    obtain ⟨c, hc⟩ := Option.isSome_iff_exists.1 (hcentre l (List.mem_of_getElem? hj))
    refine ⟨c, hc, ?_⟩
    rw [hrow.getElem?_eq_iff hfew (by rw [hget, hj]; exact hc)]
    refine forall_congr' fun k => ⟨fun hne l' hjk hk heq => ?_, fun hne hjk heq => ?_⟩
    · exact hne hjk (by rw [hget, hk]; exact heq)
    · rw [hget] at heq
      obtain ⟨l', hk, heq⟩ := Option.bind_eq_some_iff.1 heq
      exact hne l' hjk hk heq
  have hapart : loci.Pairwise fun l l' =>
      s.centre? l = s.centre? l' → s.Hides l l' ∨ s.Encloses l l' := by
    refine hsorted.imp_of_mem fun {l l'} hl hl' hlt hsame => ?_
    obtain ⟨_, _, hat⟩ := hvar l hl
    obtain ⟨_, _, hat'⟩ := hvar l' hl'
    exact hides_or_encloses hnames hkeys hat hat' hlt hsame
  refine ⟨hshown, fun c hc => ?_, fun l hl l' hl' heq => ?_, hapart,
    fun hdisplayed hplain j l hj => ?_⟩
  · refine hrow.space c fun hmem => ?_
    obtain ⟨l, hl, heq⟩ := List.mem_filterMap.1 hmem
    exact hc l hl heq
  · obtain ⟨_, _, hat⟩ := hvar l hl
    obtain ⟨_, _, hat'⟩ := hvar l' hl'
    exact centre?_of_displayed_eq hkeys hat hat' heq
  · obtain ⟨c, hc, hiff⟩ := hshown j l hj
    refine ⟨c, hc, hiff.2 fun k l' hjk hk heq => ?_⟩
    obtain ⟨hjlt, rfl⟩ := List.getElem?_eq_some_iff.1 hj
    obtain ⟨hklt, rfl⟩ := List.getElem?_eq_some_iff.1 hk
    rcases List.pairwise_iff_getElem.1 hapart j k hjlt hklt hjk (hc.trans heq.symm) with
      ⟨hsame, _⟩ | ⟨⟨name, params, hat, hne⟩, _⟩
    · exact List.pairwise_iff_getElem.1 hdisplayed j k hjlt hklt hjk hsame
    · obtain ⟨name', hat'⟩ := hplain _ (List.getElem_mem hjlt)
      cases hat.symm.trans hat'
      exact hne rfl

end Signature

/-! ## Reports on variables -/

theorem Failure.exists_labels {s : Signature} (hnames : ∀ n ∈ s.names, isWord n = true)
    (hkeys : ∀ t ∈ s.types, t.KeysApart) {name : String}
    {observations : List (Locus × List Value)}
    (hlocates : s.Locates (.typeVariableViolation name observations))
    (hsorted : (Failure.typeVariableViolation name observations).Sorted)
    (hne : observations ≠ []) (hfew : observations.length < 10) (h : Heap)
    (env : List Ty) :
    ∃ row,
      ((Failure.typeVariableViolation name observations).diagnostic h s env).line? 4 = some row ∧
      s.Labels (observations.map (·.1)) row := by
  have hloci : ∀ l ∈ observations.map (·.1),
      ∃ name params, s.typeAt? l = some (.var name params) := by
    intro l hl
    obtain ⟨p, hp, rfl⟩ := List.mem_map.1 hl
    exact ⟨name, hlocates p hp⟩
  have hfew : (observations.map (·.1)).length < 10 := by rwa [List.length_map]
  have hrow := Report.numbers_marksAt s hfew
  have hcolumns : ((observations.map (·.1)).filterMap s.span?).map Span.centre =
      (observations.map (·.1)).filterMap s.centre? := List.map_filterMap
  rw [hcolumns] at hrow
  have hlabels := Signature.labels_of_numbers hnames hkeys hsorted hloci hfew hrow
  refine ⟨_, ?_, hlabels⟩
  have hcolumns : ((observations.map (·.1)).filterMap s.centre?).length < 10 :=
    Nat.lt_of_le_of_lt (List.length_filterMap_le _ _) hfew
  have hends := hrow.endsVisibly hcolumns (by
    obtain ⟨p, rest, rfl⟩ := List.exists_cons_of_ne_nil hne
    obtain ⟨c, hc, _⟩ := hlabels.shown 0 p.1 rfl
    exact List.ne_nil_of_mem (List.mem_filterMap.2 ⟨p.1, by simp, hc⟩))
  have hmarks : Report.marksAt s (observations.map (·.1)) ≠ [] := by
    intro hnil
    rw [hnil] at hends
    exact hends.ne_nil rfl
  have htitle := isInline_title hnames (fun l hl => hlocates.typeAt? hl) h env
  obtain ⟨rest, htext⟩ := Report.exists_lines_text htitle s
  change (lines ((report h s env (.typeVariableViolation name observations)).text s).toList)[4]? = _
  rw [htext, report,
    Report.lines_annotate_of_marks (Signature.isLegible_format hnames).inline hmarks,
    if_neg (by simpa using hends.ne_nil), (hrow.isInline hcolumns).lines_append]
  simp only [List.map_cons, trimEnd_of_endsVisibly hends]
  rfl

theorem Report.getElem?_blocksOf {h : Heap} {env : List Ty} {seen : List (List Value)}
    {j : Nat} {values : List Value} (hj : seen[j]? = some values) :
    (blocksOf h env seen)[j]? = some (block h env (j + 1) values) := by
  rw [blocksOf, List.getElem?_map, List.getElem?_zipIdx, hj]
  simp

namespace Scope

variable {s : Scope}

/-- A check that fails does so at some position. -/
theorem loci_ne_nil_satisfy {t : Ty} {locus : Locus} {values : List Value}
    {b : Bindings} {f : Failure} (hf : (satisfy s t locus values b).failure? = some f) :
    f.loci ≠ [] := by
  refine (meets_loci (Q := (· ≠ [])) (fun _ => List.cons_ne_nil _ _) (fun b name locus values => ?_)
    t locus values b trivial).2 f hf
  obtain ⟨all, hall, _⟩ := Bindings.exists_mem_observations b name locus values
  exact List.ne_nil_of_mem (List.mem_map.2 ⟨_, hall, rfl⟩)

end Scope

theorem Signature.loci_ne_nil_argumentVerdict {s : Signature} {h : Heap} {env : List Ty}
    {index : Nat} {v : Value} {b : Bindings} {f : Failure}
    (hf : (s.argumentVerdict h env index v b).failure? = some f)
    (hcategory : f.category = .typeVariableViolation) : f.loci ≠ [] := by
  rw [argumentVerdict] at hf
  split at hf
  · cases hf
    cases hcategory
  · exact Scope.loci_ne_nil_satisfy hf

namespace Session

variable {s : Session} {w : World}

/-- Whether a diagnostic on a variable with fewer than ten positions has a numbered
block for the values seen at each of them, and a line with their numbers. -/
def LabelsBlocks (s : Session) (d : Diagnostic) : Prop :=
  d.category = .typeVariableViolation → d.positions.length < 10 →
  ∃ (h : Heap) (name : String) (observations : List (Locus × List Value)) (row : List Char),
    d = s.diagnostic h (.typeVariableViolation name observations) ∧
    (∀ j p, observations[j]? = some p → d.positions[j]? = some p.1 ∧
      (Failure.report h s.signature s.env (.typeVariableViolation name observations)).blocks[j]? =
        some (Report.block h s.env (j + 1) p.2)) ∧
    d.line? 4 = some row ∧ s.signature.Labels d.positions row

theorem labels_diagnostic (hnames : ∀ n ∈ s.signature.names, isWord n = true)
    (hkeys : ∀ t ∈ s.signature.types, t.KeysApart) {f : Failure}
    (hlocates : s.signature.Locates f) (hsorted : f.Sorted)
    (hne : f.category = .typeVariableViolation → f.loci ≠ []) (h : Heap) :
    s.LabelsBlocks (s.diagnostic h f) := by
  intro hcategory hfew
  cases f with
  | typeVariableViolation name observations =>
      have hobserved : observations ≠ [] := fun hnil => hne rfl (by rw [hnil]; rfl)
      have hlength : observations.length < 10 := by
        change (observations.map (·.1)).length < 10 at hfew
        rwa [List.length_map] at hfew
      obtain ⟨row, hline, hlabels⟩ :=
        Failure.exists_labels hnames hkeys hlocates hsorted hobserved hlength h s.env
      refine ⟨h, name, observations, row, rfl, fun j p hj => ⟨?_, ?_⟩, hline, hlabels⟩
      · show (observations.map (·.1))[j]? = _
        rw [List.getElem?_map, hj]
        rfl
      · refine Report.getElem?_blocksOf ?_
        rw [List.getElem?_map, hj]
        rfl
  | invalidValue | typeClassViolation | unrecognizedValue | callbackArity | argumentCount =>
      cases hcategory

theorem Raises.loci_ne_nil {f : Failure} (hf : s.Raises w f)
    (hcategory : f.category = .typeVariableViolation) : f.loci ≠ [] := by
  cases hf with
  | argument failure => exact Signature.loci_ne_nil_argumentVerdict failure hcategory
  | result failure => exact Scope.loci_ne_nil_satisfy failure
  | callback _ _ _ failure => exact Scope.loci_ne_nil_satisfy failure
  | count => exact List.cons_ne_nil _ _

theorem Reports.labels (hnames : ∀ n ∈ s.signature.names, isWord n = true)
    (hkeys : ∀ t ∈ s.signature.types, t.KeysApart) (hused : s.Used w) {d : Diagnostic}
    (hd : s.Reports w d) : s.LabelsBlocks d := by
  obtain ⟨w₁, f, hrun, hf, rfl⟩ := hd
  exact labels_diagnostic hnames hkeys ((hused.run hrun).locates_of_raises hkeys hf) hf.sorted
    hf.loci_ne_nil w₁.heap

/-- However a session is used, if a check on it or on one of its callbacks fails because
a variable with fewer than ten positions cannot be reconciled, then the report has a
block for each position, with its number and the values seen there, and a line below the
carets with these numbers, each in the middle of what is displayed of its position. A
number is missing exactly if a later position is displayed with the same middle, and
then the two are hidden in one record that shows its name only, or the first is that of
a variable applied to parameters and the other is displayed in one of them. So every
number is there if no two positions are displayed as one and the variable is not
applied. The same holds of the arguments that a function takes one after the other
before there is a session. -/
theorem Used.numbers_label_blocks (hnames : ∀ n ∈ s.signature.names, isWord n = true)
    (hkeys : ∀ t ∈ s.signature.types, t.KeysApart) (hused : s.Used w) :
    (∀ index v d w', s.checkArgument index v w = .failed d w' → s.LabelsBlocks d) ∧
    (∀ v d w', s.checkResult v w = .failed d w' → s.LabelsBlocks d) ∧
    (∀ c : Contract, .guarded c ∈ w.code → c.session.state = s.state → ∀ depth args d w',
      c.call (callFunction depth) args w = .failed d w' → s.LabelsBlocks d ∨
        ∃ args' w₁, s.Used w₁ ∧ callFunction depth c.inner args' w₁ = .failed d w') ∧
    ∀ b, s.signature.Learned s.env b → ∀ h index v f,
      (s.signature.argumentVerdict h s.env index v b).failure? = some f →
      s.LabelsBlocks (s.diagnostic h f) := by
  have hm := Signature.maintains_at hkeys s.env
  have hk := hused.keeps hm
  refine ⟨fun index v d w' hfailed => ?_, fun v d w' hfailed => ?_,
    fun c hc hstate depth args d w' hfailed => ?_, fun b hb h index v f hf => ?_⟩
  · obtain ⟨f, hf, hd⟩ := conclude_failed hfailed
    exact Reports.labels hnames hkeys hused ⟨w, f, .refl w, .argument hf, hd⟩
  · obtain ⟨f, hf, hd⟩ := conclude_failed (checkResult_eq_failed hfailed)
    exact Reports.labels hnames hkeys hused ⟨w, f, .refl w, .result hf, hd⟩
  · have hown := (hk.contracts c hc hstate).1
    exact (Contract.call_failed hused hk.kept hown hc hfailed).imp_left
      (Reports.labels hnames hkeys hused)
  · exact labels_diagnostic hnames hkeys (Signature.locates_argument hkeys (hb.known hm) hf)
      (Signature.sorted_argumentVerdict hf) (Signature.loci_ne_nil_argumentVerdict hf) h

/-- Objects with two fields of one type, as a record with a name or without. -/
def pairs (name : Option String) : Ty :=
  .record ⟨name, ""⟩ [] [("x", .var "a" []), ("y", .var "a" [])]

theorem keysApart_takes_pairs (name : Option String) :
    ∀ t ∈ (takes (pairs name)).signature.types, t.KeysApart := by
  have hany : Ty.any.KeysApart := Ty.eachRecord_of_children nofun nofun
  have hvar : (Ty.var "a" []).KeysApart := Ty.eachRecord_of_children nofun nofun
  have hpairs : (pairs name).KeysApart := by
    refine Ty.eachRecord_of_children (fun r supers fields heq => ?_) fun key u hu => ?_
    · obtain ⟨-, -, rfl⟩ := Ty.record.inj heq
      decide
    · rcases List.mem_pair.1 hu with heq | heq
      · cases heq
        exact hvar
      · cases heq
        exact hvar
  simpa [takes, Signature.types] using ⟨hpairs, hany⟩

/-- A world with an object that has `true` in one field and `null` in the other, and a
session. -/
def worldOfPair : World :=
  ⟨⟨#[], #[⟨none, none, .ofList [("x", .bool true), ("y", .null)]⟩]⟩, #[], #[default], ∅⟩

theorem used_worldOfPair (t : Ty) : (takes t).Used worldOfPair :=
  .start (w := { worldOfPair with sessions := #[] }) (fun c hc => by simp [worldOfPair] at hc)
    .nothing rfl

/-- Both fields are displayed, and both numbers are there. -/
theorem Used.numbers_label_blocks_pair :
    ∃ (s : Session) (w w' : World) (v : Value) (d : Diagnostic) (row : List Char),
      (∀ n ∈ s.signature.names, isWord n = true) ∧ (∀ t ∈ s.signature.types, t.KeysApart) ∧
      s.Used w ∧ s.checkArgument 0 v w = .failed d w' ∧ d.category = .typeVariableViolation ∧
      d.positions = [⟨0, ["x"]⟩, ⟨0, ["y"]⟩] ∧
      s.signature.format = "f :: \x7b x :: a, y :: a \x7d -> Any" ∧ d.line? 4 = some row ∧
      row[12]? = some '1' ∧ row[20]? = some '2' := by
  let s := takes (pairs none)
  have hnames : ∀ n ∈ s.signature.names, isWord n = true := by decide +kernel
  have hkeys := keysApart_takes_pairs none
  obtain ⟨d, w', hfailed, hd⟩ := Action.exists_failed_of_failsWith
    (p := fun d : Diagnostic => d.category == .typeVariableViolation &&
      d.positions == [⟨0, ["x"]⟩, ⟨0, ["y"]⟩])
    (m := s.checkArgument 0 (.object 0)) (w := worldOfPair) (by decide +kernel)
  rw [Bool.and_eq_true, beq_iff_eq, beq_iff_eq] at hd
  have hused := used_worldOfPair (pairs none)
  obtain ⟨_, _, _, row, _, _, hline, hlabels⟩ :=
    (hused.numbers_label_blocks hnames hkeys).1 0 (.object 0) d w' hfailed hd.1
      (by rw [hd.2]; decide)
  rw [hd.2] at hlabels
  have hall := hlabels.all (by decide +kernel) (by
    simp only [List.forall_mem_cons]
    exact ⟨⟨"a", rfl⟩, ⟨"a", rfl⟩, nofun⟩)
  have hx : s.signature.centre? ⟨0, ["x"]⟩ = some 12 := by decide +kernel
  have hy : s.signature.centre? ⟨0, ["y"]⟩ = some 20 := by decide +kernel
  obtain ⟨c, hc, hone⟩ := hall 0 _ rfl
  cases hx.symm.trans hc
  obtain ⟨c, hc, htwo⟩ := hall 1 _ rfl
  cases hy.symm.trans hc
  exact ⟨s, worldOfPair, w', .object 0, d, row, hnames, hkeys, hused, hfailed, hd.1, hd.2,
    by decide +kernel, hline, hone, htwo⟩

/-- If the record shows its name only, the number of the first field is missing. -/
theorem not_numbers_label_blocks :
    ∃ (s : Session) (w w' : World) (v : Value) (d : Diagnostic),
      (∀ n ∈ s.signature.names, isWord n = true) ∧ (∀ t ∈ s.signature.types, t.KeysApart) ∧
      s.Used w ∧ s.checkArgument 0 v w = .failed d w' ∧ d.category = .typeVariableViolation ∧
      d.positions.length < 10 ∧
      ¬ ∀ (j : Nat) (l : Locus), d.positions[j]? = some l → ∃ row c, d.line? 4 = some row ∧
        s.signature.centre? l = some c ∧ row[c]? = some (Nat.digitChar (j + 1)) := by
  let s := takes (pairs (some "Point"))
  have hnames : ∀ n ∈ s.signature.names, isWord n = true := by decide +kernel
  have hkeys := keysApart_takes_pairs (some "Point")
  have hused := used_worldOfPair (pairs (some "Point"))
  obtain ⟨d, w', hfailed, hd⟩ := Action.exists_failed_of_failsWith
    (p := fun d : Diagnostic => d.category == .typeVariableViolation &&
      d.positions == [⟨0, ["x"]⟩, ⟨0, ["y"]⟩])
    (m := s.checkArgument 0 (.object 0)) (w := worldOfPair) (by decide +kernel)
  rw [Bool.and_eq_true, beq_iff_eq, beq_iff_eq] at hd
  have hfew : d.positions.length < 10 := by rw [hd.2]; decide
  refine ⟨s, worldOfPair, w', .object 0, d, hnames, hkeys, hused, hfailed, hd.1, hfew,
    fun hall => ?_⟩
  obtain ⟨f, hf, hreport⟩ := conclude_failed hfailed
  obtain ⟨_, _, _, row, _, _, hline, hlabels⟩ :=
    Reports.labels hnames hkeys hused ⟨_, f, .refl _, .argument hf, hreport⟩ hd.1 hfew
  rw [hd.2] at hall hlabels
  obtain ⟨row', c, hline', hc, hnumber⟩ := hall 0 ⟨0, ["x"]⟩ rfl
  obtain ⟨c', hc', hiff⟩ := hlabels.shown 0 ⟨0, ["x"]⟩ rfl
  cases hline.symm.trans hline'
  cases hc.symm.trans hc'
  -- the other field is displayed as the same name
  have hsame : s.signature.centre? ⟨0, ["x"]⟩ = s.signature.centre? ⟨0, ["y"]⟩ := by decide +kernel
  exact hiff.1 hnumber 1 ⟨0, ["y"]⟩ Nat.one_pos rfl (hsame.symm.trans hc)

end Session

end DynamicTypes
