import DynamicTypes.Report
import Mathlib.Data.List.Basic

/-!
# Reading the lines of a report

A report is put together as one text and its lines are trimmed at the very end, so
what a reader sees as the third line is not a part that anybody wrote down as such. Here
texts are read line by line. A text that is set before a line feed is the first line if
it has no line feed itself; trimming changes none of that, since it goes line by line too,
and it leaves alone a line that ends in something to be seen.
-/

namespace DynamicTypes

namespace Text

/-- Whether a text has no blanks but spaces, so that it fits on a line. -/
def IsInline (s : List Char) : Prop := ∀ c ∈ s, isBlank c = true → c = ' '

/-- Whether a text ends in a character that is not a blank. -/
def EndsVisibly (s : List Char) : Prop := ∃ c ∈ s.getLast?, isBlank c = false

/-- Whether a text is not empty and free of blanks. -/
def isWord (s : String) : Bool := !s.toList.isEmpty && s.toList.all (!isBlank ·)

variable {s t : List Char} {c : Char}

/-! ## Texts on a line -/

theorem IsInline.append (hs : IsInline s) (ht : IsInline t) : IsInline (s ++ t) := by
  intro c hc
  rcases List.mem_append.1 hc with hc | hc
  · exact hs c hc
  · exact ht c hc

theorem IsInline.ne_newline (hs : IsInline s) (hc : c ∈ s) : c ≠ '\n' := by
  intro heq
  subst heq
  exact absurd (hs _ hc rfl) (by decide)

theorem IsInline.ne_return (hs : IsInline s) (hc : c ∈ s) : c ≠ '\r' := by
  intro heq
  subst heq
  exact absurd (hs _ hc rfl) (by decide)

theorem isInline_of_isWord {name : String} (hname : isWord name = true) :
    IsInline name.toList := by
  simp only [isWord, Bool.and_eq_true, List.all_eq_true, Bool.not_eq_true'] at hname
  intro c hc hblank
  rw [hname.2 c hc] at hblank
  cases hblank

theorem endsVisibly_of_isWord {name : String} (hname : isWord name = true) :
    EndsVisibly name.toList := by
  simp only [isWord, Bool.and_eq_true, List.all_eq_true, Bool.not_eq_true',
    List.isEmpty_eq_false_iff] at hname
  exact ⟨name.toList.getLast hname.1, List.getLast?_eq_getLast_of_ne_nil hname.1,
    hname.2 _ (List.getLast_mem hname.1)⟩

theorem EndsVisibly.append (ht : EndsVisibly t) (s : List Char) :
    EndsVisibly (s ++ t) := by
  obtain ⟨c, hc, hvisible⟩ := ht
  refine ⟨c, ?_, hvisible⟩
  rw [Option.mem_def] at hc ⊢
  rw [List.getLast?_append, hc]
  rfl

theorem EndsVisibly.ne_nil (hs : EndsVisibly s) : s ≠ [] := by
  intro hnil
  subst hnil
  obtain ⟨c, hc, _⟩ := hs
  cases hc

/-! ## Trimming -/

theorem trimEnd_of_endsVisibly (hs : EndsVisibly s) : trimEnd s = s := by
  obtain ⟨c, hc, hvisible⟩ := hs
  obtain ⟨front, rfl⟩ := List.getLast?_eq_some_iff.1 hc
  simp [trimEnd, hvisible]

theorem mem_of_mem_trimEnd (hc : c ∈ trimEnd s) : c ∈ s := by
  rw [trimEnd, List.mem_reverse] at hc
  exact List.mem_reverse.1 ((List.dropWhile_sublist _).subset hc)

/-- What is left after trimming does not end in a blank. -/
theorem getLast?_trimEnd (hc : c ∈ (trimEnd s).getLast?) : isBlank c = false := by
  rw [trimEnd, List.getLast?_reverse, Option.mem_def] at hc
  have hdropped := List.head?_dropWhile_not isBlank s.reverse
  rw [hc] at hdropped
  simpa using hdropped

/-! ## Lines -/

/-- A character that does not end a line belongs to the first one. -/
theorem lines_cons (hc : c ≠ '\n') (hreturn : c = '\r' → s.head? ≠ some '\n') :
    lines (c :: s) = onFirstLine c (lines s) := by
  rw [lines.eq_def]
  split
  · next heq => cases heq
  · next heq =>
      cases heq
      exact absurd rfl hc
  · next heq =>
      cases heq
      exact absurd rfl (hreturn rfl)
  · next heq =>
      cases heq
      rfl

/-- A text without line feeds and carriage returns before a line feed is a line. -/
theorem lines_append (hnewline : '\n' ∉ s) (hreturn : '\r' ∉ s.getLast?)
    (t : List Char) :
    lines (s ++ '\n' :: t) = s :: lines t := by
  induction s with
  | nil => rfl
  | cons c s ih =>
      rw [List.mem_cons, not_or] at hnewline
      have htail : '\r' ∉ s.getLast? := by
        intro hmem
        apply hreturn
        rw [Option.mem_def] at hmem ⊢
        rw [List.getLast?_cons, hmem]
        rfl
      rw [List.cons_append, lines_cons (Ne.symm hnewline.1), ih hnewline.2 htail]
      · rfl
      · intro hc hhead
        subst hc
        cases s with
        | nil => exact hreturn rfl
        | cons d s =>
            rw [List.cons_append, List.head?_cons, Option.some.injEq] at hhead
            exact hnewline.2 (hhead ▸ List.mem_cons_self)

theorem IsInline.lines_append (hs : IsInline s) (t : List Char) :
    lines (s ++ '\n' :: t) = s :: lines t := by
  refine Text.lines_append (fun hmem => hs.ne_newline hmem rfl) (fun hmem => ?_) t
  exact hs.ne_return (List.mem_of_getLast? hmem) rfl

theorem not_mem_lines {line : List Char} (hline : line ∈ lines s) : '\n' ∉ line := by
  induction s using lines.induct generalizing line with
  | case1 => cases hline
  | case2 rest ih =>
      rw [lines] at hline
      rcases List.mem_cons.1 hline with rfl | hline
      · exact List.not_mem_nil
      · exact ih hline
  | case3 rest ih =>
      rw [lines] at hline
      rcases List.mem_cons.1 hline with rfl | hline
      · exact List.not_mem_nil
      · exact ih hline
  | case4 c rest hnewline hreturn ih =>
      have hc : c ≠ '\n' := hnewline
      have hhead : c = '\r' → rest.head? ≠ some '\n' := by
        intro heq hhead
        obtain ⟨rest', hrest⟩ := List.head?_eq_some_iff.1 hhead
        exact hreturn rest' heq hrest
      rw [lines_cons hc hhead] at hline
      cases hlines : lines rest with
      | nil =>
          rw [hlines, onFirstLine, List.mem_singleton] at hline
          simp [hline, Ne.symm hc]
      | cons first others =>
          rw [hlines, onFirstLine] at hline
          rw [hlines] at ih
          rcases List.mem_cons.1 hline with rfl | hline
          · simp [Ne.symm hc, ih List.mem_cons_self]
          · exact ih (List.mem_cons_of_mem _ hline)

end Text

namespace Report

open Text

/-- Tidying trims the lines of a text and leaves them where they are. -/
theorem lines_tidy (text : String) :
    lines (tidy text).toList = (lines text.toList).map trimEnd := by
  have hall : ∀ ls : List (List Char), (∀ l ∈ ls, '\n' ∉ l) →
      lines (ls.flatMap fun l => trimEnd l ++ ['\n']) = ls.map trimEnd := by
    intro ls hls
    induction ls with
    | nil => rfl
    | cons l ls ih =>
        rw [List.forall_mem_cons] at hls
        have hnewline : '\n' ∉ trimEnd l := fun hmem => hls.1 (mem_of_mem_trimEnd hmem)
        have hreturn : '\r' ∉ (trimEnd l).getLast? := fun hmem =>
          absurd (getLast?_trimEnd hmem) (by decide)
        rw [List.flatMap_cons, List.append_assoc, List.singleton_append,
          lines_append hnewline hreturn, ih hls.2, List.map_cons]
  rw [tidy, String.toList_ofList]
  exact hall _ fun l hl => not_mem_lines hl

/-- A report starts with its title, an empty line, and the lines of the marked
signature. -/
theorem exists_lines_text {r : Report} (htitle : IsInline r.title.toList)
    (signature : Signature) :
    ∃ rest, lines (r.text signature).toList =
      (r.title.toList :: [] ::
        lines ((annotate signature.format r.marks).toList ++ '\n' :: rest)).map trimEnd := by
  let reading := r.reading.map fun p => "See " ++ p.1 ++ " for information about " ++ p.2 ++ "."
  have htext : r.text signature = tidy ("\n\n".intercalate
      (r.title :: annotate signature.format r.marks ::
        (r.blocks ++ [r.explanation] ++ reading.toList))) := by
    simp only [Report.text, List.cons_append, List.nil_append, reading]
  obtain ⟨next, others, hothers⟩ : ∃ next others,
      r.blocks ++ [r.explanation] ++ reading.toList = next :: others :=
    List.exists_cons_of_ne_nil (by simp)
  rw [htext, lines_tidy, hothers, String.intercalate_cons_cons, String.intercalate_cons_cons]
  refine ⟨'\n' :: ("\n\n".intercalate (next :: others)).toList, congrArg (List.map trimEnd) ?_⟩
  have hbreak : "\n\n".toList = ['\n', '\n'] := rfl
  simp only [String.toList_append, hbreak, List.append_assoc, List.cons_append, List.nil_append]
  rw [htitle.lines_append]
  rfl

end Report

end DynamicTypes
