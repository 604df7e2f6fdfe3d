import DecafLex.Text.Lines
import Mathlib.Data.List.DropRight

/-! The lines of a text by number. None holds a newline, and joined by newlines they give the text back.
A cut of the text is a cut of the line that has as many newlines above it. -/
namespace DecafLex.Text

/-- A text is a line, or a line and the text below it. -/
@[elab_as_elim]
theorem line_induction {motive : List Char → Prop} (last : ∀ line, '\n' ∉ line → motive line)
    (above : ∀ line below, '\n' ∉ line → motive below → motive (line ++ '\n' :: below))
    (text : List Char) : motive text := by
  induction hn : text.length using Nat.strong_induction_on generalizing text with
  | _ n ih =>
    subst hn
    by_cases h : '\n' ∈ text
    · obtain ⟨line, below, rfl, hline⟩ := List.eq_append_cons_of_mem h
      rw [List.length_append, List.length_cons] at ih
      exact above line below hline (ih below.length (by omega) below rfl)
    · exact last text h

theorem count_append_newline {line : List Char} (h : '\n' ∉ line) (below : List Char) :
    (line ++ '\n' :: below).count '\n' = below.count '\n' + 1 := by
  rw [List.count_append, List.count_eq_zero_of_not_mem h, Nat.zero_add, List.count_cons_self]

theorem forall_bne_newline {text : List Char} (h : '\n' ∉ text) : ∀ c ∈ text, (c != '\n') = true :=
  fun _ hc => bne_iff_ne.mpr (ne_of_mem_of_not_mem hc h)

/-- The part of a text before its first newline. -/
def firstLine (text : List Char) : List Char := text.takeWhile (· != '\n')

theorem firstLine_append {line : List Char} (h : '\n' ∉ line) (rest : List Char) :
    firstLine (line ++ rest) = line ++ firstLine rest :=
  List.takeWhile_append_of_pos (forall_bne_newline h)

theorem firstLine_of_notMem {line : List Char} (h : '\n' ∉ line) : firstLine line = line := by
  simpa [firstLine] using firstLine_append h []

theorem firstLine_append_newline {line : List Char} (h : '\n' ∉ line) (below : List Char) :
    firstLine (line ++ '\n' :: below) = line := by
  simpa [firstLine] using firstLine_append h ('\n' :: below)

theorem newline_notMem_firstLine (text : List Char) : '\n' ∉ firstLine text := by
  intro h
  simpa using List.mem_takeWhile_imp h

theorem exists_below {text : List Char} (h : '\n' ∈ text) :
    ∃ below, text = firstLine text ++ '\n' :: below := by
  obtain ⟨line, below, rfl, hline⟩ := List.eq_append_cons_of_mem h
  exact ⟨below, by rw [firstLine_append_newline hline]⟩

/-- The part of a text after its last newline. -/
def lastLine (text : List Char) : List Char := text.rtakeWhile (· != '\n')

theorem lastLine_concat (text : List Char) (c : Char) :
    lastLine (text ++ [c]) = if c = '\n' then [] else lastLine text ++ [c] := by
  by_cases hc : c = '\n' <;> simp [lastLine, hc]

theorem lastLine_of_notMem {text : List Char} (h : '\n' ∉ text) : lastLine text = text :=
  List.rtakeWhile_eq_self_iff.mpr (forall_bne_newline h)

theorem lastLine_append_newline (line below : List Char) :
    lastLine (line ++ '\n' :: below) = lastLine below := by
  induction below using List.reverseRecOn with
  | nil => exact (lastLine_concat line '\n').trans (if_pos rfl)
  | append_singleton below c ih =>
    rw [← List.cons_append, ← List.append_assoc, lastLine_concat, lastLine_concat, ih]

theorem lines_of_notMem {line : List Char} (h : '\n' ∉ line) : lines line = [line] :=
  List.splitOn_eq_singleton h

theorem lines_append_newline {line : List Char} (h : '\n' ∉ line) (below : List Char) :
    lines (line ++ '\n' :: below) = line :: lines below :=
  List.splitOn_append_cons_self_of_not_mem h below

theorem intercalate_lines (text : List Char) : ['\n'].intercalate (lines text) = text :=
  List.intercalate_splitOn '\n'

theorem length_lines (text : List Char) : (lines text).length = text.count '\n' + 1 := by
  induction text using line_induction with
  | last line hline =>
    rw [lines_of_notMem hline, List.count_eq_zero_of_not_mem hline, List.length_singleton]
  | above line below hline ih =>
    rw [lines_append_newline hline, List.length_cons, ih, count_append_newline hline]

theorem newline_notMem_of_mem_lines {text line : List Char} (h : line ∈ lines text) :
    '\n' ∉ line := by
  induction text using line_induction with
  | last first hfirst =>
    rw [lines_of_notMem hfirst] at h
    rwa [List.mem_singleton.mp h]
  | above first below hfirst ih =>
    rw [lines_append_newline hfirst] at h
    rcases List.mem_cons.mp h with rfl | h
    · exact hfirst
    · exact ih h

private theorem lines_head? (text : List Char) : (lines text)[0]? = some (firstLine text) := by
  induction text using line_induction with
  | last line hline =>
    rw [lines_of_notMem hline, firstLine_of_notMem hline]
    rfl
  | above line below hline _ =>
    rw [lines_append_newline hline, firstLine_append_newline hline]
    rfl

/-- The line that a cut of the text falls in: what stands on it before and after the cut. -/
theorem lines_getElem?_count (before after : List Char) :
    (lines (before ++ after))[before.count '\n']? =
      some (lastLine before ++ firstLine after) := by
  induction before using line_induction with
  | last line hline =>
    rw [List.count_eq_zero_of_not_mem hline, lines_head?, firstLine_append hline,
      lastLine_of_notMem hline]
  | above line below hline ih =>
    rw [List.append_assoc, List.cons_append, lines_append_newline hline, count_append_newline hline,
      List.getElem?_cons_succ, ih, lastLine_append_newline]

theorem getLast?_lines (text : List Char) : (lines text).getLast? = some (lastLine text) := by
  have hline := lines_getElem?_count text []
  rwa [List.append_nil, firstLine, List.takeWhile_nil, List.append_nil,
    show text.count '\n' = (lines text).length - 1 by rw [length_lines, Nat.add_sub_cancel],
    ← List.getLast?_eq_getElem?] at hline

/-- What stands above a line holds a newline for each line there, and nothing behind the last of them. -/
theorem exists_above {text line : List Char} {n : Nat} (h : (lines text)[n]? = some line) :
    ∃ above below, text = above ++ (line ++ below) ∧ above.count '\n' = n ∧ lastLine above = [] := by
  induction text using line_induction generalizing n with
  | last first hfirst =>
    rw [lines_of_notMem hfirst] at h
    cases n with
    | zero =>
      obtain rfl : first = line := Option.some.inj h
      exact ⟨[], [], (List.append_nil _).symm, rfl, rfl⟩
    | succ n => cases h
  | above first rest hfirst ih =>
    rw [lines_append_newline hfirst] at h
    cases n with
    | zero =>
      obtain rfl : first = line := Option.some.inj h
      exact ⟨[], '\n' :: rest, rfl, rfl, rfl⟩
    | succ n =>
      obtain ⟨above, below, rfl, rfl, hlast⟩ := ih h
      refine ⟨first ++ '\n' :: above, below, ?_, count_append_newline hfirst above, ?_⟩
      · rw [List.append_assoc, List.cons_append]
      · rw [lastLine_append_newline, hlast]

theorem isSome_line?_iff (text : List Char) (n : Nat) :
    (line? text n).isSome ↔ 1 ≤ n ∧ n ≤ text.count '\n' + 1 := by
  cases n with
  | zero => simp [line?]
  | succ n =>
    rw [line?, Option.isSome_iff_ne_none, ne_eq, List.getElem?_eq_none_iff, length_lines]
    omega

theorem newline_notMem_of_line? {text line : List Char} {n : Nat} (h : line? text n = some line) :
    '\n' ∉ line := by
  cases n with
  | zero => cases h
  | succ n => exact newline_notMem_of_mem_lines (List.mem_of_getElem? h)

/-- The lines in the order of their numbers. -/
theorem filterMap_line? (text : List Char) :
    (List.range' 1 (text.count '\n' + 1)).filterMap (line? text) = lines text := by
  have hmap : (List.range' 1 (text.count '\n' + 1)).map (line? text) = (lines text).map some := by
    apply List.ext_getElem
    · rw [List.length_map, List.length_map, List.length_range', length_lines]
    · intro n hn hlines
      rw [List.length_map] at hlines
      rw [List.getElem_map, List.getElem_map, List.getElem_range', Nat.one_mul, Nat.add_comm, line?,
        List.getElem?_eq_getElem hlines]
  calc (List.range' 1 (text.count '\n' + 1)).filterMap (line? text)
    _ = ((List.range' 1 (text.count '\n' + 1)).map (line? text)).filterMap id := by
      rw [List.filterMap_map, Function.id_comp]
    _ = ((lines text).map some).filterMap id := by rw [hmap]
    _ = lines text := by rw [List.filterMap_map, Function.id_comp, List.filterMap_some]

end DecafLex.Text
