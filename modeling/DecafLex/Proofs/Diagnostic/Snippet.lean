import DecafLex.Diagnostic.Snippet
import DecafLex.Proofs.Scanner.Spans

/-! Diagnostics as they are shown. The rows of an excerpt have their bars one under the other, and the
carets stand under the columns of the span: under the text that the diagnostic is about, where a scan
has reported it. -/
namespace DecafLex

namespace Diagnostic

/-- The index of the bar in each row of an excerpt. -/
def barIndex (line : Nat) : Nat := (toString line).length + 1

/-- The index of a column of the source line in the row that shows it. -/
def columnIndex (line column : Nat) : Nat := barIndex line + 1 + column

/-- The first bar of a row is at the index. -/
def BarAt (row : List Char) (index : Nat) : Prop := '|' ∈ row ∧ row.idxOf '|' = index

/-- The rows of an excerpt. Nothing but its bar stands in the empty one, and the bars of all three are
in the same place. The source line begins behind its bar; carets stand under the columns of the span
and nowhere else, and dashes under those before it. -/
structure Aligned (s : Span) (sourceLine empty source marks : List Char) : Prop where
  bar : BarAt empty (barIndex s.line) ∧ BarAt source (barIndex s.line) ∧ BarAt marks (barIndex s.line)
  empty_eq : empty = List.replicate (barIndex s.line) ' ' ++ ['|']
  source_eq : source = (toString s.line).toList ++ " | ".toList ++ sourceLine
  column : ∀ column, 1 ≤ column → source[columnIndex s.line column]? = sourceLine[column - 1]?
  caret : ∀ i, marks[i]? = some '^' ↔
    ∃ column, s.firstColumn ≤ column ∧ column ≤ s.lastColumn ∧ i = columnIndex s.line column
  dash : ∀ i, marks[i]? = some '-' ↔
    ∃ column, 1 ≤ column ∧ column < s.firstColumn ∧ i = columnIndex s.line column

/-- The characters of a row above the carets of another. -/
def aboveCarets : List Char → List Char → List Char
  | c :: row, mark :: marks =>
    if mark = '^' then c :: aboveCarets row marks else aboveCarets row marks
  | _, _ => []

section
variable {c : Char} {front back : List Char}

theorem getElem?_run (hfront : c ∉ front) (hback : c ∉ back) (count i : Nat) :
    (front ++ (List.replicate count c ++ back))[i]? = some c ↔
      front.length ≤ i ∧ i < front.length + count := by
  rcases Nat.lt_or_ge i front.length with hlt | hge
  · rw [List.getElem?_append_left hlt]
    have hne : front[i]? ≠ some c := fun h => hfront (List.mem_of_getElem? h)
    exact iff_of_false hne (by omega)
  · rw [List.getElem?_append_right hge]
    rcases Nat.lt_or_ge (i - front.length) count with hlt | hge'
    · rw [List.getElem?_append_left (by rwa [List.length_replicate]), List.getElem?_replicate,
        if_pos hlt]
      exact iff_of_true rfl (by omega)
    · rw [List.getElem?_append_right (by rwa [List.length_replicate])]
      have hne : back[i - front.length - (List.replicate count c).length]? ≠ some c :=
        fun h => hback (List.mem_of_getElem? h)
      exact iff_of_false hne (by omega)

theorem aboveCarets_run (h : '^' ∉ front) (count : Nat) (row : List Char) :
    aboveCarets row (front ++ List.replicate count '^') =
      (row.drop front.length).take count := by
  induction front generalizing row with
  | nil =>
    induction count generalizing row with
    | zero => cases row <;> rfl
    | succ count ih =>
      cases row with
      | nil => rfl
      | cons c row => exact congrArg (c :: ·) (ih row)
  | cons mark front ih =>
    obtain ⟨hmark, hfront⟩ := not_or.mp (mt List.mem_cons.mpr h)
    cases row with
    | nil => simp [aboveCarets]
    | cons c row =>
      rw [List.cons_append, aboveCarets, if_neg (Ne.symm hmark), ih hfront row]
      rfl

end

/-- The row above the source line. -/
def emptyRow (line : Nat) : List Char := List.replicate (barIndex line) ' ' ++ ['|']

/-- The row that shows the source line. -/
def sourceRow (line : Nat) (sourceLine : List Char) : List Char :=
  (toString line).toList ++ " | ".toList ++ sourceLine

/-- The row under the source line. -/
def marksRow (s : Span) : List Char :=
  emptyRow s.line ++ " ".toList ++ (List.replicate (s.firstColumn - 1) '-' ++
    List.replicate (s.lastColumn - s.firstColumn + 1) '^')

example : marksRow ⟨10, 3, 4⟩ = "   | --^^".toList := by decide

theorem excerpt_eq {s : Span} (hfirst : 1 ≤ s.firstColumn) (hlast : s.firstColumn ≤ s.lastColumn)
    (sourceLine : List Char) : excerpt s sourceLine =
      [emptyRow s.line, sourceRow s.line sourceLine, marksRow s].map String.ofList := by
  have hgutter : gutter s.line = String.ofList (emptyRow s.line) := rfl
  have hsource : toString s.line ++ " | " ++ String.ofList sourceLine =
      String.ofList (sourceRow s.line sourceLine) := by
    simp only [sourceRow, String.ofList_append, String.ofList_toList]
  have hmarks : gutter s.line ++ " " ++ underline s = String.ofList (marksRow s) := by
    rw [underline, Nat.max_eq_left hfirst, Nat.max_eq_left hlast, hgutter]
    simp only [marksRow, String.ofList_append, String.ofList_toList]
  rw [List.map_cons, List.map_cons, List.map_cons, List.map_nil, ← hsource, ← hmarks, ← hgutter]
  rfl

/-- Line numbers are written in digits, so no bar comes before the one behind them. -/
theorem bar_notMem_toString (line : Nat) : '|' ∉ (toString line).toList := by
  rw [Nat.toString_eq_repr, Nat.toList_repr]
  intro h
  exact absurd (Nat.isDigit_of_mem_toDigits (by decide) (by decide) h) (by decide)

theorem barAt_append {front : List Char} (h : '|' ∉ front) (back : List Char) :
    BarAt (front ++ '|' :: back) front.length := by
  refine ⟨List.mem_append_right _ List.mem_cons_self, ?_⟩
  rw [List.idxOf_append_of_notMem h, List.idxOf_cons_self, Nat.add_zero]

theorem sourceRow_eq (line : Nat) (sourceLine : List Char) : ∃ number, '|' ∉ number ∧
    number.length = barIndex line ∧ sourceRow line sourceLine = number ++ '|' :: ' ' :: sourceLine := by
  refine ⟨(toString line).toList ++ [' '], ?_, ?_, ?_⟩
  · simpa using bar_notMem_toString line
  · rw [List.length_append, String.length_toList]
    rfl
  · simp [sourceRow]

theorem exists_columnIndex {line first stop i : Nat} :
    (∃ column, first ≤ column ∧ column < stop ∧ i = columnIndex line column) ↔
      columnIndex line first ≤ i ∧ i < columnIndex line stop := by
  unfold columnIndex
  constructor
  · rintro ⟨column, hfirst, hstop, rfl⟩
    omega
  · rintro ⟨hfirst, hstop⟩
    exact ⟨i - (barIndex line + 1), by omega, by omega, by omega⟩

/-- What stands in a row before its first column. -/
def lead (line : Nat) : List Char := emptyRow line ++ " ".toList

theorem length_lead (line : Nat) : (lead line).length = columnIndex line 1 := by
  simp [lead, emptyRow, columnIndex]

theorem notMem_lead {c : Char} (line : Nat) (h : c ≠ ' ' ∧ c ≠ '|') : c ∉ lead line := by
  simp [lead, emptyRow, h]

theorem marksRow_dash {s : Span} (hfirst : 1 ≤ s.firstColumn) (i : Nat) :
    (marksRow s)[i]? = some '-' ↔
      ∃ column, 1 ≤ column ∧ column < s.firstColumn ∧ i = columnIndex s.line column := by
  have hlead : '-' ∉ lead s.line := notMem_lead s.line (by decide)
  have hcarets : '-' ∉ List.replicate (s.lastColumn - s.firstColumn + 1) '^' := by simp
  rw [exists_columnIndex, marksRow, ← lead, getElem?_run hlead hcarets, length_lead]
  unfold columnIndex
  omega

theorem marksRow_caret {s : Span} (hfirst : 1 ≤ s.firstColumn) (hlast : s.firstColumn ≤ s.lastColumn)
    (i : Nat) : (marksRow s)[i]? = some '^' ↔
      ∃ column, s.firstColumn ≤ column ∧ column ≤ s.lastColumn ∧ i = columnIndex s.line column := by
  have hlead : '^' ∉ lead s.line ++ List.replicate (s.firstColumn - 1) '-' := by
    simp [notMem_lead]
  have hrun := getElem?_run hlead (List.not_mem_nil (a := '^')) (s.lastColumn - s.firstColumn + 1) i
  have hcolumns := @exists_columnIndex s.line s.firstColumn (s.lastColumn + 1) i
  simp only [Nat.lt_succ_iff] at hcolumns
  rw [List.append_nil, List.length_append, length_lead, List.length_replicate] at hrun
  rw [hcolumns, marksRow, ← lead, ← List.append_assoc, hrun]
  unfold columnIndex
  omega

theorem aligned_rows {s : Span} (hfirst : 1 ≤ s.firstColumn) (hlast : s.firstColumn ≤ s.lastColumn)
    (sourceLine : List Char) :
    Aligned s sourceLine (emptyRow s.line) (sourceRow s.line sourceLine) (marksRow s) := by
  have hspaces : '|' ∉ List.replicate (barIndex s.line) ' ' := by simp
  have hempty (back : List Char) : BarAt (emptyRow s.line ++ back) (barIndex s.line) := by
    have hbar := barAt_append hspaces back
    rwa [List.length_replicate, ← List.singleton_append, ← List.append_assoc] at hbar
  obtain ⟨number, hnumber, hlength, hsource⟩ := sourceRow_eq s.line sourceLine
  refine ⟨⟨?_, ?_, ?_⟩, rfl, rfl, ?_, marksRow_caret hfirst hlast, marksRow_dash hfirst⟩
  · rw [← List.append_nil (emptyRow s.line)]
    exact hempty []
  · rw [hsource, ← hlength]
    exact barAt_append hnumber _
  · rw [marksRow, List.append_assoc]
    exact hempty _
  · intro column hcolumn
    obtain ⟨n, rfl⟩ := Nat.exists_eq_add_of_le' hcolumn
    rw [hsource, columnIndex, ← hlength, List.getElem?_append_right (by omega),
      show number.length + 1 + (n + 1) - number.length = n + 2 by omega]
    rfl

/-- What comes before the excerpt: the headline and the place. -/
def head (d : Diagnostic) (file : String) : List String :=
  [d.headline, s!"-> {file}:{d.span.line}:{d.span.firstColumn}"]

/-- The diagnostic is shown with an excerpt in which `marks` underlines the row `source`. -/
def ShownWith (d : Diagnostic) (text file : String) (sourceLine source marks : List Char) : Prop :=
  ∃ empty, d.render text file =
      Text.unlines (d.head file ++ [empty, source, marks].map String.ofList) ∧
    Aligned d.span sourceLine empty source marks

variable {d : Diagnostic} {source : String}

theorem render_of_none (file : String) (h : Text.line? source.toList d.span.line = none) :
    d.render source file = Text.unlines (d.head file) := by
  rw [render, rows, h]
  rfl

theorem shownWith_of_some (file : String) {sourceLine : List Char}
    (hfirst : 1 ≤ d.span.firstColumn) (hlast : d.span.firstColumn ≤ d.span.lastColumn)
    (h : Text.line? source.toList d.span.line = some sourceLine) :
    d.ShownWith source file sourceLine (sourceRow d.span.line sourceLine) (marksRow d.span) := by
  refine ⟨emptyRow d.span.line, ?_, aligned_rows hfirst hlast sourceLine⟩
  rw [render, rows, h]
  dsimp only
  rw [excerpt_eq hfirst hlast]
  rfl

/-- The carets stand under the columns of the span. -/
theorem aboveCarets_rows (s : Span) (sourceLine : List Char) :
    aboveCarets (sourceRow s.line sourceLine) (marksRow s) =
      (sourceLine.drop (s.firstColumn - 1)).take (s.lastColumn - s.firstColumn + 1) := by
  have hlead : '^' ∉ lead s.line ++ List.replicate (s.firstColumn - 1) '-' := by
    simp [notMem_lead]
  obtain ⟨number, -, hlength, hsource⟩ := sourceRow_eq s.line sourceLine
  have hcolumns : sourceRow s.line sourceLine = (number ++ ['|', ' ']) ++ sourceLine := by
    rw [hsource, List.append_assoc]
    rfl
  have hbegin : (lead s.line).length = (number ++ ['|', ' ']).length := by
    rw [length_lead, columnIndex, List.length_append, hlength]
    rfl
  rw [marksRow, ← lead, ← List.append_assoc, aboveCarets_run hlead, List.length_append,
    List.length_replicate, hcolumns, ← List.drop_drop, hbegin, List.drop_left]

end Diagnostic

namespace Scanner

/-- What a scan reports or fails with points at its text. -/
theorem pointsAt_of_reported {config : Config} {source : String} {d : Diagnostic}
    (h : d ∈ (ofSource config source).drain.2.diagnostics.toList ∨
      tokenize config source = .error d) :
    d.span.PointsAt source.toList d.problem.offending.toList := by
  obtain ⟨segments, s', hrun, hdrain, htokenize⟩ := exists_runs_ofSource config source
  have hdiagnostics : s'.diagnostics.toList = segments.filterMap Segment.diagnostic? :=
    hrun.diagnostics
  have hreported : d ∈ segments.filterMap Segment.diagnostic? := by
    rcases h with h | h
    · rw [hdrain] at h
      exact hdiagnostics ▸ h
    -- What a scan fails with is the diagnostic of its last segment.
    · rcases hrun.fatal rfl with ⟨hfatal, -⟩ | ⟨before, front, d', rfl, -, hfatal⟩
      · rw [htokenize, last, hfatal] at h
        cases h
      · rw [htokenize, last_of_fatal hfatal] at h
        obtain rfl := Except.error.inj h
        simp [Segment.diagnostic?]
  obtain ⟨segment, hmem, hd⟩ := List.mem_filterMap.mp hreported
  have hemission : segment.emission? = some (.diagnostic d) := by
    cases segment <;> cases hd
    · rfl
    · rfl
  exact hrun.pointsAt rfl (List.mem_filterMap.mpr ⟨segment, hmem, hemission⟩)

end Scanner

namespace Diagnostic

/-- A diagnostic is shown by its headline and place alone where the source has no such line. Where it
has, the line follows between two rows, the bars of all three one under the other, with carets exactly
under the columns of the span. If a scan of the source has reported it, or failed with it, the line is
there, and the characters above the carets are the text that the diagnostic is about. -/
theorem render_aligned (source file : String) :
    (∀ d : Diagnostic, 1 ≤ d.span.firstColumn → d.span.firstColumn ≤ d.span.lastColumn →
      match Text.line? source.toList d.span.line with
      | none => d.render source file = Text.unlines (d.head file)
      | some sourceLine => ∃ row marks, d.ShownWith source file sourceLine row marks) ∧
    ∀ (config : Config) (d : Diagnostic),
      d ∈ (Scanner.ofSource config source).drain.2.diagnostics.toList ∨
        tokenize config source = .error d →
      ∃ sourceLine row marks, Text.line? source.toList d.span.line = some sourceLine ∧
        d.ShownWith source file sourceLine row marks ∧
        aboveCarets row marks = d.problem.offending.toList := by
  constructor
  · intro d hfirst hlast
    split
    next hnone => exact render_of_none file hnone
    next sourceLine hsome => exact ⟨_, _, shownWith_of_some file hfirst hlast hsome⟩
  · intro config d hreported
    obtain ⟨sourceLine, hline, hfirst, hlast, -, htext⟩ := Scanner.pointsAt_of_reported hreported
    refine ⟨sourceLine, _, _, hline, shownWith_of_some file hfirst hlast hline, ?_⟩
    rw [aboveCarets_rows, htext]

end Diagnostic
end DecafLex
