import DecafLex.Proofs.Checked.Position

/-! Texts consumed in chunks. However a text is cut, the chunks lead to the place that the whole text
leads to. The place that a chunk covers is that of its first line, as long as it does not leave it. -/
namespace DecafLex

namespace Checked

/-- Reads chunks one after the other. -/
def advanceAll (limit : Nat) (p : Position) : List (List Char) → Checked Position
  | [] => .ok p
  | chunk :: chunks => do
    let (p, _) ← advance limit p chunk
    advanceAll limit p chunks

theorem gives_advanceAll {limit bound : Nat} {p : Position} {chunks : List (List Char)}
    (h : p.Fits bound chunks.flatten) :
    Gives limit bound (advanceAll limit p chunks) (p.advance chunks.flatten) := by
  induction chunks generalizing p with
  | nil => exact gives_ok ..
  | cons chunk chunks ih =>
    rw [List.flatten_cons] at h ⊢
    obtain ⟨hchunk, hchunks⟩ := Position.fits_append.mp h
    rw [Position.advance_append]
    exact (gives_advance hchunk).bind (ih hchunks)

end Checked

namespace Position
open Text

theorem foldl_advance (p : Position) (chunks : List (List Char)) :
    chunks.foldl advance p = p.advance chunks.flatten := by
  induction chunks generalizing p with
  | nil => rfl
  | cons chunk chunks ih => rw [List.foldl_cons, List.flatten_cons, advance_append, ih]

/-- A text moves the line on by its newlines, and the column to the end of its last line. Cut into
chunks in any way, and read in bounded counters that have room for every line and column on the way,
it leads to the same place. -/
theorem advance_chunks (p : Position) (text : List Char) :
    (p.advance text).line = p.line + text.count '\n' ∧
    (p.advance text).column =
      (if '\n' ∈ text then (lastLine text).length else p.column + text.length) ∧
    ∀ chunks : List (List Char), chunks.flatten = text →
      chunks.foldl advance p = p.advance text ∧
      ∀ bound limit, p.Fits bound text → bound < limit →
        Checked.advanceAll limit p chunks = .ok (p.advance text) := by
  refine ⟨?_, ?_, ?_⟩
  · rw [advance_eq]
    split
    next => rfl
    next hmem => rw [List.count_eq_zero_of_not_mem hmem, Nat.add_zero]
  · rw [advance_eq]
    split
    next => rfl
    next => rfl
  · rintro chunks rfl
    refine ⟨foldl_advance p chunks, ?_⟩
    intro bound limit hfits hlimit
    exact (Checked.gives_advanceAll hfits).of_lt hlimit

example : [['a', '\n'], [], ['\n', 'é'], ['b']].foldl advance ⟨7, 5⟩ = ⟨9, 2⟩ := by decide

/-- The columns that a text takes up on the line it starts on. -/
def coverFirstLine (p : Position) (text : List Char) : Span :=
  let width := (firstLine text).length
  if width = 0 then ⟨p.line, 0, 0⟩ else ⟨p.line, p.column + 1, p.column + width⟩

theorem cover_of_newline_notMem (p : Position) {text : List Char} (h : '\n' ∉ text) :
    p.cover text = p.coverFirstLine text := by
  rw [coverFirstLine, firstLine_of_notMem h]
  by_cases hnil : text = []
  · subst hnil
    rfl
  · rw [if_neg (mt List.length_eq_zero_iff.mp hnil), cover_eq p hnil h]

/-- At the beginning of a line the first column is found in the first column, if at all. -/
theorem firstColumn?_of_column_eq_zero {p : Position} (h : p.column = 0) (text : List Char) :
    p.firstColumn? text = if text.all (· == '\n') then none else some 1 := by
  induction text generalizing p with
  | nil => rfl
  | cons c text ih =>
    rw [firstColumn?, List.all_cons]
    by_cases hc : c = '\n'
    · have hstep : (p.step c).column = 0 := by rw [step, if_pos hc]
      rw [if_pos hc, ih hstep, beq_iff_eq.mpr hc, Bool.true_and]
    · rw [if_neg hc, beq_eq_false_iff_ne.mpr hc, Bool.false_and, h]
      rfl

/-- A text that leaves its line is placed by its first character that is no newline. -/
theorem cover_of_newline_mem (p : Position) {text : List Char} (h : '\n' ∈ text) :
    p.cover text =
      if firstLine text ≠ [] then ⟨p.line, p.column + 1, p.column + 1⟩
      else if text.all (· == '\n') then ⟨p.line, 0, 0⟩ else ⟨p.line, 1, 1⟩ := by
  have hleaves : (p.advance text).line ≠ p.line := by
    have hcount := List.count_pos_iff.mpr h
    rw [advance_eq, if_pos h]
    dsimp only
    omega
  rw [cover]
  obtain ⟨below, hbelow⟩ := exists_below h
  have hfirst := newline_notMem_firstLine text
  generalize firstLine text = first at hbelow hfirst ⊢
  by_cases hnil : first = []
  -- The first column is looked for below, where it is no column of the line that the text starts on.
  · subst hnil
    have hbegin : (p.step '\n').column = 0 := rfl
    have hcolumn : p.firstColumn? text = if text.all (· == '\n') then none else some 1 := by
      rw [hbelow, List.nil_append, firstColumn?, if_pos rfl, firstColumn?_of_column_eq_zero hbegin]
      rfl
    rw [hcolumn, if_neg (not_not.mpr rfl)]
    split_ifs
    · rfl
    · simp only [if_neg hleaves]
  · have hcolumn : p.firstColumn? text = some (p.column + 1) := by
      rw [hbelow, firstColumn?_append, firstColumn?_of_notMem p hnil hfirst, Option.some_or]
    rw [hcolumn, if_pos hnil]
    simp only [if_neg hleaves]

/-- Where a text leaves its line, one column stands for all that it takes up there. -/
theorem cover_eq_coverFirstLine_iff (p : Position) {text : List Char} (h : '\n' ∈ text) :
    p.cover text = p.coverFirstLine text ↔
      (firstLine text).length = 1 ∨ ∀ c ∈ text, c = '\n' := by
  have hnewlines : text.all (· == '\n') = true ↔ ∀ c ∈ text, c = '\n' := by simp
  rw [p.cover_of_newline_mem h, coverFirstLine, ← hnewlines]
  by_cases hnil : firstLine text = []
  · rw [if_neg (not_not.mpr hnil), hnil, if_pos List.length_nil]
    cases text.all (· == '\n') <;> simp
  · have hpos : 0 < (firstLine text).length := List.length_pos_iff.mpr hnil
    have hnot : ¬ text.all (· == '\n') = true := by
      intro hall
      obtain ⟨c, rest, hcons⟩ := List.exists_cons_of_ne_nil hnil
      have hc : c ∈ firstLine text := hcons ▸ List.mem_cons_self
      have hnewline := hnewlines.mp hall c ((List.takeWhile_prefix _).subset hc)
      exact newline_notMem_firstLine text (hnewline ▸ hc)
    rw [if_pos hnil, if_neg hpos.ne', or_iff_left hnot, Span.mk.injEq]
    omega

/-- The place that a text covers is what it takes up on the line it starts on as long as it stays on
that line. Where it leaves the line it is placed by one column, and if nothing of it stands on the line
that is the first column of a later one. So the two agree on a text that leaves its line only where it
takes up one column there or is made of newlines. Read in bounded counters the place is the same. -/
theorem cover_exact (p : Position) (text : List Char) :
    ('\n' ∉ text → p.cover text = p.coverFirstLine text) ∧
    ('\n' ∈ text →
      (p.cover text =
        if firstLine text ≠ [] then ⟨p.line, p.column + 1, p.column + 1⟩
        else if text.all (· == '\n') then ⟨p.line, 0, 0⟩ else ⟨p.line, 1, 1⟩) ∧
      (p.cover text = p.coverFirstLine text ↔
        (firstLine text).length = 1 ∨ ∀ c ∈ text, c = '\n')) ∧
    ∀ bound limit, p.Fits bound text → bound < limit →
      Checked.advance limit p text = .ok (p.advance text, p.cover text) := by
  refine ⟨p.cover_of_newline_notMem, ?_, ?_⟩
  · intro hmem
    exact ⟨p.cover_of_newline_mem hmem, p.cover_eq_coverFirstLine_iff hmem⟩
  · intro bound limit hfits hlimit
    exact (Checked.gives_advance hfits).of_lt hlimit

/-- Behind three characters, a text that begins with a newline is placed in the first of them; and of a
text that leaves its line one column counts, though it takes up two. -/
theorem cover_newline_first :
    let p := start.advance ['a', 'b', 'c']
    p.cover ['\n', 'x'] = ⟨1, 1, 1⟩ ∧ p.coverFirstLine ['\n', 'x'] = ⟨1, 0, 0⟩ ∧
    start.cover ['a', 'b', '\n', 'c', 'd'] = ⟨1, 1, 1⟩ ∧
    start.coverFirstLine ['a', 'b', '\n', 'c', 'd'] = ⟨1, 1, 2⟩ := by decide

end Position
end DecafLex
