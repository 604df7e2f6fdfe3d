import DecafLex.Proofs.Checked.Basic

/-! Lines and columns counted in bounded counters, a text at a time and line by line. The place that a
text ends in and the place that it covers come out as they do character by character. -/
namespace DecafLex

theorem Position.firstColumn?_append (p : Position) (a b : List Char) :
    p.firstColumn? (a ++ b) = (p.firstColumn? a).or ((p.advance a).firstColumn? b) := by
  induction a generalizing p with
  | nil => rfl
  | cons c a ih =>
    rw [List.cons_append, firstColumn?, firstColumn?]
    split
    next => exact ih (p.step c)
    next => rfl

theorem Position.firstColumn?_of_notMem (p : Position) {text : List Char} (hne : text ≠ [])
    (h : '\n' ∉ text) : p.firstColumn? text = some (p.column + 1) := by
  obtain ⟨c, rest, rfl⟩ := List.exists_cons_of_ne_nil hne
  apply if_neg
  rintro rfl
  exact h List.mem_cons_self

/-- No line and no column that is reached in the text is beyond the bound. -/
def Position.Fits (p : Position) (bound : Nat) (text : List Char) : Prop :=
  ∀ front, front <+: text → (p.advance front).line ≤ bound ∧ (p.advance front).column ≤ bound

section
variable {p : Position} {bound : Nat} {text a b : List Char}

theorem Position.fits_append :
    p.Fits bound (a ++ b) ↔ p.Fits bound a ∧ (p.advance a).Fits bound b := by
  constructor
  · intro h
    refine ⟨fun front hfront => h front (hfront.trans (List.prefix_append a b)), ?_⟩
    intro front hfront
    rw [← advance_append]
    exact h _ ((List.prefix_append_right_inj a).mpr hfront)
  · rintro ⟨ha, hb⟩ front ⟨rest, hrest⟩
    rcases List.append_eq_append_iff.mp hrest with ⟨left, ha', -⟩ | ⟨more, rfl, hb'⟩
    · exact ha front ⟨left, ha'.symm⟩
    · rw [advance_append]
      exact hb more ⟨rest, hb'.symm⟩

theorem Position.Fits.line_le (h : p.Fits bound text) : (p.advance text).line ≤ bound :=
  (h text List.prefix_rfl).1

theorem Position.Fits.column_le (h : p.Fits bound text) (hline : '\n' ∉ text) :
    p.column + text.length ≤ bound := by
  have hcolumn := (h text List.prefix_rfl).2
  rwa [advance_eq, if_neg hline] at hcolumn

/-- Lines and columns together grow no faster than the text. -/
theorem Position.fits_of_le (h : p.line + p.column + text.length ≤ bound) : p.Fits bound text := by
  intro front hfront
  obtain ⟨-, hsum⟩ := p.advance_le front
  have hlength := hfront.length_le
  omega

end

namespace Checked
open Text

variable {limit bound : Nat}

/-- Reads the rest of a line. The column of its first character is kept if there is none yet. -/
def readLine (limit : Nat) (p : Position) (first : Option Nat) (line : List Char) :
    Checked (Position × Option Nat) :=
  if line = [] then .ok (p, first)
  else do
    let start ← count limit (p.column + 1)
    let width ← count limit line.length
    let column ← count limit (p.column + width)
    return (⟨p.line, column⟩, first.or (some start))

/-- Reads lines with a newline between any two. -/
def readLines (limit : Nat) (p : Position) (first : Option Nat) :
    List (List Char) → Checked (Position × Option Nat)
  | [] => .ok (p, first)
  | [line] => readLine limit p first line
  | line :: next :: lines => do
    let (p, first) ← readLine limit p first line
    let number ← count limit (p.line + 1)
    readLines limit ⟨number, 0⟩ first (next :: lines)

/-- The place after a text, and the place that it covers. -/
def advance (limit : Nat) (p : Position) (text : List Char) : Checked (Position × Span) := do
  let (last, first) ← readLines limit p none (lines text)
  return (last, match first with
    | none => ⟨p.line, 0, 0⟩
    | some first =>
      if last.line = p.line then ⟨p.line, first, last.column⟩ else ⟨p.line, first, first⟩)

def here (limit : Nat) (p : Position) : Checked Span := do
  let column ← count limit (p.column + 1)
  return ⟨p.line, column, column⟩

theorem gives_readLine {p : Position} {line : List Char} (hline : '\n' ∉ line)
    (hbound : p.column + line.length ≤ bound) (first : Option Nat) :
    Gives limit bound (readLine limit p first line)
      (p.advance line, first.or (p.firstColumn? line)) := by
  unfold readLine
  split
  next hnil =>
    rw [hnil, Position.firstColumn?, Option.or_none]
    exact gives_ok ..
  next hne =>
    have hpos := List.length_pos_iff.mpr hne
    rw [Position.firstColumn?_of_notMem p hne hline, Position.advance_eq, if_neg hline]
    apply (gives_count (by omega)).bind
    apply (gives_count (by omega)).bind
    apply (gives_count hbound).bind
    exact gives_ok ..

theorem gives_readLines {p : Position} {text : List Char} (h : p.Fits bound text)
    (first : Option Nat) : Gives limit bound (readLines limit p first (lines text))
      (p.advance text, first.or (p.firstColumn? text)) := by
  induction text using line_induction generalizing p first with
  | last line hline =>
    rw [lines_of_notMem hline]
    exact gives_readLine hline (h.column_le hline) first
  | above line below hline ih =>
    obtain ⟨next, more, hbelow⟩ := List.exists_cons_of_ne_nil (List.splitOn_ne_nil '\n' below)
    obtain ⟨hfront, hrest⟩ := Position.fits_append.mp h
    obtain ⟨hnewline, hrest⟩ := (Position.fits_append (a := ['\n'])).mp hrest
    rw [lines_append_newline hline, show lines below = next :: more from hbelow, readLines, ← hbelow,
      Position.advance_append, Position.firstColumn?_append, ← Option.or_assoc]
    apply (gives_readLine hline (hfront.column_le hline) first).bind
    apply (gives_count hnewline.line_le).bind
    exact ih hrest _

theorem gives_advance {p : Position} {text : List Char} (h : p.Fits bound text) :
    Gives limit bound (advance limit p text) (p.advance text, p.cover text) := by
  apply (gives_readLines h none).bind
  rw [Option.none_or, Position.cover]
  exact gives_ok ..

theorem gives_here {p : Position} (hbound : p.column + 1 ≤ bound) :
    Gives limit bound (here limit p) p.here := (gives_count hbound).bind (gives_ok ..)

end Checked
end DecafLex
