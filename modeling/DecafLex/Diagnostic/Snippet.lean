import DecafLex.Diagnostic.Basic
import DecafLex.Text.Lines

/-! Diagnostics shown with the source line they point at. -/
namespace DecafLex.Diagnostic

def headline (d : Diagnostic) : String :=
  match d.problem.tip? with
  | none => s!"Error: {d.problem.name}"
  | some tip => s!"Error: {d.problem.name} ({tip})"

/-- The bar of a row without a line number, under the bar of a row with one. -/
def gutter (line : Nat) : String :=
  String.ofList (['|'].leftpad ((toString line).length + 2) ' ')

/-- Dashes up to the first column of the span, and carets under its columns. -/
def underline (s : Span) : String :=
  String.ofList (List.replicate (max s.firstColumn 1 - 1) '-' ++
    List.replicate (max s.lastColumn s.firstColumn - s.firstColumn + 1) '^')

/-- An empty row, the source line and the row that underlines the span. -/
def excerpt (s : Span) (sourceLine : List Char) : List String :=
  [gutter s.line, s!"{s.line} | {String.ofList sourceLine}", s!"{gutter s.line} {underline s}"]

/-- The excerpt is left out where the source has no such line. -/
def rows (d : Diagnostic) (source file : String) : List String :=
  [d.headline, s!"-> {file}:{d.span.line}:{d.span.firstColumn}"] ++
    match Text.line? source.toList d.span.line with
    | none => []
    | some sourceLine => excerpt d.span sourceLine

def render (d : Diagnostic) (source file : String) : String := Text.unlines (d.rows source file)

end DecafLex.Diagnostic
