/-! The lines of a text, counted from 1. A newline ends a line and belongs to none. -/
namespace DecafLex.Text

def lines (text : List Char) : List (List Char) := text.splitOn '\n'

def line? (text : List Char) : Nat → Option (List Char)
  | 0 => none
  | n + 1 => (lines text)[n]?

/-- Lines of output, each with its newline. -/
def unlines (lines : List String) : String := String.join (lines.map (· ++ "\n"))

end DecafLex.Text
