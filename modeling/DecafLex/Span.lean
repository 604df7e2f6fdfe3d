/-! Places in a source text, by line and column. -/
namespace DecafLex

/-- The line a text starts on, and the first and last column it covers there; all count from 1. -/
structure Span where
  line : Nat
  firstColumn : Nat
  lastColumn : Nat
deriving DecidableEq, Repr, Inhabited

namespace Span

/-- The place of what stands in no text. -/
def null : Span := ⟨0, 0, 0⟩

def text (s : Span) : String := s!"line {s.line} cols {s.firstColumn}-{s.lastColumn}"

instance : ToString Span := ⟨text⟩

end Span
end DecafLex
