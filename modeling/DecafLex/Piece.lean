import DecafLex.Rule.LongestMatch
import DecafLex.Rule.Meaning

/-! The first piece of a source text: a lexeme, a blank, a comment or a problem. -/
namespace DecafLex

structure Piece where
  length : Nat
  meaning : Meaning
deriving DecidableEq, Repr

namespace Piece

/-- The longest match of all rules. Where no rule matches, one character is rejected. -/
def first (source : List Char) : Piece :=
  match Rule.longestMatch? Rule.all source with
  | some m => ⟨m.length, m.rule.meaning (source.take m.length)⟩
  | none => ⟨1, .rejected (.unknownCharacter (String.ofList (source.take 1)))⟩

theorem first_length_pos (source : List Char) : 0 < (first source).length := by
  unfold first
  split
  · exact Rule.longestMatch?_pos ‹_›
  · exact Nat.one_pos

end Piece
end DecafLex
