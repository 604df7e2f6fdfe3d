import DecafLex.Span
import DecafLex.Text.Quoted

/-! What can be wrong with a source text, and where. -/
namespace DecafLex

inductive Problem where
  | unknownCharacter (text : String)
  | unterminatedString (literal : String)
  | integerOutOfRange (literal : String)
  | unterminatedComment
deriving DecidableEq, Repr

namespace Problem

def name : Problem → String
  | unknownCharacter _ => "UnrecognisedToken"
  | unterminatedString _ => "UnterminatedString"
  | integerOutOfRange _ => "NumberParseError"
  | unterminatedComment => "UnterminatedComment"

def message : Problem → String
  | unknownCharacter text => "Unrecognized char: " ++ Text.quoted text
  | unterminatedString literal => "Unterminated string constant: " ++ literal
  | integerOutOfRange literal => "Integer constant out of range: " ++ literal
  | unterminatedComment => "Input ends with unterminated comment"

/-- A hint at what to change, where there is one to give. -/
def tip? : Problem → Option String
  | unknownCharacter _ => none
  | unterminatedString literal => some ("String `" ++ literal ++ "` is missing its closing quote")
  | integerOutOfRange literal =>
    some ("Invalid number: `" ++ literal ++ "`, is it above the integer limit?")
  | unterminatedComment => some "Every `/*` needs a matching `*/`, including nested ones"

/-- A fatal problem ends the scan; any other is reported, and its text passed over. -/
def isFatal : Problem → Bool
  | unterminatedComment => true
  | _ => false

end Problem

structure Diagnostic where
  problem : Problem
  span : Span
deriving DecidableEq, Repr

namespace Diagnostic

def text (d : Diagnostic) : String := s!"{d.problem.message} ({d.span})"

instance : ToString Diagnostic := ⟨text⟩

def isFatal (d : Diagnostic) : Bool := d.problem.isFatal

end Diagnostic

/-- How many diagnostics were reported, and how many of them were fatal. -/
structure Tally where
  reported : Nat
  fatal : Nat
deriving DecidableEq, Repr

namespace Tally

def empty : Tally := ⟨0, 0⟩

def report (t : Tally) (d : Diagnostic) : Tally :=
  ⟨t.reported + 1, if d.isFatal then t.fatal + 1 else t.fatal⟩

end Tally
end DecafLex
