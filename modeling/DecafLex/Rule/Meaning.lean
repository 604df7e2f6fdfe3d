import DecafLex.Decimal
import DecafLex.Diagnostic.Basic
import DecafLex.Rule.Basic
import DecafLex.Token.Basic

/-! What the text of a rule stands for. -/
namespace DecafLex

/-- What scanning does with a piece of source text. -/
inductive Meaning where
  | nothing
  | commentOpener
  | token (kind : TokenKind) (value : Option Value)
  | name
  | rejected (problem : Problem)
deriving DecidableEq, Repr

namespace Meaning

/-- Integers above this are out of range. -/
def maxInteger : Nat := Nat.pow 2 63 - 1

def ofInteger (lexeme : List Char) (value : Nat) : Meaning :=
  if value ≤ maxInteger then token .intConstant (some (.integer value))
  else rejected (.integerOutOfRange (String.ofList lexeme))

def ofDouble (lexeme : List Char) : Meaning :=
  match Decimal.read? lexeme with
  | some d => token .doubleConstant (some (.double d.toBinary64))
  | none => rejected (.integerOutOfRange (String.ofList lexeme))

def ofWord (lexeme : List Char) : Meaning :=
  let word := String.ofList lexeme
  match Keyword.ofText? word with
  | some k => token (.keyword k) none
  | none =>
    if word = "true" then token .boolConstant (some (.bool true))
    else if word = "false" then token .boolConstant (some (.bool false))
    else name

end Meaning

/-- The meaning of a text that the rule takes as a whole. -/
def Rule.meaning (rule : Rule) (lexeme : List Char) : Meaning :=
  match rule with
  | commentOpener => .commentOpener
  | lineComment | blanks | newline => .nothing
  | operator o => .token (.operator o) none
  | double => .ofDouble lexeme
  | hexadecimal => .ofInteger lexeme (Numeral.value 16 (lexeme.drop 2))
  | decimal => .ofInteger lexeme (Numeral.value 10 lexeme)
  | string => .token .stringConstant (some (.str (String.ofList (lexeme.drop 1).dropLast)))
  | openString => .rejected (.unterminatedString (String.ofList lexeme))
  | word => .ofWord lexeme

end DecafLex
