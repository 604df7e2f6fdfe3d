import DecafLex.Numeral
import DecafLex.Token.Kind

/-! The lexical rules of Decaf, each with the longest text it takes from the front of a source. -/
namespace DecafLex

inductive Rule where
  | commentOpener | lineComment | blanks | newline
  | operator (o : Operator)
  | double | hexadecimal | decimal | string | openString | word
deriving DecidableEq, Repr

namespace Rule

/-- All rules, the ones that win a tie first. -/
def all : List Rule :=
  [commentOpener, lineComment, blanks, newline] ++ Operator.all.map operator ++
    [double, hexadecimal, decimal, string, openString, word]

def isBlank (c : Char) : Bool := c == ' ' || c == '\t'

/-- What a string may hold. -/
def isInString (c : Char) : Bool := c != '"' && c != '\n'

def isInWord (c : Char) : Bool := c.isAlphanum || c == '_'

/-- The length of the longest run of characters with the property at the front of a text. -/
def run (p : Char → Bool) (text : List Char) : Nat := (text.takeWhile p).length

/-- The length of `e` or `E`, a sign and digits, or zero if one of them is missing. -/
def exponentLength : List Char → Nat
  | mark :: sign :: text =>
    if (mark = 'e' ∨ mark = 'E') ∧ (sign = '+' ∨ sign = '-') ∧ 0 < run Char.isDigit text then
      2 + run Char.isDigit text
    else 0
  | _ => 0

/-- The length of digits, a point, more digits if there are any, and an exponent if there is one. -/
def doubleLength (text : List Char) : Nat :=
  let whole := run Char.isDigit text
  match text.drop whole with
  | '.' :: rest =>
    let fraction := run Char.isDigit rest
    if whole = 0 then 0 else whole + 1 + fraction + exponentLength (rest.drop fraction)
  | _ => 0

def hexadecimalLength : List Char → Nat
  | '0' :: mark :: text =>
    if (mark = 'x' ∨ mark = 'X') ∧ 0 < run Numeral.isHexDigit text then
      2 + run Numeral.isHexDigit text
    else 0
  | _ => 0

/-- The length of a string with its closing quote. -/
def stringLength : List Char → Nat
  | '"' :: text =>
    let contents := run isInString text
    if text[contents]? = some '"' then contents + 2 else 0
  | _ => 0

def openStringLength : List Char → Nat
  | '"' :: text => run isInString text + 1
  | _ => 0

def wordLength : List Char → Nat
  | c :: text => if c.isAlpha then run isInWord text + 1 else 0
  | [] => 0

/-- The length of a fixed text, or zero if the source does not start with it. -/
def fixedLength (fixed : String) (text : List Char) : Nat :=
  if fixed.toList.isPrefixOf text then fixed.length else 0

/-- The length of the longest text of the rule at the front of a source; zero if there is none. -/
def munch (rule : Rule) (text : List Char) : Nat :=
  match rule with
  | commentOpener => fixedLength "/*" text
  | lineComment => if fixedLength "//" text = 0 then 0 else run (· != '\n') text
  | blanks => run isBlank text
  | newline => fixedLength "\n" text
  | operator o => fixedLength o.text text
  | double => doubleLength text
  | hexadecimal => hexadecimalLength text
  | decimal => run Char.isDigit text
  | string => stringLength text
  | openString => openStringLength text
  | word => wordLength text

end Rule
end DecafLex
