/-! The kinds of tokens of Decaf. -/
namespace DecafLex

inductive Keyword where
  | voidKw | intKw | doubleKw | boolKw | stringKw | classKw | extendsKw | thisKw | nullKw | whileKw
  | ifKw | elseKw | returnKw | publicKw | privateKw | newKw | newArrayKw | printKw | readIntegerKw
  | readLineKw
deriving DecidableEq, Repr

namespace Keyword

def all : List Keyword :=
  [voidKw, intKw, doubleKw, boolKw, stringKw, classKw, extendsKw, thisKw, nullKw, whileKw, ifKw,
    elseKw, returnKw, publicKw, privateKw, newKw, newArrayKw, printKw, readIntegerKw, readLineKw]

theorem mem_all (k : Keyword) : k ∈ all := by cases k <;> decide

/-- The word of the language. -/
def text : Keyword → String
  | voidKw => "void"
  | intKw => "int"
  | doubleKw => "double"
  | boolKw => "bool"
  | stringKw => "string"
  | classKw => "class"
  | extendsKw => "extends"
  | thisKw => "this"
  | nullKw => "null"
  | whileKw => "while"
  | ifKw => "if"
  | elseKw => "else"
  | returnKw => "return"
  | publicKw => "public"
  | privateKw => "private"
  | newKw => "New"
  | newArrayKw => "NewArray"
  | printKw => "Print"
  | readIntegerKw => "ReadInteger"
  | readLineKw => "ReadLine"

def name : Keyword → String
  | voidKw => "Void"
  | intKw => "Int"
  | doubleKw => "Double"
  | boolKw => "Bool"
  | stringKw => "String"
  | classKw => "Class"
  | extendsKw => "Extends"
  | thisKw => "This"
  | nullKw => "Null"
  | whileKw => "While"
  | ifKw => "If"
  | elseKw => "Else"
  | returnKw => "Return"
  | publicKw => "Public"
  | privateKw => "Private"
  | newKw => "New"
  | newArrayKw => "NewArray"
  | printKw => "Print"
  | readIntegerKw => "ReadInteger"
  | readLineKw => "ReadLine"

def ofText? (word : String) : Option Keyword := all.find? (·.text = word)

end Keyword

/-- Operators and punctuation. -/
inductive Operator where
  | and | or | lessEquals | greaterEquals | equals | notEquals
  | plus | dash | star | slash | percent | backslash
  | less | greater | assignment | semicolon | comma | dot | not
  | openBracket | closeBracket | openParen | closeParen | openCurly | closeCurly
deriving DecidableEq, Repr

namespace Operator

def all : List Operator :=
  [and, or, lessEquals, greaterEquals, equals, notEquals, plus, dash, star, slash, percent,
    backslash, less, greater, assignment, semicolon, comma, dot, not, openBracket, closeBracket,
    openParen, closeParen, openCurly, closeCurly]

theorem mem_all (o : Operator) : o ∈ all := by cases o <;> decide

/-- The sign as it is written. -/
def text : Operator → String
  | and => "&&"
  | or => "||"
  | lessEquals => "<="
  | greaterEquals => ">="
  | equals => "=="
  | notEquals => "!="
  | plus => "+"
  | dash => "-"
  | star => "*"
  | slash => "/"
  | percent => "%"
  | backslash => "\\"
  | less => "<"
  | greater => ">"
  | assignment => "="
  | semicolon => ";"
  | comma => ","
  | dot => "."
  | not => "!"
  | openBracket => "["
  | closeBracket => "]"
  | openParen => "("
  | closeParen => ")"
  | openCurly => "\x7b"
  | closeCurly => "\x7d"

def name : Operator → String
  | and => "And"
  | or => "Or"
  | lessEquals => "LessEquals"
  | greaterEquals => "GreaterEquals"
  | equals => "Equals"
  | notEquals => "NotEquals"
  | plus => "Plus"
  | dash => "Dash"
  | star => "Star"
  | slash => "Slash"
  | percent => "Percent"
  | backslash => "Backslash"
  | less => "Less"
  | greater => "Greater"
  | assignment => "Assignment"
  | semicolon => "Semicolon"
  | comma => "Comma"
  | dot => "Dot"
  | not => "Not"
  | openBracket => "OpenBracket"
  | closeBracket => "CloseBracket"
  | openParen => "OpenParen"
  | closeParen => "CloseParen"
  | openCurly => "OpenCurly"
  | closeCurly => "CloseCurly"

/-- The text of an operator of a single character. -/
def symbol? : Operator → Option String
  | openBracket => some "["
  | closeBracket => some "]"
  | openCurly => some "\x7b"
  | closeCurly => some "\x7d"
  | openParen => some "("
  | closeParen => some ")"
  | assignment => some "="
  | not => some "!"
  | less => some "<"
  | greater => some ">"
  | dot => some "."
  | semicolon => some ";"
  | comma => some ","
  | plus => some "+"
  | dash => some "-"
  | slash => some "/"
  | backslash => some "\\"
  | star => some "*"
  | percent => some "%"
  | and | or | lessEquals | greaterEquals | equals | notEquals => none

/-- The two tables of operators agree. -/
theorem symbol?_eq (o : Operator) :
    o.symbol? = if o.text.length = 1 then some o.text else none := by
  cases o <;> rfl

/-- Operators of two characters have a name, the others stand for themselves in quotes. -/
def dumpName : Operator → String
  | and => "T_And"
  | or => "T_Or"
  | lessEquals => "T_LessEqual"
  | greaterEquals => "T_GreaterEqual"
  | equals => "T_Equal"
  | notEquals => "T_NotEqual"
  | o => "'" ++ o.symbol?.getD "?" ++ "'"

end Operator

inductive TokenKind where
  | endOfInput | intConstant | doubleConstant | boolConstant | stringConstant | identifier
  | operator (o : Operator)
  | keyword (k : Keyword)
deriving DecidableEq, Repr

namespace TokenKind

def all : List TokenKind :=
  [endOfInput, intConstant, doubleConstant, boolConstant, stringConstant, identifier] ++
    Operator.all.map operator ++ Keyword.all.map keyword

theorem mem_all (k : TokenKind) : k ∈ all := by
  cases k <;> simp [all, Operator.mem_all, Keyword.mem_all]

def name : TokenKind → String
  | endOfInput => "EOF"
  | intConstant => "IntConstant"
  | doubleConstant => "DoubleConstant"
  | boolConstant => "BoolConstant"
  | stringConstant => "StringConstant"
  | identifier => "Identifier"
  | operator o => o.name
  | keyword k => k.name

instance : ToString TokenKind := ⟨name⟩

/-- The name of the kind in a dump of tokens. -/
def dumpName : TokenKind → String
  | operator o => o.dumpName
  | k => "T_" ++ k.name

def isReserved : TokenKind → Bool
  | keyword _ => true
  | _ => false

def symbol? : TokenKind → Option String
  | operator o => o.symbol?
  | _ => none

end TokenKind
end DecafLex
