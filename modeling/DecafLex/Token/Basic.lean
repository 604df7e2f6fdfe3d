import DecafLex.Binary64.Shortest
import DecafLex.Span
import DecafLex.SymbolTable.Basic
import DecafLex.Token.Kind

/-! Tokens and the lines that describe them. -/
namespace DecafLex

/-- What a literal or an identifier stands for. -/
inductive Value where
  | integer (n : Int)
  | double (x : Binary64)
  | bool (b : Bool)
  | str (contents : String)
  | identifier (id : DeclId)
deriving DecidableEq, Repr

/-- Equality of values, of doubles as numbers. -/
def Value.same : Value → Value → Bool
  | .double x, .double y => x.sameNumber y
  | v, w => v == w

structure Token where
  kind : TokenKind
  lexeme : String
  value : Option Value
  span : Span
deriving DecidableEq, Repr

namespace Token

def integer? (t : Token) : Option Int :=
  match t.value with
  | some (.integer n) => some n
  | _ => none

def double? (t : Token) : Option Binary64 :=
  match t.value with
  | some (.double x) => some x
  | _ => none

def bool? (t : Token) : Option Bool :=
  match t.value with
  | some (.bool b) => some b
  | _ => none

def str? (t : Token) : Option String :=
  match t.value with
  | some (.str contents) => some contents
  | _ => none

def identifier? (t : Token) : Option DeclId :=
  match t.value with
  | some (.identifier id) => some id
  | _ => none

def same (t u : Token) : Bool :=
  t.kind == u.kind && t.lexeme == u.lexeme && t.span == u.span &&
    match t.value, u.value with
    | some v, some w => v.same w
    | none, none => true
    | _, _ => false

def text (t : Token) : String :=
  "Token \x7b\nkind: " ++ t.kind.name ++ ",\nlexeme: " ++ t.lexeme ++ "\x7d"

instance : ToString Token := ⟨text⟩

/-- Strings are shown as they are written; an identifier is known by its lexeme already. -/
def valueText? (t : Token) : Option String :=
  t.value.bind fun
    | .integer n => some (toString n)
    | .double x => some x.text
    | .bool b => some (toString b)
    | .str _ => some t.lexeme
    | .identifier _ => none

/-- One line of a dump: lexeme, place, kind and value. -/
def describe (t : Token) : String :=
  let lexeme := String.ofList (t.lexeme.toList.rightpad 12 ' ')
  let head := s!"{lexeme} {t.span} is {t.kind.dumpName}"
  match t.valueText? with
  | some value => s!"{head} (value = {value})"
  | none => head

end Token
end DecafLex
