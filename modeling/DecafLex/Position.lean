import DecafLex.Span

/-! How far a text has been consumed: the line reached and the characters read on it. -/
namespace DecafLex

structure Position where
  line : Nat
  column : Nat
deriving DecidableEq, Repr

namespace Position

/-- Before the first character of a text. -/
def start : Position := ⟨1, 0⟩

def step (p : Position) (c : Char) : Position :=
  if c = '\n' then ⟨p.line + 1, 0⟩ else ⟨p.line, p.column + 1⟩

def advance (p : Position) (text : List Char) : Position := text.foldl step p

/-- The place of the next character, also where no character follows. -/
def here (p : Position) : Span := ⟨p.line, p.column + 1, p.column + 1⟩

/-- The column of the first character of `text` that is no newline, on whatever line it stands. -/
def firstColumn? (p : Position) : List Char → Option Nat
  | [] => none
  | c :: text => if c = '\n' then (p.step c).firstColumn? text else some (p.column + 1)

/-- The place of `text` consumed from `p`. A text that leaves its line is placed by its first
column alone, and one of newlines only covers no column. -/
def cover (p : Position) (text : List Char) : Span :=
  match p.firstColumn? text with
  | none => ⟨p.line, 0, 0⟩
  | some first =>
    let last := p.advance text
    if last.line = p.line then ⟨p.line, first, last.column⟩ else ⟨p.line, first, first⟩

end Position
end DecafLex
