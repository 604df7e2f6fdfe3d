import DecafLex.Proofs.Scanner.Split
import DecafLex.Proofs.SymbolTable.Merge

/-! A text scanned some lines further down: everything it gives moves down by as many lines and keeps
its columns. -/
namespace DecafLex

def Span.shift (lines : Nat) (s : Span) : Span := { s with line := s.line + lines }

def Diagnostic.shift (lines : Nat) (d : Diagnostic) : Diagnostic :=
  { d with span := d.span.shift lines }

def Token.shift (lines : Nat) (t : Token) : Token := { t with span := t.span.shift lines }

namespace Position

def shift (lines : Nat) (p : Position) : Position := { p with line := p.line + lines }

variable (p : Position) (lines : Nat)

theorem step_shift (c : Char) : (p.shift lines).step c = (p.step c).shift lines := by
  unfold step
  split
  next =>
    simp only [shift, Nat.add_right_comm]
  next => rfl

theorem advance_shift (text : List Char) :
    (p.shift lines).advance text = (p.advance text).shift lines := by
  induction text generalizing p with
  | nil => rfl
  | cons c text ih =>
    change ((p.shift lines).step c).advance text = ((p.step c).advance text).shift lines
    rw [step_shift, ih]

theorem firstColumn?_shift (text : List Char) :
    (p.shift lines).firstColumn? text = p.firstColumn? text := by
  induction text generalizing p with
  | nil => rfl
  | cons c text ih =>
    rw [firstColumn?, firstColumn?, step_shift, ih]
    rfl

theorem cover_shift (text : List Char) :
    (p.shift lines).cover text = (p.cover text).shift lines := by
  unfold cover
  rw [firstColumn?_shift, advance_shift]
  cases p.firstColumn? text with
  | none => rfl
  | some first =>
    simp only [shift, Nat.add_right_cancel_iff]
    split <;> rfl

end Position

namespace Placed
open Fragment

def shift (lines : Nat) (x : Placed) : Placed := { x with position := x.position.shift lines }

variable (x : Placed) (lines : Nat)

theorem fragment_shift : (x.shift lines).fragment = x.fragment := rfl

theorem lexeme_shift : (x.shift lines).lexeme = x.lexeme := rfl

theorem span_shift : (x.shift lines).span = x.span.shift lines :=
  x.position.cover_shift lines x.fragment.text

theorem occurrence?_shift :
    (x.shift lines).occurrence? = x.occurrence?.map (Occurrence.shift lines) := by
  unfold occurrence?
  simp only [span_shift, fragment_shift, lexeme_shift]
  cases x.fragment.meaning <;> rfl

theorem token?_shift (number : String → DeclId) :
    (x.shift lines).token? number = (x.token? number).map (Token.shift lines) := by
  unfold token?
  simp only [span_shift, fragment_shift, lexeme_shift]
  cases x.fragment.meaning <;> rfl

theorem problem?_shift :
    (x.shift lines).problem? = x.problem?.map (Diagnostic.shift lines) := by
  unfold problem?
  simp only [span_shift, fragment_shift]
  cases x.fragment.meaning <;> rfl

theorem fatal?_shift :
    (x.shift lines).fatal? = x.fatal?.map (Diagnostic.shift lines) := by
  have hspan (text : List Char) : (x.shift lines).position.cover text =
      (x.position.cover text).shift lines := x.position.cover_shift lines text
  unfold fatal?
  simp only [hspan, fragment_shift]
  cases x.fragment.meaning with
  | commentOpener =>
    dsimp only
    split <;> rfl
  | _ => rfl

theorem diagnostic?_shift :
    (x.shift lines).diagnostic? = x.diagnostic?.map (Diagnostic.shift lines) := by
  unfold diagnostic?
  rw [problem?_shift, fatal?_shift]
  cases x.problem? <;> rfl

end Placed

namespace Fragment

theorem place_shift (p : Position) (lines : Nat) (fs : List Fragment) :
    place (p.shift lines) fs = (place p fs).map (Placed.shift lines) := by
  induction fs generalizing p with
  | nil => rfl
  | cons f fs ih =>
    rw [place, place, Position.advance_shift, ih, List.map_cons]
    rfl

end Fragment
end DecafLex
