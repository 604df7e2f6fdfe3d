import DecafLex.Position

/-! Block comments, which nest. -/
namespace DecafLex.Comment

/-- Whether scanning stands in a block comment, and how many are open there. -/
inductive Nesting where
  | outside
  | inside (depth : Nat)
deriving DecidableEq, Repr

namespace Nesting

def depth : Nesting → Nat
  | outside => 0
  | inside depth => depth

def enter (n : Nesting) : Nesting := inside (n.depth + 1)

def leave (n : Nesting) : Nesting := if n.depth ≤ 1 then outside else inside (n.depth - 1)

end Nesting

inductive Delimiter where
  | opening
  | closing
deriving DecidableEq, Repr

/-- The nesting after a delimiter. -/
def Nesting.pass (n : Nesting) : Delimiter → Nesting
  | .opening => n.enter
  | .closing => n.leave

/-- The first delimiter of a text, with the number of characters up to its end. -/
def firstDelimiter? : List Char → Option (Delimiter × Nat)
  | [] => none
  | '/' :: '*' :: _ => some (.opening, 2)
  | '*' :: '/' :: _ => some (.closing, 2)
  | _ :: text => (firstDelimiter? text).map fun (delimiter, length) => (delimiter, length + 1)

theorem firstDelimiter?_length {text : List Char} {delimiter : Delimiter} {length : Nat}
    (h : firstDelimiter? text = some (delimiter, length)) : 0 < length ∧ length ≤ text.length := by
  fun_induction firstDelimiter? text generalizing delimiter length with
  | case1 => simp at h
  | case2 => simp at h; simp; omega
  | case3 => simp at h; simp; omega
  | case4 c text _ _ ih =>
    simp only [Option.map_eq_some_iff, Prod.mk.injEq, Prod.exists] at h
    obtain ⟨d, n, hd, -, rfl⟩ := h
    have := ih hd
    simp; omega

/-- Where skipping a comment ended. The number of characters passed is missing when the text ran
out inside the comment. -/
structure Skip where
  nesting : Nesting
  position : Position
  passed : Option Nat
deriving DecidableEq, Repr

/-- Goes on from delimiter to delimiter until no comment is open. -/
def skip (nesting : Nesting) (position : Position) (text : List Char) : Skip :=
  match nesting with
  | .outside => ⟨.outside, position, some 0⟩
  | .inside _ =>
    match _ : firstDelimiter? text with
    | none => ⟨nesting, position.advance text, none⟩
    | some (delimiter, length) =>
      let rest := skip (nesting.pass delimiter) (position.advance (text.take length))
        (text.drop length)
      { rest with passed := rest.passed.map (length + ·) }
termination_by text.length
decreasing_by
  have := firstDelimiter?_length ‹_›
  simp only [List.length_drop]
  omega

end DecafLex.Comment
