import DecafLex.Rule.Basic

/-! The rule that takes the longest text from the front of a source. -/
namespace DecafLex

/-- A rule and the length of the text it takes. -/
structure Match where
  rule : Rule
  length : Nat
deriving DecidableEq, Repr

namespace Rule

/-- The longest match among some rules; of equally long ones the first. A rule that takes nothing
does not match. -/
def longestMatch? : List Rule → List Char → Option Match
  | [], _ => none
  | rule :: rules, text =>
    let length := rule.munch text
    match longestMatch? rules text with
    | none => if length = 0 then none else some ⟨rule, length⟩
    | some best => if best.length ≤ length then some ⟨rule, length⟩ else some best

theorem longestMatch?_pos {rules : List Rule} {text : List Char} {m : Match}
    (h : longestMatch? rules text = some m) : 0 < m.length := by
  induction rules generalizing m with
  | nil => simp [longestMatch?] at h
  | cons rule rules ih =>
    cases hbest : longestMatch? rules text with
    | none =>
      simp only [longestMatch?, hbest, Option.ite_none_left_eq_some, Option.some.injEq] at h
      obtain ⟨hne, rfl⟩ := h
      exact Nat.pos_of_ne_zero hne
    | some best =>
      have hpos := ih hbest
      simp only [longestMatch?, hbest] at h
      split at h <;> obtain rfl := Option.some.inj h
      · exact Nat.lt_of_lt_of_le hpos ‹_›
      · exact hpos

end Rule
end DecafLex
