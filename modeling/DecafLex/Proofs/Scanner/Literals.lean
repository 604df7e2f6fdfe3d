import DecafLex.Proofs.Scanner.Run
import Mathlib.Data.Nat.Digits.Defs

/-! A lexeme that is the longest where a scan stands, and the segment that a lexeme makes wherever it
stands in a scan: in both its own rule decides what it means. -/
namespace DecafLex

theorem Numeral.value_eq_ofDigits (base : Nat) (digits : List Char) :
    value base digits = Nat.ofDigits base (digits.reverse.map digit) := by
  induction digits using List.reverseRecOn with
  | nil => rfl
  | append_singleton digits c ih =>
    rw [List.reverse_concat, List.map_cons, Nat.ofDigits_cons, ← ih, value, List.foldl_concat,
      Nat.add_comm]
    rfl

/-- The longest lexeme at the front of a text is its first piece. -/
theorem Piece.first_of_isLongest {source lexeme : List Char} {rule : Rule}
    (h : IsLongest Rule.lexemes source lexeme) (hrule : lexeme ∈ rule.language) :
    first source = ⟨lexeme.length, rule.meaning lexeme⟩ := by
  cases hmatch : Rule.longestMatch? Rule.all source with
  | none =>
    have hnil : lexeme ≠ [] := fun hnil => Rule.nil_notMem_language rule (hnil ▸ hrule)
    exact absurd h.mem (Rule.longestMatch?_all_eq_none_iff.mp hmatch lexeme h.isPrefix hnil)
  | some m =>
    have hlongest := Rule.longestMatch?_all_lexemes hmatch
    have hle := h.length_le _ hlongest.isPrefix hlongest.mem
    have hge := hlongest.length_le _ h.isPrefix h.mem
    obtain rfl : source.take m.length = lexeme :=
      (List.prefix_of_prefix_length_le hlongest.isPrefix h.isPrefix hle).eq_of_length
        (Nat.le_antisymm hle hge)
    obtain ⟨-, hlength, -⟩ := Rule.longestMatch?_spec hmatch
    have hwithin : m.length ≤ source.length := hlength ▸ Rule.munch_le_length m.rule source
    rw [Piece.first_of_some hmatch, List.length_take_of_le hwithin,
      Rule.eq_of_mem_language (Rule.longestMatch?_all_isLongest hmatch).mem hrule]

namespace Scanner

variable {s : Scanner} {lexeme : List Char} {rule : Rule}

/-- The scanner behind a lexeme on its line, with nothing else changed. -/
def past (s : Scanner) (lexeme : List Char) : Scanner :=
  { s with
    rest := s.rest.drop lexeme.length
    position := ⟨s.position.line, s.position.column + lexeme.length⟩ }

/-- The columns of a lexeme that the scanner comes to. -/
def spanOf (s : Scanner) (lexeme : List Char) : Span :=
  ⟨s.position.line, s.position.column + 1, s.position.column + lexeme.length⟩

theorem rest_ne_nil_of_isLongest (h : IsLongest Rule.lexemes s.rest lexeme) : s.rest ≠ [] := by
  intro hnil
  obtain ⟨rule, hmem⟩ := h.mem
  have hlexeme := List.prefix_nil.mp (hnil ▸ h.isPrefix)
  exact Rule.nil_notMem_language rule (hlexeme ▸ hmem)

theorem turn_of_isLongest (hcomplete : IsLongest Rule.lexemes s.rest lexeme)
    (hmem : lexeme ∈ rule.language) (hrule : rule ≠ .newline) :
    s.turn = (s.past lexeme).act (rule.meaning lexeme) (String.ofList lexeme) (s.spanOf lexeme) := by
  have hne : lexeme ≠ [] := fun hnil => Rule.nil_notMem_language rule (hnil ▸ hmem)
  have hline : '\n' ∉ lexeme := Rule.newline_notMem hrule hmem
  have htake : s.rest.take lexeme.length = lexeme :=
    (List.prefix_iff_eq_take.mp hcomplete.isPrefix).symm
  have hconsume : s.consume lexeme.length = s.past lexeme := by
    rw [consume, htake, Position.advance_eq, if_neg hline]
    rfl
  rw [turn_of_piece (Piece.first_of_isLongest hcomplete hmem), htake, hconsume,
    Position.cover_eq _ hne hline]
  rfl

end Scanner

/-- A segment whose text belongs to a rule is the one that the rule makes of it. -/
theorem Segment.Stands.eq_segment {segment : Segment} {p : Position} {table : SymbolTable}
    {after : List Char} {rule : Rule} (h : segment.Stands p table after)
    (hmem : segment.text ∈ rule.language) (hrule : rule ≠ .commentOpener) :
    segment = Fragment.segment ⟨segment.text, rule.meaning segment.text⟩ p table := by
  have hcomment (body : List Char) : '/' :: '*' :: body ∉ rule.language := fun hmem =>
    hrule (Option.some.inj (Rule.ofLexeme?_of_mem hmem)).symm
  cases h with
  | token rule' text after kind value hmeaning hmem' =>
    rw [text_token] at hmem ⊢
    obtain rfl := Rule.eq_of_mem_language hmem hmem'
    rw [hmeaning]
    rfl
  | name text after id hid hmeaning hmem' =>
    rw [text_token] at hmem ⊢
    obtain rfl := Rule.eq_of_mem_language hmem hmem'
    rw [hmeaning, hid]
    rfl
  | rejected rule' text after problem hmeaning hmem' =>
    rw [text_rejected _ hmeaning] at hmem ⊢
    obtain rfl := Rule.eq_of_mem_language hmem hmem'
    rw [hmeaning]
    rfl
  | unknown c after hnone =>
    rw [text_unknown] at hmem
    exact absurd hmem (hnone rule [c] (List.prefix_append [c] after))
  | skipped rule' text after hskipped hmem' =>
    obtain rfl := Rule.eq_of_mem_language hmem hmem'
    cases rule with
    | lineComment | blanks | newline => rfl
    | _ => cases hskipped
  | comment body => exact absurd hmem (hcomment body)
  | openComment body => exact absurd hmem (hcomment body)

end DecafLex
