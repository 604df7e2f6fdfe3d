import DecafLex.Proofs.Scanner.Literals
import DecafLex.Runtime

/-! Integer literals. Each stands for exactly the number that its digits denote, or is rejected as out
of range, whatever its length. -/
namespace DecafLex

namespace Numeral

/-- The literals of integers and the numbers that they denote in base ten and sixteen. -/
inductive Denotes : List Char → Nat → Prop where
  | decimal (digits : List Char) (hne : digits ≠ []) (hdigits : ∀ c ∈ digits, c.isDigit = true) :
      Denotes digits (Nat.ofDigits 10 (digits.reverse.map digit))
  | hexadecimal (mark : Char) (digits : List Char) (hmark : mark = 'x' ∨ mark = 'X')
      (hne : digits ≠ []) (hdigits : ∀ c ∈ digits, isHexDigit c = true) :
      Denotes ('0' :: mark :: digits) (Nat.ofDigits 16 (digits.reverse.map digit))

/-- A literal is a lexeme of one of the two rules for integers. -/
theorem Denotes.exists_rule {lexeme : List Char} {n : Nat} (h : Denotes lexeme n) :
    ∃ rule : Rule, (rule = .decimal ∨ rule = .hexadecimal) ∧ lexeme ∈ rule.language ∧
      rule.meaning lexeme = .ofInteger lexeme n := by
  cases h with
  | decimal digits hne hdigits =>
    refine ⟨.decimal, .inl rfl, Rule.mem_decimal.mpr ⟨hne, hdigits⟩, ?_⟩
    rw [← value_eq_ofDigits]
    rfl
  | hexadecimal mark digits hmark hne hdigits =>
    refine ⟨.hexadecimal, .inr rfl, ?_, ?_⟩
    · exact Rule.mem_hexadecimal.mpr
        ⟨mark, digits, rfl, by simpa [Rule.isHexMark] using hmark, hne, hdigits⟩
    · rw [← value_eq_ofDigits]
      rfl

end Numeral

namespace Scanner

variable {s : Scanner} {lexeme : List Char} {n : Nat}

/-- The scanner behind an integer that is out of range: the integer is reported, and nothing else has
changed. -/
def pastOutOfRange (s : Scanner) (lexeme : List Char) : Scanner :=
  { s.past lexeme with
    diagnostics := s.diagnostics.push ⟨.integerOutOfRange (String.ofList lexeme), s.spanOf lexeme⟩ }

theorem turn_integer (hcomplete : IsLongest Rule.lexemes s.rest lexeme)
    (hdenotes : Numeral.Denotes lexeme n) : s.turn =
      if n ≤ 2 ^ 63 - 1 then
        (some ⟨.intConstant, String.ofList lexeme, some (.integer n), s.spanOf lexeme⟩, s.past lexeme)
      else (none, s.pastOutOfRange lexeme) := by
  obtain ⟨rule, hrule, hmem, hmeaning⟩ := hdenotes.exists_rule
  have hline : rule ≠ .newline := by
    rintro rfl
    simp at hrule
  rw [turn_of_isLongest hcomplete hmem hline, hmeaning, Meaning.ofInteger]
  change Scanner.act _ (if n ≤ 2 ^ 63 - 1 then _ else _) _ _ = _
  split
  next => rfl
  next => rfl

end Scanner

namespace Segment

/-- The segment of an integer literal that has been come to at a position. -/
def ofInteger (p : Position) (lexeme : List Char) (n : Nat) : Segment :=
  if n ≤ 2 ^ 63 - 1 then
    .token ⟨.intConstant, String.ofList lexeme, some (.integer n), p.cover lexeme⟩
  else .problem ⟨.integerOutOfRange (String.ofList lexeme), p.cover lexeme⟩

variable {p : Position} {table : SymbolTable} {segment : Segment} {after : List Char} {n : Nat}

/-- Nothing else stands in a scan with the text of an integer literal. -/
theorem Stands.eq_ofInteger (h : segment.Stands p table after)
    (hdenotes : Numeral.Denotes segment.text n) : segment = ofInteger p segment.text n := by
  obtain ⟨rule, hrule, hmem, hmeaning⟩ := hdenotes.exists_rule
  have hopener : rule ≠ .commentOpener := by
    rintro rfl
    simp at hrule
  have hsegment := h.eq_segment hmem hopener
  rw [hmeaning] at hsegment
  refine hsegment.trans ?_
  rw [Meaning.ofInteger, ofInteger]
  change Fragment.segment ⟨segment.text, if n ≤ 2 ^ 63 - 1 then _ else _⟩ p table = _
  split
  next => rfl
  next => rfl

end Segment

namespace Scanner

/-- An integer literal that is the longest lexeme where a scan stands is exact or rejected. Up to the
limit the next token is the literal with the number that it denotes. Above it the scan reports the whole
literal once, gives no token for it and goes on right behind it, with table and comments as they were.
So in a scan of a whole source each literal is the token of its number, or one report. -/
theorem integer_exact :
    (∀ (s : Scanner) (lexeme : List Char) (n : Nat), s.fatal = none →
      IsLongest Rule.lexemes s.rest lexeme → Numeral.Denotes lexeme n →
      (n ≤ 2 ^ 63 - 1 → s.nextToken =
        (.ok ⟨.intConstant, String.ofList lexeme, some (.integer n), s.spanOf lexeme⟩,
          s.past lexeme)) ∧
      (2 ^ 63 - 1 < n → s.turn = (none, s.pastOutOfRange lexeme) ∧
        s.nextToken = (s.pastOutOfRange lexeme).nextToken)) ∧
    ∀ (config : Config) (source : String), ∃ segments s',
      (ofSource config source).Runs segments s' ∧
      (ofSource config source).drain =
        ((segments.filterMap Segment.token?).map .ok ++ [s'.last], { s' with finished := true }) ∧
      s'.diagnostics.toList = segments.filterMap Segment.diagnostic? ∧
      ∀ before segment after n, segments = before ++ segment :: after →
        Numeral.Denotes segment.text n →
        segment = .ofInteger (Position.start.advance (before.flatMap Segment.text)) segment.text n := by
  constructor
  · intro s lexeme n hfatal hcomplete hdenotes
    have hturn := turn_integer hcomplete hdenotes
    have hrest := rest_ne_nil_of_isLongest hcomplete
    constructor
    · intro hle
      rw [if_pos hle] at hturn
      exact nextToken_of_turn hrest hfatal hturn
    · intro hgt
      rw [if_neg (Nat.not_le.mpr hgt)] at hturn
      exact ⟨hturn, nextToken_of_turn hrest hfatal hturn⟩
  · intro config source
    obtain ⟨segments, s', hrun, hdrain, -⟩ := exists_runs_ofSource config source
    refine ⟨segments, s', hrun, hdrain, hrun.diagnostics, ?_⟩
    intro before segment after n hsplit hdenotes
    exact (hrun.stands hsplit).eq_ofInteger hdenotes

/-- The least number above the limit, behind an operator and in front of a name. -/
theorem integer_exact_outOfRange :
    let s := (ofSource .standard "-0X8000000000000000g").nextToken.2
    let lexeme := "0X8000000000000000".toList
    s.fatal = none ∧ IsLongest Rule.lexemes s.rest lexeme ∧
    Numeral.Denotes lexeme (2 ^ 63) ∧ 2 ^ 63 - 1 < 2 ^ 63 ∧
    s.turn = (none, s.pastOutOfRange lexeme) ∧
    s.nextToken = (s.pastOutOfRange lexeme).nextToken ∧ (s.pastOutOfRange lexeme).rest = ['g'] := by
  intro s lexeme
  have hfatal : s.fatal = none := by decide +kernel
  have hmatch : Rule.longestMatch? Rule.all s.rest = some ⟨.hexadecimal, 18⟩ := by decide +kernel
  have htake : s.rest.take 18 = lexeme := by decide +kernel
  have hcomplete : IsLongest Rule.lexemes s.rest lexeme := by
    rw [← htake]
    exact Rule.longestMatch?_all_lexemes hmatch
  have hdenotes : Numeral.Denotes lexeme (2 ^ 63) :=
    .hexadecimal 'X' "8000000000000000".toList (.inr rfl) (by decide)
      (List.all_eq_true.mp (by decide))
  obtain ⟨hturn, hnext⟩ := (integer_exact.1 s lexeme (2 ^ 63) hfatal hcomplete hdenotes).2 (by decide)
  exact ⟨hfatal, hcomplete, hdenotes, by decide, hturn, hnext, by decide +kernel⟩

end Scanner
end DecafLex
