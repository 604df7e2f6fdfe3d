import DecafLex.Proofs.Decimal.Rounding
import DecafLex.Proofs.Scanner.Literals
import DecafLex.Runtime

/-! Literals of decimal fractions. Each stands for the binary number nearest to the rational that it
denotes, whatever the length of its digits and of its exponent; none is ever rejected. -/
namespace DecafLex

namespace Decimal

/-- The number that a run of digits denotes in base ten. -/
def natural (digits : List Char) : ℕ := Nat.ofDigits 10 (digits.reverse.map Numeral.digit)

/-- The exponents that a literal can end with. -/
inductive DenotesExponent : List Char → ℤ → Prop where
  | absent : DenotesExponent [] 0
  | raised (mark : Char) (digits : List Char) (hmark : mark = 'e' ∨ mark = 'E')
      (hne : digits ≠ []) (hdigits : ∀ c ∈ digits, c.isDigit = true) :
      DenotesExponent (mark :: '+' :: digits) (natural digits)
  | lowered (mark : Char) (digits : List Char) (hmark : mark = 'e' ∨ mark = 'E')
      (hne : digits ≠ []) (hdigits : ∀ c ∈ digits, c.isDigit = true) :
      DenotesExponent (mark :: '-' :: digits) (-natural digits)

/-- The literals of decimal fractions and the rationals that they denote. -/
inductive Denotes : List Char → ℚ → Prop where
  | literal (whole fraction exponent : List Char) (k : ℤ) (hne : whole ≠ [])
      (hwhole : ∀ c ∈ whole, c.isDigit = true) (hfraction : ∀ c ∈ fraction, c.isDigit = true)
      (hexponent : DenotesExponent exponent k) :
      Denotes (whole ++ '.' :: (fraction ++ exponent))
        ((natural whole + natural fraction / 10 ^ fraction.length) * 10 ^ k)

variable {lexeme whole fraction exponent : List Char} {q : ℚ} {k : ℤ}

theorem Denotes.nonneg (h : Denotes lexeme q) : 0 ≤ q := by
  cases h
  positivity

theorem natural_append (whole fraction : List Char) :
    natural (whole ++ fraction) = natural whole * 10 ^ fraction.length + natural fraction := by
  rw [natural, List.reverse_append, List.map_append, Nat.ofDigits_append, List.length_map,
    List.length_reverse, Nat.mul_comm, Nat.add_comm]
  rfl

/-! ### The literals are the lexemes of the rule -/

theorem exists_denotesExponent_iff :
    (∃ k, DenotesExponent exponent k) ↔ exponent ∈ Rule.exponentPattern.language ∨ exponent = [] := by
  rw [Rule.mem_exponentPattern]
  constructor
  · rintro ⟨k, h⟩
    cases h with
    | absent => exact .inr rfl
    | raised mark digits hmark hne hdigits =>
      exact .inl ⟨mark, '+', digits, rfl, by simpa [Rule.isExponentMark] using hmark, rfl, hne,
        hdigits⟩
    | lowered mark digits hmark hne hdigits =>
      exact .inl ⟨mark, '-', digits, rfl, by simpa [Rule.isExponentMark] using hmark, rfl, hne,
        hdigits⟩
  · rintro (⟨mark, sign, digits, rfl, hmark, hsign, hne, hdigits⟩ | rfl)
    · have hmark : mark = 'e' ∨ mark = 'E' := by simpa [Rule.isExponentMark] using hmark
      obtain rfl | rfl : sign = '+' ∨ sign = '-' := by simpa [Rule.isSign] using hsign
      · exact ⟨_, .raised mark digits hmark hne hdigits⟩
      · exact ⟨_, .lowered mark digits hmark hne hdigits⟩
    · exact ⟨_, .absent⟩

theorem exists_denotes_iff : (∃ q, Denotes lexeme q) ↔ lexeme ∈ Rule.double.language := by
  rw [Rule.mem_double]
  constructor
  · rintro ⟨q, h⟩
    cases h with
    | literal whole fraction exponent k hne hwhole hfraction hexponent =>
      exact ⟨whole, fraction, exponent, rfl, ⟨hne, hwhole⟩, hfraction,
        exists_denotesExponent_iff.mp ⟨k, hexponent⟩⟩
  · rintro ⟨whole, fraction, exponent, rfl, ⟨hne, hwhole⟩, hfraction, hexponent⟩
    obtain ⟨k, hexponent⟩ := exists_denotesExponent_iff.mpr hexponent
    exact ⟨_, .literal whole fraction exponent k hne hwhole hfraction hexponent⟩

/-! ### Reading a literal -/

theorem DenotesExponent.read (h : DenotesExponent exponent k) : readExponent? exponent = some k := by
  cases h with
  | absent => rfl
  | raised mark digits hmark hne hdigits =>
    have hdigits : digits.all Char.isDigit = true := List.all_eq_true.mpr hdigits
    simp [readExponent?, hmark, hne, hdigits, Numeral.value_eq_ofDigits, natural]
  | lowered mark digits hmark hne hdigits =>
    have hdigits : digits.all Char.isDigit = true := List.all_eq_true.mpr hdigits
    simp [readExponent?, hmark, hne, hdigits, Numeral.value_eq_ofDigits, natural]

/-- An exponent does not go on with the digits of the fraction. -/
theorem DenotesExponent.takeWhile_isDigit (h : DenotesExponent exponent k) :
    exponent.takeWhile Char.isDigit = [] ∧ exponent.dropWhile Char.isDigit = exponent := by
  cases h with
  | absent => exact ⟨rfl, rfl⟩
  | raised mark digits hmark | lowered mark digits hmark =>
    rcases hmark with rfl | rfl <;> exact ⟨rfl, rfl⟩

/-- Reading a literal succeeds, and nothing is lost. -/
theorem Denotes.read (h : Denotes lexeme q) : ∃ d, read? lexeme = some d ∧ d.value = q := by
  cases h with
  | literal whole fraction exponent k hne hwhole hfraction hexponent =>
    obtain ⟨htake, hdrop⟩ := hexponent.takeWhile_isDigit
    refine ⟨⟨natural (whole ++ fraction), k - fraction.length⟩, ?_, ?_⟩
    · rw [read?, List.dropWhile_append_of_pos hwhole, List.takeWhile_append_of_pos hwhole]
      simp [List.dropWhile_append_of_pos hfraction, List.takeWhile_append_of_pos hfraction, htake,
        hdrop, hne, hexponent.read, Numeral.value_eq_ofDigits, natural]
    · rw [value, natural_append, zpow_sub₀ (by norm_num), zpow_natCast]
      push_cast
      field_simp

/-- The number of a literal. -/
def binary64 (lexeme : List Char) : Binary64 := ((read? lexeme).map toBinary64).getD default

theorem Denotes.rounds (h : Denotes lexeme q) : Binary64.Rounds q (binary64 lexeme) := by
  obtain ⟨d, hread, rfl⟩ := h.read
  rw [binary64, hread]
  exact d.rounds_toBinary64

theorem meaning_double (hmem : lexeme ∈ Rule.double.language) :
    Rule.double.meaning lexeme = .token .doubleConstant (some (.double (binary64 lexeme))) := by
  obtain ⟨q, h⟩ := exists_denotes_iff.mpr hmem
  obtain ⟨d, hread, -⟩ := h.read
  change Meaning.ofDouble lexeme = _
  rw [Meaning.ofDouble, binary64, hread]
  rfl

end Decimal

namespace Segment

/-- The segment of a literal of a decimal fraction that has been come to at a position. -/
def ofDouble (p : Position) (lexeme : List Char) : Segment :=
  .token ⟨.doubleConstant, String.ofList lexeme, some (.double (Decimal.binary64 lexeme)),
    p.cover lexeme⟩

variable {p : Position} {table : SymbolTable} {segment : Segment} {after : List Char}
  {literal : String} {span : Span}

theorem Stands.eq_ofDouble (h : segment.Stands p table after)
    (hmem : segment.text ∈ Rule.double.language) : segment = ofDouble p segment.text := by
  have hsegment := h.eq_segment hmem (by simp)
  rwa [Decimal.meaning_double hmem] at hsegment

theorem Stands.notMem_double (h : segment.Stands p table after)
    (hd : segment.diagnostic? = some ⟨.integerOutOfRange literal, span⟩) :
    literal.toList ∉ Rule.double.language := by
  cases segment with
  | problem d =>
    obtain rfl := Option.some.inj hd
    intro hmem
    cases h.eq_ofDouble hmem
  | openComment =>
    cases h
    cases hd
  | token | skipped | comment => cases hd

end Segment

namespace Scanner

/-- A literal of a decimal fraction is any lexeme of the rule for doubles. Its number is the nearest to
the rational that it denotes, infinity and zero at the ends of the range; so equal rationals have one
number, and the numbers are in the order of the rationals. Where a literal is the longest lexeme the
next token is the literal with its number. So in a scan of a whole source each literal is that token,
and no number is reported that is a literal of a decimal fraction. -/
theorem double_exact :
    (∀ lexeme, lexeme ∈ Rule.double.language ↔ ∃ q, Decimal.Denotes lexeme q) ∧
    (∀ lexeme q, Decimal.Denotes lexeme q →
      Binary64.Rounds q (Decimal.binary64 lexeme) ∧
      (Binary64.overflowBound ≤ q → Decimal.binary64 lexeme = .infinity) ∧
      (q ≤ 2 ^ (-1075 : ℤ) → Decimal.binary64 lexeme = ⟨0⟩)) ∧
    (∀ lexeme lexeme' q q', Decimal.Denotes lexeme q → Decimal.Denotes lexeme' q' →
      (q = q' → Decimal.binary64 lexeme = Decimal.binary64 lexeme') ∧
      (q ≤ q' → (Decimal.binary64 lexeme).bits ≤ (Decimal.binary64 lexeme').bits ∧
        ((Decimal.binary64 lexeme').IsFinite → (Decimal.binary64 lexeme).IsFinite ∧
          (Decimal.binary64 lexeme).value ≤ (Decimal.binary64 lexeme').value))) ∧
    (∀ (s : Scanner) (lexeme : List Char), s.fatal = none →
      IsLongest Rule.lexemes s.rest lexeme → lexeme ∈ Rule.double.language → s.nextToken =
        (.ok ⟨.doubleConstant, String.ofList lexeme, some (.double (Decimal.binary64 lexeme)),
          s.spanOf lexeme⟩, s.past lexeme)) ∧
    ∀ (config : Config) (source : String), ∃ segments s',
      (ofSource config source).Runs segments s' ∧
      (ofSource config source).drain =
        ((segments.filterMap Segment.token?).map .ok ++ [s'.last], { s' with finished := true }) ∧
      s'.diagnostics.toList = segments.filterMap Segment.diagnostic? ∧
      (∀ before segment after, segments = before ++ segment :: after →
        segment.text ∈ Rule.double.language →
        segment = .ofDouble (Position.start.advance (before.flatMap Segment.text)) segment.text) ∧
      ∀ literal span, ⟨.integerOutOfRange literal, span⟩ ∈ s'.diagnostics.toList →
        literal.toList ∉ Rule.double.language := by
  refine ⟨fun _ => Decimal.exists_denotes_iff.symm, ?_, ?_, ?_, ?_⟩
  · intro lexeme q h
    refine ⟨h.rounds, fun hq => h.rounds.unique (.overflow hq), fun hq => ?_⟩
    exact h.rounds.unique (Binary64.rounds_zero h.nonneg hq)
  · intro lexeme lexeme' q q' h h'
    refine ⟨?_, fun hle => ⟨h.rounds.bits_le h'.rounds hle, h.rounds.value_le h'.rounds hle⟩⟩
    rintro rfl
    exact h.rounds.unique h'.rounds
  · intro s lexeme hfatal hcomplete hmem
    have hturn := turn_of_isLongest hcomplete hmem (by simp)
    rw [Decimal.meaning_double hmem] at hturn
    exact nextToken_of_turn (rest_ne_nil_of_isLongest hcomplete) hfatal hturn
  · intro config source
    obtain ⟨segments, s', hrun, hdrain, -⟩ := exists_runs_ofSource config source
    refine ⟨segments, s', hrun, hdrain, hrun.diagnostics, ?_, ?_⟩
    · intro before segment after hsplit hmem
      exact (hrun.stands hsplit).eq_ofDouble hmem
    · intro literal span hreported
      rw [hrun.diagnostics] at hreported
      obtain ⟨segment, hsegment, hd⟩ := List.mem_filterMap.mp hreported
      obtain ⟨before, after, hsplit⟩ := List.append_of_mem hsegment
      exact (hrun.stands hsplit).notMem_double hd

/-- Half way between two numbers of 53 bits the even one is taken. -/
theorem double_exact_halfway :
    let s := (ofSource .standard "-9007199254740993.0E+00e").nextToken.2
    let lexeme := "9007199254740993.0E+00".toList
    s.fatal = none ∧ IsLongest Rule.lexemes s.rest lexeme ∧
    Decimal.Denotes lexeme (2 ^ 53 + 1) ∧ Binary64.Rounds (2 ^ 53 + 1) ⟨0x4340000000000000⟩ ∧
    (⟨0x4340000000000000⟩ : Binary64).value = 2 ^ 53 ∧
    s.nextToken = (.ok ⟨.doubleConstant, String.ofList lexeme,
      some (.double ⟨0x4340000000000000⟩), s.spanOf lexeme⟩, s.past lexeme) ∧
    (s.past lexeme).rest = ['e'] := by
  intro s lexeme
  have hfatal : s.fatal = none := by decide +kernel
  have hmatch : Rule.longestMatch? Rule.all s.rest = some ⟨.double, 22⟩ := by decide +kernel
  have htake : s.rest.take 22 = lexeme := by decide +kernel
  have hcomplete : IsLongest Rule.lexemes s.rest lexeme := by
    rw [← htake]
    exact Rule.longestMatch?_all_lexemes hmatch
  have hdenotes : Decimal.Denotes lexeme (2 ^ 53 + 1) := by
    have hwhole : Decimal.natural "9007199254740993".toList = 2 ^ 53 + 1 := by decide +kernel
    have h := Decimal.Denotes.literal "9007199254740993".toList ['0'] ['E', '+', '0', '0'] 0
      (List.cons_ne_nil _ _) (List.all_eq_true.mp (by decide +kernel))
      (List.all_eq_true.mp (by decide +kernel))
      (.raised 'E' ['0', '0'] (.inr rfl) (List.cons_ne_nil _ _)
        (List.all_eq_true.mp (by decide +kernel)))
    have hfraction : Decimal.natural ['0'] = 0 := by decide +kernel
    rw [hwhole, hfraction, Nat.cast_zero, zero_div, add_zero, zpow_zero, mul_one] at h
    exact_mod_cast h
  have hnumber : Decimal.binary64 lexeme = ⟨0x4340000000000000⟩ := by decide +kernel
  obtain ⟨hlexeme, hrounds, -, hnext, -⟩ := double_exact
  have hround := (hrounds lexeme _ hdenotes).1
  have htoken := hnext s lexeme hfatal hcomplete ((hlexeme lexeme).mpr ⟨_, hdenotes⟩)
  rw [hnumber] at hround htoken
  refine ⟨hfatal, hcomplete, hdenotes, hround, ?_, htoken, by decide +kernel⟩
  have hsign : (⟨0x4340000000000000⟩ : Binary64).isNegative = false := by decide +kernel
  have hsignificand : (⟨0x4340000000000000⟩ : Binary64).significand = 2 ^ 52 := by decide +kernel
  have hexponent : (⟨0x4340000000000000⟩ : Binary64).exponent = 1 := by decide +kernel
  rw [Binary64.value_of_nonneg hsign, Binary64.gridPoint_magnitude, hsignificand, hexponent]
  norm_num

end Scanner
end DecafLex
