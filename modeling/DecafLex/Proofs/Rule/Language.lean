import DecafLex.Proofs.Pattern.LongestFirst
import DecafLex.Proofs.Text.Lines
import DecafLex.Rule.Basic

/-! The rules as regular expressions. Their languages, spelled out, are pairwise disjoint: a text
tells the rule that it belongs to. -/
namespace DecafLex.Rule
open Pattern

def digit : Pattern := one Char.isDigit

def isExponentMark (c : Char) : Bool := c == 'e' || c == 'E'

def isSign (c : Char) : Bool := c == '+' || c == '-'

def isHexMark (c : Char) : Bool := c == 'x' || c == 'X'

def exponentPattern : Pattern := seq (one isExponentMark) (seq (one isSign) (plus digit))

def pattern : Rule → Pattern
  | commentOpener => literal "/*".toList
  | lineComment => seq (literal "//".toList) (star (one (· != '\n')))
  | blanks => plus (one isBlank)
  | newline => literal "\n".toList
  | operator o => literal o.text.toList
  | double =>
    seq (plus digit) (seq (char '.') (seq (star digit) (Pattern.optional exponentPattern)))
  | hexadecimal => seq (char '0') (seq (one isHexMark) (plus (one Numeral.isHexDigit)))
  | decimal => plus digit
  | string => seq (char '"') (seq (star (one isInString)) (char '"'))
  | openString => seq (char '"') (star (one isInString))
  | word => seq (one Char.isAlpha) (star (one isInWord))

def language (rule : Rule) : Language Char := rule.pattern.language

section
variable {text : List Char}

theorem mem_commentOpener : text ∈ commentOpener.language ↔ text = ['/', '*'] := mem_literal

theorem mem_lineComment :
    text ∈ lineComment.language ↔ ∃ body, text = '/' :: '/' :: body ∧ '\n' ∉ body := by
  simp only [language, pattern, mem_seq, mem_literal, mem_star_one]
  constructor
  · rintro ⟨-, rfl, body, hbody, rfl⟩
    exact ⟨body, rfl, fun h => by simpa using hbody _ h⟩
  · rintro ⟨body, rfl, hbody⟩
    exact ⟨_, rfl, body, Text.forall_bne_newline hbody, rfl⟩

theorem mem_blanks : text ∈ blanks.language ↔ text ≠ [] ∧ ∀ c ∈ text, isBlank c = true :=
  mem_plus_one

theorem mem_newline : text ∈ newline.language ↔ text = ['\n'] := mem_literal

theorem mem_operator {o : Operator} : text ∈ (operator o).language ↔ text = o.text.toList :=
  mem_literal

theorem mem_decimal : text ∈ decimal.language ↔ text ≠ [] ∧ ∀ c ∈ text, c.isDigit = true :=
  mem_plus_one

theorem mem_exponentPattern : text ∈ exponentPattern.language ↔ ∃ mark sign digits,
    text = mark :: sign :: digits ∧ isExponentMark mark = true ∧ isSign sign = true ∧
      digits ≠ [] ∧ ∀ c ∈ digits, c.isDigit = true := by
  simp only [exponentPattern, digit, mem_seq, mem_one, mem_plus_one]
  constructor
  · rintro ⟨-, ⟨mark, hmark, rfl⟩, -, ⟨-, ⟨sign, hsign, rfl⟩, digits, hdigits, rfl⟩, rfl⟩
    exact ⟨mark, sign, digits, rfl, hmark, hsign, hdigits⟩
  · rintro ⟨mark, sign, digits, rfl, hmark, hsign, hdigits⟩
    exact ⟨_, ⟨mark, hmark, rfl⟩, _, ⟨_, ⟨sign, hsign, rfl⟩, digits, hdigits, rfl⟩, rfl⟩

theorem mem_double : text ∈ double.language ↔ ∃ whole fraction exponent,
    text = whole ++ '.' :: (fraction ++ exponent) ∧
      (whole ≠ [] ∧ ∀ c ∈ whole, c.isDigit = true) ∧ (∀ c ∈ fraction, c.isDigit = true) ∧
      (exponent ∈ exponentPattern.language ∨ exponent = []) := by
  simp only [language, pattern, digit, char, mem_seq, mem_one, mem_plus_one, mem_star_one,
    mem_optional, beq_iff_eq]
  constructor
  · rintro ⟨whole, hwhole, -, ⟨-, ⟨-, rfl, rfl⟩, -, ⟨fraction, hfraction, exponent, hexponent,
      rfl⟩, rfl⟩, rfl⟩
    exact ⟨whole, fraction, exponent, rfl, hwhole, hfraction, hexponent⟩
  · rintro ⟨whole, fraction, exponent, rfl, hwhole, hfraction, hexponent⟩
    exact ⟨whole, hwhole, _, ⟨_, ⟨_, rfl, rfl⟩, _, ⟨fraction, hfraction, exponent, hexponent,
      rfl⟩, rfl⟩, rfl⟩

theorem mem_hexadecimal : text ∈ hexadecimal.language ↔ ∃ mark digits,
    text = '0' :: mark :: digits ∧ isHexMark mark = true ∧ digits ≠ [] ∧
      ∀ c ∈ digits, Numeral.isHexDigit c = true := by
  simp only [language, pattern, char, mem_seq, mem_one, mem_plus_one, beq_iff_eq]
  constructor
  · rintro ⟨-, ⟨-, rfl, rfl⟩, -, ⟨-, ⟨mark, hmark, rfl⟩, digits, hdigits, rfl⟩, rfl⟩
    exact ⟨mark, digits, rfl, hmark, hdigits⟩
  · rintro ⟨mark, digits, rfl, hmark, hdigits⟩
    exact ⟨_, ⟨_, rfl, rfl⟩, _, ⟨_, ⟨mark, hmark, rfl⟩, digits, hdigits, rfl⟩, rfl⟩

theorem mem_string : text ∈ string.language ↔ ∃ contents,
    text = '"' :: (contents ++ ['"']) ∧ ∀ c ∈ contents, isInString c = true := by
  simp only [language, pattern, char, mem_seq, mem_one, mem_star_one, beq_iff_eq]
  constructor
  · rintro ⟨-, ⟨-, rfl, rfl⟩, -, ⟨contents, hcontents, -, ⟨-, rfl, rfl⟩, rfl⟩, rfl⟩
    exact ⟨contents, rfl, hcontents⟩
  · rintro ⟨contents, rfl, hcontents⟩
    exact ⟨_, ⟨_, rfl, rfl⟩, _, ⟨contents, hcontents, _, ⟨_, rfl, rfl⟩, rfl⟩, rfl⟩

theorem mem_openString : text ∈ openString.language ↔ ∃ contents,
    text = '"' :: contents ∧ ∀ c ∈ contents, isInString c = true := by
  simp only [language, pattern, char, mem_seq, mem_one, mem_star_one, beq_iff_eq]
  constructor
  · rintro ⟨-, ⟨-, rfl, rfl⟩, contents, hcontents, rfl⟩
    exact ⟨contents, rfl, hcontents⟩
  · rintro ⟨contents, rfl, hcontents⟩
    exact ⟨_, ⟨_, rfl, rfl⟩, contents, hcontents, rfl⟩

theorem mem_word : text ∈ word.language ↔ ∃ c rest,
    text = c :: rest ∧ c.isAlpha = true ∧ ∀ d ∈ rest, isInWord d = true := by
  simp only [language, pattern, mem_seq, mem_one, mem_star_one]
  constructor
  · rintro ⟨-, ⟨c, hc, rfl⟩, rest, hrest, rfl⟩
    exact ⟨c, rest, rfl, hc, hrest⟩
  · rintro ⟨c, rest, rfl, hc, hrest⟩
    exact ⟨_, ⟨c, hc, rfl⟩, rest, hrest, rfl⟩

end

/-- The rule that a text belongs to, if it is a lexeme at all. -/
def ofLexeme? : List Char → Option Rule
  | [] => none
  | c :: rest =>
    if c = '\n' then some newline
    else if isBlank c then some blanks
    else if c = '"' then some (if rest.getLast? = some '"' then string else openString)
    else if c = '/' ∧ rest.head? = some '*' then some commentOpener
    else if c = '/' ∧ rest.head? = some '/' then some lineComment
    else if c.isDigit then
      some (if '.' ∈ rest then double else if rest.any isHexMark then hexadecimal else decimal)
    else if c.isAlpha then some word
    else (Operator.all.find? (·.text.toList = c :: rest)).map operator

private theorem ne_of_class {accepts : Char → Bool} {c d : Char} (hc : accepts c = true)
    (hd : accepts d = false) : c ≠ d := by
  rintro rfl
  simp [hd] at hc

private theorem not_isBlank {c : Char} (hspace : c ≠ ' ') (htab : c ≠ '\t') : isBlank c = false := by
  simp [isBlank, hspace, htab]

private theorem not_isDigit {c : Char} (h : c.isAlpha = true) : c.isDigit = false := by
  have hletter : 65 ≤ c.toNat := by
    rcases Bool.or_eq_true_iff.mp h with hupper | hlower
    · exact UInt32.le_iff_toNat_le.mp (of_decide_eq_true hupper).1
    · have hle := UInt32.le_iff_toNat_le.mp (of_decide_eq_true (Bool.and_eq_true_iff.mp hlower).1)
      exact le_trans (by decide) hle
  apply Bool.eq_false_of_not_eq_true
  intro hdigit
  have hle := UInt32.le_iff_toNat_le.mp (of_decide_eq_true (Bool.and_eq_true_iff.mp hdigit).2)
  exact absurd (hletter.trans hle) (by decide)

private theorem ofLexeme?_digit {c : Char} (h : c.isDigit = true) (rest : List Char) :
    ofLexeme? (c :: rest) =
      some (if '.' ∈ rest then double else if rest.any isHexMark then hexadecimal else decimal) := by
  have hnewline : c ≠ '\n' := ne_of_class h (by decide)
  have hblank : isBlank c = false :=
    not_isBlank (ne_of_class h (by decide)) (ne_of_class h (by decide))
  have hquote : c ≠ '"' := ne_of_class h (by decide)
  have hslash : c ≠ '/' := ne_of_class h (by decide)
  simp [ofLexeme?, hnewline, hblank, hquote, hslash, h]

private theorem ofLexeme?_alpha {c : Char} (h : c.isAlpha = true) (rest : List Char) :
    ofLexeme? (c :: rest) = some word := by
  have hnewline : c ≠ '\n' := ne_of_class h (by decide)
  have hblank : isBlank c = false :=
    not_isBlank (ne_of_class h (by decide)) (ne_of_class h (by decide))
  have hquote : c ≠ '"' := ne_of_class h (by decide)
  have hslash : c ≠ '/' := ne_of_class h (by decide)
  simp [ofLexeme?, hnewline, hblank, hquote, hslash, h, not_isDigit h]

private theorem notMem_of_class {accepts : Char → Bool} {text : List Char} {d : Char}
    (h : ∀ c ∈ text, accepts c = true) (hd : accepts d = false) : d ∉ text := fun hmem => by
  simpa [hd] using h d hmem

private theorem not_isHexMark {text : List Char} {accepts : Char → Bool}
    (h : ∀ c ∈ text, accepts c = true) (hlower : accepts 'x' = false)
    (hupper : accepts 'X' = false) : text.any isHexMark = false := by
  simp only [List.any_eq_false, isHexMark, Bool.or_eq_true, beq_iff_eq]
  rintro c hc (rfl | rfl)
  · exact notMem_of_class h hlower hc
  · exact notMem_of_class h hupper hc

private theorem ofLexeme?_double {text : List Char} (h : text ∈ double.language) :
    ofLexeme? text = some double := by
  obtain ⟨whole, fraction, exponent, rfl, ⟨hne, hwhole⟩, -, -⟩ := mem_double.mp h
  obtain ⟨c, whole, rfl⟩ := List.exists_cons_of_ne_nil hne
  rw [List.cons_append, ofLexeme?_digit (hwhole c List.mem_cons_self)]
  simp

private theorem ofLexeme?_decimal {text : List Char} (h : text ∈ decimal.language) :
    ofLexeme? text = some decimal := by
  obtain ⟨hne, hdigits⟩ := mem_decimal.mp h
  obtain ⟨c, text, rfl⟩ := List.exists_cons_of_ne_nil hne
  have hrest := (List.forall_mem_cons.mp hdigits).2
  rw [ofLexeme?_digit (hdigits c List.mem_cons_self), if_neg (notMem_of_class hrest (by decide)),
    not_isHexMark hrest (by decide) (by decide)]
  rfl

private theorem ofLexeme?_hexadecimal {text : List Char} (h : text ∈ hexadecimal.language) :
    ofLexeme? text = some hexadecimal := by
  obtain ⟨mark, digits, rfl, hmark, -, hdigits⟩ := mem_hexadecimal.mp h
  have hpoint : '.' ∉ mark :: digits := by
    rintro (_ | ⟨_, hmem⟩)
    · simp [isHexMark] at hmark
    · exact notMem_of_class hdigits (by decide) hmem
  rw [ofLexeme?_digit (by decide), if_neg hpoint, List.any_cons, hmark]
  rfl

/-- Each text is a lexeme of one rule at most. -/
theorem ofLexeme?_of_mem {rule : Rule} {text : List Char} (h : text ∈ rule.language) :
    ofLexeme? text = some rule := by
  cases rule with
  | commentOpener =>
    obtain rfl := mem_commentOpener.mp h
    rfl
  | lineComment =>
    obtain ⟨body, rfl, -⟩ := mem_lineComment.mp h
    rfl
  | blanks =>
    obtain ⟨hne, hblank⟩ := mem_blanks.mp h
    obtain ⟨c, text, rfl⟩ := List.exists_cons_of_ne_nil hne
    have hc := hblank c List.mem_cons_self
    have hnewline : c ≠ '\n' := ne_of_class hc (by decide)
    simp [ofLexeme?, hnewline, hc]
  | newline =>
    obtain rfl := mem_newline.mp h
    rfl
  | operator o =>
    obtain rfl := mem_operator.mp h
    cases o <;> decide
  | double => exact ofLexeme?_double h
  | hexadecimal => exact ofLexeme?_hexadecimal h
  | decimal => exact ofLexeme?_decimal h
  | string =>
    obtain ⟨contents, rfl, -⟩ := mem_string.mp h
    simp [ofLexeme?, isBlank]
  | openString =>
    obtain ⟨contents, rfl, hcontents⟩ := mem_openString.mp h
    have hlast : contents.getLast? ≠ some '"' := fun he =>
      notMem_of_class hcontents (by decide) (List.mem_of_getLast? he)
    simp [ofLexeme?, isBlank, hlast]
  | word =>
    obtain ⟨c, rest, rfl, hc, -⟩ := mem_word.mp h
    exact ofLexeme?_alpha hc rest

theorem eq_of_mem_language {rule rule' : Rule} {text : List Char} (h : text ∈ rule.language)
    (h' : text ∈ rule'.language) : rule = rule' :=
  Option.some.inj ((ofLexeme?_of_mem h).symm.trans (ofLexeme?_of_mem h'))

/-- A single character is a lexeme of the rule that it is told to belong to. -/
theorem mem_of_ofLexeme?_singleton {c : Char} {rule : Rule} (h : ofLexeme? [c] = some rule) :
    [c] ∈ rule.language := by
  simp only [ofLexeme?, List.head?_nil, List.getLast?_nil, List.any_nil, List.not_mem_nil,
    reduceCtorEq, and_false, if_false, Bool.false_eq_true] at h
  split_ifs at h with hnewline hblank hquote hdigit halpha
  · obtain rfl := Option.some.inj h
    exact mem_newline.mpr (by rw [hnewline])
  · obtain rfl := Option.some.inj h
    exact mem_blanks.mpr ⟨List.cons_ne_nil _ _, by simpa using hblank⟩
  · obtain rfl := Option.some.inj h
    exact mem_openString.mpr ⟨[], by rw [hquote], by simp⟩
  · obtain rfl := Option.some.inj h
    exact mem_decimal.mpr ⟨List.cons_ne_nil _ _, by simpa using hdigit⟩
  · obtain rfl := Option.some.inj h
    exact mem_word.mpr ⟨c, [], rfl, halpha, by simp⟩
  · obtain ⟨o, ho, rfl⟩ := Option.map_eq_some_iff.mp h
    have htext := List.find?_some ho
    exact mem_operator.mpr (of_decide_eq_true htext).symm

end DecafLex.Rule
