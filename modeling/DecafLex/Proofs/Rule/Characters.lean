import DecafLex.Proofs.Rule.Language
import DecafLex.Proofs.Rule.Meaning

/-! Which characters the texts of a rule hold, and where a run of blanks can be cut. -/
namespace DecafLex.Rule

variable {rule : Rule} {text : List Char} {c : Char}

/-- What numbers and words are made of. -/
def isMark (c : Char) : Bool :=
  isInWord c || Numeral.isHexDigit c || isHexMark c || isExponentMark c || isSign c || c == '.'

private theorem isMark_of_isDigit (h : c.isDigit = true) : isMark c = true := by
  simp [isMark, isInWord, Char.isAlphanum, h]

private theorem isMark_of_mem_exponent (h : text ∈ exponentPattern.language) (hc : c ∈ text) :
    isMark c = true := by
  obtain ⟨mark, sign, digits, rfl, hmark, hsign, -, hdigits⟩ := mem_exponentPattern.mp h
  rcases hc with _ | ⟨_, _ | ⟨_, hc⟩⟩
  · simp [isMark, hmark]
  · simp [isMark, hsign]
  · exact isMark_of_isDigit (hdigits c hc)

theorem isMark_of_mem (hrule : rule = double ∨ rule = hexadecimal ∨ rule = decimal ∨ rule = word)
    (h : text ∈ rule.language) (hc : c ∈ text) : isMark c = true := by
  rcases hrule with rfl | rfl | rfl | rfl
  · obtain ⟨whole, fraction, exponent, rfl, ⟨-, hwhole⟩, hfraction, hexponent⟩ :=
      mem_double.mp h
    simp only [List.mem_append, List.mem_cons] at hc
    rcases hc with hc | rfl | hc | hc
    · exact isMark_of_isDigit (hwhole c hc)
    · rfl
    · exact isMark_of_isDigit (hfraction c hc)
    · rcases hexponent with hexponent | rfl
      · exact isMark_of_mem_exponent hexponent hc
      · cases hc
  · obtain ⟨mark, digits, rfl, hmark, -, hdigits⟩ := mem_hexadecimal.mp h
    rcases hc with _ | ⟨_, _ | ⟨_, hc⟩⟩
    · rfl
    · simp [isMark, hmark]
    · simp [isMark, hdigits c hc]
  · exact isMark_of_isDigit ((mem_decimal.mp h).2 c hc)
  · obtain ⟨first, rest, rfl, hfirst, hrest⟩ := mem_word.mp h
    rcases hc with _ | ⟨_, hc⟩
    · simp [isMark, isInWord, Char.isAlphanum, hfirst]
    · simp [isMark, hrest c hc]

/-- Neither a blank nor a newline. -/
def isSolid (c : Char) : Bool := !isBlank c && c != '\n'

/-- Nothing that can begin a comment or a string. -/
def isPlain (c : Char) : Bool := c != '/' && c != '"'

private theorem isSolid_of_isMark (h : isMark c = true) : isSolid c = true := by
  simp only [isSolid, isBlank, Bool.and_eq_true, Bool.not_eq_true', Bool.or_eq_false_iff,
    beq_eq_false_iff_ne, bne_iff_ne, ne_eq]
  refine ⟨⟨?_, ?_⟩, ?_⟩ <;> rintro rfl <;> cases h

private theorem isPlain_of_isMark (h : isMark c = true) : isPlain c = true := by
  simp only [isPlain, Bool.and_eq_true, bne_iff_ne, ne_eq]
  refine ⟨?_, ?_⟩ <;> rintro rfl <;> cases h

theorem isSolid_of_mem (hskipped : rule.isSkipped = false)
    (hstring : rule ≠ string ∧ rule ≠ openString) (h : text ∈ rule.language) (hc : c ∈ text) :
    isSolid c = true := by
  cases rule with
  | lineComment | blanks | newline => cases hskipped
  | string => exact absurd rfl hstring.1
  | openString => exact absurd rfl hstring.2
  | commentOpener =>
    obtain rfl := mem_commentOpener.mp h
    have hall : ['/', '*'].all isSolid = true := rfl
    exact List.all_eq_true.mp hall c hc
  | operator o =>
    obtain rfl := mem_operator.mp h
    have hall : o.text.toList.all isSolid = true := by cases o <;> decide
    exact List.all_eq_true.mp hall c hc
  | _ => exact isSolid_of_isMark (isMark_of_mem (by simp) h hc)

theorem isPlain_of_mem (hcomment : rule ≠ commentOpener ∧ rule ≠ lineComment)
    (hstring : rule ≠ string ∧ rule ≠ openString) (hslash : rule ≠ operator .slash)
    (h : text ∈ rule.language) (hc : c ∈ text) : isPlain c = true := by
  cases rule with
  | commentOpener => exact absurd rfl hcomment.1
  | lineComment => exact absurd rfl hcomment.2
  | string => exact absurd rfl hstring.1
  | openString => exact absurd rfl hstring.2
  | blanks =>
    have hblank := (mem_blanks.mp h).2 c hc
    simp only [isBlank, Bool.or_eq_true, beq_iff_eq] at hblank
    rcases hblank with rfl | rfl <;> rfl
  | newline =>
    obtain rfl := mem_newline.mp h
    obtain rfl := List.mem_singleton.mp hc
    rfl
  | operator o =>
    obtain rfl := mem_operator.mp h
    have hall : o.text.toList.all isPlain = true := by
      cases o with
      | slash => exact absurd rfl hslash
      | _ => decide
    exact List.all_eq_true.mp hall c hc
  | _ => exact isPlain_of_isMark (isMark_of_mem (by simp) h hc)

/-- Only newlines hold newlines. -/
theorem newline_notMem (hrule : rule ≠ newline) (h : text ∈ rule.language) : '\n' ∉ text := by
  have hcontents {contents : List Char} (h : ∀ c ∈ contents, isInString c = true) :
      '\n' ∉ contents := fun hmem => Bool.false_ne_true (h _ hmem)
  cases rule with
  | newline => exact absurd rfl hrule
  | lineComment =>
    obtain ⟨body, rfl, hbody⟩ := mem_lineComment.mp h
    simpa using hbody
  | blanks => exact fun hmem => Bool.false_ne_true ((mem_blanks.mp h).2 _ hmem)
  | string =>
    obtain ⟨contents, rfl, hstring⟩ := mem_string.mp h
    simpa using hcontents hstring
  | openString =>
    obtain ⟨contents, rfl, hstring⟩ := mem_openString.mp h
    simpa using hcontents hstring
  | _ => exact fun hmem => Bool.false_ne_true (isSolid_of_mem rfl (by simp) h hmem)

/-- A text that ends in a blank can be continued by another. -/
theorem concat_blank_mem {d : Char} (h : text ∈ rule.language) (hlast : text.getLast? = some c)
    (hc : isBlank c = true) (hd : isBlank d = true) : text ++ [d] ∈ rule.language := by
  have hclass (accepts : Char → Bool) (hspace : accepts ' ' = true)
      (htab : accepts '\t' = true) : accepts d = true := by
    simp only [isBlank, Bool.or_eq_true, beq_iff_eq] at hd
    rcases hd with rfl | rfl
    · exact hspace
    · exact htab
  cases rule with
  | lineComment =>
    obtain ⟨body, rfl, hbody⟩ := mem_lineComment.mp h
    refine mem_lineComment.mpr ⟨body ++ [d], rfl, ?_⟩
    have hne := hclass (· != '\n') rfl rfl
    simpa [hbody] using (bne_iff_ne.mp hne).symm
  | blanks =>
    obtain ⟨-, hblanks⟩ := mem_blanks.mp h
    refine mem_blanks.mpr ⟨by simp, List.forall_mem_append.mpr ⟨hblanks, ?_⟩⟩
    simpa using hd
  | openString =>
    obtain ⟨contents, rfl, hcontents⟩ := mem_openString.mp h
    refine mem_openString.mpr ⟨contents ++ [d], rfl, List.forall_mem_append.mpr ⟨hcontents, ?_⟩⟩
    simpa using hclass isInString rfl rfl
  | newline =>
    obtain rfl := mem_newline.mp h
    obtain rfl : '\n' = c := by simpa using hlast
    cases hc
  | string =>
    obtain ⟨contents, rfl, -⟩ := mem_string.mp h
    obtain rfl : '"' = c := by simpa [List.getLast?_cons] using hlast
    cases hc
  | _ =>
    have hsolid := isSolid_of_mem rfl (by simp) h (List.mem_of_getLast? hlast)
    simp [isSolid, hc] at hsolid

theorem eq_blanks_of_isBlank (hc : isBlank c = true) (h : c :: text ∈ rule.language) :
    rule = blanks := by
  have hrule : ofLexeme? (c :: text) = some blanks := by
    simp only [isBlank, Bool.or_eq_true, beq_iff_eq] at hc
    rcases hc with rfl | rfl <;> rfl
  exact Option.some.inj ((ofLexeme?_of_mem h).symm.trans hrule)

/-- Where a lexeme goes on over a space, what stands before that is no lexeme that makes a token,
unless it is the first slash of a line comment. -/
theorem skipped_of_append_space {rest : List Char} (hne : text ≠ []) (hspace : ' ' ∈ rest)
    (h : text ++ rest ∈ rule.language) :
    (∃ rule' : Rule, (rule'.isSkipped = true ∨ rule' = openString) ∧ text ∈ rule'.language) ∨
      text = ['/'] ∧ rest.head? = some '/' := by
  have hend : rest ≠ [] := List.ne_nil_of_mem hspace
  have hmem : ' ' ∈ text ++ rest := List.mem_append_right text hspace
  obtain ⟨c, front, rfl⟩ := List.exists_cons_of_ne_nil hne
  cases rule with
  | blanks =>
    obtain ⟨-, hblank⟩ := mem_blanks.mp h
    exact .inl ⟨blanks, .inl rfl,
      mem_blanks.mpr ⟨hne, (List.forall_mem_append.mp hblank).1⟩⟩
  | lineComment =>
    obtain ⟨body, he, hbody⟩ := mem_lineComment.mp h
    obtain ⟨rfl, hrest⟩ := List.cons.inj he
    cases front with
    | nil =>
      obtain rfl : rest = '/' :: body := hrest
      exact .inr ⟨rfl, rfl⟩
    | cons d front =>
      obtain ⟨rfl, rfl⟩ := List.cons.inj hrest
      exact .inl ⟨lineComment, .inl rfl, mem_lineComment.mpr
        ⟨front, rfl, fun hfront => hbody (List.mem_append_left rest hfront)⟩⟩
  | string =>
    obtain ⟨contents, he, hcontents⟩ := mem_string.mp h
    obtain ⟨rfl, hrest⟩ := List.cons.inj he
    obtain hnil | ⟨rest, last, rfl⟩ := List.eq_nil_or_concat rest
    · exact absurd hnil hend
    · have happ : front ++ rest ++ [last] = contents ++ ['"'] := by
        rw [List.append_assoc, ← List.concat_eq_append]
        exact hrest
      obtain ⟨rfl, -⟩ := List.append_inj' happ rfl
      exact .inl ⟨openString, .inr rfl, mem_openString.mpr
        ⟨front, rfl, (List.forall_mem_append.mp hcontents).1⟩⟩
  | openString =>
    obtain ⟨contents, he, hcontents⟩ := mem_openString.mp h
    obtain ⟨rfl, rfl⟩ := List.cons.inj he
    exact .inl ⟨openString, .inr rfl, mem_openString.mpr
      ⟨front, rfl, (List.forall_mem_append.mp hcontents).1⟩⟩
  | newline =>
    rw [mem_newline.mp h] at hmem
    simp at hmem
  | _ =>
    have hsolid := isSolid_of_mem rfl (by simp) h hmem
    cases hsolid

end DecafLex.Rule
