import DecafLex.Proofs.Rule.Language
import Mathlib.Data.List.TakeWhile

/-! A rule takes the longest text of its language, and that is the match which the search for its
pattern prefers. -/
namespace DecafLex.Rule
open Pattern

private theorem run_split (accepts : Char → Bool) (text : List Char) : ∃ front rest,
    text = front ++ rest ∧ run accepts text = front.length ∧ ∀ c ∈ front, accepts c = true :=
  ⟨text.takeWhile accepts, text.dropWhile accepts, List.takeWhile_append_dropWhile.symm, rfl,
    fun _ => List.mem_takeWhile_imp⟩

private theorem run_append {accepts : Char → Bool} {front : List Char}
    (h : ∀ c ∈ front, accepts c = true) (rest : List Char) :
    run accepts (front ++ rest) = front.length + run accepts rest := by
  simp only [run, List.takeWhile_append_of_pos h, List.length_append]

private theorem run_cons_of_neg {accepts : Char → Bool} {c : Char} (h : accepts c = false)
    (rest : List Char) : run accepts (c :: rest) = 0 := by
  simp [run, h]

private theorem length_le_run {accepts : Char → Bool} {front : List Char}
    (h : ∀ c ∈ front, accepts c = true) (rest : List Char) :
    front.length ≤ run accepts (front ++ rest) := by
  rw [run_append h]
  omega

private theorem fixedLength_append (fixed : String) (rest : List Char) :
    fixedLength fixed (fixed.toList ++ rest) = fixed.toList.length := by
  simp [fixedLength, List.isPrefixOf_iff_prefix, String.length_toList]

private theorem fixedLength_split {fixed : String} {text : List Char}
    (h : fixedLength fixed text ≠ 0) : ∃ rest, text = fixed.toList ++ rest := by
  unfold fixedLength at h
  split at h
  · obtain ⟨rest, rfl⟩ := List.isPrefixOf_iff_prefix.mp ‹_›
    exact ⟨rest, rfl⟩
  · exact absurd rfl h

/-- `taken` characters at the front of `text` are in the language. -/
private def Takes (l : Language Char) (text : List Char) (taken : Nat) : Prop :=
  ∃ front rest, text = front ++ rest ∧ taken = front.length ∧ front ∈ l

private theorem fixed_takes {l : Language Char} {fixed : String} {text : List Char}
    (h : 0 < fixedLength fixed text) (hmem : fixed.toList ∈ l) :
    Takes l text (fixedLength fixed text) := by
  obtain ⟨rest, rfl⟩ := fixedLength_split h.ne'
  exact ⟨_, rest, rfl, fixedLength_append fixed rest, hmem⟩

private theorem exponent_takes {text : List Char} (h : 0 < exponentLength text) :
    Takes exponentPattern.language text (exponentLength text) := by
  match text with
  | [] | [_] => simp [exponentLength] at h
  | mark :: sign :: text =>
    simp only [exponentLength] at h ⊢
    split at h
    next hc =>
      obtain ⟨digits, rest, rfl, hlen, hdigits⟩ := run_split Char.isDigit text
      rw [hlen] at hc ⊢
      refine ⟨mark :: sign :: digits, rest, rfl, ?_, mem_exponentPattern.mpr
        ⟨mark, sign, digits, rfl, ?_, ?_, List.length_pos_iff.mp hc.2.2, hdigits⟩⟩
      · rw [if_pos hc]
        simp only [List.length_cons]
        omega
      · simpa [isExponentMark] using hc.1
      · simpa [isSign] using hc.2.1
    next => exact absurd h (Nat.lt_irrefl 0)

private theorem length_le_exponentLength {front : List Char}
    (h : front ∈ exponentPattern.language) (rest : List Char) :
    front.length ≤ exponentLength (front ++ rest) := by
  obtain ⟨mark, sign, digits, rfl, hmark, hsign, hne, hdigits⟩ := mem_exponentPattern.mp h
  have hrun := run_append hdigits rest
  have hpos := List.length_pos_iff.mpr hne
  have hc : (mark = 'e' ∨ mark = 'E') ∧ (sign = '+' ∨ sign = '-') ∧
      0 < run Char.isDigit (digits ++ rest) :=
    ⟨by simpa [isExponentMark] using hmark, by simpa [isSign] using hsign, by omega⟩
  simp only [List.cons_append, exponentLength, if_pos hc, List.length_cons]
  omega

private theorem double_takes {text : List Char} (h : 0 < doubleLength text) :
    Takes double.language text (doubleLength text) := by
  obtain ⟨whole, tail, rfl, hwholeLen, hwhole⟩ := run_split Char.isDigit text
  simp only [doubleLength, hwholeLen, List.drop_left] at h ⊢
  match tail with
  | [] => simp at h
  | c :: tail =>
    by_cases hpoint : c = '.'
    · subst hpoint
      by_cases hne : whole = []
      · simp [hne] at h
      obtain ⟨fraction, rest, rfl, hfractionLen, hfraction⟩ := run_split Char.isDigit tail
      have hwholePos := List.length_pos_iff.mpr hne
      simp only [hfractionLen, List.drop_left, if_neg hwholePos.ne'] at h ⊢
      by_cases hexp : 0 < exponentLength rest
      · obtain ⟨exponent, rest, rfl, hlen, hmem⟩ := exponent_takes hexp
        refine ⟨whole ++ '.' :: (fraction ++ exponent), rest, by simp, ?_, mem_double.mpr
          ⟨whole, fraction, exponent, rfl, ⟨hne, hwhole⟩, hfraction, .inl hmem⟩⟩
        simp only [hlen, List.length_append, List.length_cons]
        omega
      · refine ⟨whole ++ '.' :: (fraction ++ []), rest, by simp, ?_, mem_double.mpr
          ⟨whole, fraction, [], rfl, ⟨hne, hwhole⟩, hfraction, .inr rfl⟩⟩
        simp only [List.length_append, List.length_cons, List.length_nil]
        omega
    · split at h
      next heq => exact absurd (List.cons.inj heq).1 hpoint
      next => exact absurd h (Nat.lt_irrefl 0)

private theorem length_le_doubleLength {front : List Char} (h : front ∈ double.language)
    (rest : List Char) : front.length ≤ doubleLength (front ++ rest) := by
  obtain ⟨whole, fraction, exponent, rfl, ⟨hne, hwhole⟩, hfraction, hexponent⟩ := mem_double.mp h
  have hrun : run Char.isDigit (whole ++ '.' :: (fraction ++ exponent ++ rest)) = whole.length := by
    rw [run_append hwhole, run_cons_of_neg (by decide), Nat.add_zero]
  have hwholePos := List.length_pos_iff.mpr hne
  simp only [List.append_assoc, List.cons_append] at hrun ⊢
  simp only [doubleLength, hrun, List.drop_left, if_neg hwholePos.ne', List.length_append,
    List.length_cons]
  rcases hexponent with hmem | rfl
  · obtain ⟨mark, sign, digits, rfl, hmark, -⟩ := mem_exponentPattern.mp hmem
    have hdigit : mark.isDigit = false := by
      simp only [isExponentMark, Bool.or_eq_true, beq_iff_eq] at hmark
      rcases hmark with rfl | rfl <;> decide
    have hstop : run Char.isDigit (mark :: sign :: digits ++ rest) = 0 :=
      run_cons_of_neg hdigit _
    have hle := length_le_exponentLength hmem rest
    have hfractionLen :
        run Char.isDigit (fraction ++ (mark :: sign :: digits ++ rest)) = fraction.length := by
      rw [run_append hfraction, hstop, Nat.add_zero]
    rw [hfractionLen, List.drop_left]
    omega
  · have hle := length_le_run hfraction rest
    simp only [List.nil_append, List.length_nil]
    omega

private theorem lineComment_takes {text : List Char} (h : 0 < lineComment.munch text) :
    Takes lineComment.language text (lineComment.munch text) := by
  simp only [munch] at h ⊢
  split at h
  next => exact absurd h (Nat.lt_irrefl 0)
  next hne =>
    obtain ⟨tail, rfl⟩ := fixedLength_split hne
    obtain ⟨body, rest, rfl, hlen, hbody⟩ := run_split (· != '\n') tail
    refine ⟨'/' :: '/' :: body, rest, rfl, ?_, mem_lineComment.mpr ⟨body, rfl, fun hmem => ?_⟩⟩
    · rw [if_neg hne, run_append (by simp), hlen]
      simp only [List.length_cons]
      exact Nat.add_comm ..
    · simpa using hbody _ hmem

private theorem hexadecimal_takes {text : List Char} (h : 0 < hexadecimalLength text) :
    Takes hexadecimal.language text (hexadecimalLength text) := by
  unfold hexadecimalLength at h ⊢
  split at h
  next mark tail =>
    split at h
    next hc =>
      obtain ⟨digits, rest, rfl, hlen, hdigits⟩ := run_split Numeral.isHexDigit tail
      rw [hlen] at hc
      refine ⟨'0' :: mark :: digits, rest, rfl, ?_, mem_hexadecimal.mpr
        ⟨mark, digits, rfl, ?_, List.length_pos_iff.mp hc.2, hdigits⟩⟩
      · simp only [hlen, if_pos hc, List.length_cons]
        omega
      · simpa [isHexMark] using hc.1
    next => exact absurd h (Nat.lt_irrefl 0)
  next => exact absurd h (Nat.lt_irrefl 0)

private theorem string_takes {text : List Char} (h : 0 < stringLength text) :
    Takes string.language text (stringLength text) := by
  unfold stringLength at h ⊢
  split at h
  next tail =>
    obtain ⟨contents, rest, rfl, hlen, hcontents⟩ := run_split isInString tail
    simp only [hlen, List.getElem?_append_right le_rfl, Nat.sub_self] at h ⊢
    split at h
    next hquote =>
      obtain ⟨rest, rfl⟩ : ∃ tail, rest = '"' :: tail := by
        cases rest with
        | nil => simp at hquote
        | cons c rest => exact ⟨rest, by simpa using hquote⟩
      refine ⟨'"' :: (contents ++ ['"']), rest, by simp, ?_, mem_string.mpr
        ⟨contents, rfl, hcontents⟩⟩
      simp
    next => exact absurd h (Nat.lt_irrefl 0)
  next => exact absurd h (Nat.lt_irrefl 0)

private theorem openString_takes {text : List Char} (h : 0 < openStringLength text) :
    Takes openString.language text (openStringLength text) := by
  unfold openStringLength at h ⊢
  split at h
  next tail =>
    obtain ⟨contents, rest, rfl, hlen, hcontents⟩ := run_split isInString tail
    exact ⟨'"' :: contents, rest, rfl, by simp [hlen], mem_openString.mpr
      ⟨contents, rfl, hcontents⟩⟩
  next => exact absurd h (Nat.lt_irrefl 0)

private theorem word_takes {text : List Char} (h : 0 < wordLength text) :
    Takes word.language text (wordLength text) := by
  cases text with
  | nil => simp [wordLength] at h
  | cons c tail =>
    by_cases hc : c.isAlpha
    · obtain ⟨front, rest, rfl, hlen, hfront⟩ := run_split isInWord tail
      exact ⟨c :: front, rest, rfl, by simp [wordLength, hc, hlen], mem_word.mpr
        ⟨c, front, rfl, hc, hfront⟩⟩
    · simp [wordLength, hc] at h

private theorem run_takes {l : Language Char} {accepts : Char → Bool} {text : List Char}
    (h : 0 < run accepts text)
    (hl : ∀ front, front ≠ [] ∧ (∀ c ∈ front, accepts c = true) → front ∈ l) :
    Takes l text (run accepts text) := by
  obtain ⟨front, rest, rfl, hlen, hfront⟩ := run_split accepts text
  rw [hlen] at h
  exact ⟨front, rest, rfl, hlen, hl front ⟨List.length_pos_iff.mp h, hfront⟩⟩

private theorem munch_takes {rule : Rule} {text : List Char} (h : 0 < rule.munch text) :
    Takes rule.language text (rule.munch text) := by
  cases rule with
  | commentOpener => exact fixed_takes h (mem_commentOpener.mpr rfl)
  | lineComment => exact lineComment_takes h
  | blanks => exact run_takes h fun _ => mem_blanks.mpr
  | newline => exact fixed_takes h (mem_newline.mpr rfl)
  | operator o => exact fixed_takes h (mem_operator.mpr rfl)
  | double => exact double_takes h
  | hexadecimal => exact hexadecimal_takes h
  | decimal => exact run_takes h fun _ => mem_decimal.mpr
  | string => exact string_takes h
  | openString => exact openString_takes h
  | word => exact word_takes h

private theorem length_le_munch {rule : Rule} {front : List Char} (h : front ∈ rule.language)
    (rest : List Char) : front.length ≤ rule.munch (front ++ rest) := by
  cases rule with
  | commentOpener =>
    obtain rfl := mem_commentOpener.mp h
    exact (fixedLength_append "/*" rest).ge
  | lineComment =>
    obtain ⟨body, rfl, hbody⟩ := mem_lineComment.mp h
    have hfixed : fixedLength "//" ('/' :: '/' :: body ++ rest) = 2 :=
      fixedLength_append "//" (body ++ rest)
    have hline : '\n' ∉ '/' :: '/' :: body := by simp [hbody]
    rw [munch, if_neg (by rw [hfixed]; decide)]
    exact length_le_run (Text.forall_bne_newline hline) rest
  | blanks => exact length_le_run (mem_blanks.mp h).2 rest
  | newline =>
    obtain rfl := mem_newline.mp h
    exact (fixedLength_append "\n" rest).ge
  | operator o =>
    obtain rfl := mem_operator.mp h
    exact (fixedLength_append o.text rest).ge
  | double => exact length_le_doubleLength h rest
  | hexadecimal =>
    obtain ⟨mark, digits, rfl, hmark, hne, hdigits⟩ := mem_hexadecimal.mp h
    have hrun := run_append hdigits rest
    have hpos := List.length_pos_iff.mpr hne
    have hc : (mark = 'x' ∨ mark = 'X') ∧ 0 < run Numeral.isHexDigit (digits ++ rest) :=
      ⟨by simpa [isHexMark] using hmark, by omega⟩
    simp only [munch, List.cons_append, hexadecimalLength, if_pos hc, List.length_cons]
    omega
  | decimal => exact length_le_run (mem_decimal.mp h).2 rest
  | string =>
    obtain ⟨contents, rfl, hcontents⟩ := mem_string.mp h
    have hrun : run isInString (contents ++ '"' :: rest) = contents.length := by
      rw [run_append hcontents, run_cons_of_neg (by decide), Nat.add_zero]
    simp [munch, stringLength, hrun]
  | openString =>
    obtain ⟨contents, rfl, hcontents⟩ := mem_openString.mp h
    have hle := length_le_run hcontents rest
    simpa [munch, openStringLength] using hle
  | word =>
    obtain ⟨c, front, rfl, hc, hfront⟩ := mem_word.mp h
    have hle := length_le_run hfront rest
    simpa [munch, wordLength, hc] using hle

theorem nil_notMem_language (rule : Rule) : [] ∉ rule.language := fun h => by
  simpa [ofLexeme?] using ofLexeme?_of_mem h

theorem munch_le_length (rule : Rule) (text : List Char) : rule.munch text ≤ text.length := by
  rcases Nat.eq_zero_or_pos (rule.munch text) with h | h
  · omega
  · obtain ⟨front, rest, rfl, hlen, -⟩ := munch_takes h
    simp [hlen]

theorem munch_isLongest {rule : Rule} {text : List Char} (h : 0 < rule.munch text) :
    IsLongest rule.language text (text.take (rule.munch text)) := by
  have hle := munch_le_length rule text
  obtain ⟨front, rest, he, hlen, hmem⟩ := munch_takes h
  have htake : text.take (rule.munch text) = front := by rw [hlen, he, List.take_left]
  refine ⟨List.take_prefix .., htake ▸ hmem, ?_⟩
  rintro other ⟨rest, rfl⟩ hother
  rw [List.length_take_of_le hle]
  exact length_le_munch hother rest

theorem munch_eq_zero_iff {rule : Rule} {text : List Char} :
    rule.munch text = 0 ↔ ∀ front, front <+: text → front ∉ rule.language := by
  constructor
  · rintro h front ⟨rest, rfl⟩ hfront
    have := length_le_munch hfront rest
    obtain rfl := List.length_eq_zero_iff.mp (by omega : front.length = 0)
    exact nil_notMem_language rule hfront
  · intro h
    by_contra hne
    exact h _ (List.take_prefix ..) (munch_isLongest (Nat.pos_of_ne_zero hne)).mem

end DecafLex.Rule
