import DecafLex.Proofs.Rule.Language

/-! How lexemes grow. Read from the left, a lexeme passes through shorter ones, of the same or of other
rules, and never takes more than three further characters to come to the next. -/
namespace DecafLex.Rule

/-- The most characters from a lexeme to the next longer one: a mark, a sign and a digit. -/
def reach : Nat := 3

/-- A front of the text is a lexeme that goes beyond the first `n` characters, by `reach` at most. -/
def GrowsFrom (n : Nat) (text : List Char) : Prop :=
  ∃ (rule : Rule) (front : List Char), front <+: text ∧ n < front.length ∧
    front.length ≤ n + reach ∧ front ∈ rule.language

variable {rule : Rule} {text : List Char} {n : Nat}

theorem GrowsFrom.of_isPrefix {front : List Char} (h : GrowsFrom n front)
    (hfront : front <+: text) : GrowsFrom n text := by
  obtain ⟨rule, lexeme, hlexeme, hmore, hless, hmem⟩ := h
  exact ⟨rule, lexeme, hlexeme.trans hfront, hmore, hless, hmem⟩

/-- Every front from some length on, which is within reach, is a lexeme of the rule. -/
private theorem growsFrom_of_take (rule : Rule) (least : Nat) (hleast : least ≤ n + reach)
    (hlength : least ≤ text.length) (hn : n < text.length)
    (h : ∀ length, least ≤ length → length ≤ text.length → text.take length ∈ rule.language) :
    GrowsFrom n text := by
  have hle : max least (n + 1) ≤ text.length := max_le hlength hn
  have htake := List.length_take_of_le hle
  refine ⟨rule, text.take (max least (n + 1)), List.take_prefix .., ?_, ?_,
    h _ (le_max_left ..) hle⟩
  · rw [htake]
    exact lt_of_lt_of_le (Nat.lt_succ_self n) (le_max_right ..)
  · rw [htake, reach]
    exact max_le hleast (by omega)

/-- A fixed text is short enough to be reached at once. -/
private theorem growsFrom_of_length_le (hshort : text.length ≤ reach) (hn : n < text.length)
    (h : text ∈ rule.language) : GrowsFrom n text := by
  apply growsFrom_of_take rule text.length (hshort.trans (Nat.le_add_left ..)) (Nat.le_refl _) hn
  intro length hle hge
  rwa [List.take_of_length_le hle]

/-- A run of characters of one class grows by one at a time. -/
private theorem growsFrom_run {accepts : Char → Bool} (hn : n < text.length)
    (hrule : ∀ front, front ≠ [] ∧ (∀ c ∈ front, accepts c = true) → front ∈ rule.language)
    (h : ∀ c ∈ text, accepts c = true) : GrowsFrom n text := by
  apply growsFrom_of_take rule 1 (by simp [reach]) (by omega) hn
  intro length hleast hlength
  refine hrule _ ⟨?_, fun c hc => h c (List.mem_of_mem_take hc)⟩
  rw [← List.length_pos_iff, List.length_take_of_le hlength]
  exact hleast

private theorem growsFrom_openString {contents : List Char} (hn : n < contents.length + 1)
    (h : ∀ c ∈ contents, isInString c = true) : GrowsFrom n ('"' :: contents) := by
  apply growsFrom_of_take openString 1 (by simp [reach]) (by simp) hn
  intro length hleast _
  obtain ⟨length, rfl⟩ := Nat.exists_eq_succ_of_ne_zero (Nat.ne_of_gt hleast)
  exact mem_openString.mpr ⟨contents.take length, rfl, fun c hc => h c (List.mem_of_mem_take hc)⟩

private theorem growsFrom_fraction {whole fraction : List Char}
    (hn : n < (whole ++ '.' :: fraction).length)
    (hwhole : whole ≠ [] ∧ ∀ c ∈ whole, c.isDigit = true)
    (hfraction : ∀ c ∈ fraction, c.isDigit = true) : GrowsFrom n (whole ++ '.' :: fraction) := by
  by_cases hinside : n < whole.length
  · exact (growsFrom_run hinside (fun _ => mem_decimal.mpr) hwhole.2).of_isPrefix
      (List.prefix_append ..)
  · apply growsFrom_of_take double (whole.length + 1)
      (by rw [reach]; omega) (by simp) hn
    intro length hleast _
    obtain ⟨length, rfl⟩ := Nat.exists_eq_add_of_le hleast
    refine mem_double.mpr ⟨whole, fraction.take length, [], ?_, hwhole,
      fun c hc => hfraction c (List.mem_of_mem_take hc), .inr rfl⟩
    rw [List.append_nil, ← List.take_succ_cons, ← List.take_length_add_append, Nat.add_assoc,
      Nat.add_comm 1]

/-- An exponent begins with a mark, a sign and a digit, of which none can be missing. -/
private theorem growsFrom_exponent {base exponent : List Char} (hbase : base.length ≤ n)
    (hn : n < (base ++ exponent).length)
    (hdouble : ∀ e, e ∈ exponentPattern.language → base ++ e ∈ double.language)
    (h : exponent ∈ exponentPattern.language) : GrowsFrom n (base ++ exponent) := by
  obtain ⟨mark, sign, digits, rfl, hmark, hsign, hne, hdigits⟩ := mem_exponentPattern.mp h
  have hpos := List.length_pos_iff.mpr hne
  apply growsFrom_of_take double (base.length + 3) (by rw [reach]; omega) ?_ hn
  · intro length hleast _
    obtain ⟨length, rfl⟩ := Nat.exists_eq_add_of_le hleast
    have hshort : mark :: sign :: digits.take (length + 1) ∈ exponentPattern.language := by
      refine mem_exponentPattern.mpr ⟨mark, sign, _, rfl, hmark, hsign, ?_,
        fun c hc => hdigits c (List.mem_of_mem_take hc)⟩
      rw [← List.length_pos_iff, List.length_take]
      omega
    have hlexeme := hdouble _ hshort
    rwa [← List.take_succ_cons, ← List.take_succ_cons, ← List.take_length_add_append,
      Nat.add_assoc length, Nat.add_assoc length, Nat.add_comm length, ← Nat.add_assoc] at hlexeme
  · simp only [List.length_append, List.length_cons]
    omega

private theorem growsFrom_double (h : text ∈ double.language) (hn : n < text.length) :
    GrowsFrom n text := by
  obtain ⟨whole, fraction, exponent, rfl, hwhole, hfraction, hexponent⟩ := mem_double.mp h
  rw [← List.cons_append, ← List.append_assoc] at hn ⊢
  by_cases hbase : n < (whole ++ '.' :: fraction).length
  · exact (growsFrom_fraction hbase hwhole hfraction).of_isPrefix (List.prefix_append ..)
  · rcases hexponent with hexponent | rfl
    · apply growsFrom_exponent (Nat.le_of_not_lt hbase) hn _ hexponent
      intro e he
      rw [List.append_assoc, List.cons_append]
      exact mem_double.mpr ⟨whole, fraction, e, rfl, hwhole, hfraction, .inl he⟩
    · rw [List.append_nil] at hn
      exact absurd hn hbase

/-- However much of a lexeme has been read, a lexeme ends within reach of there. -/
theorem growsFrom_of_mem (h : text ∈ rule.language) (hn : n < text.length) : GrowsFrom n text := by
  cases rule with
  | commentOpener =>
    obtain rfl := mem_commentOpener.mp h
    exact growsFrom_of_length_le (by simp [reach]) hn h
  | newline =>
    obtain rfl := mem_newline.mp h
    exact growsFrom_of_length_le (by simp [reach]) hn h
  | operator o =>
    refine growsFrom_of_length_le ?_ hn h
    obtain rfl := mem_operator.mp h
    cases o <;> decide
  | lineComment =>
    obtain ⟨body, rfl, hbody⟩ := mem_lineComment.mp h
    apply growsFrom_of_take lineComment 2 (by simp [reach]) (by simp) hn
    intro length hleast _
    obtain ⟨length, rfl⟩ := Nat.exists_eq_add_of_le' hleast
    exact mem_lineComment.mpr ⟨body.take length, rfl, fun hc => hbody (List.mem_of_mem_take hc)⟩
  | blanks => exact growsFrom_run hn (fun _ => mem_blanks.mpr) (mem_blanks.mp h).2
  | double => exact growsFrom_double h hn
  | hexadecimal =>
    obtain ⟨mark, digits, rfl, hmark, hne, hdigits⟩ := mem_hexadecimal.mp h
    have hpos := List.length_pos_iff.mpr hne
    apply growsFrom_of_take hexadecimal 3 (by simp [reach]) ?_ hn
    · intro length hleast hlength
      obtain ⟨length, rfl⟩ := Nat.exists_eq_add_of_le' hleast
      refine mem_hexadecimal.mpr ⟨mark, digits.take (length + 1), rfl, hmark, ?_,
        fun c hc => hdigits c (List.mem_of_mem_take hc)⟩
      rw [← List.length_pos_iff, List.length_take]
      omega
    · simp only [List.length_cons]
      omega
  | decimal => exact growsFrom_run hn (fun _ => mem_decimal.mpr) (mem_decimal.mp h).2
  | string =>
    obtain ⟨contents, rfl, hcontents⟩ := mem_string.mp h
    by_cases hclosed : n < contents.length + 1
    · exact (growsFrom_openString hclosed hcontents).of_isPrefix ⟨['"'], rfl⟩
    · refine ⟨string, _, List.prefix_rfl, hn, ?_, h⟩
      simp only [List.length_cons, List.length_append, List.length_nil, reach]
      omega
  | openString =>
    obtain ⟨contents, rfl, hcontents⟩ := mem_openString.mp h
    exact growsFrom_openString hn hcontents
  | word =>
    obtain ⟨c, rest, rfl, hc, hrest⟩ := mem_word.mp h
    apply growsFrom_of_take word 1 (by simp [reach]) (by simp) hn
    intro length hleast _
    obtain ⟨length, rfl⟩ := Nat.exists_eq_succ_of_ne_zero (Nat.ne_of_gt hleast)
    exact mem_word.mpr ⟨c, rest.take length, rfl, hc, fun d hd => hrest d (List.mem_of_mem_take hd)⟩

end DecafLex.Rule
