import DecafLex.Proofs.Rule.Munch
import DecafLex.Proofs.Rule.Meaning

/-! The lexemes of each kind of token. No text is a lexeme of two kinds. -/
namespace DecafLex

theorem Keyword.text_of_ofText? {word : String} {k : Keyword} (h : ofText? word = some k) :
    k.text = word := by
  unfold ofText? at h
  simpa using List.find?_some h

namespace TokenKind

/-- The lexemes of the kind. -/
def lexemes : TokenKind → Set String
  | endOfInput => {""}
  | intConstant =>
    {lexeme | lexeme.toList ∈ Rule.decimal.language ∨ lexeme.toList ∈ Rule.hexadecimal.language}
  | doubleConstant => {lexeme | lexeme.toList ∈ Rule.double.language}
  | boolConstant => {"true", "false"}
  | stringConstant =>
    {lexeme | ∃ contents : String, lexeme = "\"" ++ contents ++ "\"" ∧
      '"' ∉ contents.toList ∧ '\n' ∉ contents.toList}
  | identifier =>
    {lexeme | lexeme.toList ∈ Rule.word.language ∧ Keyword.ofText? lexeme = none ∧
      lexeme ≠ "true" ∧ lexeme ≠ "false"}
  | operator o => {lexeme | o.symbol? = some lexeme ∨ o.symbol? = none ∧ lexeme = o.text}
  | keyword k => {lexeme | Keyword.ofText? lexeme = some k}

/-- Tokens of the kind hold a value. -/
def hasValue : TokenKind → Bool
  | intConstant | doubleConstant | boolConstant | stringConstant | identifier => true
  | _ => false

/-- A value that a token of the kind with the lexeme can hold. -/
inductive Holds (lexeme : String) : TokenKind → Option Value → Prop where
  | integer (n : Int) : Holds lexeme intConstant (some (.integer n))
  | double (x : Binary64) : Holds lexeme doubleConstant (some (.double x))
  | bool (b : Bool) (hb : lexeme = toString b) : Holds lexeme boolConstant (some (.bool b))
  | str (contents : String) (hcontents : lexeme = "\"" ++ contents ++ "\"") :
      Holds lexeme stringConstant (some (.str contents))
  | identifier (id : DeclId) : Holds lexeme identifier (some (.identifier id))
  | nothing (kind : TokenKind) (hkind : kind.hasValue = false) : Holds lexeme kind none

def ofWord (word : String) : TokenKind :=
  match Keyword.ofText? word with
  | some k => keyword k
  | none => if word = "true" ∨ word = "false" then boolConstant else identifier

theorem ofWord_eq_identifier {word : String}
    (h : Keyword.ofText? word = none ∧ word ≠ "true" ∧ word ≠ "false") :
    ofWord word = identifier := by
  rw [ofWord, h.1]
  exact if_neg (not_or.mpr h.2)

end TokenKind

namespace Rule

/-- The kind of the tokens that lexemes of the rule make. -/
def kind? (rule : Rule) (lexeme : String) : Option TokenKind :=
  match rule with
  | operator o => some (.operator o)
  | double => some .doubleConstant
  | decimal | hexadecimal => some .intConstant
  | string => some .stringConstant
  | word => some (.ofWord lexeme)
  | _ => none

variable {rule : Rule} {text : List Char} {kind : TokenKind} {value : Option Value}

theorem kind?_of_name (h : word.meaning text = .name) :
    word.kind? (String.ofList text) = some .identifier :=
  congrArg some (TokenKind.ofWord_eq_identifier (not_reserved_of_meaning h))

private theorem ofText?_toString (b : Bool) : Keyword.ofText? (toString b) = none := by
  cases b <;> decide

theorem Yields.kind? (h : Yields text rule kind value) :
    rule.kind? (String.ofList text) = some kind := by
  cases h with
  | integer rule hrule n => rcases hrule with rfl | rfl <;> rfl
  | keyword k hkeyword => rw [Rule.kind?, TokenKind.ofWord, hkeyword]
  | bool b hbool =>
    rw [Rule.kind?, TokenKind.ofWord, hbool, ofText?_toString]
    cases b <;> rfl
  | _ => rfl

theorem Yields.holds (h : Yields text rule kind value) (hmem : text ∈ rule.language) :
    kind.Holds (String.ofList text) value := by
  cases h with
  | operator o => exact .nothing _ rfl
  | double x => exact .double x
  | integer rule hrule n => exact .integer n
  | string =>
    obtain ⟨contents, rfl, -⟩ := mem_string.mp hmem
    refine .str _ (String.toList_inj.mp ?_)
    simp
  | keyword k => exact .nothing _ rfl
  | bool b hbool => exact .bool b hbool

end Rule

namespace TokenKind

variable {lexeme : String} {kind kind' : TokenKind} {value : Option Value}

theorem Holds.isSome (h : kind.Holds lexeme value) : value.isSome = kind.hasValue := by
  cases h with
  | nothing _ hkind => exact hkind.symm
  | _ => rfl

theorem Holds.exists_bool (h : kind.Holds lexeme value) (hkind : kind = boolConstant) :
    ∃ b, value = some (.bool b) ∧ lexeme = toString b := by
  cases h with
  | bool b hb => exact ⟨b, rfl, hb⟩
  | nothing _ hnone =>
    subst hkind
    cases hnone
  | _ => cases hkind

theorem Holds.exists_str (h : kind.Holds lexeme value) (hkind : kind = stringConstant) :
    ∃ contents, value = some (.str contents) ∧ lexeme = "\"" ++ contents ++ "\"" := by
  cases h with
  | str contents hcontents => exact ⟨contents, rfl, hcontents⟩
  | nothing _ hnone =>
    subst hkind
    cases hnone
  | _ => cases hkind

private theorem mem_word_of_all {text : List Char} (h : text.head?.any Char.isAlpha = true)
    (htail : text.tail.all Rule.isInWord = true) : text ∈ Rule.word.language := by
  cases text with
  | nil => cases h
  | cons c rest => exact Rule.mem_word.mpr ⟨c, rest, rfl, h, List.all_eq_true.mp htail⟩

private theorem text_mem_word (k : Keyword) : k.text.toList ∈ Rule.word.language := by
  apply mem_word_of_all
  · cases k <;> decide
  · cases k <;> decide

private theorem toString_mem_word (b : Bool) : (toString b).toList ∈ Rule.word.language := by
  apply mem_word_of_all
  · cases b <;> decide
  · cases b <;> decide

theorem mem_operator {o : Operator} : lexeme ∈ (operator o).lexemes ↔ lexeme = o.text := by
  change o.symbol? = some lexeme ∨ o.symbol? = none ∧ lexeme = o.text ↔ _
  rw [Operator.symbol?_eq]
  split <;> simp [eq_comm]

private theorem forall_isInString {text : List Char} :
    (∀ c ∈ text, Rule.isInString c = true) ↔ '"' ∉ text ∧ '\n' ∉ text := by
  simp only [Rule.isInString, Bool.and_eq_true, bne_iff_ne, forall_and, List.forall_mem_ne']

theorem mem_stringConstant :
    lexeme ∈ stringConstant.lexemes ↔ lexeme.toList ∈ Rule.string.language := by
  simp only [Rule.mem_string, forall_isInString]
  constructor
  · rintro ⟨contents, rfl, hcontents⟩
    exact ⟨contents.toList, by simp, hcontents⟩
  · rintro ⟨contents, htext, hcontents⟩
    refine ⟨String.ofList contents, String.toList_inj.mp ?_, ?_⟩
    · simp [htext]
    · simpa using hcontents

theorem mem_ofWord (hword : lexeme.toList ∈ Rule.word.language) :
    lexeme ∈ (ofWord lexeme).lexemes := by
  unfold ofWord
  split
  next k hkeyword => exact hkeyword
  next hkeyword =>
    split_ifs with hbool
    · exact hbool
    · exact ⟨hword, hkeyword, not_or.mp hbool⟩

/-- What a rule makes tokens of is a lexeme of their kind. -/
theorem mem_lexemes_of_kind? {rule : Rule} (hmem : lexeme.toList ∈ rule.language)
    (hkind : rule.kind? lexeme = some kind) : lexeme ∈ kind.lexemes := by
  cases rule with
  | operator o =>
    obtain rfl := Option.some.inj hkind
    exact mem_operator.mpr (String.toList_inj.mp (Rule.mem_operator.mp hmem))
  | double =>
    obtain rfl := Option.some.inj hkind
    exact hmem
  | decimal =>
    obtain rfl := Option.some.inj hkind
    exact .inl hmem
  | hexadecimal =>
    obtain rfl := Option.some.inj hkind
    exact .inr hmem
  | string =>
    obtain rfl := Option.some.inj hkind
    exact mem_stringConstant.mpr hmem
  | word =>
    obtain rfl := Option.some.inj hkind
    exact mem_ofWord hmem
  | _ => cases hkind

/-- The lexemes of a kind are lexemes of rules that make tokens of the kind. -/
theorem exists_rule_of_mem_lexemes (h : lexeme ∈ kind.lexemes) (hkind : kind ≠ endOfInput) :
    ∃ rule : Rule, lexeme.toList ∈ rule.language ∧ rule.kind? lexeme = some kind := by
  cases kind with
  | endOfInput => exact absurd rfl hkind
  | intConstant =>
    rcases h with h | h
    · exact ⟨.decimal, h, rfl⟩
    · exact ⟨.hexadecimal, h, rfl⟩
  | doubleConstant => exact ⟨.double, h, rfl⟩
  | boolConstant =>
    rcases h with rfl | rfl
    · exact ⟨.word, toString_mem_word true, rfl⟩
    · exact ⟨.word, toString_mem_word false, rfl⟩
  | stringConstant => exact ⟨.string, mem_stringConstant.mp h, rfl⟩
  | identifier =>
    obtain ⟨hword, hfree⟩ := h
    exact ⟨.word, hword, congrArg some (ofWord_eq_identifier hfree)⟩
  | operator o =>
    obtain rfl := mem_operator.mp h
    exact ⟨.operator o, Rule.mem_operator.mpr rfl, rfl⟩
  | keyword k =>
    have hkeyword : Keyword.ofText? lexeme = some k := h
    obtain rfl := Keyword.text_of_ofText? hkeyword
    refine ⟨.word, text_mem_word k, ?_⟩
    rw [Rule.kind?, ofWord, hkeyword]

theorem eq_of_mem_lexemes (h : lexeme ∈ kind.lexemes) (h' : lexeme ∈ kind'.lexemes) :
    kind = kind' := by
  have hempty {other : TokenKind} (hother : "" ∈ other.lexemes) : other = endOfInput := by
    by_contra hne
    obtain ⟨rule, hmem, -⟩ := exists_rule_of_mem_lexemes hother hne
    exact Rule.nil_notMem_language rule hmem
  by_cases hlexeme : lexeme = ""
  · subst hlexeme
    rw [hempty h, hempty h']
  · have hne {other : TokenKind} (hother : lexeme ∈ other.lexemes) : other ≠ endOfInput := by
      rintro rfl
      exact hlexeme hother
    obtain ⟨rule, hmem, hkind⟩ := exists_rule_of_mem_lexemes h (hne h)
    obtain ⟨rule', hmem', hkind'⟩ := exists_rule_of_mem_lexemes h' (hne h')
    rw [Rule.eq_of_mem_language hmem hmem', hkind'] at hkind
    exact (Option.some.inj hkind).symm

end TokenKind
end DecafLex
