import DecafLex.Rule.Meaning
import Mathlib.Tactic.SplitIfs

/-! What the meaning of a lexeme can be, rule by rule. -/
namespace DecafLex

/-- The text that a problem is about. -/
def Problem.offending : Problem → String
  | unknownCharacter text => text
  | unterminatedString literal => literal
  | integerOutOfRange literal => literal
  | unterminatedComment => "/*"

namespace Rule

/-- The lexemes of the rule are passed over. -/
def isSkipped : Rule → Bool
  | lineComment | blanks | newline => true
  | _ => false

/-- A problem that a lexeme of the rule can be rejected for. -/
inductive Blames (text : List Char) : Rule → Problem → Prop where
  | openString : Blames text openString (.unterminatedString (String.ofList text))
  | number (rule : Rule) (hrule : rule = double ∨ rule = hexadecimal ∨ rule = decimal) :
      Blames text rule (.integerOutOfRange (String.ofList text))

/-- A meaning that a lexeme of the rule can have. -/
inductive Means (text : List Char) : Rule → Meaning → Prop where
  | opener : Means text commentOpener .commentOpener
  | nothing (rule : Rule) (hrule : rule.isSkipped = true) : Means text rule .nothing
  | token (rule : Rule) (kind : TokenKind) (value : Option Value)
      (hrule : rule ≠ commentOpener ∧ rule ≠ openString ∧ rule.isSkipped = false)
      (hkind : kind ≠ .endOfInput ∧ kind ≠ .identifier) : Means text rule (.token kind value)
  | name : Means text word .name
  | rejected (rule : Rule) (problem : Problem) (hblames : Blames text rule problem) :
      Means text rule (.rejected problem)

private theorem means_ofInteger {rule : Rule} (hrule : rule = hexadecimal ∨ rule = decimal)
    (text : List Char) (value : Nat) : Means text rule (.ofInteger text value) := by
  unfold Meaning.ofInteger
  split
  · exact .token _ _ _ (by rcases hrule with rfl | rfl <;> simp [isSkipped]) (by simp)
  · exact .rejected _ _ (.number _ (.inr hrule))

theorem means_meaning (rule : Rule) (text : List Char) : Means text rule (rule.meaning text) := by
  cases rule with
  | commentOpener => exact .opener
  | lineComment | blanks | newline => exact .nothing _ rfl
  | operator o => exact .token _ _ _ (by simp [isSkipped]) (by simp)
  | double =>
    change Means text double (.ofDouble text)
    unfold Meaning.ofDouble
    split
    · exact .token _ _ _ (by simp [isSkipped]) (by simp)
    · exact .rejected _ _ (.number _ (.inl rfl))
  | hexadecimal => exact means_ofInteger (.inl rfl) ..
  | decimal => exact means_ofInteger (.inr rfl) ..
  | string => exact .token _ _ _ (by simp [isSkipped]) (by simp)
  | openString => exact .rejected _ _ .openString
  | word =>
    change Means text word (.ofWord text)
    simp only [Meaning.ofWord]
    split
    · exact .token _ _ _ (by simp [isSkipped]) (by simp)
    · split_ifs
      · exact .token _ _ _ (by simp [isSkipped]) (by simp)
      · exact .token _ _ _ (by simp [isSkipped]) (by simp)
      · exact .name

theorem eq_commentOpener_of_meaning {rule : Rule} {text : List Char}
    (h : rule.meaning text = .commentOpener) : rule = commentOpener := by
  have hmeans := means_meaning rule text
  rw [h] at hmeans
  cases hmeans
  rfl

theorem token_of_meaning {rule : Rule} {text : List Char} {kind : TokenKind} {value : Option Value}
    (h : rule.meaning text = .token kind value) :
    (rule ≠ commentOpener ∧ rule ≠ openString ∧ rule.isSkipped = false) ∧
      kind ≠ .endOfInput ∧ kind ≠ .identifier := by
  have hmeans := means_meaning rule text
  rw [h] at hmeans
  cases hmeans with
  | token _ _ _ hrule hkind => exact ⟨hrule, hkind⟩

/-- A kind and a value that the token of a lexeme can have. -/
inductive Yields (text : List Char) : Rule → TokenKind → Option Value → Prop where
  | operator (o : Operator) : Yields text (operator o) (.operator o) none
  | double (x : Binary64) : Yields text double .doubleConstant (some (.double x))
  | integer (rule : Rule) (hrule : rule = decimal ∨ rule = hexadecimal) (n : Nat) :
      Yields text rule .intConstant (some (.integer n))
  | string : Yields text string .stringConstant
      (some (.str (String.ofList (text.drop 1).dropLast)))
  | keyword (k : Keyword) (hkeyword : Keyword.ofText? (String.ofList text) = some k) :
      Yields text word (.keyword k) none
  | bool (b : Bool) (hbool : String.ofList text = toString b) :
      Yields text word .boolConstant (some (.bool b))

private theorem yields_ofInteger {rule : Rule} (hrule : rule = decimal ∨ rule = hexadecimal)
    {text : List Char} {n : Nat} {kind : TokenKind} {value : Option Value}
    (h : Meaning.ofInteger text n = .token kind value) : Yields text rule kind value := by
  unfold Meaning.ofInteger at h
  split at h <;> cases h
  exact .integer rule hrule n

theorem yields_of_meaning {rule : Rule} {text : List Char} {kind : TokenKind}
    {value : Option Value} (h : rule.meaning text = .token kind value) :
    Yields text rule kind value := by
  cases rule with
  | operator o =>
    cases h
    exact .operator o
  | double =>
    change Meaning.ofDouble text = _ at h
    unfold Meaning.ofDouble at h
    split at h <;> cases h
    exact .double _
  | hexadecimal => exact yields_ofInteger (.inr rfl) h
  | decimal => exact yields_ofInteger (.inl rfl) h
  | string =>
    cases h
    exact .string
  | word =>
    change Meaning.ofWord text = _ at h
    simp only [Meaning.ofWord] at h
    split at h
    next k hkeyword =>
      cases h
      exact .keyword k hkeyword
    next =>
      split_ifs at h with htrue hfalse
      · cases h
        exact .bool true htrue
      · cases h
        exact .bool false hfalse
  | _ => cases h

/-- Identifiers alone are numbered, and a table numbers them. -/
theorem value_of_meaning {rule : Rule} {text : List Char} {kind : TokenKind} {value : Option Value}
    (h : rule.meaning text = .token kind value) (id : DeclId) :
    value ≠ some (.identifier id) := by
  cases yields_of_meaning h <;> simp

theorem not_reserved_of_meaning {text : List Char} (h : word.meaning text = .name) :
    Keyword.ofText? (String.ofList text) = none ∧ String.ofList text ≠ "true" ∧
      String.ofList text ≠ "false" := by
  change Meaning.ofWord text = .name at h
  simp only [Meaning.ofWord] at h
  split at h
  next => cases h
  next hkeyword =>
    split_ifs at h with htrue hfalse
    exact ⟨hkeyword, htrue, hfalse⟩

theorem blames_of_meaning {rule : Rule} {text : List Char} {problem : Problem}
    (h : rule.meaning text = .rejected problem) : Blames text rule problem := by
  have hmeans := means_meaning rule text
  rw [h] at hmeans
  cases hmeans with
  | rejected _ _ hblames => exact hblames

theorem Blames.offending {text : List Char} {rule : Rule} {problem : Problem}
    (h : Blames text rule problem) : problem.offending = String.ofList text := by
  cases h <;> rfl

theorem Blames.isFatal {text : List Char} {rule : Rule} {problem : Problem}
    (h : Blames text rule problem) : problem.isFatal = false := by
  cases h <;> rfl

end Rule
end DecafLex
