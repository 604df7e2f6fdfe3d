import DecafLex.Proofs.Rule.Kinds
import DecafLex.Proofs.Scanner.Consistency
import DecafLex.Runtime
import Mathlib.Data.List.ReduceOption

/-! Kind, lexeme and value of the tokens that scanners give. The lexeme tells the other two, but for
the number of an identifier. -/
namespace DecafLex

namespace Token

/-- The kinds of value that the token gives when it is asked for each. -/
def answering (t : Token) : List TokenKind :=
  [t.integer?.map fun _ => TokenKind.intConstant, t.double?.map fun _ => .doubleConstant,
    t.bool?.map fun _ => .boolConstant, t.str?.map fun _ => .stringConstant,
    t.identifier?.map fun _ => .identifier].reduceOption

/-- Kind, lexeme and value of the token agree. -/
structure Sound (t : Token) : Prop where
  kind_iff (kind : TokenKind) : t.kind = kind ↔ t.lexeme ∈ kind.lexemes
  bool_iff (b : Bool) :
    t.kind = .boolConstant ∧ t.value = some (.bool b) ↔ t.lexeme = toString b
  str_iff (contents : String) : t.kind = .stringConstant ∧ t.value = some (.str contents) ↔
    t.lexeme = "\"" ++ contents ++ "\"" ∧ '"' ∉ contents.toList ∧ '\n' ∉ contents.toList
  isSome_value : t.value.isSome = t.kind.hasValue
  answering_eq : t.answering = if t.kind.hasValue then [t.kind] else []

/-- The token is what its lexeme means. No text is left at the end of input. -/
inductive Meant (t : Token) : Prop where
  | endOfInput (hkind : t.kind = .endOfInput) (hlexeme : t.lexeme = "") (hvalue : t.value = none)
  | token (rule : Rule) (hmem : t.lexeme.toList ∈ rule.language)
      (hmeaning : rule.meaning t.lexeme.toList = .token t.kind t.value)
  | name (hmem : t.lexeme.toList ∈ Rule.word.language)
      (hmeaning : Rule.word.meaning t.lexeme.toList = .name) (hkind : t.kind = .identifier)
      (id : DeclId) (hvalue : t.value = some (.identifier id))

variable {t u : Token}

theorem Meant.mem_lexemes (h : t.Meant) : t.lexeme ∈ t.kind.lexemes := by
  cases h with
  | endOfInput hkind hlexeme =>
    rw [hkind]
    exact hlexeme
  | token rule hmem hmeaning =>
    have hkind := (Rule.yields_of_meaning hmeaning).kind?
    rw [String.ofList_toList] at hkind
    exact TokenKind.mem_lexemes_of_kind? hmem hkind
  | name hmem hmeaning hkind =>
    have hname := Rule.kind?_of_name hmeaning
    rw [String.ofList_toList, ← hkind] at hname
    exact TokenKind.mem_lexemes_of_kind? hmem hname

theorem Meant.holds (h : t.Meant) : t.kind.Holds t.lexeme t.value := by
  cases h with
  | endOfInput hkind _ hvalue =>
    rw [hkind, hvalue]
    exact .nothing _ rfl
  | token rule hmem hmeaning =>
    have hholds := (Rule.yields_of_meaning hmeaning).holds hmem
    rwa [String.ofList_toList] at hholds
  | name _ _ hkind id hvalue =>
    rw [hkind, hvalue]
    exact .identifier id

theorem Meant.kind_iff (h : t.Meant) (kind : TokenKind) :
    t.kind = kind ↔ t.lexeme ∈ kind.lexemes := by
  constructor
  · rintro rfl
    exact h.mem_lexemes
  · exact TokenKind.eq_of_mem_lexemes h.mem_lexemes

theorem Meant.bool_iff (h : t.Meant) (b : Bool) :
    t.kind = .boolConstant ∧ t.value = some (.bool b) ↔ t.lexeme = toString b := by
  have hinj : ∀ a b : Bool, toString a = toString b → a = b := by decide
  constructor
  · rintro ⟨hkind, hvalue⟩
    obtain ⟨b', hb', hlexeme⟩ := h.holds.exists_bool hkind
    obtain rfl := Value.bool.inj (Option.some.inj (hvalue.symm.trans hb'))
    exact hlexeme
  · intro hlexeme
    have hkind : t.kind = .boolConstant := (h.kind_iff .boolConstant).mpr (by
      rw [hlexeme]
      cases b
      · exact .inr rfl
      · exact .inl rfl)
    obtain ⟨b', hb', hlexeme'⟩ := h.holds.exists_bool hkind
    obtain rfl := hinj b b' (hlexeme.symm.trans hlexeme')
    exact ⟨hkind, hb'⟩

theorem Meant.str_iff (h : t.Meant) (contents : String) :
    t.kind = .stringConstant ∧ t.value = some (.str contents) ↔
      t.lexeme = "\"" ++ contents ++ "\"" ∧ '"' ∉ contents.toList ∧ '\n' ∉ contents.toList := by
  have hinj {a b : String} (h : "\"" ++ a ++ "\"" = "\"" ++ b ++ "\"") : a = b := by
    simpa [← String.toList_inj] using h
  constructor
  · rintro ⟨hkind, hvalue⟩
    obtain ⟨inside, hlexeme, hinside⟩ := (h.kind_iff .stringConstant).mp hkind
    obtain ⟨contents', hstr, hlexeme'⟩ := h.holds.exists_str hkind
    obtain rfl := Value.str.inj (Option.some.inj (hvalue.symm.trans hstr))
    obtain rfl := hinj (hlexeme'.symm.trans hlexeme)
    exact ⟨hlexeme, hinside⟩
  · rintro ⟨hlexeme, hcontents⟩
    have hkind : t.kind = .stringConstant :=
      (h.kind_iff .stringConstant).mpr ⟨contents, hlexeme, hcontents⟩
    obtain ⟨contents', hstr, hlexeme'⟩ := h.holds.exists_str hkind
    obtain rfl := hinj (hlexeme.symm.trans hlexeme')
    exact ⟨hkind, hstr⟩

theorem Meant.answering_eq (h : t.Meant) :
    t.answering = if t.kind.hasValue then [t.kind] else [] := by
  obtain ⟨kind, lexeme, value, span⟩ := t
  cases h.holds with
  | nothing _ hkind =>
    dsimp only at hkind ⊢
    rw [hkind]
    rfl
  | _ => rfl

theorem Meant.sound (h : t.Meant) : t.Sound where
  kind_iff := h.kind_iff
  bool_iff := h.bool_iff
  str_iff := h.str_iff
  isSome_value := h.holds.isSome
  answering_eq := h.answering_eq

/-- The lexeme leaves no choice but for the number of an identifier. -/
theorem Meant.eq_of_lexeme (ht : t.Meant) (hu : u.Meant) (h : t.lexeme = u.lexeme) :
    t.kind = u.kind ∧ (t.kind ≠ .identifier → t.value = u.value) := by
  have hkind : t.kind = u.kind := (ht.kind_iff u.kind).mpr (h ▸ hu.mem_lexemes)
  refine ⟨hkind, ?_⟩
  intro hidentifier
  cases ht with
  | endOfInput hend _ hvalue =>
    have hnone : u.value.isSome = false := by
      rw [hu.holds.isSome, ← hkind, hend]
      rfl
    rw [hvalue, Option.isNone_iff_eq_none.mp (Option.isSome_eq_false_iff.mp hnone)]
  | token rule hmem hmeaning =>
    cases hu with
    | endOfInput hend => exact absurd (hkind.trans hend) (Rule.token_of_meaning hmeaning).2.1
    | token rule' hmem' hmeaning' =>
      rw [h] at hmem hmeaning
      rw [Rule.eq_of_mem_language hmem hmem', hmeaning'] at hmeaning
      exact (Meaning.token.inj hmeaning).2.symm
    | name _ _ hname => exact absurd (hkind.trans hname) hidentifier
  | name _ _ hname => exact absurd hname hidentifier

end Token

namespace Segment

theorem Stands.meant {p : Position} {table : SymbolTable} {segment : Segment} {after : List Char}
    (h : segment.Stands p table after) {t : Token} (ht : segment.token? = some t) : t.Meant := by
  cases h with
  | token rule text after kind value hmeaning hmem =>
    obtain rfl := Option.some.inj ht
    exact .token rule (by rwa [String.toList_ofList]) (by rwa [String.toList_ofList])
  | name text after id _ hmeaning hmem =>
    obtain rfl := Option.some.inj ht
    exact .name (by rwa [String.toList_ofList]) (by rwa [String.toList_ofList]) rfl id rfl
  | _ => cases ht

end Segment

namespace Scanner

variable {s : Scanner} {t : Token}

theorem meant_nextToken (h : s.Ready) : s.nextToken.1 = .ok t → t.Meant := by
  apply h.nextToken_induction (motive := fun _ result _ => result = .ok t → t.Meant)
  case stopped =>
    intro s d _ _ ht
    cases ht
  case done =>
    intro s _ _ ht
    obtain rfl := Except.ok.inj ht
    exact .endOfInput rfl rfl rfl
  case token =>
    intro s s' t' _ hpasses ht
    obtain rfl := Except.ok.inj ht
    exact hpasses.stands.meant rfl
  case silent =>
    intro s s' segment result s'' _ _ _ ih
    exact ih

theorem meant_answer (h : s.Ready) (call : Call) (ht : (s.answer call).1 = some (.ok t)) :
    t.Meant := by
  cases call with
  | nextToken => exact meant_nextToken h (Option.some.inj ht)
  | next =>
    rw [answer, next_eq] at ht
    split at ht
    · cases ht
    · exact meant_nextToken h (Option.some.inj ht)

theorem meant_answers (h : s.Consistent) {calls : List Call} (ht : .ok t ∈ (s.answers calls).1) :
    t.Meant := by
  induction calls generalizing s with
  | nil => cases ht
  | cons call calls ih =>
    rcases List.mem_append.mp ht with ht | ht
    · exact meant_answer h.ready call (Option.mem_toList.mp ht)
    · exact ih (consistent_answer h call) ht

/-- Taking results one after the other is calling `next` so many times. -/
theorem take_eq_answers (s : Scanner) (count : Nat) :
    s.take count = s.answers (List.replicate count .next) := by
  induction count generalizing s with
  | zero => rfl
  | succ count ih =>
    rw [take, List.replicate_succ, answers, answer, next_eq]
    by_cases hfinished : s.finished = true
    · simp only [if_pos hfinished, ← ih, take_of_finished hfinished]
      rfl
    · simp only [if_neg hfinished, ih]
      rfl

end Scanner

namespace Token

/-- Some calls in a scan of some source give the token. -/
def Returned (t : Token) : Prop :=
  ∃ (config : Config) (source : String) (calls : List Scanner.Call),
    .ok t ∈ ((Scanner.ofSource config source).answers calls).1

variable {t u : Token}

theorem Returned.meant (h : t.Returned) : t.Meant := by
  obtain ⟨config, source, calls, ht⟩ := h
  exact Scanner.meant_answers (Scanner.consistent_ofSource config source) ht

/-- The tokens of a whole scan are among those that some calls give. -/
theorem returned_of_tokenize {config : Config} {source : String} {result : Tokenized}
    (h : tokenize config source = .ok result) (ht : t ∈ result.tokens) : t.Returned := by
  obtain ⟨segments, s', -, hdrain, htokenize⟩ := Scanner.exists_runs_ofSource config source
  have hmem : .ok t ∈ (Scanner.ofSource config source).drain.1 := by
    rw [htokenize] at h
    rw [hdrain]
    cases hlast : s'.last with
    | error d =>
      rw [hlast] at h
      cases h
    | ok last =>
      rw [hlast] at h
      obtain rfl := Except.ok.inj h
      simpa using ht
  rw [Scanner.drain, Scanner.take_eq_answers] at hmem
  exact ⟨config, source, _, hmem⟩

/-- Each kind has its lexemes and no others, and with them goes a value of the right type, or none.
Tokens of any two scans that have the same lexeme have the same kind, and the same value if they are
no identifiers. -/
theorem sound_of_returned (ht : t.Returned) (hu : u.Returned) :
    t.Sound ∧
      (t.lexeme = u.lexeme → t.kind = u.kind ∧ (t.kind ≠ .identifier → t.value = u.value)) := by
  have hmeant := ht.meant
  refine ⟨hmeant.sound, ?_⟩
  intro hlexeme
  exact hmeant.eq_of_lexeme hu.meant hlexeme

/-- The same lexeme in two scans, where different rules have been at work before it. -/
theorem sound_of_returned_hexadecimal :
    let t : Token := ⟨.intConstant, "0x1F", some (.integer 31), ⟨1, 1, 4⟩⟩
    let u : Token := ⟨.intConstant, "0x1F", some (.integer 31), ⟨2, 2, 5⟩⟩
    t.Returned ∧ u.Returned ∧ t.Sound ∧
      (t.lexeme = u.lexeme → t.kind = u.kind ∧ (t.kind ≠ .identifier → t.value = u.value)) := by
  intro t u
  have ht : t.Returned := ⟨.standard, "0x1F", [.nextToken], by decide +kernel⟩
  have hu : u.Returned :=
    ⟨.standard, "\"0x1F\"\n 0x1F", [.next, .nextToken], by decide +kernel⟩
  exact ⟨ht, hu, sound_of_returned ht hu⟩

end Token
end DecafLex
