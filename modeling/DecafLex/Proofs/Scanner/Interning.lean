import DecafLex.Proofs.Scanner.Run
import DecafLex.Proofs.SymbolTable.Occurrences

/-! The table of a scanner, whatever calls have been made. It declares exactly the identifiers that
have been handed out, and the number that an identifier holds stands for its name ever after. -/
namespace DecafLex
open SymbolTable

namespace Token

def occurrence (t : Token) : Occurrence := ⟨t.lexeme, t.span.line⟩

/-- The token is a name of the table: a word that is not reserved, with the number of its name. -/
structure Names (t : Token) (table : SymbolTable) : Prop where
  value : t.value = some (.identifier (table.idOf t.lexeme))
  declared : t.lexeme ∈ table.names
  word : t.lexeme.toList ∈ Rule.word.language
  meaning : Rule.word.meaning t.lexeme.toList = .name

variable {t : Token} {table : SymbolTable}

theorem Names.internAll (h : t.Names table) (hwell : table.WellFormed)
    (later : List Occurrence) : t.Names (table.internAll later) where
  value := by rw [h.value, idOf_internAll hwell h.declared]
  declared := (prefix_names_internAll hwell later).subset h.declared
  word := h.word
  meaning := h.meaning

/-- The number in the token leads to the declaration of its name. -/
theorem Names.resolves (h : t.Names table) :
    ∃ id d, t.value = some (.identifier id) ∧ table.get? id = some d ∧ d.name = t.lexeme := by
  have hget := get?_map_name table (table.idOf t.lexeme)
  rw [idOf, List.getElem?_idxOf h.declared] at hget
  obtain ⟨d, hd, hname⟩ := Option.map_eq_some_iff.mp hget
  exact ⟨_, d, h.value, hd, hname⟩

end Token

namespace Scanner

/-- The identifiers among some results. -/
def identifiers (results : List (Except Diagnostic Token)) : List Token :=
  (results.filterMap Except.toOption).filter (·.kind = .identifier)

theorem identifiers_append (a b : List (Except Diagnostic Token)) :
    identifiers (a ++ b) = identifiers a ++ identifiers b := by
  rw [identifiers, List.filterMap_append, List.filter_append]
  rfl

/-- Some results leave a scanner with their identifiers in its table, and nothing else new there. -/
structure Interns (s : Scanner) (results : List (Except Diagnostic Token)) (s' : Scanner) :
    Prop where
  ready : s'.Ready
  symbols : s'.symbols = s.symbols.internAll ((identifiers results).map Token.occurrence)
  names : ∀ t ∈ identifiers results, t.Names s'.symbols

variable {s s' s'' : Scanner} {results later : List (Except Diagnostic Token)}

theorem Interns.silent (hready : s'.Ready) (hsymbols : s'.symbols = s.symbols)
    (h : identifiers results = []) : s.Interns results s' := by
  constructor
  · exact hready
  · rw [h, hsymbols]
    rfl
  · simp [h]

theorem Interns.wellFormed (h : s.Interns results s') (hwell : s.symbols.WellFormed) :
    s'.symbols.WellFormed := by
  rw [h.symbols]
  exact wellFormed_internAll hwell _

theorem Interns.trans (h : s.Interns results s') (h' : s'.Interns later s'')
    (hwell : s.symbols.WellFormed) : s.Interns (results ++ later) s'' := by
  constructor
  · exact h'.ready
  · rw [h'.symbols, h.symbols, ← internAll_append, ← List.map_append, identifiers_append]
  · intro t ht
    rw [identifiers_append] at ht
    rcases List.mem_append.mp ht with ht | ht
    · rw [h'.symbols]
      exact (h.names t ht).internAll (h.wellFormed hwell) _
    · exact h'.names t ht

/-- A turn interns the identifier that it hands out. -/
theorem Passes.interns {segment : Segment} (h : s.Passes segment s') (hfatal : s.fatal = none)
    (hwell : s.symbols.WellFormed) : s.Interns (segment.token?.toList.map .ok) s' := by
  have hready := h.ready hfatal
  have hsymbols := h.symbols
  have hstands := h.stands
  generalize s'.rest = after at hstands
  cases hstands with
  | token rule text after kind value hmeaning =>
    have hkind := (Rule.token_of_meaning hmeaning).2.2
    apply Interns.silent hready
    · rw [hsymbols]
      exact if_neg hkind
    · exact List.filter_cons_of_neg (by simpa using hkind)
  | name text after id hid hmeaning hmem =>
    let o : Occurrence := ⟨String.ofList text, (s.position.cover text).line⟩
    have htable : s'.symbols = s.symbols.internAll [o] := hsymbols
    refine ⟨hready, htable, List.forall_mem_singleton.mpr ⟨?_, ?_, ?_, ?_⟩⟩
    · rw [htable, hid, id_intern hwell]
      exact congrArg (some ∘ Value.identifier) (idOf_intern_internAll hwell o []).symm
    · rw [htable]
      exact mem_names_intern hwell o.name o.line
    · simpa using hmem
    · simpa using hmeaning
  | _ => exact .silent hready hsymbols rfl

/-- A call of `nextToken` interns the token that it gives, if that is an identifier. What it passes
over on the way leaves the table alone. -/
theorem interns_nextToken (hready : s.Ready) (hwell : s.symbols.WellFormed) :
    s.Interns [s.nextToken.1] s.nextToken.2 := by
  revert hwell
  apply hready.nextToken_induction
    (motive := fun s result s' => s.symbols.WellFormed → s.Interns [result] s')
  case stopped => exact fun hready _ _ => .silent hready rfl rfl
  case done => exact fun hready _ _ => .silent hready rfl rfl
  case token => exact fun hfatal hpasses hwell => hpasses.interns hfatal hwell
  case silent =>
    -- A turn without a token has no results, so those of the later turns are the results of all.
    intro s s' segment result s'' hfatal hpasses htoken ih hwell
    have hinterns := hpasses.interns hfatal hwell
    rw [htoken] at hinterns
    exact hinterns.trans (ih (hinterns.wellFormed hwell)) hwell

/-- What a scanner can be asked for. -/
inductive Call where
  | nextToken
  | next
deriving DecidableEq, Repr

/-- The answer to a call, if there is one. -/
def answer (s : Scanner) : Call → Option (Except Diagnostic Token) × Scanner
  | .nextToken => (some s.nextToken.1, s.nextToken.2)
  | .next => s.next

/-- The results of some calls, one after the other. -/
def answers (s : Scanner) : List Call → List (Except Diagnostic Token) × Scanner
  | [] => ([], s)
  | call :: calls =>
    let (result, s') := s.answer call
    let (results, s'') := s'.answers calls
    (result.toList ++ results, s'')

theorem interns_answer (hready : s.Ready) (hwell : s.symbols.WellFormed) (call : Call) :
    s.Interns (s.answer call).1.toList (s.answer call).2 := by
  have hnext := interns_nextToken hready hwell
  cases call with
  | nextToken => exact hnext
  | next =>
    by_cases hfinished : s.finished = true
    · rw [answer, Scanner.next, if_pos hfinished]
      exact .silent hready rfl rfl
    · rw [answer, Scanner.next, if_neg hfinished]
      exact ⟨hnext.ready, hnext.symbols, hnext.names⟩

theorem interns_answers (hready : s.Ready) (hwell : s.symbols.WellFormed) (calls : List Call) :
    s.Interns (s.answers calls).1 (s.answers calls).2 := by
  induction calls generalizing s with
  | nil => exact .silent hready rfl rfl
  | cons call calls ih =>
    have hfirst := interns_answer hready hwell call
    exact hfirst.trans (ih hfirst.ready (hfirst.wellFormed hwell)) hwell

/-- At every state of a scan the table lists the identifiers handed out so far: their distinct names
in the order they were first seen, each with the line of the first and the number of all. What an
identifier holds resolves to its name then and after any further calls. No reserved word and no text
that is not a word gets into the table. -/
theorem answers_symbols (config : Config) (source : String) (calls : List Call) :
    let results := ((ofSource config source).answers calls).1
    let s := ((ofSource config source).answers calls).2
    s.symbols.toList =
      (Declaration.ofOccurrences ((identifiers results).map Token.occurrence)).mapIdx
        (fun index d => (⟨index⟩, d)) ∧
    (∀ t ∈ identifiers results, ∃ id, t.value = some (.identifier id) ∧
      ∀ more, ∃ d, (s.answers more).2.symbols.get? id = some d ∧ d.name = t.lexeme) ∧
    ∀ d ∈ s.symbols.declarations.toList, d.name.toList ∈ Rule.word.language ∧
      Keyword.ofText? d.name = none ∧ d.name ≠ "true" ∧ d.name ≠ "false" := by
  intro results s
  have hstart : (ofSource config source).symbols.WellFormed := wellFormed_empty _ _
  have hinterns : (ofSource config source).Interns results s :=
    interns_answers (ready_ofSource config source) hstart calls
  have hwell := hinterns.wellFormed hstart
  have hdeclared : s.symbols.declarations.toList =
      Declaration.ofOccurrences ((identifiers results).map Token.occurrence) := by
    rw [hinterns.symbols]
    exact declarations_internAll ..
  refine ⟨congrArg _ hdeclared, ?_, ?_⟩
  · intro t ht
    have hnames := hinterns.names t ht
    refine ⟨_, hnames.value, ?_⟩
    intro more
    have hlater := (interns_answers hinterns.ready hwell more).symbols
    obtain ⟨id, d, hid, hd, hname⟩ := (hnames.internAll hwell _).resolves
    rw [← hlater] at hd
    obtain rfl := Value.identifier.inj (Option.some.inj (hid.symm.trans hnames.value))
    exact ⟨d, hd, hname⟩
  · intro d hd
    have hname : d.name ∈ Occurrence.distinct ((identifiers results).map Token.occurrence) := by
      rw [← Declaration.names_ofOccurrences, ← hdeclared]
      exact List.mem_map_of_mem hd
    rw [Occurrence.mem_distinct, List.map_map] at hname
    obtain ⟨t, ht, hlexeme⟩ := List.mem_map.mp hname
    have hnames := hinterns.names t ht
    rw [← show t.lexeme = d.name from hlexeme]
    have hword := Rule.not_reserved_of_meaning hnames.meaning
    rw [String.ofList_toList] at hword
    exact ⟨hnames.word, hword⟩

end Scanner
end DecafLex
