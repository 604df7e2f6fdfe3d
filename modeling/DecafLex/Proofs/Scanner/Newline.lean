import DecafLex.Proofs.Rule.Characters
import DecafLex.Proofs.Scanner.Shift
import DecafLex.Runtime

/-! Scanning two texts with a newline between them. No rule takes a newline together with other text,
so the lower text is scanned as it is by itself, further down and with the identifiers of the upper
text declared before its own. -/
namespace DecafLex

namespace Fragment

variable {f : Fragment} {after : List Char}

private theorem prefix_of_notMem {front text rest : List Char} {c : Char}
    (h : front <+: text ++ c :: rest) (hc : c ∉ front) : front <+: text := by
  rcases Nat.lt_or_ge text.length front.length with hlt | hle
  · have htext : text ++ [c] <+: text ++ c :: rest := ⟨rest, by simp⟩
    have hshort : text ++ [c] <+: front :=
      List.prefix_of_prefix_length_le htext h (by rw [List.length_append]; exact hlt)
    exact absurd (hshort.subset (by simp)) hc
  · exact List.prefix_of_prefix_length_le h (List.prefix_append text _) hle

theorem NoLonger.before_newline {length : Nat} {text : List Char} (h : NoLonger length text)
    (hpos : 0 < length) (rest : List Char) : NoLonger length (text ++ '\n' :: rest) := by
  intro rule front hfront hmem
  by_cases hrule : rule = .newline
  · subst hrule
    rw [Rule.mem_newline.mp hmem]
    exact hpos
  · exact h rule front (prefix_of_notMem hfront (Rule.newline_notMem hrule hmem)) hmem

theorem NoLexeme.before_newline {c : Char} (h : NoLexeme (c :: after)) (rest : List Char) :
    NoLexeme (c :: after ++ '\n' :: rest) := by
  intro rule front hfront hmem
  by_cases hrule : rule = .newline
  · subst hrule
    obtain rfl := Rule.mem_newline.mp hmem
    obtain rfl : '\n' = c := (List.cons_prefix_cons.mp hfront).1
    exact h .newline ['\n'] (by simp) hmem
  · exact h rule front (prefix_of_notMem hfront (Rule.newline_notMem hrule hmem)) hmem

/-- A fragment that leaves no comment open ends at a newline whatever stands below. -/
theorem Leads.before_newline (h : f.Leads after) (hclosed : f.Closed) (rest : List Char) :
    f.Leads (after ++ '\n' :: rest) := by
  cases h with
  | lexeme rule text after hrule hmem hlonger =>
    have hne : text ≠ [] := fun hnil => Rule.nil_notMem_language rule (hnil ▸ hmem)
    refine .lexeme rule text _ hrule hmem ?_
    rw [← List.append_assoc]
    exact hlonger.before_newline (List.length_pos_iff.mpr hne) rest
  | comment body after hbody =>
    have hwalk := Comment.walk_append_of_closed hbody (hclosed rfl) (after ++ '\n' :: rest)
    exact .comment body _ (congrArg Prod.snd hwalk)
  | unknown c after hnone => exact .unknown c _ (hnone.before_newline rest)

theorem Splits.append_newline {upper lower : List Char} {fs gs : List Fragment}
    (h : Splits upper fs) (hclosed : ∀ f ∈ fs, f.Closed) (h' : Splits lower gs) :
    Splits (upper ++ '\n' :: lower) (fs ++ newline :: gs) := by
  induction h with
  | nil => exact .cons (newline_leads lower) h'
  | cons hleads _ ih =>
    obtain ⟨hfirst, hrest⟩ := List.forall_mem_cons.mp hclosed
    rw [List.append_assoc]
    exact .cons (hleads.before_newline hfirst lower) (ih hrest)

theorem Leads.value_of_meaning (h : f.Leads after) {kind : TokenKind} {value : Option Value}
    (hmeaning : f.meaning = .token kind value) (id : DeclId) : value ≠ some (.identifier id) := by
  cases h with
  | lexeme => exact Rule.value_of_meaning hmeaning id
  | comment | unknown => cases hmeaning

/-- The lines that a text and the newline after it take. -/
def lines (fs : List Fragment) : Nat := (fs.flatMap text).count '\n' + 1

theorem advance_newline (fs : List Fragment) :
    (Position.start.advance (fs.flatMap text)).advance newline.text =
      Position.start.shift (lines fs) := by
  rw [Position.advance_start]
  exact congrArg (Position.mk · 0) (Nat.add_comm (lines fs) 1)

theorem place_newline (fs gs : List Fragment) : place .start (fs ++ newline :: gs) =
    place .start fs ++ ⟨Position.start.advance (fs.flatMap text), newline⟩ ::
      (place .start gs).map (Placed.shift (lines fs)) := by
  rw [place_append, place, advance_newline, place_shift]

theorem occurrences_newline (fs gs : List Fragment) :
    occurrences .start (fs ++ newline :: gs) =
      occurrences .start fs ++ (occurrences .start gs).map (Occurrence.shift (lines fs)) := by
  rw [occurrences, place_newline, List.filterMap_append, List.filterMap_cons_none rfl,
    List.filterMap_map, occurrences, occurrences, List.map_filterMap]
  congr 2
  funext x
  exact x.occurrence?_shift (lines fs)

end Fragment

/-- The number that a declaration of one table has in another. -/
def SymbolTable.renumber (source target : SymbolTable) (id : DeclId) : DeclId :=
  match source.get? id with
  | some d => target.idOf d.name
  | none => id

def Token.renumber (number : DeclId → DeclId) (t : Token) : Token :=
  match t.value with
  | some (.identifier id) => { t with value := some (.identifier (number id)) }
  | _ => t

/-- `result` is `upper` and, so many lines below its start, `lower`. -/
structure Tokenized.Stacks (lines : Nat) (upper lower result : Tokenized) : Prop where
  tokens : ∃ tokens last, upper.tokens = tokens ++ [last] ∧ last.kind = .endOfInput ∧
    result.tokens = tokens ++ lower.tokens.map fun t =>
      (t.renumber (lower.symbols.renumber result.symbols)).shift lines
  declarations : result.symbols.declarations.toList = Declaration.merge lines
    upper.symbols.declarations.toList lower.symbols.declarations.toList
  diagnostics : result.diagnostics = upper.diagnostics ++ lower.diagnostics.map (.shift lines)

namespace Placed
open Fragment

/-- Identifiers that one table declares are renumbered by their names in another. -/
theorem token?_renumber {x : Placed} {after : List Char} {source : SymbolTable}
    (target : SymbolTable) (hleads : x.fragment.Leads after)
    (hnames : ∀ o, x.occurrence? = some o → o.name ∈ source.names) :
    x.token? target.idOf =
      (x.token? source.idOf).map (Token.renumber (source.renumber target)) := by
  unfold token? occurrence? at *
  cases hmeaning : x.fragment.meaning with
  | name =>
    rw [hmeaning] at hnames
    have hget := SymbolTable.get?_map_name source (source.idOf x.lexeme)
    rw [SymbolTable.idOf, List.getElem?_idxOf (hnames _ rfl)] at hget
    obtain ⟨d, hd, hname⟩ := Option.map_eq_some_iff.mp hget
    simp only [Option.map_some, Token.renumber, SymbolTable.renumber, SymbolTable.idOf, hd, hname]
  | token kind value =>
    have hvalue (id : DeclId) := hleads.value_of_meaning hmeaning id
    simp only [Option.map_some, Token.renumber]
  | _ => rfl

end Placed

namespace Tokenized
open Fragment SymbolTable

variable {config : Config} {upper lower : List Char} {fs gs : List Fragment}

theorem mem_names_of_occurrence {x : Placed} (hx : x ∈ place .start fs) {o : Occurrence}
    (ho : x.occurrence? = some o) : o.name ∈ (ofFragments config fs).symbols.names := by
  change o.name ∈ (SymbolTable.internAll _ _).names
  rw [names_internAll, Occurrence.mem_distinct]
  exact List.mem_map_of_mem (List.mem_filterMap.mpr ⟨x, hx, ho⟩)

/-- The table of a text followed by another one declares the identifiers of both. -/
theorem symbols_newline (config : Config) (fs gs : List Fragment) :
    (ofFragments config (fs ++ newline :: gs)).symbols =
      (ofFragments config fs).symbols.internAll
        ((occurrences .start gs).map (Occurrence.shift (lines fs))) := by
  change SymbolTable.internAll _ _ = (SymbolTable.internAll _ _).internAll _
  rw [occurrences_newline, internAll_append]

theorem declarations_newline (config : Config) (fs gs : List Fragment) :
    (ofFragments config (fs ++ newline :: gs)).symbols.declarations.toList =
      Declaration.merge (lines fs) (ofFragments config fs).symbols.declarations.toList
        (ofFragments config gs).symbols.declarations.toList := by
  change (SymbolTable.internAll _ _).declarations.toList = Declaration.merge _
    (SymbolTable.internAll _ _).declarations.toList (SymbolTable.internAll _ _).declarations.toList
  rw [declarations_internAll, declarations_internAll, declarations_internAll, occurrences_newline,
    Occurrence.ofOccurrences_append_shift]

theorem diagnostics_newline (config : Config) (fs gs : List Fragment) :
    (ofFragments config (fs ++ newline :: gs)).diagnostics =
      (ofFragments config fs).diagnostics ++
        (ofFragments config gs).diagnostics.map (.shift (lines fs)) := by
  change (place .start _).filterMap _ = (place .start _).filterMap _ ++ _
  rw [place_newline, List.filterMap_append, List.filterMap_cons_none rfl, List.filterMap_map]
  congr 1
  change _ = List.map _ (List.filterMap _ (place .start gs))
  rw [List.map_filterMap]
  congr 1
  funext x
  exact x.diagnostic?_shift (lines fs)

theorem here_newline (fs gs : List Fragment) :
    (Position.start.advance ((fs ++ newline :: gs).flatMap text)).here =
      (Position.start.advance (gs.flatMap text)).here.shift (lines fs) := by
  rw [List.flatMap_append, List.flatMap_cons, Position.advance_append, Position.advance_append,
    advance_newline, Position.advance_shift]
  rfl

/-- The upper text keeps its tokens; those of the lower one move down and are renumbered. -/
theorem tokens_newline (config : Config) (fs : List Fragment) (h : Splits lower gs) :
    let result := ofFragments config (fs ++ newline :: gs)
    let upper := ofFragments config fs
    let lower := ofFragments config gs
    result.tokens = (place .start fs).filterMap (Placed.token? upper.symbols.idOf) ++
      lower.tokens.map fun t =>
        (t.renumber (lower.symbols.renumber result.symbols)).shift (lines fs) := by
  intro result upper lower
  have hupper : (place .start fs).filterMap (Placed.token? result.symbols.idOf) =
      (place .start fs).filterMap (Placed.token? upper.symbols.idOf) := by
    apply List.filterMap_congr
    intro x hx
    apply Placed.token?_congr
    intro o ho
    have hwell : upper.symbols.WellFormed := wellFormed_internAll (wellFormed_empty _ _) _
    rw [show result.symbols = _ from symbols_newline config fs gs]
    exact idOf_internAll hwell (mem_names_of_occurrence hx ho) _
  have hlower : ((place .start gs).map (Placed.shift (lines fs))).filterMap
        (Placed.token? result.symbols.idOf) =
      ((place .start gs).filterMap (Placed.token? lower.symbols.idOf)).map fun t =>
        (t.renumber (lower.symbols.renumber result.symbols)).shift (lines fs) := by
    rw [List.filterMap_map, List.map_filterMap]
    apply List.filterMap_congr
    intro x hx
    have hf : x.fragment ∈ gs := map_fragment_place .start gs ▸ List.mem_map_of_mem hx
    obtain ⟨after, hleads⟩ := h.leads_of_mem hf
    change (x.shift (lines fs)).token? _ = _
    rw [Placed.token?_shift, Placed.token?_renumber result.symbols hleads fun o =>
      mem_names_of_occurrence hx, Option.map_map]
    rfl
  change (place .start _).filterMap (Placed.token? result.symbols.idOf) ++ [_] = _ ++
    ((place .start gs).filterMap (Placed.token? lower.symbols.idOf) ++ [_]).map _
  rw [place_newline, List.filterMap_append, List.filterMap_cons_none rfl, hupper, hlower,
    List.append_assoc, List.map_append, here_newline]
  rfl

theorem stacks_newline (config : Config) (fs : List Fragment) (h : Splits lower gs) :
    Stacks (lines fs) (ofFragments config fs) (ofFragments config gs)
      (ofFragments config (fs ++ newline :: gs)) where
  tokens := ⟨_, _, rfl, rfl, tokens_newline config fs h⟩
  declarations := declarations_newline config fs gs
  diagnostics := diagnostics_newline config fs gs

end Tokenized

namespace Scanner
open Fragment

/-- Scanning is compositional at newlines: a text below another that is scanned to its end gives
what it gives by itself, moved down, and the identifiers of both texts are declared together. -/
theorem tokenize_newline (config : Config) (above below : String) {upper : Tokenized}
    (h : tokenize config above = .ok upper) :
    let lines := above.toList.count '\n' + 1
    let whole := tokenize config (above ++ "\n" ++ below)
    (∀ lower, tokenize config below = .ok lower →
      ∃ result, whole = .ok result ∧ upper.Stacks lines lower result) ∧
    ∀ d, tokenize config below = .error d → whole = .error (d.shift lines) := by
  obtain ⟨fs, hsplits, hclosed, rfl⟩ := exists_splits_of_ok h
  obtain ⟨gs, hsplits'⟩ := exists_splits below.toList
  have hlines : above.toList.count '\n' + 1 = Fragment.lines fs := by
    rw [Fragment.lines, hsplits.flatMap_text]
  have hwhole : Splits (above ++ "\n" ++ below).toList (fs ++ newline :: gs) := by
    have hjoin := hsplits.append_newline hclosed hsplits'
    simpa using hjoin
  intro lines whole
  have hfatal : (place .start (fs ++ newline :: gs)).findSome? Placed.fatal? =
      ((place .start gs).findSome? Placed.fatal?).map (Diagnostic.shift lines) := by
    rw [place_newline, List.findSome?_append, findSome?_fatal?_of_closed hclosed, Option.none_or,
      List.findSome?_cons_of_isNone rfl, List.findSome?_map, List.map_findSome?]
    congr 1
    funext x
    exact hlines ▸ x.fatal?_shift lines
  have hresult := tokenize_of_splits config hwhole
  have hbelow := tokenize_of_splits config hsplits'
  rw [hfatal] at hresult
  cases hend : (place .start gs).findSome? Placed.fatal? with
  | none =>
    rw [hend] at hresult hbelow
    refine ⟨fun lower hlower => ?_, fun d hd => ?_⟩
    · obtain rfl := Except.ok.inj (hbelow.symm.trans hlower)
      refine ⟨_, hresult, ?_⟩
      rw [show lines = Fragment.lines fs from hlines]
      exact Tokenized.stacks_newline config fs hsplits'
    · cases hbelow.symm.trans hd
  | some d' =>
    rw [hend] at hresult hbelow
    refine ⟨fun lower hlower => ?_, fun d hd => ?_⟩
    · cases hbelow.symm.trans hlower
    · obtain rfl := Except.error.inj (hbelow.symm.trans hd)
      exact hresult

/-- An open string and a comment that is closed, or not, on the line below. -/
theorem tokenize_newline_openString : ∃ upper lower result d,
    tokenize .standard "x = \"y" = .ok upper ∧
    tokenize .standard "z /* y */ x" = .ok lower ∧
    tokenize .standard ("x = \"y" ++ "\n" ++ "z /* y */ x") = .ok result ∧
    upper.Stacks 1 lower result ∧
    tokenize .standard "/* z" = .error d ∧
    tokenize .standard ("x = \"y" ++ "\n" ++ "/* z") = .error (d.shift 1) := by
  obtain ⟨upper, hupper⟩ : ∃ upper, tokenize .standard "x = \"y" = .ok upper :=
    exists_ok_of_isOk (by decide +kernel)
  obtain ⟨lower, hlower⟩ : ∃ lower, tokenize .standard "z /* y */ x" = .ok lower :=
    exists_ok_of_isOk (by decide +kernel)
  obtain ⟨d, hd⟩ : ∃ d, tokenize .standard "/* z" = .error d :=
    exists_error_of_isOk (by decide +kernel)
  have hlines : "x = \"y".toList.count '\n' + 1 = 1 := by decide
  obtain ⟨result, hresult, hstacks⟩ :=
    (tokenize_newline .standard "x = \"y" "z /* y */ x" hupper).1 lower hlower
  have herror := (tokenize_newline .standard "x = \"y" "/* z" hupper).2 d hd
  rw [hlines] at hstacks herror
  exact ⟨upper, lower, result, d, hupper, hlower, hresult, hstacks, hd, herror⟩

end Scanner
end DecafLex
