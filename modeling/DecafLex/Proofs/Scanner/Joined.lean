import DecafLex.Proofs.Scanner.Spaces
import DecafLex.Runtime
import Mathlib.Data.List.Forall2

/-! Scanning the lexemes of some tokens with spaces between them. A token is known by its lexeme, so
the scan finds the same tokens again and numbers the identifiers in the order of the list. -/
namespace DecafLex

namespace Token

/-- A scan of some source gives the token, and not as the end of input. -/
def Scanned (t : Token) : Prop :=
  t.kind ≠ .endOfInput ∧
    ∃ (config : Config) (source : String), .ok t ∈ (Scanner.ofSource config source).drain.1

/-- The same token in another place; an identifier has the number that its name has there. -/
structure Repeats (number : String → DeclId) (t u : Token) : Prop where
  kind : u.kind = t.kind
  lexeme : u.lexeme = t.lexeme
  value : u.value =
    if t.kind = .identifier then some (.identifier (number t.lexeme)) else t.value

/-- The names of the identifiers among some tokens. -/
def names (tokens : List Token) : List String :=
  (tokens.filter (·.kind = .identifier)).map (·.lexeme)

end Token

namespace Fragment

/-- The fragment makes the token by itself, but for the place and the number. -/
structure Makes (f : Fragment) (t : Token) : Prop where
  leads : f.Leads []
  lexeme : t.lexeme = String.ofList f.text
  meaning : f.meaning = if t.kind = .identifier then .name else .token t.kind t.value

variable {f : Fragment} {x : Placed} {t : Token}

theorem Makes.makesToken (h : f.Makes t) : f.makesToken = true := by
  rw [Fragment.makesToken, h.meaning]
  by_cases hkind : t.kind = .identifier
  · rw [if_pos hkind]
  · rw [if_neg hkind]

/-- What the lexeme means does not depend on what stands behind it. -/
theorem makes_of_token? {after : List Char} {number : String → DeclId}
    (hleads : x.fragment.Leads after) (h : x.token? number = some t) : x.fragment.Makes t := by
  have htoken : x.fragment.makesToken = true := by
    by_contra hnot
    rw [(token?_eq_none_of_not_makesToken number hnot).1] at h
    cases h
  obtain ⟨rule, hrule, -⟩ := hleads.rule_of_makesToken htoken
  have hlone := hleads.fade htoken (fades_nil after)
  unfold Placed.token? at h
  cases hmeaning : x.fragment.meaning with
  | token kind value =>
    rw [hmeaning] at h
    obtain rfl := Option.some.inj h
    have hkind := (Rule.token_of_meaning (hrule.symm.trans hmeaning)).2.2
    exact ⟨hlone, rfl, hmeaning.trans (if_neg hkind).symm⟩
  | name =>
    rw [hmeaning] at h
    obtain rfl := Option.some.inj h
    exact ⟨hlone, rfl, hmeaning⟩
  | _ =>
    rw [hmeaning] at h
    cases h

theorem Makes.token? (h : x.fragment.Makes t) (number : String → DeclId) :
    ∃ u : Token, x.token? number = some u ∧ t.Repeats number u := by
  rw [Placed.token?, h.meaning]
  have hlexeme : x.lexeme = t.lexeme := h.lexeme.symm
  by_cases hkind : t.kind = .identifier
  · rw [if_pos hkind]
    refine ⟨_, rfl, hkind.symm, hlexeme, ?_⟩
    rw [if_pos hkind, hlexeme]
  · rw [if_neg hkind]
    exact ⟨_, rfl, rfl, hlexeme, (if_neg hkind).symm⟩

theorem Makes.occurrence? (h : x.fragment.Makes t) :
    x.occurrence?.map (·.name) = if t.kind = .identifier then some t.lexeme else none := by
  rw [Placed.occurrence?, h.meaning, h.lexeme]
  by_cases hkind : t.kind = .identifier
  · rw [if_pos hkind, if_pos hkind]
    rfl
  · rw [if_neg hkind, if_neg hkind]
    rfl

variable {fs : List Fragment} {xs : List Placed} {tokens : List Token}

theorem forall₂_repeats (h : List.Forall₂ (fun x t => x.fragment.Makes t) xs tokens)
    (number : String → DeclId) :
    List.Forall₂ (Token.Repeats number) tokens (xs.filterMap (Placed.token? number)) := by
  induction h with
  | nil => exact .nil
  | cons hmakes _ ih =>
    obtain ⟨u, hu, hrepeats⟩ := hmakes.token? number
    rw [List.filterMap_cons_some hu]
    exact .cons hrepeats ih

theorem names_of_makes (h : List.Forall₂ (fun x t => x.fragment.Makes t) xs tokens) :
    (xs.filterMap Placed.occurrence?).map (·.name) = Token.names tokens := by
  induction h with
  | nil => rfl
  | @cons x t xs tokens hmakes _ ih =>
    have hname := hmakes.occurrence?
    rw [Token.names] at ih ⊢
    rw [List.filterMap_cons, List.filter_cons]
    by_cases hkind : t.kind = .identifier
    · rw [if_pos hkind] at hname
      obtain ⟨o, ho, hname⟩ := Option.map_eq_some_iff.mp hname
      rw [ho, if_pos (decide_eq_true hkind), List.map_cons, List.map_cons, ih, hname]
    · rw [if_neg hkind] at hname
      rw [Option.map_eq_none_iff.mp hname, if_neg (by simpa using hkind), ih]

theorem lexemes_of_makes (h : List.Forall₂ Makes fs tokens) :
    tokens.map (·.lexeme.toList) = fs.map text := by
  induction h with
  | nil => rfl
  | cons hmakes _ ih => rw [List.map_cons, List.map_cons, ih, hmakes.lexeme, String.toList_ofList]

/-- Lexemes with spaces between them are found again. -/
theorem splits_joined (h : List.Forall₂ Makes fs tokens) :
    ∃ gs, Splits ([' '].intercalate (fs.map text)) gs ∧ (∀ g ∈ gs, g.Quiet) ∧
      ∀ p : Position, (lexemes p gs).map (·.fragment) = fs := by
  induction h with
  | nil => exact ⟨[], .nil, by simp, fun p => rfl⟩
  | @cons f t fs tokens hmakes _ ih =>
    obtain ⟨gs, hsplits, hquiet, hlexemes⟩ := ih
    have htoken := hmakes.makesToken
    cases fs with
    | nil =>
      have hsingle : Splits (f.text ++ []) [f] := .cons hmakes.leads .nil
      refine ⟨[f], by simpa using hsingle, List.forall_mem_singleton.mpr (.inr htoken), ?_⟩
      intro p
      rw [lexemes_cons_of_makesToken p htoken]
      rfl
    | cons f' fs =>
      obtain ⟨gs', hsplits', hquiet', hlexemes'⟩ := hsplits.space
      have hspace := hmakes.leads.fade htoken
        (fades_space [] ([' '].intercalate ((f' :: fs).map text)))
      refine ⟨f :: gs', ?_, List.forall_mem_cons.mpr ⟨.inr htoken, hquiet' hquiet⟩, ?_⟩
      · rw [List.map_cons, List.map_cons, List.intercalate_cons_cons, List.append_assoc]
        exact .cons hspace hsplits'
      · intro p
        rw [lexemes_cons_of_makesToken p htoken, List.map_cons, hlexemes', hlexemes]

end Fragment

namespace Scanner
open Fragment

theorem exists_makes {t : Token} (h : t.Scanned) : ∃ f : Fragment, f.Makes t := by
  obtain ⟨hkind, config, source, hmem⟩ := h
  obtain ⟨fs, hsplits⟩ := exists_splits source.toList
  obtain ⟨s', hrun⟩ := exists_runs_ofSource_of_splits config hsplits
  rw [hrun.whole.1, hsplits.filterMap_token?_segments _ (SymbolTable.wellFormed_empty _ _)]
    at hmem
  rcases List.mem_append.mp hmem with hmem | hmem
  · obtain ⟨t', ht', he⟩ := List.mem_map.mp hmem
    obtain rfl := Except.ok.inj he
    obtain ⟨x, hx, ht⟩ := List.mem_filterMap.mp ht'
    obtain ⟨after, hleads⟩ :=
      hsplits.leads_of_mem (map_fragment_place .start fs ▸ List.mem_map_of_mem hx)
    exact ⟨x.fragment, makes_of_token? hleads ht⟩
  · have hlast : .ok t = s'.last := List.mem_singleton.mp hmem
    unfold last at hlast
    split at hlast
    · cases hlast
    · obtain rfl := Except.ok.inj hlast
      exact absurd rfl hkind

theorem exists_forall₂_makes {tokens : List Token} (h : ∀ t ∈ tokens, t.Scanned) :
    ∃ fs, List.Forall₂ Makes fs tokens := by
  induction tokens with
  | nil => exact ⟨[], .nil⟩
  | cons t tokens ih =>
    obtain ⟨hfirst, hrest⟩ := List.forall_mem_cons.mp h
    obtain ⟨f, hmakes⟩ := exists_makes hfirst
    obtain ⟨fs, hall⟩ := ih hrest
    exact ⟨f :: fs, .cons hmakes hall⟩

/-- The lexemes of tokens, whatever scans they come from, are scanned to the same tokens again when
they are written with single spaces between them. Identifiers are numbered as they are first seen
in the list, and counted there. -/
theorem tokenize_joined (config : Config) {tokens : List Token} (h : ∀ t ∈ tokens, t.Scanned) :
    let names := Token.names tokens
    ∃ result found last,
      tokenize config (" ".intercalate (tokens.map (·.lexeme))) = .ok result ∧
      result.diagnostics = [] ∧
      result.tokens = found ++ [last] ∧ last.kind = .endOfInput ∧
      List.Forall₂ (Token.Repeats fun name => ⟨names.eraseDups.idxOf name⟩) tokens found ∧
      result.symbols.declarations.toList.map (fun d => (d.name, d.occurrences)) =
        names.eraseDups.map fun name => (name, names.count name) := by
  intro names
  obtain ⟨fs, hmakes⟩ := exists_forall₂_makes h
  obtain ⟨gs, hsplits, hquiet, hlexemes⟩ := splits_joined hmakes
  have htext : (" ".intercalate (tokens.map (·.lexeme))).toList =
      [' '].intercalate (fs.map text) := by
    rw [String.toList_intercalate, List.map_map, ← lexemes_of_makes hmakes]
    rfl
  rw [← htext] at hsplits
  rw [← hlexemes .start, List.forall₂_map_left_iff] at hmakes
  have hnames := names_of_makes hmakes
  have hresult := tokenize_of_quiet config hsplits hquiet
  generalize lexemes .start gs = xs at hmakes hnames hresult
  have hnumber : ((SymbolTable.empty config.hash config.bucketCount).internAll
      (xs.filterMap Placed.occurrence?)).idOf = fun name => ⟨names.eraseDups.idxOf name⟩ := by
    funext name
    rw [SymbolTable.idOf, SymbolTable.names_internAll, Occurrence.distinct, hnames]
  refine ⟨_, _, _, hresult, rfl, rfl, rfl, ?_, ?_⟩
  · rw [← hnumber]
    exact forall₂_repeats hmakes _
  · dsimp only [Tokenized.ofLexemes]
    rw [SymbolTable.declarations_internAll, Declaration.counts_ofOccurrences, Occurrence.distinct,
      hnames]

/-- A string that holds `//` and `/*`, a slash and a name seen twice, from two scans. -/
theorem tokenize_joined_slash :
    let number : String → DeclId := fun name => ⟨["y"].idxOf name⟩
    let y : Token := ⟨.identifier, "y", some (.identifier ⟨1⟩), ⟨1, 3, 3⟩⟩
    let quoted : Token := ⟨.stringConstant, "\"// /*\"", some (.str "// /*"), ⟨1, 4, 10⟩⟩
    let slash : Token := ⟨.operator .slash, "/", none, ⟨1, 2, 2⟩⟩
    (∀ t ∈ [y, quoted, slash, y], t.Scanned) ∧
    ∃ result found last, tokenize .standard "y \"// /*\" / y" = .ok result ∧
      result.diagnostics = [] ∧ result.tokens = found ++ [last] ∧ last.kind = .endOfInput ∧
      List.Forall₂ (Token.Repeats number) [y, quoted, slash, y] found ∧
      result.symbols.declarations.toList.map (fun d => (d.name, d.occurrences)) = [("y", 2)] := by
  intro number y quoted slash
  have hy : y.Scanned :=
    ⟨by decide, .standard, "x y\"// /*\"", by decide +kernel⟩
  have hquoted : quoted.Scanned :=
    ⟨by decide, .standard, "x y\"// /*\"", by decide +kernel⟩
  have hslash : slash.Scanned := ⟨by decide, .standard, "7/", by decide +kernel⟩
  have hall : ∀ t ∈ [y, quoted, slash, y], t.Scanned := by simp [hy, hquoted, hslash]
  exact ⟨hall, tokenize_joined .standard hall⟩

end Scanner
end DecafLex
