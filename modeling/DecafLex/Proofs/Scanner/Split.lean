import DecafLex.Proofs.Scanner.Run
import DecafLex.Proofs.SymbolTable.Occurrences

/-! A text splits into fragments in one way only, and all that a scan gives is a function of them: the
fragments, placed one behind the other, make the tokens, the identifiers and the diagnostics. -/
namespace DecafLex

namespace Fragment

variable {f g : Fragment} {after after' : List Char}

private theorem ne_comment_of_lexeme {rule : Rule} {text body : List Char}
    (hrule : rule ≠ .commentOpener) (hmem : text ∈ rule.language)
    (hlonger : NoLonger text.length (text ++ after)) : text ++ after ≠ '/' :: '*' :: body := by
  intro he
  have hopener : ['/', '*'] <+: text ++ after := ⟨body, he.symm⟩
  have hle := hlonger .commentOpener _ hopener (Rule.mem_commentOpener.mpr rfl)
  obtain ⟨rest, rfl⟩ := List.prefix_of_prefix_length_le hopener (List.prefix_append text after) hle
  have hopened : Rule.ofLexeme? (['/', '*'] ++ rest) = some .commentOpener := rfl
  exact hrule (Option.some.inj ((Rule.ofLexeme?_of_mem hmem).symm.trans hopened))

private theorem eq_of_lexemes {rule rule' : Rule} {text text' : List Char}
    (hmem : text ∈ rule.language) (hlonger : NoLonger text.length (text ++ after))
    (hmem' : text' ∈ rule'.language) (hlonger' : NoLonger text'.length (text' ++ after'))
    (he : text ++ after = text' ++ after') : rule = rule' ∧ text = text' := by
  have hle := hlonger' rule text (he ▸ List.prefix_append text after) hmem
  have hge := hlonger rule' text' (he ▸ List.prefix_append text' after') hmem'
  obtain rfl : text = text' := (List.append_inj he (Nat.le_antisymm hle hge)).1
  exact ⟨Rule.eq_of_mem_language hmem hmem', rfl⟩

private theorem eq_of_comments {body body' : List Char}
    (hbody : (Comment.walk 1 (body ++ after)).2 = body.length)
    (hbody' : (Comment.walk 1 (body' ++ after')).2 = body'.length)
    (he : body ++ after = body' ++ after') : body = body' := by
  rw [he, hbody'] at hbody
  exact (List.append_inj he hbody.symm).1

/-- Where a fragment leads, no other one does. -/
theorem Leads.unique (h : f.Leads after) (h' : g.Leads after')
    (he : f.text ++ after = g.text ++ after') : f = g := by
  cases h with
  | lexeme rule text after hrule hmem hlonger =>
    cases h' with
    | lexeme rule' text' after' _ hmem' hlonger' =>
      obtain ⟨rfl, rfl⟩ := eq_of_lexemes hmem hlonger hmem' hlonger' he
      rfl
    | comment => exact absurd he (ne_comment_of_lexeme hrule hmem hlonger)
    | unknown c after' hnone =>
      exact absurd hmem (hnone rule text ⟨after, he⟩)
  | comment body after hbody =>
    cases h' with
    | lexeme rule' text' after' hrule' hmem' hlonger' =>
      exact absurd he.symm (ne_comment_of_lexeme hrule' hmem' hlonger')
    | comment body' after' hbody' =>
      have htail : body ++ after = body' ++ after' := by simpa using he
      rw [eq_of_comments hbody hbody' htail]
    | unknown c after' hnone =>
      exact absurd (Rule.mem_commentOpener.mpr rfl) (hnone .commentOpener ['/', '*'] ⟨_, he⟩)
  | unknown c after hnone =>
    cases h' with
    | lexeme rule' text' after' _ hmem' => exact absurd hmem' (hnone rule' text' ⟨_, he.symm⟩)
    | comment body' after' =>
      exact absurd (Rule.mem_commentOpener.mpr rfl) (hnone .commentOpener ['/', '*'] ⟨_, he.symm⟩)
    | unknown c' after' =>
      obtain rfl : c = c' := (List.cons.inj he).1
      rfl

theorem Leads.first_eq (h : f.Leads after) : first (f.text ++ after) = f := by
  have hne : f.text ++ after ≠ [] := List.append_ne_nil_of_left_ne_nil h.text_ne_nil after
  obtain ⟨after', he, hfirst⟩ := first_leads hne
  exact hfirst.unique h he.symm

/-- The fragments of a text, each leading the rest of it. -/
inductive Splits : List Char → List Fragment → Prop where
  | nil : Splits [] []
  | cons {f : Fragment} {after : List Char} {fs : List Fragment} (hleads : f.Leads after)
      (hrest : Splits after fs) : Splits (f.text ++ after) (f :: fs)

theorem exists_splits (source : List Char) : ∃ fs, Splits source fs := by
  induction hn : source.length using Nat.strong_induction_on generalizing source with
  | _ n ih =>
    subst hn
    by_cases hne : source = []
    · exact ⟨[], hne ▸ .nil⟩
    · obtain ⟨after, hsource, hleads⟩ := first_leads hne
      generalize first source = f at hsource hleads
      subst hsource
      have hpos := List.length_pos_iff.mpr hleads.text_ne_nil
      obtain ⟨fs, hfs⟩ := ih after.length (by rw [List.length_append]; omega) after rfl
      exact ⟨f :: fs, .cons hleads hfs⟩

theorem Splits.flatMap_text {source : List Char} {fs : List Fragment} (h : Splits source fs) :
    fs.flatMap text = source := by
  induction h with
  | nil => rfl
  | cons _ _ ih => rw [List.flatMap_cons, ih]

theorem Splits.leads_of_mem {source : List Char} {fs : List Fragment} (h : Splits source fs)
    (hf : f ∈ fs) : ∃ after, f.Leads after := by
  induction h with
  | nil => cases hf
  | cons hleads _ ih =>
    rcases List.mem_cons.mp hf with rfl | hf
    · exact ⟨_, hleads⟩
    · exact ih hf

/-- A comment that the fragment opens is closed in it. -/
def Closed (f : Fragment) : Prop := f.meaning = .commentOpener → f.depth = 0

end Fragment

/-- A fragment and the position that a scan has come to before it. -/
structure Placed where
  position : Position
  fragment : Fragment

namespace Placed
open Fragment

def lexeme (x : Placed) : String := String.ofList x.fragment.text

def span (x : Placed) : Span := x.position.cover x.fragment.text

def occurrence? (x : Placed) : Option Occurrence :=
  match x.fragment.meaning with
  | .name => some ⟨x.lexeme, x.span.line⟩
  | _ => none

/-- The token, where identifiers are numbered by their names. -/
def token? (number : String → DeclId) (x : Placed) : Option Token :=
  match x.fragment.meaning with
  | .token kind value => some ⟨kind, x.lexeme, value, x.span⟩
  | .name => some ⟨.identifier, x.lexeme, some (.identifier (number x.lexeme)), x.span⟩
  | _ => none

theorem token?_congr {number number' : String → DeclId} {x : Placed}
    (h : ∀ o, x.occurrence? = some o → number o.name = number' o.name) :
    x.token? number = x.token? number' := by
  unfold token? occurrence? at *
  cases hmeaning : x.fragment.meaning with
  | name =>
    rw [hmeaning] at h
    simp only [h _ rfl]
  | _ => rfl

def problem? (x : Placed) : Option Diagnostic :=
  match x.fragment.meaning with
  | .rejected problem => some ⟨problem, x.span⟩
  | _ => none

def fatal? (x : Placed) : Option Diagnostic :=
  match x.fragment.meaning with
  | .commentOpener =>
    if x.fragment.depth = 0 then none
    else some ⟨.unterminatedComment, x.position.cover (x.fragment.text.take 2)⟩
  | _ => none

/-- What is reported, fatal or not. -/
def diagnostic? (x : Placed) : Option Diagnostic := x.problem?.or x.fatal?

theorem fatal?_eq_none_iff {x : Placed} : x.fatal? = none ↔ x.fragment.Closed := by
  unfold fatal? Closed
  cases x.fragment.meaning <;> simp

end Placed

namespace Fragment
open SymbolTable

/-- Fragments one behind the other, from a position on. -/
def place (p : Position) : List Fragment → List Placed
  | [] => []
  | f :: fs => ⟨p, f⟩ :: place (p.advance f.text) fs

theorem place_append (p : Position) (fs gs : List Fragment) :
    place p (fs ++ gs) = place p fs ++ place (p.advance (fs.flatMap text)) gs := by
  induction fs generalizing p with
  | nil => rfl
  | cons f fs ih =>
    rw [List.cons_append, place, place, ih, List.flatMap_cons, Position.advance_append,
      List.cons_append]

theorem map_fragment_place (p : Position) (fs : List Fragment) :
    (place p fs).map (·.fragment) = fs := by
  induction fs generalizing p with
  | nil => rfl
  | cons f fs ih => rw [place, List.map_cons, ih]

/-- The identifiers of placed fragments. -/
def occurrences (p : Position) (fs : List Fragment) : List Occurrence :=
  (place p fs).filterMap Placed.occurrence?

theorem occurrences_cons (p : Position) (f : Fragment) (fs : List Fragment) :
    occurrences p (f :: fs) =
      (Placed.occurrence? ⟨p, f⟩).toList ++ occurrences (p.advance f.text) fs := by
  rw [occurrences, place, List.filterMap_cons]
  cases Placed.occurrence? ⟨p, f⟩ <;> rfl

/-- The segments that fragments make from a position and a table on. -/
def segments (p : Position) (table : SymbolTable) : List Fragment → List Segment
  | [] => []
  | f :: fs =>
    f.segment p table :: segments (p.advance f.text) ((f.segment p table).intern table) fs

section
variable {f : Fragment} {after : List Char} {p : Position} {table : SymbolTable}

theorem Leads.text_segment (h : f.Leads after) : (f.segment p table).text = f.text := by
  cases h with
  | lexeme rule text after hrule =>
    have hmeans := Rule.means_meaning rule text
    generalize rule.meaning text = meaning at hmeans ⊢
    cases hmeans with
    | opener => exact absurd rfl hrule
    | nothing => rfl
    | token | name => exact String.toList_ofList
    | rejected rule problem hblames =>
      change problem.offending.toList = text
      rw [hblames.offending, String.toList_ofList]
  | comment =>
    unfold segment
    dsimp only
    split <;> rfl
  | unknown => exact String.toList_ofList

theorem Leads.intern_segment (h : f.Leads after) :
    (f.segment p table).intern table = table.internAll (Placed.occurrence? ⟨p, f⟩).toList := by
  cases h with
  | lexeme rule text after hrule =>
    have hmeans := Rule.means_meaning rule text
    generalize rule.meaning text = meaning at hmeans ⊢
    cases hmeans with
    | opener => exact absurd rfl hrule
    | token rule kind value _ hkind => exact if_neg hkind.2
    | nothing | name | rejected => rfl
  | comment =>
    unfold segment
    dsimp only
    split <;> rfl
  | unknown => rfl

theorem Leads.token?_segment (h : f.Leads after) (htable : table.WellFormed) :
    (f.segment p table).token? = Placed.token? table.idOf ⟨p, f⟩ := by
  cases h with
  | lexeme rule text after hrule =>
    have hmeans := Rule.means_meaning rule text
    generalize rule.meaning text = meaning at hmeans ⊢
    cases hmeans with
    | opener => exact absurd rfl hrule
    | name =>
      simp only [segment, Segment.token?, Placed.token?, id_intern htable]
      rfl
    | nothing | token | rejected => rfl
  | comment =>
    unfold segment
    dsimp only
    split <;> rfl
  | unknown => rfl

theorem fatal?_segment (f : Fragment) (p : Position) (table : SymbolTable) :
    (f.segment p table).fatal? = Placed.fatal? ⟨p, f⟩ := by
  unfold segment Placed.fatal?
  cases f.meaning with
  | commentOpener =>
    dsimp only
    split <;> rfl
  | _ => rfl

theorem diagnostic?_segment (f : Fragment) (p : Position) (table : SymbolTable) :
    (f.segment p table).diagnostic? = Placed.diagnostic? ⟨p, f⟩ := by
  unfold segment Placed.diagnostic? Placed.problem? Placed.fatal?
  cases f.meaning with
  | commentOpener =>
    dsimp only
    split <;> rfl
  | _ => rfl

end

theorem Splits.foldl_intern_segments {source : List Char} {fs : List Fragment}
    (h : Splits source fs) (p : Position) (table : SymbolTable) :
    (segments p table fs).foldl Segment.intern table = table.internAll (occurrences p fs) := by
  induction h generalizing p table with
  | nil => rfl
  | cons hleads _ ih =>
    rw [segments, List.foldl_cons, ih, hleads.intern_segment, occurrences_cons, internAll_append]

/-- Identifiers get the numbers that their names have in the table at the end. -/
theorem Splits.filterMap_token?_segments {source : List Char} {fs : List Fragment}
    (h : Splits source fs) (p : Position) {table : SymbolTable} (htable : table.WellFormed) :
    (segments p table fs).filterMap Segment.token? =
      (place p fs).filterMap (Placed.token? (table.internAll (occurrences p fs)).idOf) := by
  induction h generalizing p table with
  | nil => rfl
  | @cons f after fs hleads _ ih =>
    have hwell : ((f.segment p table).intern table).WellFormed :=
      hleads.intern_segment ▸ wellFormed_internAll htable _
    have htail := ih (p.advance f.text) hwell
    rw [hleads.intern_segment, ← internAll_append, ← occurrences_cons] at htail
    rw [segments, place, List.filterMap_cons, List.filterMap_cons, hleads.intern_segment, htail,
      hleads.token?_segment htable, Placed.token?_congr]
    intro o ho
    rw [occurrences_cons, internAll_append, ho]
    exact (idOf_intern_internAll htable o _).symm

theorem filterMap_diagnostic?_segments (p : Position) (table : SymbolTable)
    (fs : List Fragment) : (segments p table fs).filterMap Segment.diagnostic? =
      (place p fs).filterMap Placed.diagnostic? := by
  induction fs generalizing p table with
  | nil => rfl
  | cons f fs ih =>
    rw [segments, place, List.filterMap_cons, List.filterMap_cons, diagnostic?_segment, ih]

theorem findSome?_fatal?_segments (p : Position) (table : SymbolTable)
    (fs : List Fragment) : (segments p table fs).findSome? Segment.fatal? =
      (place p fs).findSome? Placed.fatal? := by
  induction fs generalizing p table with
  | nil => rfl
  | cons f fs ih =>
    rw [segments, place, List.findSome?_cons, List.findSome?_cons, fatal?_segment, ih]

end Fragment

/-- What a scan gives for a source with these fragments when it comes to the end. -/
def Tokenized.ofFragments (config : Config) (fs : List Fragment) : Tokenized :=
  let placed := Fragment.place .start fs
  let table :=
    (SymbolTable.empty config.hash config.bucketCount).internAll (Fragment.occurrences .start fs)
  let last := Position.start.advance (fs.flatMap Fragment.text)
  { tokens := placed.filterMap (Placed.token? table.idOf) ++ [⟨.endOfInput, "", none, last.here⟩]
    symbols := table
    diagnostics := placed.filterMap Placed.diagnostic? }

namespace Scanner
open Fragment

/-- The fragments of what is left of the source are the segments of the run. -/
theorem exists_runs_of_splits {s : Scanner} {fs : List Fragment} (h : Splits s.rest fs)
    (hready : s.Ready) : ∃ s', s.Runs (segments s.position s.symbols fs) s' := by
  generalize hrest : s.rest = source at h
  induction h generalizing s with
  | nil => exact ⟨s, .done hrest⟩
  | @cons f after fs hleads hsplits ih =>
    have hne : s.rest ≠ [] := by
      rw [hrest]
      exact List.append_ne_nil_of_left_ne_nil hleads.text_ne_nil after
    obtain ⟨hfatal, hout⟩ := hready hne
    obtain ⟨htoken, hpasses⟩ := turn_passes hne hout
    have hsegment : s.segment = f.segment s.position s.symbols := by
      rw [segment, hrest, hleads.first_eq]
    rw [hsegment] at htoken hpasses
    have hafter : s.turn.2.rest = after := by
      apply List.append_cancel_left
      rw [← hrest, hpasses.rest, hleads.text_segment]
    obtain ⟨s', hrun⟩ := ih (hpasses.ready hfatal) hafter
    rw [hpasses.position, hpasses.symbols, hleads.text_segment] at hrun
    exact ⟨s', .turn hne hfatal (Prod.ext htoken rfl) hpasses hrun⟩

theorem exists_runs_ofSource_of_splits (config : Config) {source : String} {fs : List Fragment}
    (h : Splits source.toList fs) : ∃ s', (ofSource config source).Runs
      (segments .start (.empty config.hash config.bucketCount) fs) s' :=
  exists_runs_of_splits h (ready_ofSource config source)

private theorem Runs.findSome?_fatal? {s s' : Scanner} {segments : List Segment}
    (h : s.Runs segments s') (hfatal : s.fatal = none) :
    s'.fatal = segments.findSome? Segment.fatal? := by
  rcases h.fatal hfatal with ⟨hend, hall⟩ | ⟨before, text, d, rfl, hall, hend⟩
  · rw [hend, List.findSome?_eq_none_iff.mpr hall]
  · rw [hend, List.findSome?_append, List.findSome?_eq_none_iff.mpr hall]
    rfl

/-- The run over the fragments of a source ends with what they make. -/
theorem exists_end_of_splits (config : Config) {source : String} {fs : List Fragment}
    (h : Splits source.toList fs) : ∃ s',
      (ofSource config source).Runs (segments .start (.empty config.hash config.bucketCount) fs) s' ∧
      s'.fatal = (place .start fs).findSome? Placed.fatal? ∧
      s'.position = Position.start.advance (fs.flatMap text) ∧
      s'.symbols = (Tokenized.ofFragments config fs).symbols ∧
      s'.diagnostics.toList = (Tokenized.ofFragments config fs).diagnostics := by
  obtain ⟨s', hrun⟩ := exists_runs_ofSource_of_splits config h
  refine ⟨s', hrun, ?_, ?_, hrun.symbols.trans (h.foldl_intern_segments ..),
    hrun.diagnostics.trans (filterMap_diagnostic?_segments ..)⟩
  · rw [hrun.findSome?_fatal? rfl, findSome?_fatal?_segments]
  · rw [hrun.position, h.flatMap_text]
    rfl

/-- A whole scan is a function of the fragments of its source: it stops at a comment that is not
closed, and otherwise gives what the fragments make. -/
theorem tokenize_of_splits (config : Config) {source : String} {fs : List Fragment}
    (h : Splits source.toList fs) : tokenize config source =
      match (place .start fs).findSome? Placed.fatal? with
      | some d => .error d
      | none => .ok (.ofFragments config fs) := by
  obtain ⟨s', hrun, hfatal, hposition, hsymbols, hdiagnostics⟩ := exists_end_of_splits config h
  rw [hrun.whole.2, h.filterMap_token?_segments _ (SymbolTable.wellFormed_empty _ _), last,
    hfatal]
  cases (place .start fs).findSome? Placed.fatal? with
  | some d => rfl
  | none =>
    simp only [Except.map, endOfInput, hposition, hsymbols, hdiagnostics]
    rfl

theorem exists_ok_of_isOk {config : Config} {source : String}
    (h : (tokenize config source).isOk = true) : ∃ result, tokenize config source = .ok result := by
  cases hresult : tokenize config source with
  | ok result => exact ⟨result, rfl⟩
  | error d =>
    rw [hresult] at h
    cases h

theorem exists_error_of_isOk {config : Config} {source : String}
    (h : (tokenize config source).isOk = false) : ∃ d, tokenize config source = .error d := by
  cases hresult : tokenize config source with
  | error d => exact ⟨d, rfl⟩
  | ok result =>
    rw [hresult] at h
    cases h

/-- A scan that comes to the end closes all comments. -/
theorem exists_splits_of_ok {config : Config} {source : String} {result : Tokenized}
    (h : tokenize config source = .ok result) : ∃ fs, Splits source.toList fs ∧
      (∀ f ∈ fs, f.Closed) ∧ result = .ofFragments config fs := by
  obtain ⟨fs, hsplits⟩ := exists_splits source.toList
  rw [tokenize_of_splits config hsplits] at h
  cases hfatal : (place .start fs).findSome? Placed.fatal? with
  | some d =>
    rw [hfatal] at h
    cases h
  | none =>
    rw [hfatal] at h
    refine ⟨fs, hsplits, fun f hf => ?_, (Except.ok.inj h).symm⟩
    rw [← map_fragment_place .start fs] at hf
    obtain ⟨x, hx, rfl⟩ := List.mem_map.mp hf
    exact Placed.fatal?_eq_none_iff.mp (List.findSome?_eq_none_iff.mp hfatal x hx)

theorem findSome?_fatal?_of_closed {fs : List Fragment} (h : ∀ f ∈ fs, f.Closed) (p : Position) :
    (place p fs).findSome? Placed.fatal? = none := by
  apply List.findSome?_eq_none_iff.mpr
  intro x hx
  apply Placed.fatal?_eq_none_iff.mpr
  apply h
  rw [← map_fragment_place p fs]
  exact List.mem_map_of_mem hx

theorem tokenize_of_closed (config : Config) {source : String} {fs : List Fragment}
    (h : Splits source.toList fs) (hclosed : ∀ f ∈ fs, f.Closed) :
    tokenize config source = .ok (.ofFragments config fs) := by
  rw [tokenize_of_splits config h, findSome?_fatal?_of_closed hclosed]

end Scanner
end DecafLex
