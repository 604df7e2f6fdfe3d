import DecafLex.Proofs.Rule.Characters
import DecafLex.Proofs.Scanner.Run

/-! Spans of tokens and diagnostics. Each points at its text in the lines of the source, and in the
order in which they are handed out they follow one another. -/
namespace DecafLex

/-- The columns of the span, on its line of the source, hold the text. -/
def Span.PointsAt (source : List Char) (span : Span) (text : List Char) : Prop :=
  ∃ line, Text.line? source span.line = some line ∧
    1 ≤ span.firstColumn ∧ span.firstColumn ≤ span.lastColumn ∧ span.lastColumn ≤ line.length ∧
    (line.drop (span.firstColumn - 1)).take (span.lastColumn - span.firstColumn + 1) = text

/-- The first span ends before the second begins. -/
def Span.Before (a b : Span) : Prop :=
  a.line < b.line ∨ a.line = b.line ∧ a.lastColumn < b.firstColumn

namespace Position

/-- Nothing of the span has been consumed at the position. -/
def Precedes (p : Position) (span : Span) : Prop :=
  p.line < span.line ∨ p.line = span.line ∧ p.column < span.firstColumn

/-- A text on a single line is found where it is covered. -/
theorem pointsAt_cover (before after : List Char) {text : List Char} (hne : text ≠ [])
    (h : '\n' ∉ text) :
    ((start.advance before).cover text).PointsAt (before ++ (text ++ after)) text := by
  have hpos := List.length_pos_iff.mpr hne
  rw [cover_eq _ hne h]
  refine ⟨_, line?_advance before (text ++ after), ?_⟩
  rw [advance_start, Text.firstLine_append h]
  generalize Text.lastLine before = front
  dsimp only
  refine ⟨by omega, by omega, by simp, ?_⟩
  rw [Nat.add_sub_cancel, List.drop_left, show front.length + text.length - (front.length + 1) + 1 =
    text.length by omega, List.take_left]

theorem Precedes.of_advance {p : Position} {text : List Char} {span : Span}
    (h : (p.advance text).Precedes span) : p.Precedes span := by
  rw [advance_eq] at h
  unfold Precedes at h ⊢
  split at h <;> dsimp only at h
  next hmem =>
    have := List.count_pos_iff.mpr hmem
    omega
  next => omega

theorem precedes_cover (p : Position) {text : List Char} (hne : text ≠ []) (h : '\n' ∉ text) :
    p.Precedes (p.cover text) := by
  rw [cover_eq p hne h]
  exact .inr ⟨rfl, Nat.lt_succ_self _⟩

theorem precedes_here (p : Position) : p.Precedes p.here := .inr ⟨rfl, Nat.lt_succ_self _⟩

/-- What is consumed later comes later. -/
theorem Precedes.before_of_cover {p : Position} {text rest : List Char} {span : Span}
    (hne : text ≠ []) (hline : '\n' ∉ text) (h : (p.advance (text ++ rest)).Precedes span) :
    (p.cover text).Before span := by
  rw [cover_eq p hne hline]
  rw [advance_eq] at h
  unfold Precedes at h
  unfold Span.Before
  split at h <;> dsimp only at h ⊢
  next hmem =>
    have := List.count_pos_iff.mpr hmem
    omega
  next =>
    rw [List.length_append] at h
    omega

end Position

/-- What a scan hands out: tokens as results, diagnostics as reports. -/
inductive Emission where
  | token (t : Token)
  | diagnostic (d : Diagnostic)

namespace Emission

def span : Emission → Span
  | token t => t.span
  | diagnostic d => d.span

def token? : Emission → Option Token
  | token t => some t
  | diagnostic _ => none

def diagnostic? : Emission → Option Diagnostic
  | token _ => none
  | diagnostic d => some d

/-- The text of the source that it stands for. -/
def text : Emission → List Char
  | token t => t.lexeme.toList
  | diagnostic d => d.problem.offending.toList

end Emission

namespace Scanner

/-- What `count` calls of `next` hand out. A call reports what it has passed over before it gives
its result. -/
def emissions (s : Scanner) : Nat → List Emission
  | 0 => []
  | count + 1 =>
    match s.next with
    | (none, _) => []
    | (some result, s') =>
      (s'.diagnostics.toList.drop s.diagnostics.size).map .diagnostic ++
        (result.toOption.toList.map .token ++ s'.emissions count)

/-- What is handed out when nothing is left of the source. -/
def ending (s : Scanner) : List Emission := s.last.toOption.toList.map .token

end Scanner

/-- What the segment hands out. -/
def Segment.emission? : Segment → Option Emission
  | token t => some (.token t)
  | problem d | openComment _ d => some (.diagnostic d)
  | _ => none

/-- The emission is placed over a text on a single line, at the front of the segment. -/
structure Emission.Covers (e : Emission) (p : Position) (front : List Char) (segment : Segment) :
    Prop where
  text : e.text = front
  span : e.span = p.cover front
  ne_nil : front ≠ []
  newline_notMem : '\n' ∉ front
  segment_text : ∃ rest, segment.text = front ++ rest

theorem Segment.Stands.covers {p : Position} {table : SymbolTable} {segment : Segment}
    {after : List Char} (h : segment.Stands p table after) {e : Emission}
    (he : segment.emission? = some e) : ∃ front, e.Covers p front segment := by
  have hne {rule : Rule} {front : List Char} (hmem : front ∈ rule.language) : front ≠ [] :=
    fun hnil => Rule.nil_notMem_language rule (hnil ▸ hmem)
  cases h with
  | token rule front after kind value hmeaning hmem =>
    obtain rfl := Option.some.inj he
    have hrule : rule ≠ .newline := by
      rintro rfl
      cases hmeaning
    exact ⟨front, text_token .., rfl, hne hmem, Rule.newline_notMem hrule hmem, [],
      (text_token ..).trans (List.append_nil _).symm⟩
  | name front after id hid hmeaning hmem =>
    obtain rfl := Option.some.inj he
    exact ⟨front, text_token .., rfl, hne hmem, Rule.newline_notMem (by simp) hmem, [],
      (text_token ..).trans (List.append_nil _).symm⟩
  | rejected rule front after problem hmeaning hmem =>
    obtain rfl := Option.some.inj he
    have hrule : rule ≠ .newline := by
      rintro rfl
      cases hmeaning
    exact ⟨front, text_rejected _ hmeaning, rfl, hne hmem, Rule.newline_notMem hrule hmem, [],
      (text_rejected _ hmeaning).trans (List.append_nil _).symm⟩
  | unknown c after hnone =>
    obtain rfl := Option.some.inj he
    have hc : '\n' ∉ [c] := by
      intro hmem
      obtain rfl := List.mem_singleton.mp hmem
      exact hnone .newline ['\n'] (by simp) (Rule.mem_newline.mpr rfl)
    exact ⟨[c], text_unknown .., rfl, by simp, hc, [], text_unknown ..⟩
  | openComment body depth =>
    obtain rfl := Option.some.inj he
    have htext : "/*".toList = ['/', '*'] := by decide
    exact ⟨['/', '*'], htext, rfl, by simp, by simp, body, rfl⟩
  | _ => cases he

namespace Scanner
open Segment

private theorem emissions_of_finished {s : Scanner} (h : s.finished = true) (count : Nat) :
    s.emissions count = [] := by
  cases count with
  | zero => rfl
  | succ count => rw [emissions, Scanner.next, if_pos h]

private theorem filterMap_emission?_of_silent {segments : List Segment}
    (h : ∀ segment ∈ segments, segment.token? = none) :
    segments.filterMap emission? = (segments.filterMap diagnostic?).map .diagnostic := by
  rw [List.map_filterMap]
  apply List.filterMap_congr
  intro segment hmem
  cases segment with
  | token => cases h _ hmem
  | _ => rfl

/-- What is handed out is what the segments hand out. -/
theorem Runs.emissions {s s' : Scanner} {segments : List Segment} (h : s.Runs segments s')
    (hfinished : s.finished = false) {count : Nat} (hcount : s.rest.length < count) :
    s.emissions count = segments.filterMap emission? ++ s'.ending := by
  induction count generalizing s segments with
  | zero => omega
  | succ count ih =>
    rcases h.next hfinished with ⟨silent, t, rest, s₁, rfl, hnext, hreaches⟩ | ⟨hsilent, hnext⟩
    · have hlt := hreaches.rest_lt
      have hfirst : s₁.diagnostics.toList.drop s.diagnostics.size = silent.filterMap diagnostic? := by
        rw [hreaches.diagnostics, List.drop_left' Array.length_toList]
      have hrest := ih hreaches.run (hreaches.finished.trans hfinished) (by omega)
      rw [Scanner.emissions, hnext]
      simp only [hfirst, hrest, List.filterMap_append,
        filterMap_emission?_of_silent hreaches.noToken, List.append_assoc]
      rfl
    · have hfirst : s'.diagnostics.toList.drop s.diagnostics.size =
          segments.filterMap diagnostic? := by
        rw [h.diagnostics, List.drop_left' Array.length_toList]
      rw [Scanner.emissions, hnext]
      simp only [hfirst, emissions_of_finished, List.append_nil,
        filterMap_emission?_of_silent hsilent]
      rfl

theorem ending_eq (s : Scanner) : s.ending = match s.fatal with
    | some _ => []
    | none => [.token s.endOfInput] := by
  unfold ending last
  cases s.fatal <;> rfl

private theorem eq_endOfInput_of_mem_ending {s : Scanner} {e : Emission} (h : e ∈ s.ending) :
    e = .token s.endOfInput := by
  rw [ending_eq] at h
  cases hfatal : s.fatal with
  | some => simp [hfatal] at h
  | none => simpa [hfatal] using h

namespace Runs

variable {s s' : Scanner} {segments : List Segment}

/-- What is handed out lies ahead, one behind the other. -/
theorem pairwise_before (h : s.Runs segments s') :
    (∀ e ∈ segments.filterMap emission? ++ s'.ending, s.position.Precedes e.span) ∧
    (segments.filterMap emission? ++ s'.ending).Pairwise fun e e' => e.span.Before e'.span := by
  induction h with
  | @done s hrest =>
    rw [List.filterMap_nil, List.nil_append, ending_eq]
    cases s.fatal with
    | some => simp
    | none => exact ⟨List.forall_mem_singleton.mpr s.position.precedes_here,
        List.pairwise_singleton _ _⟩
  | @turn s s' s'' segment segments _ _ _ hpasses _ ih =>
    obtain ⟨hahead, hpairwise⟩ := ih
    have hposition := hpasses.position
    cases he : segment.emission? with
    | none =>
      rw [List.filterMap_cons_none he]
      refine ⟨fun e hmem => ?_, hpairwise⟩
      exact Position.Precedes.of_advance (hposition ▸ hahead e hmem)
    | some e =>
      obtain ⟨front, hcovers⟩ := hpasses.stands.covers he
      obtain ⟨rest, hrest⟩ := hcovers.segment_text
      rw [hrest] at hposition
      rw [List.filterMap_cons_some he, List.cons_append]
      refine ⟨List.forall_mem_cons.mpr ⟨?_, fun e' hmem => ?_⟩,
        List.pairwise_cons.mpr ⟨fun e' hmem => ?_, hpairwise⟩⟩
      · rw [hcovers.span]
        exact s.position.precedes_cover hcovers.ne_nil hcovers.newline_notMem
      · exact Position.Precedes.of_advance (hposition ▸ hahead e' hmem)
      · rw [hcovers.span]
        exact Position.Precedes.before_of_cover hcovers.ne_nil hcovers.newline_notMem
          (hposition ▸ hahead e' hmem)

theorem pointsAt (h : s.Runs segments s') (hstart : s.position = .start) {e : Emission}
    (he : e ∈ segments.filterMap emission?) : e.span.PointsAt s.rest e.text := by
  obtain ⟨segment, hmem, he⟩ := List.mem_filterMap.mp he
  obtain ⟨before, after, hsplit⟩ := List.append_of_mem hmem
  obtain ⟨front, hcovers⟩ := (h.stands hsplit).covers he
  obtain ⟨rest, hrest⟩ := hcovers.segment_text
  have hsource := h.flatMap_text
  rw [hsplit, List.flatMap_append, List.flatMap_cons, hrest, List.append_assoc] at hsource
  rw [← hsource, hcovers.span, hcovers.text, hstart]
  exact Position.pointsAt_cover _ _ hcovers.ne_nil hcovers.newline_notMem

end Runs

private theorem filterMap_token?_emission? (segments : List Segment) :
    (segments.filterMap emission?).filterMap Emission.token? = segments.filterMap token? := by
  rw [List.filterMap_filterMap]
  apply List.filterMap_congr
  intro segment _
  cases segment <;> rfl

private theorem filterMap_diagnostic?_emission? (segments : List Segment) :
    (segments.filterMap emission?).filterMap Emission.diagnostic? =
      segments.filterMap diagnostic? := by
  rw [List.filterMap_filterMap]
  apply List.filterMap_congr
  intro segment _
  cases segment <;> rfl

/-- Every token and every diagnostic points at its text in the lines of the source, and in the order
in which they are handed out each ends before the next begins. The end of input comes right after the
last line. -/
theorem emissions_spans (config : Config) (source : String) :
    let start := ofSource config source
    let emissions := start.emissions (start.rest.length + 1)
    start.drain.1.filterMap Except.toOption = emissions.filterMap Emission.token? ∧
    start.drain.2.diagnostics.toList = emissions.filterMap Emission.diagnostic? ∧
    (∀ d, .error d ∈ start.drain.1 → .diagnostic d ∈ emissions) ∧
    (∀ e ∈ emissions, (∀ t, e = .token t → t.kind ≠ .endOfInput) →
      e.span.PointsAt source.toList e.text) ∧
    (∀ t, .token t ∈ emissions → t.kind = .endOfInput →
      let line := source.toList.count '\n' + 1
      ∃ last, (Text.lines source.toList).getLast? = some last ∧
        t.span = ⟨line, last.length + 1, last.length + 1⟩) ∧
    emissions.Pairwise fun e e' => e.span.Before e'.span := by
  obtain ⟨segments, s', hrun, hdrain, -⟩ := exists_runs_ofSource config source
  intro start emissions
  have hemissions : emissions = segments.filterMap emission? ++ s'.ending :=
    hrun.emissions rfl (Nat.lt_succ_self _)
  have hkind (t : Token) (hmem : .token t ∈ segments.filterMap emission?) :
      t.kind ≠ .endOfInput := by
    obtain ⟨segment, hmem, he⟩ := List.mem_filterMap.mp hmem
    obtain ⟨before, after, hsplit⟩ := List.append_of_mem hmem
    apply (hrun.stands hsplit).kind_ne
    cases segment <;> cases he
    rfl
  have hresults : start.drain.1 = (segments.filterMap Segment.token?).map .ok ++ [s'.last] :=
    congrArg Prod.fst hdrain
  have hdiagnostics : start.drain.2.diagnostics = s'.diagnostics :=
    congrArg (fun run => run.2.diagnostics) hdrain
  rw [hemissions, hresults, hdiagnostics]
  refine ⟨?_, ?_, fun d hd => ?_, fun e hmem hne => ?_, fun t hmem ht => ?_,
    hrun.pairwise_before.2⟩
  · rw [List.filterMap_append, List.filterMap_append, filterMap_token?_emission?, ending]
    have hok : Except.toOption ∘ (Except.ok : Token → Except Diagnostic Token) = some := rfl
    rw [List.filterMap_map, hok, List.filterMap_some]
    cases s'.last <;> rfl
  · rw [hrun.diagnostics, List.filterMap_append, filterMap_diagnostic?_emission?, ending]
    cases s'.last <;> exact (List.append_nil _).symm
  · have hlast : .error d = s'.last := by simpa using hd
    rcases hrun.fatal rfl with ⟨hfatal, -⟩ | ⟨before, front, d', rfl, -, hfatal⟩
    · rw [last, hfatal] at hlast
      cases hlast
    · rw [last, hfatal] at hlast
      obtain rfl := Except.error.inj hlast
      simp [emission?]
  · rcases List.mem_append.mp hmem with hmem | hmem
    · exact hrun.pointsAt rfl hmem
    · exact absurd rfl (hne _ (eq_endOfInput_of_mem_ending hmem))
  · rcases List.mem_append.mp hmem with hmem | hmem
    · exact absurd ht (hkind t hmem)
    · obtain rfl := Emission.token.inj (eq_endOfInput_of_mem_ending hmem)
      refine ⟨Text.lastLine source.toList, Text.getLast?_lines _, ?_⟩
      have hposition : s'.position = Position.start.advance source.toList := hrun.position
      rw [endOfInput, hposition, Position.advance_start]
      rfl

end Scanner
end DecafLex
