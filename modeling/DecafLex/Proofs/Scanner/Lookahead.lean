import DecafLex.Proofs.Rule.Growth
import DecafLex.Proofs.Scanner.Buckets
import DecafLex.Proofs.Scanner.Consistency
import DecafLex.Proofs.Scanner.Spans
import DecafLex.Proofs.Scanner.Truncation
import DecafLex.Runtime

/-! How far a scan looks ahead. What it hands out for a front of the source depends on a few characters
behind that front, and on nothing further. -/
namespace DecafLex

/-- The text placed by the span ends in `text`, at least `margin` characters before its end. -/
def Span.EndsWithin (span : Span) (text : List Char) (margin : Nat) : Prop :=
  ∃ front back, text = front ++ back ∧ margin ≤ back.length ∧
    Position.start.advance front = ⟨span.line, span.lastColumn⟩

namespace Fragment
open SymbolTable

variable {f : Fragment} {fs gs : List Fragment} {text window after source : List Char}

/-- Where no longer lexeme begins, none does behind the same few characters. -/
theorem NoLonger.of_window (h : NoLonger text.length (text ++ (window ++ after)))
    (hwindow : Rule.reach ≤ window.length) (after' : List Char) :
    NoLonger text.length (text ++ (window ++ after')) := by
  intro rule front hfront hmem
  by_contra hlong
  -- The shortest lexeme that is longer than the text ends in the window.
  obtain ⟨rule', front', hwithin, hmore, hless, hmem'⟩ :=
    Rule.growsFrom_of_mem hmem (Nat.lt_of_not_le hlong)
  have hfront' : front' <+: text ++ window := by
    apply List.prefix_of_prefix_length_le (hwithin.trans hfront)
    · rw [← List.append_assoc]
      exact List.prefix_append ..
    · rw [List.length_append]
      omega
  have hle := h rule' front' ?_ hmem'
  · omega
  · rw [← List.append_assoc]
    exact hfront'.trans (List.prefix_append ..)

theorem NoLexeme.of_window {c : Char} (h : NoLexeme (c :: (window ++ after)))
    (hwindow : Rule.reach ≤ window.length) (after' : List Char) :
    NoLexeme (c :: (window ++ after')) := by
  have hnone : NoLonger ([] : List Char).length ([] ++ ((c :: window) ++ after)) :=
    fun rule front hfront hmem => absurd hmem (h rule front hfront)
  intro rule front hfront hmem
  have hle := hnone.of_window (Nat.le_succ_of_le hwindow) after' rule front hfront hmem
  obtain rfl := List.eq_nil_of_length_eq_zero (Nat.le_zero.mp hle)
  exact Rule.nil_notMem_language rule hmem

/-- A fragment that leaves no comment open is decided by the few characters behind it. -/
theorem Leads.of_window (h : f.Leads (window ++ after)) (hclosed : f.Closed)
    (hwindow : Rule.reach ≤ window.length) (after' : List Char) : f.Leads (window ++ after') := by
  generalize hwhole : window ++ after = whole at h
  cases h with
  | lexeme rule text _ hrule hmem hlonger =>
    subst hwhole
    exact .lexeme rule text _ hrule hmem (hlonger.of_window hwindow after')
  | comment body _ hbody =>
    exact .comment body _ (congrArg Prod.snd (Comment.walk_append_of_closed hbody (hclosed rfl) _))
  | unknown c _ hnone =>
    subst hwhole
    exact .unknown c _ (hnone.of_window hwindow after')

/-- The fragments of a front of a text, which end before the window, are the same whatever comes
behind the window. -/
theorem Splits.of_window (h : Splits source (fs ++ gs)) (hclosed : ∀ f ∈ fs, f.Closed)
    (hsource : source = fs.flatMap Fragment.text ++ (window ++ after))
    (hwindow : Rule.reach ≤ window.length) (after' : List Char) :
    ∃ gs', Splits (fs.flatMap Fragment.text ++ (window ++ after')) (fs ++ gs') := by
  induction fs generalizing source with
  | nil => exact exists_splits _
  | cons f fs ih =>
    obtain ⟨hfirst, hrest⟩ := List.forall_mem_cons.mp hclosed
    cases h with
    | cons hleads hsplits =>
      rw [List.flatMap_cons, List.append_assoc] at hsource ⊢
      obtain rfl := List.append_cancel_left hsource
      obtain ⟨gs', hgs'⟩ := ih hsplits hrest rfl
      refine ⟨gs', .cons ?_ hgs'⟩
      rw [← List.append_assoc] at hleads ⊢
      exact hleads.of_window hfirst (by rw [List.length_append]; omega) after'

theorem Splits.closed_of_append (h : Splits source (fs ++ gs)) (hgs : gs ≠ []) :
    ∀ f ∈ fs, f.Closed := by
  rcases h.closed_or_unclosed with hall | ⟨hs, body, he, hall, -⟩
  · exact fun f hf => hall f (List.mem_append_left gs hf)
  · obtain ⟨gs, last, rfl⟩ := (List.eq_nil_or_concat gs).resolve_left hgs
    rw [List.concat_eq_append, ← List.append_assoc] at he
    obtain ⟨rfl, -⟩ := List.append_inj' he rfl
    exact fun f hf => hall f (List.mem_append_left gs hf)

theorem segments_append (p : Position) (table : SymbolTable) (fs gs : List Fragment) :
    ∃ p' table', segments p table (fs ++ gs) = segments p table fs ++ segments p' table' gs := by
  induction fs generalizing p table with
  | nil => exact ⟨p, table, rfl⟩
  | cons f fs ih =>
    obtain ⟨p', table', he⟩ := ih (p.advance f.text) ((f.segment p table).intern table)
    exact ⟨p', table', congrArg _ he⟩

/-- A segment has been made by one of the fragments, and the segments before it by those before. -/
theorem exists_front_of_segments_eq {p : Position} {table : SymbolTable} {before after : List Segment}
    {segment : Segment} (h : segments p table fs = before ++ segment :: after) :
    ∃ front f rest table', fs = front ++ f :: rest ∧
      segment = f.segment (p.advance (front.flatMap Fragment.text)) table' ∧
      segments p table (front ++ [f]) = before ++ [segment] := by
  induction before generalizing fs p table with
  | nil =>
    cases fs with
    | nil => cases h
    | cons f fs =>
      obtain ⟨rfl, -⟩ := List.cons.inj h
      exact ⟨[], f, fs, table, rfl, rfl, rfl⟩
  | cons first before ih =>
    cases fs with
    | nil => cases h
    | cons f fs =>
      obtain ⟨rfl, hrest⟩ := List.cons.inj h
      obtain ⟨front, f', rest, table', rfl, hsegment, hfront⟩ := ih hrest
      refine ⟨f :: front, f', rest, table', rfl, ?_, congrArg _ hfront⟩
      rwa [List.flatMap_cons, Position.advance_append]

private theorem exists_of_getElem?_filterMap {α β : Type} {make : α → Option β} {xs : List α}
    {i : Nat} {b : β} (h : (xs.filterMap make)[i]? = some b) :
    ∃ before a after, xs = before ++ a :: after ∧ make a = some b ∧
      ((before ++ [a]).filterMap make)[i]? = some b := by
  induction xs generalizing i with
  | nil => cases h
  | cons x xs ih =>
    cases hmake : make x with
    | none =>
      rw [List.filterMap_cons_none hmake] at h
      obtain ⟨before, a, after, rfl, ha, hplace⟩ := ih h
      exact ⟨x :: before, a, after, rfl, ha, by rwa [List.cons_append, List.filterMap_cons_none hmake]⟩
    | some b' =>
      rw [List.filterMap_cons_some hmake] at h
      cases i with
      | zero => exact ⟨[], x, xs, rfl, hmake.trans h, by rwa [List.nil_append,
          List.filterMap_cons_some hmake]⟩
      | succ i =>
        obtain ⟨before, a, after, rfl, ha, hplace⟩ := ih h
        exact ⟨x :: before, a, after, rfl, ha, by rwa [List.cons_append,
          List.filterMap_cons_some hmake]⟩

private theorem Leads.advance_eq_of_emission? (h : f.Leads after) (p : Position)
    (table : SymbolTable) (e : Emission) (he : (f.segment p table).emission? = some e)
    (htext : e.text = (f.segment p table).text) :
    p.advance f.text = ⟨e.span.line, e.span.lastColumn⟩ := by
  obtain ⟨front, hcovers⟩ := (h.stands p table).covers he
  have hfront : front = f.text := by rw [← hcovers.text, htext, h.text_segment]
  have hline := hcovers.newline_notMem
  have hne := hcovers.ne_nil
  rw [hcovers.span, hfront] at *
  rw [Position.cover_eq p hne hline, Position.advance_eq, if_neg hline]

/-- A scan that has made a token has come to the end of its span. -/
theorem Leads.advance_of_token (h : f.Leads after) {p : Position} {table : SymbolTable} {t : Token}
    (ht : (f.segment p table).token? = some t) :
    p.advance f.text = ⟨t.span.line, t.span.lastColumn⟩ := by
  have hsegment := Segment.eq_token_of_token? ht
  apply h.advance_eq_of_emission? p table (.token t)
  · rw [hsegment]
    rfl
  · rw [hsegment]
    rfl

/-- A scan that has reported a problem and can go on has come to the end of its span. -/
theorem Leads.advance_of_diagnostic (h : f.Leads after) {p : Position} {table : SymbolTable}
    {d : Diagnostic} (hd : (f.segment p table).diagnostic? = some d) (hfatal : d.isFatal = false) :
    p.advance f.text = ⟨d.span.line, d.span.lastColumn⟩ := by
  have hstands := h.stands p table
  cases hsegment : f.segment p table with
  | problem d' =>
    rw [hsegment] at hd
    obtain rfl := Option.some.inj hd
    apply h.advance_eq_of_emission? p table (.diagnostic d')
    · rw [hsegment]
      rfl
    · rw [hsegment]
      rfl
  | openComment front d' =>
    rw [hsegment] at hd hstands
    obtain rfl := Option.some.inj hd
    obtain ⟨-, -, -, htrue⟩ := hstands.fatal rfl
    cases hfatal.symm.trans htrue
  | _ =>
    rw [hsegment] at hd
    cases hd

/-- What the segments of a text make at some place of a sequence, they make for every text that goes on
alike up to a window behind it. -/
theorem Splits.exists_front {β : Type} {make : Segment → Option β} {i : Nat} {b : β} {span : Span}
    {table : SymbolTable} (h : Splits (text ++ after) fs)
    (hb : ((segments .start table fs).filterMap make)[i]? = some b)
    (hspan : span.EndsWithin text Rule.reach)
    (hends : ∀ {f : Fragment} {after : List Char} {p : Position} {table : SymbolTable},
      f.Leads after → make (f.segment p table) = some b →
      p.advance f.text = ⟨span.line, span.lastColumn⟩) :
    ∃ front, Splits (front.flatMap Fragment.text) front ∧
      ((segments .start table front).filterMap make)[i]? = some b ∧
      ∀ after', ∃ rest, Splits (text ++ after') (front ++ rest) := by
  obtain ⟨before, segment, later, hsegments, hmake, hplace⟩ := exists_of_getElem?_filterMap hb
  obtain ⟨front, f, rest, table', rfl, rfl, hfront⟩ := exists_front_of_segments_eq hsegments
  obtain ⟨ahead, window, rfl, hwindow, hahead⟩ := hspan
  obtain ⟨_, hleads⟩ := h.leads_of_mem (f := f) (by simp)
  rw [← List.singleton_append, ← List.append_assoc] at h
  have hflat := h.flatMap_text
  rw [List.flatMap_append, List.append_assoc] at hflat
  obtain rfl : ahead = (front ++ [f]).flatMap Fragment.text := by
    apply Position.eq_of_advance_eq (p := .start) (List.prefix_append ahead (window ++ after))
    · exact hflat ▸ List.prefix_append ..
    · rw [hahead, List.flatMap_append, Position.advance_append, List.flatMap_singleton]
      exact (hends hleads hmake).symm
  have hrest : rest ≠ [] := by
    rintro rfl
    have hnil : [] = window ++ after := List.append_cancel_left hflat
    rw [(List.append_eq_nil_iff.mp hnil.symm).1] at hwindow
    cases hwindow
  have hclosed := h.closed_of_append hrest
  refine ⟨front ++ [f], h.of_append hclosed, hfront ▸ hplace, ?_⟩
  intro after'
  rw [List.append_assoc]
  exact h.of_window hclosed (List.append_assoc ..) hwindow after'

/-- The tokens of a text do not depend on the buckets of the table. -/
theorem Splits.filterMap_token?_empty (h : Splits source fs) (hash hash' : String → UInt64)
    (m n : Nat) : (segments .start (empty hash m) fs).filterMap Segment.token? =
      (segments .start (empty hash' n) fs).filterMap Segment.token? := by
  rw [h.filterMap_token?_segments _ (wellFormed_empty hash m),
    h.filterMap_token?_segments _ (wellFormed_empty hash' n), idOf_internAll_empty hash hash' m n]

end Fragment

namespace Position

/-- No cut of a text is behind its end. -/
theorem not_endsWithin_here {text after : List Char} {margin : Nat} :
    ¬ (start.advance (text ++ after)).here.EndsWithin text margin := by
  rintro ⟨front, back, rfl, -, hfront⟩
  rw [List.append_assoc, advance_append] at hfront
  generalize hlast : (start.advance front).advance (back ++ after) = last at hfront
  have hprecedes : (start.advance front).Precedes last.here := by
    apply Precedes.of_advance
    rw [hlast]
    exact last.precedes_here
  rw [hfront] at hprecedes
  unfold Precedes here at hprecedes
  dsimp only at hprecedes
  omega

end Position

namespace Scanner
open Fragment Segment

/-- A scan hands out first what the first fragments of its source make. -/
theorem drain_of_front (config : Config) {source : String} {front rest : List Fragment}
    (h : Splits source.toList (front ++ rest)) :
    let made := segments .start (.empty config.hash config.bucketCount) front
    (∃ results, (ofSource config source).drain.1 = (made.filterMap token?).map .ok ++ results) ∧
    ∃ diagnostics, (ofSource config source).drain.2.diagnostics.toList =
      made.filterMap diagnostic? ++ diagnostics := by
  obtain ⟨s, hrun⟩ := exists_runs_ofSource_of_splits config h
  obtain ⟨p, table, hsegments⟩ :=
    segments_append .start (.empty config.hash config.bucketCount) front rest
  rw [hrun.whole.1, hrun.diagnostics, hsegments, List.filterMap_append, List.filterMap_append,
    List.map_append, List.append_assoc]
  exact ⟨⟨_, rfl⟩, _, rfl⟩

/-- A token among the results of a scan is one of those its segments make, or the end of input. -/
private theorem getElem?_results {s : Scanner} {tokens : List Token} {i : Nat} {t : Token}
    (h : (tokens.map .ok ++ [s.last])[i]? = some (.ok t)) :
    tokens[i]? = some t ∨ t = s.endOfInput := by
  by_cases hlt : i < tokens.length
  · rw [List.getElem?_append_left (by rwa [List.length_map]), List.getElem?_map] at h
    obtain ⟨t', ht', he⟩ := Option.map_eq_some_iff.mp h
    exact .inl (Except.ok.inj he ▸ ht')
  · rw [List.getElem?_append_right (by rw [List.length_map]; omega)] at h
    have hlast : .ok t = s.last := List.mem_singleton.mp (List.mem_of_getElem? h)
    unfold last at hlast
    split at hlast
    · cases hlast
    · exact .inr (Except.ok.inj hlast)

/-- Two scans of sources that begin alike hand out the same tokens and report the same problems, at the
same places of their sequences, as far as these end three characters before the sources part. -/
theorem drain_lookahead (config config' : Config) (text after after' : String) :
    let scan := (ofSource config (text ++ after)).drain
    let scan' := (ofSource config' (text ++ after')).drain
    (∀ (i : Nat) (t : Token), scan.1[i]? = some (.ok t) → t.span.EndsWithin text.toList 3 →
      scan'.1[i]? = some (.ok t)) ∧
    ∀ (i : Nat) (d : Diagnostic), scan.2.diagnostics[i]? = some d → d.isFatal = false →
      d.span.EndsWithin text.toList 3 → scan'.2.diagnostics[i]? = some d := by
  intro scan scan'
  obtain ⟨fs, hsplits⟩ := exists_splits (text ++ after).toList
  obtain ⟨s, hrun⟩ := exists_runs_ofSource_of_splits config hsplits
  have hscan : scan = _ := hrun.whole.1
  have hposition := hrun.position
  change s.position = Position.start.advance (text ++ after).toList at hposition
  rw [String.toList_append] at hsplits hposition
  rw [hscan]
  constructor
  · intro i t ht hspan
    rcases getElem?_results ht with ht | rfl
    · obtain ⟨front, hfront, hplace, hrest⟩ :=
        hsplits.exists_front ht hspan fun hleads htoken => hleads.advance_of_token htoken
      obtain ⟨rest, hsplits'⟩ := hrest after'.toList
      rw [← String.toList_append] at hsplits'
      obtain ⟨⟨results, hresults⟩, -⟩ := drain_of_front config' hsplits'
      rw [hfront.filterMap_token?_empty _ config'.hash _ config'.bucketCount] at hplace
      obtain ⟨hlt, -⟩ := List.getElem?_eq_some_iff.mp hplace
      change (ofSource config' (text ++ after')).drain.1[i]? = _
      rw [hresults, List.getElem?_append_left (by rwa [List.length_map]), List.getElem?_map, hplace]
      rfl
    · rw [endOfInput, hposition] at hspan
      exact absurd hspan Position.not_endsWithin_here
  · intro i d hd hfatal hspan
    rw [← Array.getElem?_toList] at hd ⊢
    rw [hrun.diagnostics] at hd
    obtain ⟨front, hfront, hplace, hrest⟩ :=
      hsplits.exists_front hd hspan fun hleads hmade => hleads.advance_of_diagnostic hmade hfatal
    obtain ⟨rest, hsplits'⟩ := hrest after'.toList
    rw [← String.toList_append] at hsplits'
    obtain ⟨-, diagnostics, hdiagnostics⟩ := drain_of_front config' hsplits'
    rw [filterMap_diagnostic?_segments, ← filterMap_diagnostic?_segments .start
      (.empty config'.hash config'.bucketCount)] at hplace
    obtain ⟨hlt, -⟩ := List.getElem?_eq_some_iff.mp hplace
    change (ofSource config' (text ++ after')).drain.2.diagnostics.toList[i]? = _
    rw [hdiagnostics, List.getElem?_append_left hlt, hplace]

/-- Two characters are too few: a mark and a sign do not tell yet whether a number has an exponent. -/
example : (ofSource .standard "1.e+5").nextToken.1.toOption.map Token.lexeme = some "1.e+5" ∧
    (ofSource .standard "1.e+x").nextToken.1.toOption.map Token.lexeme = some "1." := by
  decide +kernel

end Scanner
end DecafLex
