import DecafLex.Proofs.Rule.Characters
import DecafLex.Proofs.Scanner.Run

/-! A scan cuts its source into lexemes, offending texts, blanks, newlines and comments. Each segment
has one of these forms only, and the results and diagnostics are those of the segments. -/
namespace DecafLex

/-- The delimiters, read from left to right, balance at the end of the text and not before. -/
def Comment.Balanced (text : List Char) : Prop :=
  ∃ body, text = '/' :: '*' :: body ∧ walk 1 body = (0, body.length)

/-- The comment at the front of the text is still open at its end. -/
def Comment.Unclosed (text : List Char) : Prop :=
  ∃ body depth, text = '/' :: '*' :: body ∧ walk 1 body = (depth + 1, body.length)

/-- A problem that a scan goes on after, with a text that it can be reported for. -/
def Problem.Recoverable : Problem → Prop
  | unknownCharacter text => ∃ c, text = String.ofList [c] ∧ ∀ rule : Rule, [c] ∉ rule.language
  | unterminatedString literal => literal.toList ∈ Rule.openString.language
  | integerOutOfRange literal =>
    ∃ rule : Rule, (rule = .double ∨ rule = .hexadecimal ∨ rule = .decimal) ∧
      literal.toList ∈ rule.language
  | unterminatedComment => False

inductive Form where
  | lexeme | problem | blanks | newline | lineComment | blockComment | openComment
deriving DecidableEq, Repr

namespace Form

/-- The segment has the form where it stands between two texts. -/
def Fits (before : List Char) (segment : Segment) (after : List Char) : Form → Prop
  | lexeme => ∃ t, segment.token? = some t ∧ segment.text = t.lexeme.toList ∧
      t.kind ≠ .endOfInput
  | problem => ∃ d, segment.problem? = some d ∧ segment.text = d.problem.offending.toList ∧
      d.problem.Recoverable
  | blanks => (segment.text ≠ [] ∧ ∀ c ∈ segment.text, Rule.isBlank c = true) ∧
      (∀ c ∈ before.getLast?, Rule.isBlank c = false) ∧ ∀ c ∈ after.head?, Rule.isBlank c = false
  | newline => segment.text = ['\n']
  | lineComment => (∃ body, segment.text = '/' :: '/' :: body ∧ '\n' ∉ body) ∧
      ∀ c ∈ after.head?, c = '\n'
  | blockComment => Comment.Balanced segment.text
  | openComment => Comment.Unclosed segment.text ∧ after = []

/-- The form of a text that is no lexeme and no offending text. -/
def ofText? (text : List Char) : Option Form :=
  match Rule.ofLexeme? text with
  | some .blanks => some blanks
  | some .newline => some newline
  | some .lineComment => some lineComment
  | some .commentOpener =>
    some (if (Comment.walk 1 (text.drop 2)).1 = 0 then blockComment else openComment)
  | _ => none

end Form

namespace Segment

variable {p : Position} {table : SymbolTable} {segment : Segment} {before after : List Char}

def form? : Segment → Option Form
  | token _ => some .lexeme
  | problem _ => some .problem
  | skipped text | comment text | openComment text _ => Form.ofText? text

private theorem ofText?_of_mem {rule : Rule} {front : List Char} (h : front ∈ rule.language)
    (hrule : rule ≠ .commentOpener ∧ rule.isSkipped = false) : Form.ofText? front = none := by
  rw [Form.ofText?, Rule.ofLexeme?_of_mem h]
  cases rule <;> first | rfl | simp [Rule.isSkipped] at hrule

private theorem ofText?_of_noLexeme {c : Char} (h : Fragment.NoLexeme (c :: after)) :
    Form.ofText? [c] = none := by
  have hlexeme : Rule.ofLexeme? [c] = none := by
    apply Option.eq_none_iff_forall_not_mem.mpr
    intro rule hrule
    exact h rule [c] (by simp) (Rule.mem_of_ofLexeme?_singleton hrule)
  rw [Form.ofText?, hlexeme]

private theorem Stands.ofText?_eq_none (h : segment.Stands p table after)
    (hemits : segment.token?.isSome ∨ segment.problem?.isSome) :
    Form.ofText? segment.text = none := by
  cases h with
  | token rule front after kind value hmeaning hmem =>
    obtain ⟨hopener, -, hskipped⟩ := (Rule.token_of_meaning hmeaning).1
    rw [text_token]
    exact ofText?_of_mem hmem ⟨hopener, hskipped⟩
  | name front after id hid hmeaning hmem =>
    rw [text_token]
    exact ofText?_of_mem hmem (by simp [Rule.isSkipped])
  | rejected rule front after problem hmeaning hmem =>
    rw [text_rejected _ hmeaning]
    cases Rule.blames_of_meaning hmeaning with
    | openString => exact ofText?_of_mem hmem (by simp [Rule.isSkipped])
    | number rule hrule =>
      exact ofText?_of_mem hmem (by rcases hrule with rfl | rfl | rfl <;> simp [Rule.isSkipped])
  | unknown c after hnone =>
    rw [text_unknown]
    exact ofText?_of_noLexeme hnone
  | _ => simp [token?, problem?] at hemits

/-- The text and what is handed out for it leave no choice of the form. -/
theorem Stands.form?_of_fits {form : Form} (h : segment.Stands p table after)
    (hfits : form.Fits before segment after) : segment.form? = some form := by
  have hemits := h.ofText?_eq_none
  have htext (hsome : Form.ofText? segment.text = some form) : segment.form? = some form := by
    cases segment with
    | token | problem => simp [hemits (by simp [token?, problem?])] at hsome
    | _ => exact hsome
  cases form with
  | lexeme =>
    obtain ⟨t, ht, -⟩ := hfits
    cases segment <;> cases ht
    rfl
  | problem =>
    obtain ⟨d, hd, -⟩ := hfits
    cases segment <;> cases hd
    rfl
  | blanks =>
    obtain ⟨⟨hne, hblanks⟩, -⟩ := hfits
    exact htext (by rw [Form.ofText?, Rule.ofLexeme?_of_mem (Rule.mem_blanks.mpr ⟨hne, hblanks⟩)])
  | newline =>
    exact htext (by rw [Form.ofText?, Rule.ofLexeme?_of_mem (Rule.mem_newline.mpr hfits)])
  | lineComment =>
    exact htext (by rw [Form.ofText?, Rule.ofLexeme?_of_mem (Rule.mem_lineComment.mpr hfits.1)])
  | blockComment =>
    obtain ⟨body, hbody, hwalk⟩ := hfits
    apply htext
    rw [hbody]
    change some (if (Comment.walk 1 body).1 = 0 then _ else _) = _
    rw [hwalk, if_pos rfl]
  | openComment =>
    obtain ⟨⟨body, depth, hbody, hwalk⟩, -⟩ := hfits
    apply htext
    rw [hbody]
    change some (if (Comment.walk 1 body).1 = 0 then _ else _) = _
    rw [hwalk, if_neg (Nat.succ_ne_zero depth)]

/-- The cut between two texts does not fall into a run of blanks. -/
def CutsNoBlanks (before after : List Char) : Prop :=
  ∀ c ∈ before.getLast?, ∀ d ∈ after.head?, Rule.isBlank c = true → Rule.isBlank d = false

theorem Stands.cutsNoBlanks (h : segment.Stands p table after) :
    CutsNoBlanks segment.text after := by
  obtain ⟨meaning, hleads⟩ := h.leads
  generalize segment.text = front at hleads
  intro c hlast d hhead hc
  obtain ⟨rest, rfl⟩ := List.head?_eq_some_iff.mp hhead
  apply Bool.eq_false_of_not_eq_true
  intro hd
  cases hleads with
  | lexeme rule front after _ hmem hlonger =>
    exact hlonger.notMem rule (Rule.concat_blank_mem hmem hlast hc hd)
  | comment body after hbody =>
    have hclosed : (Comment.walk 1 (body ++ d :: rest)).1 = 0 := by
      by_contra hopen
      exact List.cons_ne_nil _ _ (Comment.nil_of_open hbody hopen)
    have hslash : body.getLast? = some '/' := by
      apply Comment.getLast?_of_closed
      rw [← Comment.walk_of_reads hbody]
      exact Prod.ext hclosed hbody
    obtain rfl : '/' = c := by simpa [List.getLast?_cons, hslash] using hlast
    cases hc
  | unknown c' after hnone =>
    obtain rfl := Option.some.inj hlast
    refine absurd (Rule.mem_blanks.mpr ⟨?_, ?_⟩) (hnone .blanks [c'] (by simp))
    · exact List.cons_ne_nil _ _
    · simpa using hc

private theorem exists_fits_skipped {rule : Rule} {front : List Char} (hrule : rule.isSkipped = true)
    (hmem : front ∈ rule.language)
    (hlonger : Fragment.NoLonger front.length (front ++ after))
    (hcut : CutsNoBlanks before (front ++ after)) :
    ∃ form : Form, form.Fits before (.skipped front) after := by
  cases rule with
  | lineComment =>
    refine ⟨.lineComment, Rule.mem_lineComment.mp hmem, fun c hhead => ?_⟩
    obtain ⟨rest, rfl⟩ := List.head?_eq_some_iff.mp hhead
    exact hlonger.newline_of_lineComment hmem
  | blanks =>
    have hblanks := Rule.mem_blanks.mp hmem
    obtain ⟨c, rest, rfl⟩ := List.exists_cons_of_ne_nil hblanks.1
    refine ⟨.blanks, hblanks, fun d hlast => ?_, fun d hhead => ?_⟩
    · have hc := hblanks.2 c List.mem_cons_self
      apply Bool.eq_false_of_not_eq_true
      intro hd
      simpa [hc] using hcut d hlast c rfl hd
    · obtain ⟨rest', rfl⟩ := List.head?_eq_some_iff.mp hhead
      apply Bool.eq_false_of_not_eq_true
      intro hd
      refine hlonger.notMem .blanks (Rule.mem_blanks.mpr ⟨by simp, ?_⟩)
      exact List.forall_mem_append.mpr ⟨hblanks.2, by simpa using hd⟩
  | newline => exact ⟨.newline, Rule.mem_newline.mp hmem⟩
  | _ => cases hrule

theorem Stands.exists_fits (h : segment.Stands p table after)
    (hcut : CutsNoBlanks before (segment.text ++ after)) :
    ∃ form : Form, form.Fits before segment after := by
  have hkind := fun t => h.kind_ne (t := t)
  cases h with
  | token | name => exact ⟨.lexeme, _, rfl, rfl, hkind _ rfl⟩
  | rejected rule front after problem hmeaning hmem =>
    refine ⟨.problem, _, rfl, rfl, ?_⟩
    cases Rule.blames_of_meaning hmeaning with
    | openString => simpa [Problem.Recoverable] using hmem
    | number rule hrule => exact ⟨rule, hrule, by simpa using hmem⟩
  | unknown c after hnone =>
    exact ⟨.problem, _, rfl, rfl, c, rfl, fun rule => hnone rule [c] (by simp)⟩
  | skipped rule front after hrule hmem hlonger => exact exists_fits_skipped hrule hmem hlonger hcut
  | comment body after hbody =>
    have hclosed := Comment.walk_of_reads (congrArg Prod.snd hbody)
    exact ⟨.blockComment, body, rfl, hclosed ▸ hbody⟩
  | openComment body depth hbody => exact ⟨.openComment, ⟨body, depth, rfl, hbody⟩, rfl⟩

private theorem ofText?_of_unclosed {front : List Char} (h : Comment.Unclosed front) :
    Form.ofText? front = some .openComment := by
  obtain ⟨body, depth, rfl, hwalk⟩ := h
  change some (if (Comment.walk 1 body).1 = 0 then _ else _) = _
  rw [hwalk, if_neg (Nat.succ_ne_zero depth)]

/-- Only the segment that stops the scan is an open comment. -/
theorem Stands.fatal?_of_unclosed (h : segment.Stands p table after)
    (hunclosed : Comment.Unclosed segment.text) : segment.fatal? ≠ none := by
  have htext := ofText?_of_unclosed hunclosed
  have hemits := h.ofText?_eq_none
  cases h with
  | skipped rule front after hrule hmem =>
    obtain ⟨body, -, hfront, -⟩ := hunclosed
    obtain rfl : front = '/' :: '*' :: body := hfront
    obtain rfl : Rule.commentOpener = rule := Option.some.inj (Rule.ofLexeme?_of_mem hmem)
    cases hrule
  | comment body after hbody =>
    obtain ⟨body', depth, hfront, hwalk⟩ := hunclosed
    obtain rfl : body = body' := by simpa [text] using hfront
    rw [Comment.walk_of_reads (congrArg Prod.snd hbody), hwalk] at hbody
    cases hbody
  | openComment => exact Option.some_ne_none _
  | _ => exact absurd (htext.symm.trans (hemits (by simp [token?, problem?]))) (by simp)

theorem diagnostic?_of_fatal? (h : segment.fatal? = none) :
    segment.diagnostic? = segment.problem? := by
  cases segment with
  | openComment => cases h
  | _ => rfl

end Segment

namespace Scanner
open Segment

theorem Runs.cutsNoBlanks {s s' : Scanner} {segments before after : List Segment}
    (h : s.Runs segments s') (hsplit : segments = before ++ after) :
    CutsNoBlanks (before.flatMap text) (after.flatMap text) := by
  rcases before.eq_nil_or_concat' with rfl | ⟨init, prev, rfl⟩
  · exact fun _ hlast => by cases hlast
  · have hstands := h.stands (hsplit.trans (List.append_assoc ..))
    have hlast : ((init ++ [prev]).flatMap text).getLast? = prev.text.getLast? := by
      rw [List.flatMap_append, List.flatMap_singleton,
        List.getLast?_append_of_ne_nil _ hstands.text_ne_nil]
    intro c hc
    rw [hlast] at hc
    exact hstands.cutsNoBlanks c hc

/-- Every source is the concatenation of segments of one form each. Their tokens, in order, are the
results before the last, and their problems the diagnostics; the last result is the end of input, or
the diagnostic of a comment that is open from some point to the end of the source. -/
theorem drain_partitions (config : Config) (source : String) :
    let run := (ofSource config source).drain
    ∃ (segments : List Segment) (last : Except Diagnostic Token),
      segments.flatMap text = source.toList ∧
      (∀ before segment after, segments = before ++ segment :: after → segment.text ≠ [] ∧
        ∃! form : Form, form.Fits (before.flatMap text) segment (after.flatMap text)) ∧
      run.1 = (segments.filterMap token?).map .ok ++ [last] ∧
      (∀ t ∈ segments.filterMap token?, t.kind ≠ .endOfInput) ∧
      match run.2.fatal with
      | none => (∃ t, last = .ok t ∧ t.kind = .endOfInput ∧ t.lexeme = "") ∧
          run.2.diagnostics.toList = segments.filterMap problem? ∧
          ∀ segment ∈ segments, ¬ Comment.Unclosed segment.text
      | some d => last = .error d ∧ d.problem = .unterminatedComment ∧
          run.2.diagnostics.toList = segments.filterMap problem? ++ [d] ∧
          ∃ before segment, segments = before ++ [segment] ∧ Comment.Unclosed segment.text := by
  obtain ⟨segments, s', hrun, hdrain, -⟩ := exists_runs_ofSource config source
  intro run
  have hend : run.2 = { s' with finished := true } := congrArg Prod.snd hdrain
  have hdiagnostics : s'.diagnostics.toList = segments.filterMap diagnostic? := hrun.diagnostics
  refine ⟨segments, s'.last, hrun.flatMap_text, fun before segment after hsplit => ?_,
    congrArg Prod.fst hdrain, fun t ht => ?_, ?_⟩
  · have hstands := hrun.stands hsplit
    obtain ⟨form, hform⟩ := hstands.exists_fits (hrun.cutsNoBlanks hsplit)
    refine ⟨hstands.text_ne_nil, form, hform, fun form' hform' => ?_⟩
    exact Option.some.inj ((hstands.form?_of_fits hform').symm.trans (hstands.form?_of_fits hform))
  · obtain ⟨segment, hmem, ht⟩ := List.mem_filterMap.mp ht
    obtain ⟨before, after, hsplit⟩ := List.append_of_mem hmem
    exact (hrun.stands hsplit).kind_ne ht
  · rw [hend]
    rcases hrun.fatal rfl with ⟨hfatal, hall⟩ | ⟨before, front, d, rfl, hall, hfatal⟩
    · simp only [last, hfatal]
      refine ⟨⟨_, rfl, rfl, rfl⟩, ?_, fun segment hmem hunclosed => ?_⟩
      · rw [hdiagnostics]
        exact List.filterMap_congr fun segment hmem => diagnostic?_of_fatal? (hall segment hmem)
      · obtain ⟨before, after, hsplit⟩ := List.append_of_mem hmem
        exact (hrun.stands hsplit).fatal?_of_unclosed hunclosed (hall segment hmem)
    · have hproblems : before.filterMap diagnostic? = before.filterMap problem? :=
        List.filterMap_congr fun segment hmem => diagnostic?_of_fatal? (hall segment hmem)
      cases hrun.stands rfl with
      | openComment body depth hbody =>
        simp only [last, hfatal, true_and]
        refine ⟨?_, before, _, rfl, body, depth, rfl, hbody⟩
        rw [hdiagnostics, List.filterMap_append, List.filterMap_append, hproblems]
        simp [diagnostic?, problem?]

end Scanner
end DecafLex
