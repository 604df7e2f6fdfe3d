import DecafLex.Proofs.Scanner.Fragment
import DecafLex.Scanner.Tokenize

/-! A scan as a sequence of segments of the source, one a turn. A segment holds what the turn hands
out, so that tokens and diagnostics keep their place among each other. -/
namespace DecafLex

inductive Segment where
  | token (t : Token)
  | problem (d : Diagnostic)
  | skipped (text : List Char)
  | comment (text : List Char)
  | openComment (text : List Char) (d : Diagnostic)

namespace Segment

/-- The stretch of the source. -/
def text : Segment → List Char
  | token t => t.lexeme.toList
  | problem d => d.problem.offending.toList
  | skipped text | comment text | openComment text _ => text

def token? : Segment → Option Token
  | token t => some t
  | _ => none

theorem eq_token_of_token? {segment : Segment} {t : Token} (h : segment.token? = some t) :
    segment = token t := by
  cases segment with
  | token =>
    obtain rfl := Option.some.inj h
    rfl
  | _ => cases h

/-- What a scan can go on after. -/
def problem? : Segment → Option Diagnostic
  | problem d => some d
  | _ => none

def fatal? : Segment → Option Diagnostic
  | openComment _ d => some d
  | _ => none

/-- What is reported, fatal or not. -/
def diagnostic? : Segment → Option Diagnostic
  | problem d | openComment _ d => some d
  | _ => none

/-- Comments that are open after the segment. -/
def depth : Segment → Nat
  | openComment text _ => (Comment.walk 1 (text.drop 2)).1
  | _ => 0

/-- The table after the segment. -/
def intern (table : SymbolTable) : Segment → SymbolTable
  | token t => if t.kind = .identifier then (table.intern t.lexeme t.span.line).2 else table
  | _ => table

/-- The segment stands at a position, with a table, in front of the text `after`. -/
inductive Stands (p : Position) (table : SymbolTable) : Segment → List Char → Prop where
  | token (rule : Rule) (text after : List Char) (kind : TokenKind) (value : Option Value)
      (hmeaning : rule.meaning text = .token kind value) (hmem : text ∈ rule.language)
      (hlonger : Fragment.NoLonger text.length (text ++ after)) :
      Stands p table (.token ⟨kind, String.ofList text, value, p.cover text⟩) after
  | name (text after : List Char) (id : DeclId)
      (hid : id = (table.intern (String.ofList text) (p.cover text).line).1)
      (hmeaning : Rule.word.meaning text = .name) (hmem : text ∈ Rule.word.language)
      (hlonger : Fragment.NoLonger text.length (text ++ after)) :
      Stands p table
        (.token ⟨.identifier, String.ofList text, some (.identifier id), p.cover text⟩) after
  | rejected (rule : Rule) (text after : List Char) (problem : Problem)
      (hmeaning : rule.meaning text = .rejected problem) (hmem : text ∈ rule.language)
      (hlonger : Fragment.NoLonger text.length (text ++ after)) :
      Stands p table (.problem ⟨problem, p.cover text⟩) after
  | unknown (c : Char) (after : List Char) (hnone : Fragment.NoLexeme (c :: after)) :
      Stands p table
        (.problem ⟨.unknownCharacter (String.ofList [c]), p.cover [c]⟩) after
  | skipped (rule : Rule) (text after : List Char) (hrule : rule.isSkipped = true)
      (hmem : text ∈ rule.language)
      (hlonger : Fragment.NoLonger text.length (text ++ after)) :
      Stands p table (.skipped text) after
  | comment (body after : List Char)
      (hbody : Comment.walk 1 (body ++ after) = (0, body.length)) :
      Stands p table (.comment ('/' :: '*' :: body)) after
  | openComment (body : List Char) (depth : Nat)
      (hbody : Comment.walk 1 body = (depth + 1, body.length)) :
      Stands p table
        (.openComment ('/' :: '*' :: body) ⟨.unterminatedComment, p.cover ['/', '*']⟩) []

end Segment

namespace Fragment

/-- The segment that a fragment makes where the scan has come to a position and a table. -/
def segment (f : Fragment) (p : Position) (table : SymbolTable) : Segment :=
  let lexeme := String.ofList f.text
  let span := p.cover f.text
  match f.meaning with
  | .nothing => .skipped f.text
  | .commentOpener =>
    if f.depth = 0 then .comment f.text
    else .openComment f.text ⟨.unterminatedComment, p.cover (f.text.take 2)⟩
  | .token kind value => .token ⟨kind, lexeme, value, span⟩
  | .name =>
    .token ⟨.identifier, lexeme, some (.identifier (table.intern lexeme span.line).1), span⟩
  | .rejected problem => .problem ⟨problem, span⟩

theorem Leads.of_commentOpener {f : Fragment} {after : List Char} (h : f.Leads after)
    (hmeaning : f.meaning = .commentOpener) : ∃ body, f = ⟨'/' :: '*' :: body, .commentOpener⟩ ∧
      (Comment.walk 1 (body ++ after)).2 = body.length := by
  cases h with
  | lexeme rule text after hrule => exact absurd (Rule.eq_commentOpener_of_meaning hmeaning) hrule
  | comment body after hbody => exact ⟨body, rfl, hbody⟩
  | unknown => cases hmeaning

theorem Leads.stands {f : Fragment} {after : List Char} (h : f.Leads after) (p : Position)
    (table : SymbolTable) : (f.segment p table).Stands p table after := by
  cases h with
  | lexeme rule text after hrule hmem hlonger =>
    have hmeans := Rule.means_meaning rule text
    generalize hm : rule.meaning text = meaning at hmeans
    cases hmeans with
    | opener => exact absurd rfl hrule
    | nothing rule hskipped =>
      simp only [segment]
      exact .skipped rule text after hskipped hmem hlonger
    | token rule kind value =>
      simp only [segment]
      exact .token rule text after kind value hm hmem hlonger
    | name =>
      simp only [segment]
      exact .name text after _ rfl hm hmem hlonger
    | rejected rule problem =>
      simp only [segment]
      exact .rejected rule text after problem hm hmem hlonger
  | comment body after hbody =>
    have hwalk := Comment.walk_of_reads hbody
    change Segment.Stands p table (if (Comment.walk 1 body).1 = 0 then _ else _) after
    split
    next hzero => exact .comment body after (Prod.ext (hwalk ▸ hzero) hbody)
    next hopen =>
      obtain rfl := Comment.nil_of_open hbody (hwalk ▸ hopen)
      obtain ⟨depth, hdepth⟩ := Nat.exists_eq_succ_of_ne_zero hopen
      exact .openComment body depth (Prod.ext hdepth (hwalk ▸ hbody))
  | unknown c after hnone => exact .unknown c after hnone

end Fragment

namespace Segment

theorem text_token (kind : TokenKind) (text : List Char) (value : Option Value) (span : Span) :
    (token ⟨kind, String.ofList text, value, span⟩).text = text := String.toList_ofList

theorem text_unknown (c : Char) (span : Span) :
    (problem ⟨.unknownCharacter (String.ofList [c]), span⟩).text = [c] := String.toList_ofList

theorem text_rejected {rule : Rule} {front : List Char} {p : Problem} (span : Span)
    (h : rule.meaning front = .rejected p) : (problem ⟨p, span⟩).text = front := by
  simp [text, (Rule.blames_of_meaning h).offending]

variable {p : Position} {table : SymbolTable} {segment : Segment} {after : List Char}

/-- The text of a segment is what scanning takes first. -/
theorem Stands.leads (h : segment.Stands p table after) :
    ∃ meaning, Fragment.Leads ⟨segment.text, meaning⟩ after := by
  cases h with
  | token rule front after kind value hmeaning hmem hlonger =>
    rw [text_token]
    exact ⟨_, .lexeme rule front after (Rule.token_of_meaning hmeaning).1.1 hmem hlonger⟩
  | name front after id hid hmeaning hmem hlonger =>
    rw [text_token]
    exact ⟨_, .lexeme .word front after (by simp) hmem hlonger⟩
  | rejected rule front after problem hmeaning hmem hlonger =>
    rw [text_rejected _ hmeaning]
    refine ⟨_, .lexeme rule front after ?_ hmem hlonger⟩
    rintro rfl
    cases hmeaning
  | unknown c after hnone =>
    rw [text_unknown]
    exact ⟨_, .unknown c after hnone⟩
  | skipped rule front after hrule hmem hlonger =>
    refine ⟨_, .lexeme rule front after ?_ hmem hlonger⟩
    rintro rfl
    cases hrule
  | comment body after hbody => exact ⟨_, .comment body after (congrArg Prod.snd hbody)⟩
  | openComment body depth hbody =>
    exact ⟨_, .comment body [] (by rw [List.append_nil, hbody])⟩

theorem Stands.text_ne_nil (h : segment.Stands p table after) : segment.text ≠ [] := by
  obtain ⟨meaning, hleads⟩ := h.leads
  exact hleads.text_ne_nil

/-- Only a segment at the end of the source leaves comments open. -/
theorem Stands.closed_of_ne_nil (h : segment.Stands p table after) (hne : after ≠ []) :
    segment.fatal? = none ∧ segment.depth = 0 := by
  cases h with
  | openComment => exact absurd rfl hne
  | _ => exact ⟨rfl, rfl⟩

theorem Stands.kind_ne (h : segment.Stands p table after) {t : Token}
    (ht : segment.token? = some t) : t.kind ≠ .endOfInput := by
  cases h with
  | token rule front after kind value hmeaning =>
    obtain rfl := Option.some.inj ht
    exact (Rule.token_of_meaning hmeaning).2.1
  | name =>
    obtain rfl := Option.some.inj ht
    exact TokenKind.noConfusion
  | _ => cases ht

end Segment

namespace Scanner

/-- The segment of the next turn. -/
def segment (s : Scanner) : Segment := (Fragment.first s.rest).segment s.position s.symbols

/-- All that a turn does with its segment. -/
structure Passes (s : Scanner) (segment : Segment) (s' : Scanner) : Prop where
  config : s'.config = s.config
  rest : s.rest = segment.text ++ s'.rest
  position : s'.position = s.position.advance segment.text
  nesting : s'.nesting = .ofDepth segment.depth
  symbols : s'.symbols = segment.intern s.symbols
  diagnostics : s'.diagnostics.toList = s.diagnostics.toList ++ segment.diagnostic?.toList
  fatal : s'.fatal = segment.fatal?.or s.fatal
  finished : s'.finished = s.finished
  stands : segment.Stands s.position s.symbols s'.rest

theorem turn_of_piece {s : Scanner} {length : Nat} {meaning : Meaning}
    (h : Piece.first s.rest = ⟨length, meaning⟩) :
    s.turn = (s.consume length).act meaning (String.ofList (s.rest.take length))
      (s.position.cover (s.rest.take length)) := by
  unfold turn
  generalize Piece.first s.rest = piece at h
  subst h
  rfl

private theorem skipComment_eq {s : Scanner} {body after : List Char} (span : Span)
    (hrest : s.rest = body ++ after) (hout : s.nesting = .outside)
    (hbody : (Comment.walk 1 (body ++ after)).2 = body.length) :
    s.skipComment span =
      let passed := { s with
        rest := after
        position := s.position.advance body
        nesting := .ofDepth (Comment.walk 1 body).1 }
      if (Comment.walk 1 body).1 = 0 then passed else passed.report .unterminatedComment span := by
  have hskip : Comment.skip s.nesting.enter s.position s.rest =
      ⟨.ofDepth (Comment.walk 1 body).1, s.position.advance body,
        if (Comment.walk 1 body).1 = 0 then some body.length else none⟩ := by
    rw [hout, hrest, ← Comment.walk_of_reads hbody]
    change Comment.skip (.ofDepth 1) _ _ = _
    rw [Comment.skip_ofDepth, hbody, List.take_left]
  simp only [skipComment, hskip]
  by_cases hzero : (Comment.walk 1 body).1 = 0
  · simp only [if_pos hzero, hrest, List.drop_left]
  · obtain rfl := Comment.nil_of_open hbody (Comment.walk_of_reads hbody ▸ hzero)
    simp only [if_neg hzero]

section
variable {s : Scanner} {text after : List Char}

private theorem passes_skipped (hrest : s.rest = text ++ after) (hout : s.nesting = .outside)
    (hstands : (Segment.skipped text).Stands s.position s.symbols after) :
    s.Passes (.skipped text) { s with rest := after, position := s.position.advance text } := by
  refine ⟨rfl, hrest, rfl, hout, rfl, ?_, rfl, rfl, hstands⟩
  simp [Segment.diagnostic?]

private theorem passes_problem {problem : Problem} {span : Span} (hrest : s.rest = text ++ after)
    (hout : s.nesting = .outside) (htext : problem.offending = String.ofList text)
    (hfatal : problem.isFatal = false)
    (hstands : (Segment.problem ⟨problem, span⟩).Stands s.position s.symbols after) :
    s.Passes (.problem ⟨problem, span⟩)
      (({ s with rest := after, position := s.position.advance text }).report problem span) := by
  have hoffending : (Segment.problem ⟨problem, span⟩).text = text := by
    simp [Segment.text, htext]
  refine ⟨rfl, hoffending ▸ hrest, by rw [hoffending]; rfl, hout, rfl, ?_, ?_, rfl, hstands⟩
  · simp [report, Segment.diagnostic?]
  · simp [report, Diagnostic.isFatal, hfatal, Segment.fatal?]

private theorem passes_token {t : Token} {symbols : SymbolTable} (hrest : s.rest = text ++ after)
    (hout : s.nesting = .outside) (htext : t.lexeme = String.ofList text)
    (hsymbols : symbols = (Segment.token t).intern s.symbols)
    (hstands : (Segment.token t).Stands s.position s.symbols after) :
    s.Passes (.token t)
      { s with rest := after, position := s.position.advance text, symbols := symbols } := by
  have hlexeme : (Segment.token t).text = text := by simp [Segment.text, htext]
  refine ⟨rfl, hlexeme ▸ hrest, by rw [hlexeme], hout, hsymbols, ?_, rfl, rfl, hstands⟩
  simp [Segment.diagnostic?]

end

/-- Acting on a fragment that opens no comment. -/
private theorem act_passes {s : Scanner} {f : Fragment} {after : List Char}
    (hrest : s.rest = f.text ++ after) (hout : s.nesting = .outside) (hleads : f.Leads after)
    (hmeaning : f.meaning ≠ .commentOpener) :
    let result := ({ s with rest := after, position := s.position.advance f.text }).act
      f.meaning (String.ofList f.text) (s.position.cover f.text)
    result.1 = (f.segment s.position s.symbols).token? ∧
      s.Passes (f.segment s.position s.symbols) result.2 := by
  have hstands := hleads.stands s.position s.symbols
  cases hleads with
  | comment => exact absurd rfl hmeaning
  | unknown c => exact ⟨rfl, passes_problem hrest hout rfl rfl hstands⟩
  | lexeme rule text after hrule hmem hlonger =>
    have hmeans := Rule.means_meaning rule text
    generalize rule.meaning text = meaning at hmeans hstands ⊢
    cases hmeans with
    | opener => exact absurd rfl hrule
    | nothing => exact ⟨rfl, passes_skipped hrest hout hstands⟩
    | token rule kind value hrule hkind =>
      exact ⟨rfl, passes_token hrest hout rfl (if_neg hkind.2).symm hstands⟩
    | name => exact ⟨rfl, passes_token hrest hout rfl rfl hstands⟩
    | rejected rule problem hblames =>
      exact ⟨rfl, passes_problem hrest hout hblames.offending hblames.isFatal hstands⟩

private theorem skipComment_passes {s : Scanner} {body after : List Char}
    (hrest : s.rest = '/' :: '*' :: (body ++ after)) (hout : s.nesting = .outside)
    (hbody : (Comment.walk 1 (body ++ after)).2 = body.length) :
    s.Passes (Fragment.segment ⟨'/' :: '*' :: body, .commentOpener⟩ s.position s.symbols)
      ((s.consume 2).skipComment (s.position.cover ['/', '*'])) := by
  have hstands := (Fragment.Leads.comment body after hbody).stands s.position s.symbols
  have hconsume : (s.consume 2).rest = body ++ after := by simp [consume, hrest]
  have hposition : (s.consume 2).position.advance body =
      s.position.advance ('/' :: '*' :: body) := by
    simp [consume, hrest, Position.advance]
  rw [skipComment_eq _ hconsume hout hbody, hposition]
  simp only [Fragment.segment, Fragment.depth, List.drop_succ_cons, List.drop_zero] at hstands ⊢
  by_cases hzero : (Comment.walk 1 body).1 = 0
  · simp only [if_pos hzero] at hstands ⊢
    refine ⟨rfl, hrest, rfl, ?_, rfl, ?_, rfl, rfl, hstands⟩
    · rw [hzero]
      rfl
    · simp [Segment.diagnostic?, consume]
  · simp only [if_neg hzero] at hstands ⊢
    refine ⟨rfl, hrest, rfl, rfl, rfl, ?_, rfl, rfl, hstands⟩
    simp [Segment.diagnostic?, consume, report]

/-- The next turn passes the segment that stands first. -/
theorem turn_passes {s : Scanner} (hne : s.rest ≠ []) (hout : s.nesting = .outside) :
    s.turn.1 = s.segment.token? ∧ s.Passes s.segment s.turn.2 := by
  obtain ⟨after, hrest, hleads⟩ := Fragment.first_leads hne
  obtain ⟨length, meaning, hpiece⟩ : ∃ length meaning, Piece.first s.rest = ⟨length, meaning⟩ :=
    ⟨_, _, rfl⟩
  by_cases hmeaning : meaning = .commentOpener
  · subst hmeaning
    have hlength := congrArg Piece.length hpiece
    rw [Fragment.length_of_commentOpener (congrArg Piece.meaning hpiece)] at hlength
    subst hlength
    obtain ⟨body, hfirst, hbody⟩ := hleads.of_commentOpener (congrArg Piece.meaning hpiece)
    rw [segment]
    rw [hfirst] at hrest ⊢
    rw [turn_of_piece hpiece]
    have htake : s.rest.take 2 = ['/', '*'] := by rw [hrest]; rfl
    rw [htake]
    refine ⟨?_, skipComment_passes hrest hout hbody⟩
    simp only [Fragment.segment]
    split <;> rfl
  · rw [segment]
    rw [Fragment.first_of_piece hpiece hmeaning] at hrest hleads ⊢
    have hafter : s.rest.drop length = after :=
      List.append_cancel_left ((List.take_append_drop length s.rest).trans hrest)
    rw [turn_of_piece hpiece, consume, hafter]
    exact act_passes hrest hout hleads hmeaning

end Scanner
end DecafLex
