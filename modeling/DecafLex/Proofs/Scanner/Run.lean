import DecafLex.Proofs.Scanner.Segment

/-! A scan taken turn by turn up to the end of the source, and the results that it gives. -/
namespace DecafLex.Scanner
open Segment

/-- The turns from a scanner up to one that has nothing left of the source. -/
inductive Runs : Scanner → List Segment → Scanner → Prop where
  | done {s : Scanner} (hrest : s.rest = []) : Runs s [] s
  | turn {s s' s'' : Scanner} {segment : Segment} {segments : List Segment} (hne : s.rest ≠ [])
      (hfatal : s.fatal = none) (hturn : s.turn = (segment.token?, s'))
      (hpasses : s.Passes segment s') (hrun : Runs s' segments s'') :
      Runs s (segment :: segments) s''

/-- Only a scanner that has nothing left can have stopped, or stand in a comment. -/
def Ready (s : Scanner) : Prop := s.rest ≠ [] → s.fatal = none ∧ s.nesting = .outside

theorem ready_ofSource (config : Config) (source : String) : (ofSource config source).Ready :=
  fun _ => ⟨rfl, rfl⟩

theorem Passes.ready {s s' : Scanner} {segment : Segment} (h : s.Passes segment s')
    (hfatal : s.fatal = none) : s'.Ready := by
  intro hne
  obtain ⟨hnone, hzero⟩ := h.stands.closed_of_ne_nil hne
  refine ⟨?_, ?_⟩
  · rw [h.fatal, hnone, hfatal, Option.or_none]
  · rw [h.nesting, hzero, Comment.Nesting.ofDepth]

theorem exists_runs {s : Scanner} (h : s.Ready) : ∃ segments s', s.Runs segments s' := by
  induction hn : s.rest.length using Nat.strong_induction_on generalizing s with
  | _ n ih =>
    subst hn
    by_cases hne : s.rest = []
    · exact ⟨[], s, .done hne⟩
    · obtain ⟨hfatal, hout⟩ := h hne
      obtain ⟨htoken, hpasses⟩ := turn_passes hne hout
      obtain ⟨segments, s', hrun⟩ := ih _ (rest_turn_lt hne) (hpasses.ready hfatal) rfl
      exact ⟨_, s', .turn hne hfatal (Prod.ext htoken rfl) hpasses hrun⟩

namespace Runs

variable {s s' : Scanner} {segments : List Segment}

theorem flatMap_text (h : s.Runs segments s') : segments.flatMap text = s.rest := by
  induction h with
  | done hrest => exact hrest.symm
  | turn _ _ _ hpasses _ ih => rw [List.flatMap_cons, ih, hpasses.rest]

theorem rest_eq_nil (h : s.Runs segments s') : s'.rest = [] := by
  induction h with
  | done hrest => exact hrest
  | turn _ _ _ _ _ ih => exact ih

theorem finished (h : s.Runs segments s') : s'.finished = s.finished := by
  induction h with
  | done => rfl
  | turn _ _ _ hpasses _ ih => exact ih.trans hpasses.finished

theorem position (h : s.Runs segments s') : s'.position = s.position.advance s.rest := by
  induction h with
  | done hrest => rw [hrest]; rfl
  | turn _ _ _ hpasses _ ih =>
    rw [ih, hpasses.position, ← Position.advance_append, ← hpasses.rest]

theorem eq_nil (h : s.Runs segments s') (hrest : s.rest = []) : segments = [] ∧ s' = s := by
  cases h with
  | done => exact ⟨rfl, rfl⟩
  | turn hne => exact absurd hrest hne

/-- Only the last segment can stop the scan. -/
theorem fatal (h : s.Runs segments s') (hfatal : s.fatal = none) :
    (s'.fatal = none ∧ ∀ segment ∈ segments, segment.fatal? = none) ∨
    ∃ before text d, segments = before ++ [.openComment text d] ∧
      (∀ segment ∈ before, segment.fatal? = none) ∧ s'.fatal = some d := by
  induction h with
  | done => exact .inl ⟨hfatal, by simp⟩
  | @turn s s' s'' segment segments _ _ _ hpasses hrun ih =>
    cases hsegment : segment.fatal? with
    | none =>
      have hnone : s'.fatal = none := by rw [hpasses.fatal, hsegment, hfatal, Option.or_none]
      rcases ih hnone with ⟨hend, hall⟩ | ⟨before, text, d, rfl, hall, hend⟩
      · exact .inl ⟨hend, List.forall_mem_cons.mpr ⟨hsegment, hall⟩⟩
      · exact .inr ⟨segment :: before, text, d, rfl,
          List.forall_mem_cons.mpr ⟨hsegment, hall⟩, hend⟩
    | some d =>
      have hrest : s'.rest = [] := by
        by_contra hne
        rw [(hpasses.stands.closed_of_ne_nil hne).1] at hsegment
        cases hsegment
      obtain ⟨rfl, rfl⟩ := hrun.eq_nil hrest
      cases segment with
      | openComment text d' =>
        obtain rfl := Option.some.inj hsegment
        exact .inr ⟨[], text, d', rfl, by simp, by rw [hpasses.fatal, hsegment, Option.some_or]⟩
      | _ => cases hsegment

theorem nesting (h : s.Runs segments s') : s'.nesting =
    segments.getLast?.elim s.nesting fun segment => .ofDepth segment.depth := by
  induction h with
  | done => rfl
  | @turn _ _ _ _ segments _ _ _ hpasses hrun ih =>
    cases segments with
    | nil =>
      cases hrun
      exact hpasses.nesting
    | cons => rw [ih, List.getLast?_cons_cons, List.getLast?_cons]; rfl

/-- Every segment of a run stands in its place. -/
theorem stands (h : s.Runs segments s') {before after : List Segment} {segment : Segment}
    (hsplit : segments = before ++ segment :: after) :
    segment.Stands (s.position.advance (before.flatMap text)) (before.foldl intern s.symbols)
      (after.flatMap text) := by
  induction h generalizing before with
  | done => simp at hsplit
  | turn _ _ _ hpasses hrun ih =>
    cases before with
    | nil =>
      obtain ⟨rfl, rfl⟩ := List.cons.inj hsplit
      rw [hrun.flatMap_text]
      exact hpasses.stands
    | cons segment before =>
      obtain ⟨rfl, htail⟩ := List.cons.inj hsplit
      have := ih htail
      rwa [hpasses.position, hpasses.symbols, ← Position.advance_append] at this

theorem symbols (h : s.Runs segments s') : s'.symbols = segments.foldl intern s.symbols := by
  induction h with
  | done => rfl
  | turn _ _ _ hpasses _ ih => rw [ih, hpasses.symbols, List.foldl_cons]

theorem diagnostics (h : s.Runs segments s') : s'.diagnostics.toList =
    s.diagnostics.toList ++ segments.filterMap diagnostic? := by
  induction h with
  | done => exact (List.append_nil _).symm
  | @turn _ _ _ segment _ _ _ _ hpasses _ ih =>
    rw [ih, hpasses.diagnostics, List.filterMap_cons, List.append_assoc]
    cases segment.diagnostic? <;> rfl

end Runs

/-- The result that a scanner with nothing left gives, once. -/
def last (s : Scanner) : Except Diagnostic Token :=
  match s.fatal with
  | some d => .error d
  | none => .ok s.endOfInput

theorem last_of_fatal {s : Scanner} {d : Diagnostic} (h : s.fatal = some d) :
    s.last = .error d := by rw [last, h]

theorem isLast_last (s : Scanner) : isLast s.last = true := by
  unfold last
  split <;> rfl

theorem nextToken_of_nil {s : Scanner} (hrest : s.rest = []) :
    s.nextToken = (s.last, s) := by
  rw [nextToken, last]
  cases s.fatal with
  | some d => rfl
  | none => exact dif_pos hrest

theorem nextToken_of_turn {s s' : Scanner} {token : Option Token} (hne : s.rest ≠ [])
    (hfatal : s.fatal = none) (hturn : s.turn = (token, s')) :
    s.nextToken = token.elim s'.nextToken fun t => (.ok t, s') := by
  rw [nextToken, hfatal]
  simp only [dif_neg hne]
  split
  next t s'' h =>
    obtain ⟨rfl, rfl⟩ := Prod.mk.inj (hturn.symm.trans h)
    rfl
  next s'' h =>
    obtain ⟨rfl, rfl⟩ := Prod.mk.inj (hturn.symm.trans h)
    rfl

/-- The turns of one call of `nextToken`, for what relates a scanner, the result and the scanner after
the call. -/
theorem Ready.nextToken_induction {motive : Scanner → Except Diagnostic Token → Scanner → Prop}
    (stopped : ∀ {s d}, s.Ready → s.fatal = some d → motive s (.error d) s)
    (done : ∀ {s}, s.Ready → s.rest = [] → motive s (.ok s.endOfInput) s)
    (token : ∀ {s s' t}, s.fatal = none → s.Passes (.token t) s' → motive s (.ok t) s')
    (silent : ∀ {s s' segment result s''}, s.fatal = none → s.Passes segment s' →
      segment.token? = none → motive s' result s'' → motive s result s'')
    {s : Scanner} (h : s.Ready) : motive s s.nextToken.1 s.nextToken.2 := by
  fun_induction nextToken s with
  | case1 s d hfatal => exact stopped h hfatal
  | case2 s hfatal hrest => exact done h hrest
  | case3 s hfatal hrest t s' hturn =>
    obtain ⟨htoken, hpasses⟩ := turn_passes hrest (h hrest).2
    rw [hturn] at htoken hpasses
    rw [eq_token_of_token? htoken.symm] at hpasses
    exact token hfatal hpasses
  | case4 s hfatal hrest s' hturn ih =>
    obtain ⟨htoken, hpasses⟩ := turn_passes hrest (h hrest).2
    rw [hturn] at htoken hpasses
    exact silent hfatal hpasses htoken.symm (ih (hpasses.ready hfatal))

theorem take_of_finished {s : Scanner} (h : s.finished = true) (count : Nat) :
    s.take count = ([], s) := by
  cases count with
  | zero => rfl
  | succ count => rw [take, next, if_pos h]

/-- From `s` the token `t` is reached behind segments that give none, and `s₁` goes on behind it. -/
structure Reaches (s : Scanner) (silent : List Segment) (t : Token) (rest : List Segment)
    (s₁ s' : Scanner) : Prop where
  noToken : ∀ segment ∈ silent, segment.token? = none
  kind : t.kind ≠ .endOfInput
  run : s₁.Runs rest s'
  rest_lt : s₁.rest.length < s.rest.length
  finished : s₁.finished = s.finished
  diagnostics : s₁.diagnostics.toList = s.diagnostics.toList ++ silent.filterMap diagnostic?

private theorem Reaches.cons {s s' s₁ s'' : Scanner} {segment : Segment} {silent rest : List Segment}
    {t : Token} (h : s'.Reaches silent t rest s₁ s'') (hpasses : s.Passes segment s')
    (htoken : segment.token? = none) (hlt : s'.rest.length < s.rest.length) :
    s.Reaches (segment :: silent) t rest s₁ s'' where
  noToken := List.forall_mem_cons.mpr ⟨htoken, h.noToken⟩
  kind := h.kind
  run := h.run
  rest_lt := h.rest_lt.trans hlt
  finished := h.finished.trans hpasses.finished
  diagnostics := by
    rw [h.diagnostics, hpasses.diagnostics, List.append_assoc]
    cases hsegment : segment.diagnostic? <;> simp [hsegment]

/-- A call of `nextToken` takes the segments up to the next token, or else all of them. -/
theorem Runs.nextToken {s s' : Scanner} {segments : List Segment} (h : s.Runs segments s') :
    (∃ silent t rest s₁, segments = silent ++ .token t :: rest ∧ s.nextToken = (.ok t, s₁) ∧
      s.Reaches silent t rest s₁ s') ∨
    (∀ segment ∈ segments, segment.token? = none) ∧ s.nextToken = (s'.last, s') := by
  induction h with
  | done hrest => exact .inr ⟨by simp, nextToken_of_nil hrest⟩
  | @turn s s' s'' segment segments hne hfatal hturn hpasses hrun ih =>
    have hlt : s'.rest.length < s.rest.length := by
      have := rest_turn_lt hne
      rwa [hturn] at this
    have hnext := nextToken_of_turn hne hfatal hturn
    cases htoken : segment.token? with
    | none =>
      rw [htoken] at hnext
      rcases ih with ⟨silent, t, rest, s₁, rfl, hcall, hreaches⟩ | ⟨hsilent, hcall⟩
      · exact .inl ⟨segment :: silent, t, rest, s₁, rfl, hnext.trans hcall,
          hreaches.cons hpasses htoken hlt⟩
      · exact .inr ⟨List.forall_mem_cons.mpr ⟨htoken, hsilent⟩, hnext.trans hcall⟩
    | some t =>
      obtain rfl := eq_token_of_token? htoken
      exact .inl ⟨[], t, segments, s', rfl, hnext, by simp, hpasses.stands.kind_ne rfl, hrun, hlt,
        hpasses.finished, hpasses.diagnostics⟩

/-- The same for a call of `next` that is not after the last. -/
theorem Runs.next {s s' : Scanner} {segments : List Segment} (h : s.Runs segments s')
    (hfinished : s.finished = false) :
    (∃ silent t rest s₁, segments = silent ++ .token t :: rest ∧ s.next = (some (.ok t), s₁) ∧
      s.Reaches silent t rest s₁ s') ∨
    (∀ segment ∈ segments, segment.token? = none) ∧
      s.next = (some s'.last, { s' with finished := true }) := by
  rcases h.nextToken with ⟨silent, t, rest, s₁, rfl, hcall, hreaches⟩ | ⟨hsilent, hcall⟩
  · refine .inl ⟨silent, t, rest, s₁, rfl, ?_, hreaches⟩
    have hlast : isLast (.ok t) = false := beq_eq_false_iff_ne.mpr hreaches.kind
    rw [Scanner.next, if_neg (by simp [hfinished]), hcall]
    simp only [hlast, ← hfinished, ← hreaches.finished]
  · refine .inr ⟨hsilent, ?_⟩
    rw [Scanner.next, if_neg (by simp [hfinished]), hcall]
    simp only [isLast_last]

/-- A run gives its tokens and then the last result. -/
theorem Runs.take {s s' : Scanner} {segments : List Segment} (h : s.Runs segments s')
    (hfinished : s.finished = false) {count : Nat} (hcount : s.rest.length < count) :
    s.take count =
      ((segments.filterMap token?).map .ok ++ [s'.last], { s' with finished := true }) := by
  induction count generalizing s segments with
  | zero => omega
  | succ count ih =>
    rcases h.next hfinished with ⟨silent, t, rest, s₁, rfl, hnext, hreaches⟩ | ⟨hsilent, hnext⟩
    · have hlt := hreaches.rest_lt
      have htokens : (silent ++ .token t :: rest).filterMap token? = t :: rest.filterMap token? := by
        rw [List.filterMap_append, List.filterMap_eq_nil_iff.mpr hreaches.noToken]
        rfl
      rw [Scanner.take, hnext]
      simp only [ih hreaches.run (hreaches.finished.trans hfinished) (by omega), htokens]
      rfl
    · rw [Scanner.take, hnext]
      simp only [take_of_finished, List.filterMap_eq_nil_iff.mpr hsilent]
      rfl

private theorem mapM_append_last {α ε : Type} (values : List α) (result : Except ε α) :
    (values.map Except.ok ++ [result]).mapM id = result.map (values ++ [·]) := by
  induction values with
  | nil => cases result <;> rfl
  | cons v values ih =>
    rw [List.map_cons, List.cons_append, List.mapM_cons, ih]
    cases result <;> rfl

/-- A run from the start of a source is a whole scan of it. -/
theorem Runs.whole {config : Config} {source : String} {segments : List Segment} {s' : Scanner}
    (h : (ofSource config source).Runs segments s') :
    (ofSource config source).drain =
      ((segments.filterMap token?).map .ok ++ [s'.last], { s' with finished := true }) ∧
    tokenize config source = s'.last.map fun t =>
      ⟨segments.filterMap token? ++ [t], s'.symbols, s'.diagnostics.toList⟩ := by
  have hdrain := h.take rfl (Nat.lt_succ_self _)
  refine ⟨hdrain, ?_⟩
  unfold tokenize drain
  rw [hdrain]
  simp only [mapM_append_last]
  cases s'.last <;> rfl

theorem exists_runs_ofSource (config : Config) (source : String) : ∃ segments s',
    (ofSource config source).Runs segments s' ∧
    (ofSource config source).drain =
      ((segments.filterMap token?).map .ok ++ [s'.last], { s' with finished := true }) ∧
    tokenize config source = s'.last.map fun t =>
      ⟨segments.filterMap token? ++ [t], s'.symbols, s'.diagnostics.toList⟩ := by
  obtain ⟨segments, s', hrun⟩ := exists_runs (ready_ofSource config source)
  exact ⟨segments, s', hrun, hrun.whole⟩

end DecafLex.Scanner
