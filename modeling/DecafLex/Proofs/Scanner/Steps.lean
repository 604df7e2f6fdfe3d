import DecafLex.Proofs.Scanner.Consistency

/-! A scan in steps so small that each moves a counter once: a piece is consumed and then acted on, and
a comment is passed delimiter by delimiter. No counter ever runs ahead of the characters read. -/
namespace DecafLex.Scanner

/-- Where a scan stands between two steps. -/
inductive Point where
  | between
  | consumed (meaning : Meaning) (lexeme : String) (span : Span)
  | inComment (opener : Span)
  | delimiter (opener : Span) (delimiter : Comment.Delimiter)

/-- Comments that the next step opens. -/
def Point.opening : Point → Nat
  | consumed .commentOpener _ _ | delimiter _ .opening => 1
  | _ => 0

/-- Identifiers that the next step counts. -/
def Point.naming : Point → Nat
  | consumed .name _ _ => 1
  | _ => 0

/-- The states of a scan. A scan that has stopped or come to the end can be marked as finished. -/
inductive Reached (config : Config) (source : String) : Point → Scanner → Prop where
  | start : Reached config source .between (ofSource config source)
  | consume {s : Scanner} (h : Reached config source .between s) (hfatal : s.fatal = none)
      (hne : s.rest ≠ []) :
      Reached config source
        (.consumed (Piece.first s.rest).meaning
          (String.ofList (s.rest.take (Piece.first s.rest).length))
          (s.position.cover (s.rest.take (Piece.first s.rest).length)))
        (s.consume (Piece.first s.rest).length)
  | act {s : Scanner} {meaning : Meaning} {lexeme : String} {span : Span}
      (h : Reached config source (.consumed meaning lexeme span) s)
      (hmeaning : meaning ≠ .commentOpener) :
      Reached config source .between (s.act meaning lexeme span).2
  | enter {s : Scanner} {lexeme : String} {span : Span}
      (h : Reached config source (.consumed .commentOpener lexeme span) s) :
      Reached config source (.inComment span) { s with nesting := s.nesting.enter }
  | advance {s : Scanner} {span : Span} {delimiter : Comment.Delimiter} {length : Nat}
      (h : Reached config source (.inComment span) s) (hinside : s.nesting ≠ .outside)
      (hfirst : Comment.firstDelimiter? s.rest = some (delimiter, length)) :
      Reached config source (.delimiter span delimiter) (s.consume length)
  | pass {s : Scanner} {span : Span} {delimiter : Comment.Delimiter}
      (h : Reached config source (.delimiter span delimiter) s) :
      Reached config source (.inComment span) { s with nesting := s.nesting.pass delimiter }
  | leave {s : Scanner} {span : Span} (h : Reached config source (.inComment span) s)
      (houtside : s.nesting = .outside) : Reached config source .between s
  | runOut {s : Scanner} {span : Span} (h : Reached config source (.inComment span) s)
      (hinside : s.nesting ≠ .outside) (hnone : Comment.firstDelimiter? s.rest = none) :
      Reached config source .between
        ((s.consume s.rest.length).report .unterminatedComment span)
  | mark {s : Scanner} (h : Reached config source .between s) (finished : Bool) :
      Reached config source .between (s.marked finished)

/-- No counter is ahead of the characters read, with room for what the next step counts. -/
structure Within (source : String) (point : Point) (s : Scanner) : Prop where
  isSuffix : s.rest <:+ source.toList
  line_pos : 1 ≤ s.position.line
  position : s.position.line + s.position.column + s.rest.length ≤ source.length + 1
  depth : 2 * (s.nesting.depth + point.opening) + s.rest.length ≤ source.length
  wellFormed : s.symbols.WellFormed
  size : s.symbols.size + point.naming + s.rest.length ≤ source.length
  total : s.symbols.total + point.naming + s.rest.length ≤ source.length

variable {config : Config} {source : String} {s s' : Scanner} {point point' : Point}
  {meaning : Meaning} {lexeme : String} {span : Span}

theorem within_ofSource (config : Config) (source : String) :
    Within source .between (ofSource config source) := by
  have hlength : source.toList.length = source.length := String.length_toList
  refine ⟨List.suffix_rfl, le_rfl, ?_, ?_, SymbolTable.wellFormed_empty _ _, ?_, ?_⟩
  · change 1 + 0 + source.toList.length ≤ _
    omega
  · change 2 * (0 + 0) + source.toList.length ≤ _
    omega
  · change 0 + 0 + source.toList.length ≤ _
    omega
  · change 0 + 0 + source.toList.length ≤ _
    omega

/-- Characters read make room for what they ask to be counted. -/
theorem Within.consume (h : Within source point s) {count : Nat} (hcount : count ≤ s.rest.length)
    (hopening : 2 * point'.opening ≤ count) (hnaming : point'.naming ≤ count) :
    Within source point' (s.consume count) := by
  obtain ⟨hline, hsum⟩ := s.position.advance_le (s.rest.take count)
  rw [List.length_take_of_le hcount] at hsum
  have hdrop : (s.rest.drop count).length = s.rest.length - count := List.length_drop
  obtain ⟨hsuffix, hpos, hposition, hdepth, hwell, hsize, htotal⟩ := h
  constructor
  · exact (List.drop_suffix count s.rest).trans hsuffix
  · exact hpos.trans hline
  · change (s.position.advance _).line + (s.position.advance _).column + (s.rest.drop count).length ≤ _
    omega
  · change 2 * (s.nesting.depth + _) + (s.rest.drop count).length ≤ _
    omega
  · exact hwell
  · change s.symbols.size + _ + (s.rest.drop count).length ≤ _
    omega
  · change s.symbols.total + _ + (s.rest.drop count).length ≤ _
    omega

/-- What the next step counts fits in. -/
theorem Within.settle (h : Within source point s) (hrest : s'.rest = s.rest)
    (hposition : s'.position = s.position)
    (hnesting : s'.nesting.depth ≤ s.nesting.depth + point.opening) (hwell : s'.symbols.WellFormed)
    (hsize : s'.symbols.size ≤ s.symbols.size + point.naming)
    (htotal : s'.symbols.total ≤ s.symbols.total + point.naming)
    (hpoint : point'.opening = 0 ∧ point'.naming = 0) : Within source point' s' := by
  obtain ⟨hopening, hnaming⟩ := hpoint
  have := h.depth
  have := h.size
  have := h.total
  constructor
  · exact hrest ▸ h.isSuffix
  · exact hposition ▸ h.line_pos
  · exact hposition ▸ hrest ▸ h.position
  · rw [hrest]
    omega
  · exact hwell
  · rw [hrest]
    omega
  · rw [hrest]
    omega

/-- A step that counts nothing. -/
theorem Within.rest (h : Within source point s) (hrest : s'.rest = s.rest)
    (hposition : s'.position = s.position)
    (hnesting : s'.nesting.depth ≤ s.nesting.depth + point.opening)
    (hsymbols : s'.symbols = s.symbols) (hpoint : point'.opening = 0 ∧ point'.naming = 0) :
    Within source point' s' := by
  apply h.settle hrest hposition hnesting (hsymbols ▸ h.wellFormed) _ _ hpoint
  · rw [hsymbols]
    exact Nat.le_add_right ..
  · rw [hsymbols]
    exact Nat.le_add_right ..

theorem Within.act (h : Within source (.consumed meaning lexeme span) s)
    (hmeaning : meaning ≠ .commentOpener) : Within source .between (s.act meaning lexeme span).2 := by
  cases meaning with
  | commentOpener => exact absurd rfl hmeaning
  | nothing | token | rejected => exact h.rest rfl rfl le_rfl rfl ⟨rfl, rfl⟩
  | name =>
    exact h.settle rfl rfl le_rfl (SymbolTable.wellFormed_intern h.wellFormed _ _)
      (SymbolTable.size_intern_le ..) (SymbolTable.total_intern h.wellFormed _ _).le ⟨rfl, rfl⟩

theorem Reached.within (h : Reached config source point s) : Within source point s := by
  induction h with
  | start => exact within_ofSource config source
  | @consume s _ _ hne ih =>
    -- An opener is two characters and a name at least one, which is what they ask to be counted.
    refine ih.consume (Piece.first_length_le hne) ?_ ?_
    · cases hmeaning : (Piece.first s.rest).meaning with
      | commentOpener => exact (Fragment.length_of_commentOpener hmeaning).ge
      | _ => exact Nat.zero_le _
    · cases (Piece.first s.rest).meaning with
      | name => exact Piece.first_length_pos s.rest
      | _ => exact Nat.zero_le _
  | act _ hmeaning ih => exact ih.act hmeaning
  | enter _ ih => exact ih.rest rfl rfl le_rfl rfl ⟨rfl, rfl⟩
  | @advance _ _ delimiter _ _ _ hfirst ih =>
    refine ih.consume (Comment.firstDelimiter?_length hfirst).2 ?_ (Nat.zero_le _)
    refine le_trans ?_ (Comment.two_le_firstDelimiter? hfirst)
    cases delimiter with
    | opening => exact le_rfl
    | closing => exact Nat.zero_le _
  | @pass s span delimiter _ ih =>
    refine ih.rest rfl rfl ?_ rfl ⟨rfl, rfl⟩
    cases delimiter with
    | opening => exact le_rfl
    | closing => exact s.nesting.depth_leave_le
  | leave _ _ ih => exact ih.rest rfl rfl le_rfl rfl ⟨rfl, rfl⟩
  | runOut _ _ _ ih =>
    have hread : Within source .between _ := ih.consume le_rfl (Nat.zero_le _) (Nat.zero_le _)
    exact hread.rest rfl rfl le_rfl rfl ⟨rfl, rfl⟩
  | mark _ _ ih => exact ih.rest rfl rfl le_rfl rfl ⟨rfl, rfl⟩

/-- Goes on where skipping a comment, with its opener at `span`, has ended. -/
def resume (s : Scanner) (span : Span) (skip : Comment.Skip) : Scanner :=
  let s := { s with nesting := skip.nesting, position := skip.position }
  match skip.passed with
  | some count => { s with rest := s.rest.drop count }
  | none => { s with rest := [] }.report .unterminatedComment span

theorem resume_consume (s : Scanner) (count : Nat) (nesting : Comment.Nesting) (span : Span)
    (skip : Comment.Skip) : { s.consume count with nesting }.resume span skip =
      s.resume span { skip with passed := skip.passed.map (count + ·) } := by
  unfold resume
  cases skip.passed with
  | none => rfl
  | some n => simp only [consume, List.drop_drop, Option.map_some]

/-- The loop over the delimiters of a comment goes from state to state. -/
theorem reached_resume (h : Reached config source (.inComment span) s) : Reached config source
    .between (s.resume span (Comment.skip s.nesting s.position s.rest)) := by
  induction hn : s.rest.length using Nat.strong_induction_on generalizing s with
  | _ n ih =>
    subst hn
    cases hnesting : s.nesting with
    | outside =>
      rw [Comment.skip, ← hnesting]
      exact h.leave hnesting
    | inside depth =>
      have hinside : s.nesting ≠ .outside := by simp [hnesting]
      rw [Comment.skip, ← hnesting]
      split
      next hnone =>
        have hend := h.runOut hinside hnone
        rw [consume, List.drop_length, List.take_length] at hend
        exact hend
      next delimiter length hfirst =>
        obtain ⟨hpos, hle⟩ := Comment.firstDelimiter?_length hfirst
        have hshorter : (s.rest.drop length).length < s.rest.length := by
          rw [List.length_drop]
          omega
        have hend := ih _ hshorter (h.advance hinside hfirst).pass rfl
        rw [resume_consume] at hend
        exact hend

theorem Reached.turn (h : Reached config source .between s) (hfatal : s.fatal = none)
    (hne : s.rest ≠ []) : Reached config source .between s.turn.2 := by
  have hconsumed := h.consume hfatal hne
  rw [Scanner.turn]
  cases hmeaning : (Piece.first s.rest).meaning with
  | commentOpener =>
    rw [hmeaning] at hconsumed
    exact reached_resume hconsumed.enter
  | _ =>
    rw [hmeaning] at hconsumed
    exact hconsumed.act (by simp)

/-- A call leaves the scanner between two turns. -/
theorem reached_nextToken (h : Reached config source .between s) :
    Reached config source .between s.nextToken.2 := by
  fun_induction nextToken s with
  | case1 | case2 => exact h
  | case3 s hfatal hrest t s' hturn =>
    have hnext := h.turn hfatal hrest
    rwa [hturn] at hnext
  | case4 s hfatal hrest s' hturn ih =>
    have hnext := h.turn hfatal hrest
    rw [hturn] at hnext
    exact ih hnext

theorem reached_answer (h : Reached config source .between s) (call : Call) :
    Reached config source .between (s.answer call).2 := by
  cases call with
  | nextToken => exact reached_nextToken h
  | next =>
    rw [answer, next_eq]
    split
    · exact h
    · exact (reached_nextToken h).mark _

theorem reached_answers (h : Reached config source .between s) (calls : List Call) :
    Reached config source .between (s.answers calls).2 := by
  induction calls generalizing s with
  | nil => exact h
  | cons call calls ih => exact ih (reached_answer h call)

end DecafLex.Scanner
