import DecafLex.Comment
import DecafLex.Config
import DecafLex.Piece

/-! Scanning a source text token by token. -/
namespace DecafLex

/-- A scan in progress. Reported diagnostics are kept in order; `fatal` is the one that ended the
scan, and `finished` says that `next` has given its last result. -/
structure Scanner where
  config : Config
  rest : List Char
  position : Position
  nesting : Comment.Nesting
  symbols : SymbolTable
  diagnostics : Array Diagnostic
  fatal : Option Diagnostic
  finished : Bool

namespace Scanner

def ofSource (config : Config) (source : String) : Scanner where
  config
  rest := source.toList
  position := .start
  nesting := .outside
  symbols := .empty config.hash config.bucketCount
  diagnostics := #[]
  fatal := none
  finished := false

def isHalted (s : Scanner) : Bool := s.fatal.isSome

def report (s : Scanner) (problem : Problem) (span : Span) : Scanner :=
  let diagnostic : Diagnostic := ⟨problem, span⟩
  { s with
    diagnostics := s.diagnostics.push diagnostic
    fatal := if diagnostic.isFatal then some diagnostic else s.fatal }

/-- Passes over characters of the source. -/
def consume (s : Scanner) (count : Nat) : Scanner :=
  { s with rest := s.rest.drop count, position := s.position.advance (s.rest.take count) }

/-- Passes over the comment whose opener, at `span`, has been consumed. A comment that is not
closed takes the rest of the source. -/
def skipComment (s : Scanner) (span : Span) : Scanner :=
  let skip := Comment.skip s.nesting.enter s.position s.rest
  let s := { s with nesting := skip.nesting, position := skip.position }
  match skip.passed with
  | some count => { s with rest := s.rest.drop count }
  | none => { s with rest := [] }.report .unterminatedComment span

/-- Does what a consumed piece of the source asks for. -/
def act (s : Scanner) (meaning : Meaning) (lexeme : String) (span : Span) :
    Option Token × Scanner :=
  match meaning with
  | .nothing => (none, s)
  | .commentOpener => (none, s.skipComment span)
  | .token kind value => (some ⟨kind, lexeme, value, span⟩, s)
  | .name =>
    let (id, symbols) := s.symbols.intern lexeme span.line
    (some ⟨.identifier, lexeme, some (.identifier id), span⟩, { s with symbols })
  | .rejected problem => (none, s.report problem span)

/-- Takes the first piece off the source, with the token it makes, if any. -/
def turn (s : Scanner) : Option Token × Scanner :=
  let piece := Piece.first s.rest
  let lexeme := s.rest.take piece.length
  (s.consume piece.length).act piece.meaning (String.ofList lexeme) (s.position.cover lexeme)

theorem rest_skipComment_le (s : Scanner) (span : Span) :
    (s.skipComment span).rest.length ≤ s.rest.length := by
  unfold skipComment
  dsimp only
  split <;> simp [report]

theorem rest_act_le (s : Scanner) (meaning : Meaning) (lexeme : String) (span : Span) :
    (s.act meaning lexeme span).2.rest.length ≤ s.rest.length := by
  cases meaning <;> simp [act, report, rest_skipComment_le]

theorem rest_turn_lt {s : Scanner} (h : s.rest ≠ []) : s.turn.2.rest.length < s.rest.length := by
  refine Nat.lt_of_le_of_lt (rest_act_le ..) ?_
  have := Piece.first_length_pos s.rest
  have := List.length_pos_iff.2 h
  simp only [consume, List.length_drop]
  omega

def endOfInput (s : Scanner) : Token := ⟨.endOfInput, "", none, s.position.here⟩

/-- The next token. At the end of the source this is the end of input, however often it is asked
for; after a fatal problem it is that problem. -/
def nextToken (s : Scanner) : Except Diagnostic Token × Scanner :=
  match s.fatal with
  | some diagnostic => (.error diagnostic, s)
  | none =>
    if _ : s.rest = [] then (.ok s.endOfInput, s)
    else
      match _ : s.turn with
      | (some token, s') => (.ok token, s')
      | (none, s') => s'.nextToken
termination_by s.rest.length
decreasing_by
  have := rest_turn_lt (s := s) ‹_›
  simp_all

/-- Whether a result is the last one of a scan. -/
def isLast : Except Diagnostic Token → Bool
  | .ok token => token.kind == .endOfInput
  | .error _ => true

/-- The next token up to and including the last result, and nothing after that. -/
def next (s : Scanner) : Option (Except Diagnostic Token) × Scanner :=
  if s.finished then (none, s)
  else
    let (result, s) := s.nextToken
    (some result, { s with finished := isLast result })

/-- The most results that `next` can still give. -/
def remaining (s : Scanner) : Nat := if s.finished then 0 else s.rest.length + 1

/-- A result that is not the last takes something off the source. -/
theorem rest_nextToken_lt {s : Scanner} (h : isLast s.nextToken.1 = false) :
    s.nextToken.2.rest.length < s.rest.length := by
  fun_induction nextToken s with
  | case1 => cases h
  | case2 => cases h
  | case3 s _ hne token s' hturn =>
    have := rest_turn_lt hne
    rwa [hturn] at this
  | case4 s _ hne s' hturn ih =>
    have := rest_turn_lt hne
    rw [hturn] at this
    exact Nat.lt_trans (ih h) this

theorem remaining_next_lt {s s' : Scanner} {result : Except Diagnostic Token}
    (h : s.next = (some result, s')) : s'.remaining < s.remaining := by
  unfold next at h
  split at h
  next => cases h
  next hfinished =>
    cases h
    rw [remaining, remaining, if_neg hfinished]
    split
    next => exact Nat.succ_pos _
    next hlast => exact Nat.succ_lt_succ (rest_nextToken_lt (Bool.eq_false_iff.mpr hlast))

/-- At most `count` results of `next`. -/
def take (s : Scanner) : Nat → List (Except Diagnostic Token) × Scanner
  | 0 => ([], s)
  | count + 1 =>
    match s.next with
    | (none, s) => ([], s)
    | (some result, s) =>
      let (results, s) := s.take count
      (result :: results, s)

/-- All results of `next`: each but the last takes a character off the source. -/
def drain (s : Scanner) : List (Except Diagnostic Token) × Scanner := s.take (s.rest.length + 1)

end Scanner
end DecafLex
