import DecafLex.Proofs.Checked.Comment
import DecafLex.Proofs.Checked.SymbolTable
import DecafLex.Proofs.Scanner.Interning

/-! Scanning with a byte offset into the source, checked slices and indices, and bounded counters. -/
namespace DecafLex
open Text

/-- A scan of a source that is kept apart from it. So many bytes of the source are consumed. -/
structure Machine where
  pos : Nat
  position : Position
  nesting : Comment.Nesting
  symbols : SymbolTable
  diagnostics : Array Diagnostic
  fatal : Option Diagnostic
  finished : Bool

namespace Checked

/-- The meaning of a text that the rule takes as a whole, with its digits or its contents cut out. -/
def meaning (rule : Rule) (lexeme : String) : Checked Meaning :=
  match rule with
  | .hexadecimal => do
    let digits ← slice lexeme 2 lexeme.utf8ByteSize
    return .ofInteger lexeme.toList (Numeral.value 16 digits.toList)
  | .string => do
    let contents ← slice lexeme 1 (lexeme.utf8ByteSize - 1)
    return .token .stringConstant (some (.str contents))
  | rule => .ok (rule.meaning lexeme.toList)

end Checked

namespace Machine
open Checked

def start (config : Config) : Machine where
  pos := 0
  position := .start
  nesting := .outside
  symbols := .empty config.hash config.bucketCount
  diagnostics := #[]
  fatal := none
  finished := false

def report (m : Machine) (problem : Problem) (span : Span) : Machine :=
  let diagnostic : Diagnostic := ⟨problem, span⟩
  { m with
    diagnostics := m.diagnostics.push diagnostic
    fatal := if diagnostic.isFatal then some diagnostic else m.fatal }

/-- What is left of the source. -/
def remainder (source : String) (m : Machine) : Checked String :=
  slice source m.pos source.utf8ByteSize

def skipComment (limit : Nat) (source : String) (m : Machine) (span : Span) : Checked Machine := do
  let nesting ← pass limit m.nesting .opening
  let rest ← m.remainder source
  let skip ← skip limit nesting m.position rest 0
  let m := { m with nesting := skip.nesting, position := skip.position }
  match skip.passed with
  | some bytes => return { m with pos := m.pos + bytes }
  | none => return { m with pos := source.utf8ByteSize }.report .unterminatedComment span

def act (limit : Nat) (source : String) (m : Machine) (meaning : Meaning) (lexeme : String)
    (span : Span) : Checked (Option Token × Machine) :=
  match meaning with
  | .nothing => .ok (none, m)
  | .commentOpener => do return (none, ← m.skipComment limit source span)
  | .token kind value => .ok (some ⟨kind, lexeme, value, span⟩, m)
  | .name => do
    let (id, symbols) ← intern limit m.symbols lexeme span.line
    return (some ⟨.identifier, lexeme, some (.identifier id), span⟩, { m with symbols })
  | .rejected problem => .ok (none, m.report problem span)

/-- One turn of the loop in `nextToken`. -/
def turn (limit : Nat) (source : String) (m : Machine) : Checked (Option Token × Machine) := do
  let rest ← m.remainder source
  match Rule.search Rule.all rest.toList with
  | none =>
    let lexeme := String.ofList (rest.toList.take 1)
    let (position, span) ← advance limit m.position lexeme.toList
    let m := { m with pos := m.pos + lexeme.utf8ByteSize, position }
    return (none, m.report (.unknownCharacter lexeme) span)
  | some (rule, bytes) =>
    let lexeme ← slice source m.pos (m.pos + bytes)
    let (position, span) ← advance limit m.position lexeme.toList
    let m := { m with pos := m.pos + bytes, position }
    m.act limit source (← meaning rule lexeme) lexeme span

def nextToken (limit : Nat) (source : String) (m : Machine) :
    Checked (Except Diagnostic Token × Machine) :=
  match m.fatal with
  | some diagnostic => .ok (.error diagnostic, m)
  | none => do
    let rest ← m.remainder source
    if rest = "" then
      let span ← here limit m.position
      return (.ok ⟨.endOfInput, "", none, span⟩, m)
    else
      match ← m.turn limit source with
      | (some token, m') => return (.ok token, m')
      | (none, m') =>
        if m.pos < m'.pos ∧ m'.pos ≤ source.utf8ByteSize then m'.nextToken limit source
        else .error .idle
termination_by source.utf8ByteSize - m.pos

def next (limit : Nat) (source : String) (m : Machine) :
    Checked (Option (Except Diagnostic Token) × Machine) :=
  if m.finished then .ok (none, m)
  else do
    let (result, m) ← m.nextToken limit source
    return (some result, { m with finished := Scanner.isLast result })

def answer (limit : Nat) (source : String) (m : Machine) :
    Scanner.Call → Checked (Option (Except Diagnostic Token) × Machine)
  | .nextToken => do
    let (result, m) ← m.nextToken limit source
    return (some result, m)
  | .next => m.next limit source

/-- The answers to some calls, and the machine that they leave. -/
def replies (limit : Nat) (source : String) (m : Machine) :
    List Scanner.Call → Checked (List (Option (Except Diagnostic Token)) × Machine)
  | [] => .ok ([], m)
  | call :: calls => do
    let (reply, m) ← m.answer limit source call
    let (replies, m) ← m.replies limit source calls
    return (reply :: replies, m)

end Machine
end DecafLex
