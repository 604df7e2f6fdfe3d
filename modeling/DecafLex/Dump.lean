import DecafLex.Diagnostic.Snippet
import DecafLex.Scanner.Basic

/-! The program on one source file. It prints a line for every token, the symbol table if it is asked
for, and the diagnostics. -/
namespace DecafLex

/-- Why a file could not be read. -/
inductive ReadFailure where
  | system (reason : String) (code : Nat)
  | notUtf8
deriving DecidableEq, Repr

def ReadFailure.message : ReadFailure → String
  | system reason code => s!"{reason} (os error {code})"
  | notUtf8 => "stream did not contain valid UTF-8"

/-- What is dumped and how. -/
structure Dump where
  path : String
  showSymbols : Bool
  bucketCount : Nat
deriving DecidableEq, Repr

namespace Dump

/-- What the program is built on: a hash function for names, and a log, which has written `log` to the
error stream by the time a source is scanned. -/
structure Host where
  hash : String → UInt64
  log : String

/-- What a run of the program leaves behind. -/
structure Outcome where
  exitCode : UInt32
  stdout : String
  stderr : String
deriving DecidableEq, Repr

/-- What has been written so far. -/
structure Streams where
  stdout : String := ""
  stderr : String := ""
deriving DecidableEq, Repr

def Streams.out (streams : Streams) (text : String) : Streams :=
  { streams with stdout := streams.stdout ++ text }

def Streams.err (streams : Streams) (text : String) : Streams :=
  { streams with stderr := streams.stderr ++ text }

/-- Why a run ends early. -/
inductive Failure where
  | unreadable (path : String) (cause : ReadFailure)
  | stoppedEarly (file : String)
deriving DecidableEq, Repr

def Failure.report : Failure → String
  | unreadable path cause =>
    Text.unlines [s!"Error: Failed to read {path}", "", "Caused by:", s!"    {cause.message}"]
  | stoppedEarly file => s!"Error: scan of {file} stopped early\n"

/-- A part of the program. It writes to the streams, and it may end the run. -/
abbrev Program := ExceptT Failure (StateM Streams)

def Program.exec {α : Type} (program : Program α) (streams : Streams) :
    Except Failure α × Streams :=
  program.run.run streams

def printLine (line : String) : Program Unit := modify (·.out (line ++ "\n"))

def printError (text : String) : Program Unit := modify (·.err text)

/-- The last component of a path, or the whole path where that is no name. -/
def fileName (path : String) : String :=
  let components := path.toList.splitOn '/'
  match (components.filter fun c => c ≠ [] ∧ c ≠ ['.']).getLast? with
  | none | some ['.', '.'] => path
  | some name => String.ofList name

def decode (bytes : ByteArray) : Except ReadFailure String :=
  match String.fromUTF8? bytes with
  | some text => .ok text
  | none => .error .notUtf8

def readSource (path : String) (contents : Except ReadFailure ByteArray) : Program String :=
  match contents.bind decode with
  | .ok source => return source
  | .error cause => throw (.unreadable path cause)

/-- The end of input has no line. -/
def printToken (token : Token) : Program Unit :=
  unless token.kind = .endOfInput do printLine token.describe

/-- Prints the tokens that a scanner still gives. The flag becomes true with a fatal problem. -/
def printTokens (s : Scanner) (halted : Bool) : Program (Bool × Scanner) :=
  match _ : s.next with
  | (none, s') => return (halted, s')
  | (some (.ok token), s') => do
    printToken token
    printTokens s' halted
  | (some (.error _), s') => printTokens s' true
termination_by s.remaining
decreasing_by all_goals exact Scanner.remaining_next_lt ‹_›

def declarationLine (d : Declaration) : String :=
  String.ofList (d.name.toList.rightpad 12 ' ') ++
    s!" first seen on line {d.firstLine}, {d.occurrences} occurrence(s)"

def printSymbols (t : SymbolTable) : Program Unit := do
  printLine ""
  printLine
    s!"{t.size} identifiers in {t.bucketCount} buckets (longest chain {t.longestChain})"
  t.toList.forM fun (_, d) => printLine (declarationLine d)

/-- The program from the contents of the file on. Reports name the file without its directory. A scan
that a fatal problem ends is still shown before the run fails. -/
def main (host : Host) (dump : Dump) (contents : Except ReadFailure ByteArray) : Program UInt32 := do
  let source ← readSource dump.path contents
  let file := fileName dump.path
  let config := (Config.named host.hash (some file)).withBucketCount dump.bucketCount
  let (halted, s) ← printTokens (.ofSource config source) false
  printError host.log
  s.diagnostics.toList.forM fun d => printError (d.render source file)
  if dump.showSymbols then printSymbols s.symbols
  if halted then throw (.stoppedEarly file)
  return if s.diagnostics.isEmpty then 0 else 1

/-- A failure is reported last, and its exit code is 1. -/
def runOn (host : Host) (dump : Dump) (contents : Except ReadFailure ByteArray) : Outcome :=
  match (dump.main host contents).exec {} with
  | (.ok exitCode, streams) => ⟨exitCode, streams.stdout, streams.stderr⟩
  | (.error failure, streams) => ⟨1, streams.stdout, (streams.err failure.report).stderr⟩

end Dump
end DecafLex
