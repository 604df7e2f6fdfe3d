import DecafLex.Numeral
import DecafLex.Runtime

/-! Arguments of the program. -/
namespace DecafLex.CommandLine

/-- The arguments read so far. -/
structure Options where
  file : Option String := none
  buckets : Option String := none
  symbols : Bool := false

inductive UsageError where
  | missingFile
  | missingCount
  | notACount (text : String)
  | unexpected (argument : String)
deriving DecidableEq, Repr

def UsageError.message : UsageError → String
  | missingFile => "a source file is required"
  | missingCount => "a number of buckets is required"
  | notACount text => s!"not a number of buckets: {text}"
  | unexpected argument => s!"unexpected argument: {argument}"

def usage : String := "Usage: decaf-lex [--symbols] [--buckets N] [--verbose] [--no-color] FILE"

/-- The number that a text of decimal digits denotes, if it fits 64 bits. -/
def count? (text : String) : Option Nat :=
  let digits := text.toList
  let n := Numeral.value 10 digits
  if digits ≠ [] ∧ digits.all Char.isDigit ∧ n < UInt64.size then some n else none

def Options.withFile (o : Options) (file : String) : Except UsageError Options :=
  if o.file.isSome then .error (.unexpected file) else .ok { o with file := some file }

/-- After `--` every argument is a file. -/
def readFiles (o : Options) : List String → Except UsageError Options
  | [] => .ok o
  | file :: arguments => do readFiles (← o.withFile file) arguments

/-- The number of buckets in an argument that holds both the option and its value. -/
def attachedCount? (argument : String) : Option String :=
  ["--buckets=", "-b=", "-b"].findSome? fun option =>
    if option.toList.isPrefixOf argument.toList then
      some (String.ofList (argument.toList.drop option.length))
    else none

/-- Verbosity and color are accepted; a dump has neither. -/
def readOptions (o : Options) : List String → Except UsageError Options
  | [] => .ok o
  | "--" :: arguments => readFiles o arguments
  | "--symbols" :: arguments => readOptions { o with symbols := true } arguments
  | "--verbose" :: arguments | "--no-color" :: arguments => readOptions o arguments
  | "--buckets" :: arguments | "-b" :: arguments =>
    match arguments with
    | [] => .error .missingCount
    | count :: arguments => readOptions { o with buckets := some count } arguments
  | argument :: arguments =>
    match attachedCount? argument, argument.toList with
    | some count, _ => readOptions { o with buckets := some count } arguments
    | none, '-' :: flag :: flags =>
      if (flag :: flags).all fun c => c = 's' ∨ c = 'v' then
        readOptions { o with symbols := o.symbols || (flag :: flags).contains 's' } arguments
      else .error (.unexpected argument)
    | none, _ => do readOptions (← o.withFile argument) arguments

/-- The dump that the arguments ask for. A number of buckets among them wins over the one of the
environment. -/
def parse (arguments : List String) (environmentBuckets : Option String) :
    Except UsageError Dump := do
  let options ← readOptions {} arguments
  let some path := options.file | throw .missingFile
  match options.buckets.or environmentBuckets with
  | none => return ⟨path, options.symbols, Config.standard.bucketCount⟩
  | some text =>
    let some count := count? text | throw (.notACount text)
    return ⟨path, options.symbols, count⟩

end DecafLex.CommandLine
