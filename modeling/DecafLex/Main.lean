import DecafLex.CommandLine

/-! The command-line program. -/
open DecafLex

/-- The reason that the system gave for refusing a file. -/
def readFailure : IO.Error → ReadFailure
  | .noFileOrDirectory _ code reason | .permissionDenied _ code reason
  | .inappropriateType _ code reason | .resourceExhausted _ code reason
  | .invalidArgument _ code reason | .noSuchThing _ code reason => .system reason code.toNat
  | .otherError code reason | .hardwareFault code reason => .system reason code.toNat
  | other => .system (toString other) 0

def readContents (path : String) : IO ByteArray := do
  (← IO.FS.Handle.mk path .read).readBinToEnd

def main (arguments : List String) : IO UInt32 := do
  match CommandLine.parse arguments (← IO.getEnv "DECAF_BUCKETS") with
  | .error failure =>
    IO.eprintln s!"error: {failure.message}\n\n{CommandLine.usage}"
    return 2
  | .ok dump =>
    let contents ← (readContents dump.path).toBaseIO
    let outcome := dump.run (contents.mapError readFailure)
    IO.print outcome.stdout
    IO.eprint outcome.stderr
    return outcome.exitCode
