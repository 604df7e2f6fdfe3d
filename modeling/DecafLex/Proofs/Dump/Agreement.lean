import DecafLex.Proofs.Dump.Program
import DecafLex.Proofs.Scanner.Soundness
import DecafLex.Proofs.Scanner.Truncation

/-! A dump and a scan of the same source. The dump shows what the scan gives, and where the scan stops
at an open comment, what it gives for the text before that. -/
namespace DecafLex

namespace Tokenized
open Fragment Scanner

/-- The identifiers that a scan gives. -/
def occurrences (t : Tokenized) : List Occurrence :=
  (t.tokens.filter (·.kind = .identifier)).map Token.occurrence

end Tokenized

namespace Dump
open Fragment Scanner

/-- Diagnostics one after the other, each with the source line it points at. -/
def rendered (dump : Dump) (source : String) (diagnostics : List Diagnostic) : String :=
  String.join (diagnostics.map fun d => d.render source (fileName dump.path))

end Dump
end DecafLex
