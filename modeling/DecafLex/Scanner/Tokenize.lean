import DecafLex.Scanner.Basic

/-! Scanning a whole source text. -/
namespace DecafLex

/-- All that a complete scan gives. -/
structure Tokenized where
  tokens : List Token
  symbols : SymbolTable
  diagnostics : List Diagnostic

/-- Scans a source to its end, or up to the fatal problem. -/
def tokenize (config : Config) (source : String) : Except Diagnostic Tokenized :=
  let (results, s) := (Scanner.ofSource config source).drain
  (results.mapM id).map fun tokens => ⟨tokens, s.symbols, s.diagnostics.toList⟩

end DecafLex
