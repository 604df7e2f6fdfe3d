import DecafLex.Dump
import DecafLex.SymbolTable.Hash

/-! The program as it is run: names are hashed by folded multiplication, and nothing is logged. -/
namespace DecafLex

def SymbolTable.withBuckets (count : Nat) : SymbolTable := .empty Hash.ofName count

def Config.standard : Config := .initial Hash.ofName

def Config.ofFile? : Option String → Config := .named Hash.ofName

def Dump.run (dump : Dump) (contents : Except ReadFailure ByteArray) : Dump.Outcome :=
  dump.runOn ⟨Hash.ofName, ""⟩ contents

end DecafLex
