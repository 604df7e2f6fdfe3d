/-! Settings of a scan. -/
namespace DecafLex

/-- `file` names the source in reports only. `bucketCount` is the number of buckets that the symbol
table is asked for, and `hash` spreads the names over them. -/
structure Config where
  file : String
  bucketCount : Nat
  hash : String → UInt64

namespace Config

def defaultBucketCount : Nat := 211

def initial (hash : String → UInt64) : Config := ⟨"<stdin>", defaultBucketCount, hash⟩

def withFile (c : Config) (file : String) : Config := { c with file }

/-- At least one bucket. A count that is set without this may be 0; the table takes that for 1. -/
def withBucketCount (c : Config) (count : Nat) : Config := { c with bucketCount := max count 1 }

/-- The initial settings, for the given file if there is one. -/
def named (hash : String → UInt64) : Option String → Config
  | some file => (initial hash).withFile file
  | none => initial hash

end Config
end DecafLex
