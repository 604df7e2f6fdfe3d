import DecafLex.Proofs.Scanner.Split
import DecafLex.Proofs.SymbolTable.Listing

/-! The buckets do not show in a scan. Tables that have interned the same identifiers represent the same
list of declarations, however many buckets they have and whatever their hash functions, so they number
the identifiers alike. -/
namespace DecafLex

namespace SymbolTable

/-- The tables list the same declarations, and no requests tell them apart. -/
structure Alike (t u : SymbolTable) : Prop where
  toList : t.toList = u.toList
  responses (requests : List Request) :
    (Request.run respond t requests).1 = (Request.run respond u requests).1

variable {t u : SymbolTable}

theorem Represents.alike {l : Listing} (h : t.Represents l) (h' : u.Represents l) : t.Alike u where
  toList := by rw [SymbolTable.toList, h.declarations, SymbolTable.toList, h'.declarations]
  responses requests := (h.run requests).1.trans (h'.run requests).1.symm

/-- The buckets hold nothing that the declarations do not tell. -/
theorem alike_of_declarations (ht : t.WellFormed) (hu : u.WellFormed)
    (h : t.declarations.toList = u.declarations.toList) : t.Alike u := by
  let l : Listing := ⟨t.declarations.toList, ht.nodup⟩
  have hrepresents : t.Represents l := ⟨ht, rfl⟩
  exact hrepresents.alike ⟨hu, h.symm⟩

variable (hash hash' : String → UInt64) (m n : Nat) (occurrences : List Occurrence)

theorem alike_internAll :
    ((empty hash m).internAll occurrences).Alike ((empty hash' n).internAll occurrences) := by
  apply alike_of_declarations
  · exact wellFormed_internAll (wellFormed_empty hash m) occurrences
  · exact wellFormed_internAll (wellFormed_empty hash' n) occurrences
  · rw [declarations_internAll, declarations_internAll]

theorem idOf_internAll_empty :
    ((empty hash m).internAll occurrences).idOf = ((empty hash' n).internAll occurrences).idOf := by
  funext name
  rw [idOf, idOf, names_internAll, names_internAll]

end SymbolTable

/-- Both scans stop at the same problem, or both give the same but for the buckets of the tables. -/
inductive Tokenized.SameOutcome :
    Except Diagnostic Tokenized → Except Diagnostic Tokenized → Prop where
  | error (d : Diagnostic) : SameOutcome (.error d) (.error d)
  | ok {a b : Tokenized} (tokens : a.tokens = b.tokens) (diagnostics : a.diagnostics = b.diagnostics)
      (symbols : a.symbols.Alike b.symbols) : SameOutcome (.ok a) (.ok b)

namespace Scanner
open Fragment

theorem tokenize_sameOutcome (config config' : Config) (source : String) :
    Tokenized.SameOutcome (tokenize config source) (tokenize config' source) := by
  obtain ⟨fs, hsplits⟩ := exists_splits source.toList
  rw [tokenize_of_splits _ hsplits, tokenize_of_splits _ hsplits]
  cases (place .start fs).findSome? Placed.fatal? with
  | some d => exact .error d
  | none =>
    refine .ok ?_ rfl (SymbolTable.alike_internAll ..)
    simp only [Tokenized.ofFragments]
    rw [SymbolTable.idOf_internAll_empty]

/-- Two scans of a source have the same outcome, whatever their numbers of buckets, their hash
functions and the names of their files. A number that is set as it is, perhaps to 0, does not show
either. -/
theorem tokenize_withBucketCount (config config' : Config) (m n : Nat) (source : String) :
    Tokenized.SameOutcome (tokenize (config.withBucketCount m) source)
      (tokenize (config'.withBucketCount n) source) ∧
    Tokenized.SameOutcome (tokenize { config with bucketCount := m } source)
      (tokenize { config' with bucketCount := n } source) :=
  ⟨tokenize_sameOutcome .., tokenize_sameOutcome ..⟩

end Scanner
end DecafLex
