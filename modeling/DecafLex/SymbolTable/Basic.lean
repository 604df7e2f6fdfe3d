/-! Identifiers by name: every distinct name has one declaration, found through a fixed number of
buckets. -/
namespace DecafLex

/-- A declaration of a table, by the number of declarations made before it. The numbers fit 32 bits as
long as no more than `2 ^ 32` names are declared. -/
structure DeclId where
  index : Nat
deriving DecidableEq, Repr

structure Declaration where
  name : String
  firstLine : Nat
  occurrences : Nat
deriving DecidableEq, Repr

/-- Declarations in the order they were first seen. A bucket chains the declarations whose names
hash to it, the oldest first. -/
structure SymbolTable where
  hash : String → UInt64
  buckets : Array (List DeclId)
  declarations : Array Declaration
  buckets_pos : 0 < buckets.size

namespace SymbolTable

/-- An empty table; it has at least one bucket. -/
def empty (hash : String → UInt64) (count : Nat) : SymbolTable where
  hash
  buckets := Array.replicate (max count 1) []
  declarations := #[]
  buckets_pos := by rw [Array.size_replicate]; exact Nat.le_max_right count 1

def size (t : SymbolTable) : Nat := t.declarations.size

def bucketCount (t : SymbolTable) : Nat := t.buckets.size

def bucketOf (t : SymbolTable) (name : String) : Fin t.buckets.size :=
  ⟨(t.hash name).toNat % t.buckets.size, Nat.mod_lt _ t.buckets_pos⟩

def get? (t : SymbolTable) (id : DeclId) : Option Declaration := t.declarations[id.index]?

def find? (t : SymbolTable) (name : String) : Option DeclId :=
  t.buckets[t.bucketOf name].find? fun id => (t.get? id).any (·.name == name)

def getByName? (t : SymbolTable) (name : String) : Option Declaration :=
  (t.find? name).bind t.get?

/-- Counts one more occurrence of a name, which is declared at `line` if it is new. -/
def intern (t : SymbolTable) (name : String) (line : Nat) : DeclId × SymbolTable :=
  match t.find? name with
  | some id =>
    (id, { t with
      declarations := t.declarations.modify id.index fun d =>
        { d with occurrences := d.occurrences + 1 } })
  | none =>
    let id : DeclId := ⟨t.size⟩
    (id, { t with
      buckets := t.buckets.modify (t.bucketOf name) (· ++ [id])
      declarations := t.declarations.push ⟨name, line, 1⟩
      buckets_pos := by simpa using t.buckets_pos })

def longestChain (t : SymbolTable) : Nat :=
  t.buckets.foldl (fun longest chain => max longest chain.length) 0

/-- The declarations with their numbers, in the order they were first seen. -/
def toList (t : SymbolTable) : List (DeclId × Declaration) :=
  t.declarations.toList.mapIdx fun index d => (⟨index⟩, d)

end SymbolTable
end DecafLex
