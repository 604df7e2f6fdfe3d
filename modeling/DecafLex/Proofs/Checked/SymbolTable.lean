import DecafLex.Proofs.Checked.Basic
import DecafLex.Proofs.SymbolTable.Chains

/-! Names looked up and interned with checked indices and bounded counters. In a table that is well
formed every chain leads to declarations only. -/
namespace DecafLex

theorem SymbolTable.exists_of_find? {t : SymbolTable} {name : String} {id : DeclId}
    (h : t.find? name = some id) : ∃ d, t.declarations[id.index]? = some d := by
  unfold find? at h
  have hany := List.find?_some h
  obtain ⟨d, hget, -⟩ := (Option.any_eq_true ..).mp hany
  exact ⟨d, hget⟩

namespace Checked
open SymbolTable

/-- Compares a name with the declarations of a chain. -/
def findIn (t : SymbolTable) (name : String) : List DeclId → Checked (Option DeclId)
  | [] => .ok none
  | id :: ids => do
    let d ← entry t.declarations id.index
    if d.name = name then return some id else findIn t name ids

def find (t : SymbolTable) (name : String) : Checked (Option DeclId) := do
  findIn t name (← entry t.buckets (t.bucketOf name))

/-- Counts one more occurrence of a name, which is declared at `line` if it is new. -/
def intern (limit : Nat) (t : SymbolTable) (name : String) (line : Nat) :
    Checked (DeclId × SymbolTable) := do
  match ← find t name with
  | some id =>
    let d ← entry t.declarations id.index
    let occurrences ← count limit (d.occurrences + 1)
    let declarations := t.declarations.setIfInBounds id.index { d with occurrences }
    return (id, { t with declarations })
  | none =>
    let id : DeclId := ⟨← count limit t.size⟩
    let bucket := t.bucketOf name
    let chain ← entry t.buckets bucket
    return (id, { t with
      buckets := t.buckets.setIfInBounds bucket (chain ++ [id])
      declarations := t.declarations.push ⟨name, line, 1⟩
      buckets_pos := by simpa using t.buckets_pos })

variable {limit bound : Nat} {t : SymbolTable} {name : String}

theorem entry_eq {α : Type} {entries : Array α} {index : Nat} {x : α}
    (h : entries[index]? = some x) : entry entries index = .ok x := by
  rw [entry, h]

private theorem setIfInBounds_eq {α : Type} {entries : Array α} {index : Nat} {x : α}
    (h : entries[index]? = some x) (f : α → α) :
    entries.setIfInBounds index (f x) = entries.modify index f := by
  apply Array.ext_getElem?
  intro i
  rw [Array.getElem?_setIfInBounds, Array.getElem?_modify]
  by_cases hi : index = i
  · obtain ⟨hlt, -⟩ := Array.getElem?_eq_some_iff.mp h
    rw [if_pos hi, if_pos hi, if_pos hlt, ← hi, h, Option.map_some]
  · rw [if_neg hi, if_neg hi]

theorem findIn_eq (ids : List DeclId) (h : ∀ id ∈ ids, id.index < t.declarations.size) :
    findIn t name ids = .ok (ids.find? fun id => (t.get? id).any (·.name == name)) := by
  induction ids with
  | nil => rfl
  | cons id ids ih =>
    obtain ⟨hid, hids⟩ := List.forall_mem_cons.mp h
    have hget := Array.getElem?_eq_getElem hid
    have hany : (t.get? id).any (·.name == name) = (t.declarations[id.index].name == name) := by
      rw [SymbolTable.get?, hget]
      rfl
    rw [findIn, entry_eq hget, List.find?_cons, hany, ih hids]
    change (if t.declarations[id.index].name = name then Except.ok (some id) else _) = _
    split
    next hname => rw [beq_iff_eq.mpr hname]
    next hname => rw [beq_eq_false_iff_ne.mpr hname]

theorem find_eq (h : t.WellFormed) (name : String) : find t name = .ok (t.find? name) := by
  have hbucket := (t.bucketOf name).isLt
  rw [find, entry_eq (Array.getElem?_eq_getElem hbucket)]
  exact findIn_eq _ fun id hid => h.index_lt hbucket hid

theorem gives_intern (h : t.WellFormed) (hsize : t.size ≤ bound) (htotal : t.total + 1 ≤ bound)
    (name : String) (line : Nat) :
    Gives limit bound (intern limit t name line) (t.intern name line) := by
  rw [intern, find_eq h, SymbolTable.intern]
  cases hfind : t.find? name with
  | some id =>
    obtain ⟨d, hget⟩ := exists_of_find? hfind
    have hle := occurrences_le_total (Array.mem_of_getElem? hget)
    have hset := setIfInBounds_eq hget fun d => { d with occurrences := d.occurrences + 1 }
    change Gives limit bound (entry t.declarations id.index >>= _) _
    rw [entry_eq hget]
    apply (gives_count (by omega)).bind
    dsimp only
    rw [hset]
    exact gives_ok ..
  | none =>
    have hbucket := Array.getElem?_eq_getElem (t.bucketOf name).isLt
    have hset := setIfInBounds_eq hbucket (· ++ [(⟨t.size⟩ : DeclId)])
    apply (gives_count hsize).bind
    dsimp only
    rw [entry_eq hbucket]
    left
    change Except.ok _ = Except.ok _
    congr 3

end Checked
end DecafLex
