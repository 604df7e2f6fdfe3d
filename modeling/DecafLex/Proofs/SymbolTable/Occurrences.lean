import DecafLex.Proofs.SymbolTable.Chains
import Mathlib.Data.List.Induction
import Mathlib.Tactic.SplitIfs

/-! Tables filled from the identifiers of a text. What such a table declares can be read off the
identifiers at once: their distinct names, each with the line of the first and the number of all. -/
namespace DecafLex

/-- An identifier of a text. -/
structure Occurrence where
  name : String
  line : Nat
deriving DecidableEq, Repr

/-- The lines on which a name stands. -/
def Occurrence.linesOf (occurrences : List Occurrence) (name : String) : List Nat :=
  (occurrences.filter (·.name = name)).map (·.line)

/-- The distinct names of some identifiers, in the order they were first seen. -/
def Occurrence.distinct (occurrences : List Occurrence) : List String :=
  (occurrences.map (·.name)).eraseDups

namespace Declaration
open Occurrence

/-- What a name that stands on some lines is declared as. -/
def ofLines (name : String) (lines : List Nat) : Declaration := ⟨name, lines.headD 0, lines.length⟩

def ofOccurrences (occurrences : List Occurrence) : List Declaration :=
  (distinct occurrences).map fun name => ofLines name (linesOf occurrences name)

/-- Later lines only add to the number of occurrences. -/
theorem ofLines_append (name : String) {lines : List Nat} (h : lines ≠ []) (later : List Nat) :
    ofLines name (lines ++ later) =
      { ofLines name lines with
        occurrences := (ofLines name lines).occurrences + later.length } := by
  obtain ⟨first, rest, rfl⟩ := List.exists_cons_of_ne_nil h
  simp only [ofLines, List.cons_append, List.headD_cons, List.length_cons, List.length_append]
  congr 1
  omega

theorem names_ofOccurrences (occurrences : List Occurrence) :
    (ofOccurrences occurrences).map (·.name) = distinct occurrences := by
  rw [ofOccurrences, List.map_map]
  exact List.map_id _

theorem counts_ofOccurrences (occurrences : List Occurrence) :
    (ofOccurrences occurrences).map (fun d => (d.name, d.occurrences)) =
      (distinct occurrences).map fun name => (name, (occurrences.map (·.name)).count name) := by
  rw [ofOccurrences, List.map_map]
  apply List.map_congr_left
  intro name _
  change (name, (linesOf occurrences name).length) = _
  rw [linesOf, List.length_map, List.count, List.countP_map, List.countP_eq_length_filter]
  rfl

end Declaration

namespace Occurrence

variable {occurrences : List Occurrence} {name : String}

private theorem eraseDups_concat (texts : List String) (text : String) :
    (texts ++ [text]).eraseDups =
      if text ∈ texts then texts.eraseDups else texts.eraseDups ++ [text] := by
  rw [List.eraseDups_append, List.removeAll]
  by_cases hmem : text ∈ texts
  · simp [hmem]
  · simp [hmem, List.eraseDups_cons]

theorem mem_distinct : name ∈ distinct occurrences ↔ name ∈ occurrences.map (·.name) :=
  List.mem_eraseDups

theorem distinct_concat (occurrences : List Occurrence) (o : Occurrence) :
    distinct (occurrences ++ [o]) =
      if o.name ∈ distinct occurrences then distinct occurrences
      else distinct occurrences ++ [o.name] := by
  simp only [distinct, List.map_append, List.map_singleton, eraseDups_concat, List.mem_eraseDups]

theorem linesOf_append (a b : List Occurrence) (name : String) :
    linesOf (a ++ b) name = linesOf a name ++ linesOf b name := by
  simp only [linesOf, List.filter_append, List.map_append]

theorem linesOf_singleton (o : Occurrence) (name : String) :
    linesOf [o] name = if o.name = name then [o.line] else [] := by
  by_cases h : o.name = name <;> simp [linesOf, h]

theorem linesOf_eq_nil_iff : linesOf occurrences name = [] ↔ name ∉ distinct occurrences := by
  simp [linesOf, mem_distinct]

end Occurrence

namespace SymbolTable
open Declaration Occurrence

/-- Counting one more identifier keeps what the identifiers declare in step. -/
theorem record_ofOccurrences (occurrences : List Occurrence) (o : Occurrence) :
    record (ofOccurrences occurrences) o.name o.line = ofOccurrences (occurrences ++ [o]) := by
  rw [record, names_ofOccurrences, ofOccurrences, ofOccurrences, distinct_concat]
  split
  next hmem =>
    rw [List.map_map]
    apply List.map_congr_left
    intro name hname
    have hlines : linesOf occurrences name ≠ [] := fun hnil => linesOf_eq_nil_iff.mp hnil hname
    rw [linesOf_append, ofLines_append name hlines, linesOf_singleton]
    by_cases h : o.name = name <;> simp [ofLines, h, eq_comm]
  next hmem =>
    rw [List.map_append, List.map_singleton]
    congr 1
    · apply List.map_congr_left
      intro name hname
      have hne : o.name ≠ name := by
        rintro rfl
        exact hmem hname
      rw [linesOf_append, linesOf_singleton, if_neg hne, List.append_nil]
    · rw [linesOf_append, linesOf_singleton, if_pos rfl, linesOf_eq_nil_iff.mpr hmem]
      rfl

/-- The table after some more identifiers. -/
def internAll (t : SymbolTable) (occurrences : List Occurrence) : SymbolTable :=
  occurrences.foldl (fun t o => (t.intern o.name o.line).2) t

theorem internAll_append (t : SymbolTable) (a b : List Occurrence) :
    t.internAll (a ++ b) = (t.internAll a).internAll b := List.foldl_append

variable {t : SymbolTable} {occurrences : List Occurrence} {name : String}

theorem wellFormed_internAll (h : t.WellFormed) (occurrences : List Occurrence) :
    (t.internAll occurrences).WellFormed := by
  induction occurrences generalizing t with
  | nil => exact h
  | cons o occurrences ih => exact ih (wellFormed_intern h o.name o.line)

theorem prefix_names_internAll (h : t.WellFormed) (occurrences : List Occurrence) :
    t.names <+: (t.internAll occurrences).names := by
  induction occurrences generalizing t with
  | nil => exact List.prefix_rfl
  | cons o occurrences ih =>
    have hintern : t.names <+: (t.intern o.name o.line).2.names := by
      rw [names_intern h]
      split
      · exact List.prefix_rfl
      · exact List.prefix_append ..
    exact hintern.trans (ih (wellFormed_intern h o.name o.line))

/-- A number once given out stands for its name ever after. -/
theorem idOf_internAll (h : t.WellFormed) (hname : name ∈ t.names)
    (occurrences : List Occurrence) : (t.internAll occurrences).idOf name = t.idOf name := by
  obtain ⟨later, hlater⟩ := prefix_names_internAll h occurrences
  rw [idOf, idOf, ← hlater, List.idxOf_append_of_mem hname]

theorem mem_names_intern (h : t.WellFormed) (name : String) (line : Nat) :
    name ∈ (t.intern name line).2.names := by
  rw [names_intern h]
  split
  next hmem => exact hmem
  next => simp

/-- The number given out for an identifier is the one that its name has from then on. -/
theorem idOf_intern_internAll (h : t.WellFormed) (o : Occurrence)
    (later : List Occurrence) : ((t.internAll [o]).internAll later).idOf o.name = t.idOf o.name := by
  have hwell := wellFormed_intern h o.name o.line
  change ((t.intern o.name o.line).2.internAll later).idOf o.name = _
  rw [idOf_internAll hwell (mem_names_intern h o.name o.line), idOf, idOf, names_intern h]
  split
  next => rfl
  next hmem =>
    rw [List.idxOf_append_of_notMem hmem, List.idxOf_cons_self, List.idxOf_eq_length hmem,
      Nat.add_zero]

theorem declarations_internAll (hash : String → UInt64) (count : Nat)
    (occurrences : List Occurrence) :
    ((empty hash count).internAll occurrences).declarations.toList =
      ofOccurrences occurrences := by
  induction occurrences using List.reverseRecOn with
  | nil => rfl
  | append_singleton occurrences o ih =>
    have hwell := wellFormed_internAll (wellFormed_empty hash count) occurrences
    rw [internAll, List.foldl_append, ← internAll]
    change (((empty hash count).internAll occurrences).intern _ _).2.declarations.toList = _
    rw [declarations_intern hwell, ih, record_ofOccurrences]

theorem names_internAll (hash : String → UInt64) (count : Nat) (occurrences : List Occurrence) :
    ((empty hash count).internAll occurrences).names = distinct occurrences := by
  rw [names, declarations_internAll, names_ofOccurrences]

end SymbolTable
end DecafLex
