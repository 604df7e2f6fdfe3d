import DecafLex.Proofs.SymbolTable.Occurrences

/-! The declarations of a text made of two, one some lines below the other: those of the upper text,
with what the lower one adds to their numbers, and then the new ones of the lower text. -/
namespace DecafLex
open Occurrence

def Occurrence.shift (lines : Nat) (o : Occurrence) : Occurrence := { o with line := o.line + lines }

namespace Declaration

def shift (lines : Nat) (d : Declaration) : Declaration :=
  { d with firstLine := d.firstLine + lines }

/-- How often a name occurs according to some declarations. -/
def count (declarations : List Declaration) (name : String) : Nat :=
  ((declarations.find? (·.name = name)).map (·.occurrences)).getD 0

/-- The declarations of a text that is followed, so many lines below its start, by another one. -/
def merge (lines : Nat) (upper lower : List Declaration) : List Declaration :=
  (upper.map fun d => { d with occurrences := d.occurrences + count lower d.name }) ++
    (lower.filter fun d => d.name ∉ upper.map (·.name)).map (shift lines)

theorem count_ofOccurrences (occurrences : List Occurrence) (name : String) :
    count (ofOccurrences occurrences) name = (linesOf occurrences name).length := by
  unfold count ofOccurrences
  rw [List.find?_map]
  cases hfind : (distinct occurrences).find? _ with
  | none =>
    have hnotMem : name ∉ distinct occurrences := by
      intro hmem
      exact List.find?_eq_none.mp hfind name hmem (decide_eq_true rfl)
    rw [linesOf_eq_nil_iff.mpr hnotMem]
    rfl
  | some other =>
    have hname := List.find?_some hfind
    obtain rfl : other = name := of_decide_eq_true hname
    rfl

/-- Moving a declaration down moves the line of the first occurrence. -/
theorem ofLines_map_add (name : String) {lines : List Nat} (h : lines ≠ []) (offset : Nat) :
    ofLines name (lines.map (· + offset)) = (ofLines name lines).shift offset := by
  obtain ⟨first, rest, rfl⟩ := List.exists_cons_of_ne_nil h
  simp [ofLines, shift]

end Declaration

namespace Occurrence
open Declaration

theorem linesOf_map_shift (lines : Nat) (occurrences : List Occurrence) (name : String) :
    linesOf (occurrences.map (shift lines)) name = (linesOf occurrences name).map (· + lines) := by
  simp only [linesOf, List.filter_map, List.map_map]
  rfl

private theorem eraseDups_filter (keep : String → Bool) (texts : List String) :
    (texts.filter keep).eraseDups = texts.eraseDups.filter keep := by
  induction texts using List.reverseRecOn with
  | nil => rfl
  | append_singleton texts text ih =>
    rw [List.filter_append, List.eraseDups_append, List.eraseDups_append, List.filter_append, ih]
    congr 1
    by_cases hkeep : keep text <;> by_cases hmem : text ∈ texts <;>
      simp [List.removeAll, hkeep, hmem, List.eraseDups_cons]

theorem distinct_append_shift (lines : Nat) (a b : List Occurrence) :
    distinct (a ++ b.map (shift lines)) =
      distinct a ++ (distinct b).filter fun name => name ∉ distinct a := by
  have hnames : (b.map (shift lines)).map (·.name) = b.map (·.name) := by
    rw [List.map_map]
    rfl
  rw [distinct, List.map_append, hnames, List.eraseDups_append, List.removeAll, eraseDups_filter]
  congr 1
  apply List.filter_congr
  intro name _
  simp only [mem_distinct, List.elem_eq_mem, decide_not]

/-- What two texts declare together. -/
theorem ofOccurrences_append_shift (lines : Nat) (a b : List Occurrence) :
    ofOccurrences (a ++ b.map (shift lines)) =
      merge lines (ofOccurrences a) (ofOccurrences b) := by
  rw [merge, names_ofOccurrences, ofOccurrences, distinct_append_shift, List.map_append]
  congr 1
  · change _ = List.map _ (List.map _ (distinct a))
    rw [List.map_map]
    apply List.map_congr_left
    intro name hname
    have hlines : linesOf a name ≠ [] := fun hnil => linesOf_eq_nil_iff.mp hnil hname
    rw [linesOf_append, linesOf_map_shift, ofLines_append name hlines, List.length_map,
      ← count_ofOccurrences]
    rfl
  · change _ = List.map _ (List.filter _ (List.map _ (distinct b)))
    rw [List.filter_map, List.map_map]
    apply List.map_congr_left
    intro name hname
    obtain ⟨hlower, hupper⟩ := List.mem_filter.mp hname
    have hnil : linesOf a name = [] := linesOf_eq_nil_iff.mpr (of_decide_eq_true hupper)
    have hlines : linesOf b name ≠ [] := fun hnil => linesOf_eq_nil_iff.mp hnil hlower
    rw [linesOf_append, hnil, List.nil_append, linesOf_map_shift, ofLines_map_add name hlines]
    rfl

end Occurrence
end DecafLex
