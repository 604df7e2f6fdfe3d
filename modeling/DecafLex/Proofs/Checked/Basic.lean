import DecafLex.Proofs.Text.Extent

/-! Programs that check every access they make: that a slice of a text lies between character
boundaries, that an index lies within its array, that a counter stays below its limit and that a loop
goes forward. -/
namespace DecafLex

/-- What stops a checked program. -/
inductive Fault where
  | slice
  | index
  | overflow
  | idle
deriving DecidableEq, Repr

abbrev Checked (α : Type) : Type := Except Fault α

namespace Checked
open Text

/-- The bytes of a text from one offset up to another, as a text. -/
def slice (text : String) (first last : Nat) : Checked String :=
  if h : first ≤ last ∧ String.Pos.Raw.IsValid text ⟨first⟩ ∧ String.Pos.Raw.IsValid text ⟨last⟩ then
    .ok (String.extract (text.pos ⟨first⟩ h.2.1) (text.pos ⟨last⟩ h.2.2))
  else .error .slice

/-- The entry of an array at an index. -/
def entry {α : Type} (entries : Array α) (index : Nat) : Checked α :=
  match entries[index]? with
  | some x => .ok x
  | none => .error .index

/-- A counter, which stays below the limit. -/
def count (limit n : Nat) : Checked Nat := if n < limit then .ok n else .error .overflow

theorem isValid_byteLength {text : String} {before after : List Char}
    (h : text.toList = before ++ after) : String.Pos.Raw.IsValid text ⟨byteLength before⟩ := by
  apply String.Pos.Raw.isValid_iff_exists_append.mpr
  refine ⟨String.ofList before, String.ofList after, ?_, rfl⟩
  rw [← String.ofList_append, ← h, String.ofList_toList]

private theorem extract_middle (a b c : ByteArray) :
    (a ++ (b ++ c)).extract a.size (a.size + b.size) = b := by
  have hskip := ByteArray.extract_append_size_add (a := a) (b := b ++ c) (i := 0) (j := b.size)
  rw [Nat.add_zero] at hskip
  rw [hskip, ByteArray.extract_append_eq_left rfl]

/-- A slice between two cuts of a text is what stands there. -/
theorem slice_eq {text : String} {before middle after : List Char}
    (h : text.toList = before ++ (middle ++ after)) :
    slice text (byteLength before) (byteLength before + byteLength middle) =
      .ok (String.ofList middle) := by
  let a := String.ofList before
  let b := String.ofList middle
  let c := String.ofList after
  have htext : text = a ++ (b ++ c) := by
    rw [← String.ofList_append, ← String.ofList_append, ← h, String.ofList_toList]
  have hfirst := isValid_byteLength h
  rw [← List.append_assoc] at h
  have hlast := isValid_byteLength h
  rw [byteLength_append] at hlast
  rw [slice, dif_pos ⟨Nat.le_add_right .., hfirst, hlast⟩]
  congr 1
  apply String.toByteArray_inj.mp
  rw [String.toByteArray_extract, String.offset_pos, String.offset_pos, htext,
    String.toByteArray_append, String.toByteArray_append]
  exact extract_middle a.toByteArray b.toByteArray c.toByteArray

theorem utf8ByteSize_eq {text : String} {before after : List Char}
    (h : text.toList = before ++ after) :
    text.utf8ByteSize = byteLength before + byteLength after := by
  rw [← byteLength_append, ← h, byteLength, String.ofList_toList]

/-- The slice up to the end of a text. -/
theorem slice_end {text : String} {before after : List Char} (h : text.toList = before ++ after) :
    slice text (byteLength before) text.utf8ByteSize = .ok (String.ofList after) := by
  have hsize := utf8ByteSize_eq h
  rw [← List.append_nil after] at h
  rw [hsize, slice_eq h]

section
variable {text : String} {before rest : List Char}

/-- A cut of a text moved on by some characters. -/
theorem toList_take_drop (h : text.toList = before ++ rest) (count : Nat) :
    text.toList = (before ++ rest.take count) ++ rest.drop count := by
  rw [List.append_assoc, List.take_append_drop, h]

theorem slice_take (h : text.toList = before ++ rest) (count : Nat) :
    slice text (byteLength before) (byteLength before + byteLength (rest.take count)) =
      .ok (String.ofList (rest.take count)) := by
  have hcut := toList_take_drop h count
  rw [List.append_assoc] at hcut
  exact slice_eq hcut

end

/-- The program gives the value, unless a counter would have to go beyond the bound and to the
limit. -/
def Gives {α : Type} (limit bound : Nat) (program : Checked α) (value : α) : Prop :=
  program = .ok value ∨ program = .error .overflow ∧ limit ≤ bound

section
variable {α β : Type} {limit bound : Nat} {program : Checked α} {value : α}

theorem gives_ok (limit bound : Nat) (value : α) : Gives limit bound (.ok value) value := .inl rfl

theorem gives_count {n : Nat} (h : n ≤ bound) : Gives limit bound (count limit n) n := by
  unfold count
  split
  next => exact .inl rfl
  next hn => exact .inr ⟨rfl, (Nat.le_of_not_lt hn).trans h⟩

theorem Gives.bind {next : α → Checked β} {result : β} (h : Gives limit bound program value)
    (hnext : Gives limit bound (next value) result) : Gives limit bound (program >>= next) result := by
  rcases h with rfl | ⟨rfl, hlimit⟩
  · exact hnext
  · exact .inr ⟨rfl, hlimit⟩

theorem Gives.of_lt (h : Gives limit bound program value) (hlimit : bound < limit) :
    program = .ok value := by
  rcases h with h | ⟨-, hle⟩
  · exact h
  · exact absurd hle (Nat.not_le.mpr hlimit)

end

end Checked
end DecafLex
