import DecafLex.Position
import DecafLex.Proofs.Text.Lines

/-! How far a text reaches: in bytes, and in lines and columns. The tracked position agrees with
the splitting into lines at every cut of a text, and no two cuts are at the same position. -/
namespace DecafLex.Text

/-- The number of bytes of a text in UTF-8. -/
def byteLength (text : List Char) : Nat := (String.ofList text).utf8ByteSize

theorem byteLength_append (a b : List Char) :
    byteLength (a ++ b) = byteLength a + byteLength b := by
  simp [byteLength, String.ofList_append]

theorem byteLength_pos {text : List Char} (h : text ≠ []) : 0 < byteLength text := by
  apply Nat.pos_of_ne_zero
  intro hz
  apply h
  have := congrArg String.toList (String.utf8ByteSize_eq_zero_iff.mp hz)
  simpa using this

theorem length_le_byteLength (text : List Char) : text.length ≤ byteLength text := by
  induction text with
  | nil => exact Nat.zero_le _
  | cons c text ih =>
    have hpos := byteLength_pos (List.cons_ne_nil c [])
    rw [← List.singleton_append, byteLength_append, List.length_append, List.length_singleton]
    omega

theorem byteLength_take_le (text : List Char) {m n : Nat} (h : m ≤ n) :
    byteLength (text.take m) ≤ byteLength (text.take n) := by
  obtain ⟨k, rfl⟩ := Nat.exists_eq_add_of_le h
  rw [List.take_add, byteLength_append]
  omega

theorem byteLength_take_lt {text : List Char} {m n : Nat} (h : m < n) (hn : n ≤ text.length) :
    byteLength (text.take m) < byteLength (text.take n) := by
  obtain ⟨k, rfl⟩ := Nat.exists_eq_add_of_lt h
  have hne : (text.drop m).take (k + 1) ≠ [] := by
    intro he
    have := congrArg List.length he
    simp only [List.length_take, List.length_drop, List.length_nil] at this
    omega
  have := byteLength_pos hne
  rw [Nat.add_assoc, List.take_add, byteLength_append]
  omega

end DecafLex.Text

namespace DecafLex.Position
open Text

theorem advance_append (p : Position) (a b : List Char) :
    p.advance (a ++ b) = (p.advance a).advance b := List.foldl_append

/-- A text moves on by its newlines and by what follows the last of them. -/
theorem advance_eq (p : Position) (text : List Char) :
    p.advance text = if '\n' ∈ text then ⟨p.line + text.count '\n', (lastLine text).length⟩
      else ⟨p.line, p.column + text.length⟩ := by
  induction text using List.reverseRecOn with
  | nil => rfl
  | append_singleton text c ih =>
    rw [advance_append, ih, lastLine_concat]
    by_cases hc : c = '\n'
    · subst hc
      have hcount : '\n' ∉ text → text.count '\n' = 0 := List.count_eq_zero_of_not_mem
      by_cases hmem : '\n' ∈ text <;> simp [advance, step, hmem, Nat.add_assoc, hcount]
    · by_cases hmem : '\n' ∈ text <;> simp [advance, step, hmem, hc, Ne.symm hc, Nat.add_assoc]

theorem advance_start (text : List Char) :
    start.advance text = ⟨text.count '\n' + 1, (lastLine text).length⟩ := by
  rw [advance_eq]
  by_cases hmem : '\n' ∈ text
  · rw [if_pos hmem, Nat.add_comm]
    rfl
  · rw [if_neg hmem, lastLine_of_notMem hmem, List.count_eq_zero_of_not_mem hmem]
    simp [start]

/-- The line that a cut is tracked to is made of what stands on it before the cut and behind it. -/
theorem line?_advance (before after : List Char) :
    line? (before ++ after) (start.advance before).line =
      some (lastLine before ++ firstLine after) := by
  rw [advance_start]
  exact lines_getElem?_count before after

/-- Lines and columns together are never ahead of the characters read. -/
theorem advance_le (p : Position) (text : List Char) : p.line ≤ (p.advance text).line ∧
    (p.advance text).line + (p.advance text).column ≤ p.line + p.column + text.length := by
  induction text generalizing p with
  | nil => exact ⟨le_rfl, le_rfl⟩
  | cons c text ih =>
    obtain ⟨hline, hsum⟩ := ih (p.step c)
    change p.line ≤ ((p.step c).advance text).line ∧ ((p.step c).advance text).line +
      ((p.step c).advance text).column ≤ p.line + p.column + (text.length + 1)
    have hstep : p.line ≤ (p.step c).line ∧
        (p.step c).line + (p.step c).column ≤ p.line + p.column + 1 := by
      rw [step]
      split <;> dsimp only <;> omega
    omega

theorem advance_ne {text : List Char} (p : Position) (hne : text ≠ []) : p.advance text ≠ p := by
  have hpos := List.length_pos_iff.mpr hne
  intro he
  rw [advance_eq] at he
  split at he
  next hmem =>
    have hcount := List.count_pos_iff.mpr hmem
    have hline : p.line + text.count '\n' = p.line := congrArg line he
    omega
  next =>
    have hcolumn : p.column + text.length = p.column := congrArg column he
    omega

/-- No two cuts of a text are at the same position. -/
theorem eq_of_advance_eq {p : Position} {a b text : List Char} (ha : a <+: text) (hb : b <+: text)
    (h : p.advance a = p.advance b) : a = b := by
  rcases List.prefix_or_prefix_of_prefix ha hb with ⟨rest, rfl⟩ | ⟨rest, rfl⟩
  · rw [advance_append] at h
    obtain rfl : rest = [] := not_not.mp fun hne => advance_ne _ hne h.symm
    exact (List.append_nil a).symm
  · rw [advance_append] at h
    obtain rfl : rest = [] := not_not.mp fun hne => advance_ne _ hne h
    exact List.append_nil b

/-- A text on a single line covers as many columns as it has characters. -/
theorem cover_eq (p : Position) {text : List Char} (hne : text ≠ []) (h : '\n' ∉ text) :
    p.cover text = ⟨p.line, p.column + 1, p.column + text.length⟩ := by
  obtain ⟨c, rest, rfl⟩ := List.exists_cons_of_ne_nil hne
  have hc : c ≠ '\n' := fun he => h (he ▸ List.mem_cons_self)
  simp only [cover, firstColumn?, if_neg hc, advance_eq, if_neg h, if_true]

end DecafLex.Position
