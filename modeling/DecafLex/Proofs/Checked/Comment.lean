import DecafLex.Proofs.Checked.Position
import DecafLex.Proofs.Comment.Depth

/-! Comments passed over in bytes, with bounded counters and checked slices. The loop over the
delimiters reads what a machine reads that goes through the text character by character. -/
namespace DecafLex.Checked
open Text Comment

/-- The nesting after a delimiter. -/
def pass (limit : Nat) (nesting : Nesting) : Delimiter → Checked Nesting
  | .opening => do return .inside (← count limit (nesting.depth + 1))
  | .closing => .ok nesting.leave

/-- Passes over a comment in `rest`, of which so many bytes have been passed. -/
def skip (limit : Nat) (nesting : Nesting) (p : Position) (rest : String) (consumed : Nat) :
    Checked Skip :=
  match nesting with
  | .outside => .ok ⟨.outside, p, some consumed⟩
  | .inside depth => do
    let remaining ← slice rest consumed rest.utf8ByteSize
    match firstDelimiter? remaining.toList with
    | none =>
      let (p, _) ← advance limit p remaining.toList
      return ⟨.inside depth, p, none⟩
    | some (delimiter, length) =>
      let stop := consumed + byteLength (remaining.toList.take length)
      let passed ← slice rest consumed stop
      let (p, _) ← advance limit p passed.toList
      let nesting ← pass limit (.inside depth) delimiter
      if consumed + 2 ≤ stop ∧ stop ≤ rest.utf8ByteSize then skip limit nesting p rest stop
      else .error .idle
termination_by rest.utf8ByteSize - consumed

variable {limit bound : Nat}

theorem gives_pass {nesting : Nesting} {delimiter : Delimiter}
    (hbound : (nesting.pass delimiter).depth ≤ bound) :
    Gives limit bound (pass limit nesting delimiter) (nesting.pass delimiter) := by
  cases delimiter with
  | opening => exact (gives_count hbound).bind (gives_ok ..)
  | closing => exact gives_ok ..

/-- A delimiter takes the loop at least two bytes further, and not beyond the text. -/
private theorem goes_forward {rest : String} {before text : List Char}
    (hrest : rest.toList = before ++ text) {delimiter : Delimiter} {length : Nat}
    (hfirst : firstDelimiter? text = some (delimiter, length)) :
    let stop := byteLength before + byteLength (text.take length)
    byteLength before + 2 ≤ stop ∧ stop ≤ rest.utf8ByteSize := by
  obtain ⟨-, hle⟩ := firstDelimiter?_length hfirst
  have htwo := two_le_firstDelimiter? hfirst
  have hbytes := length_le_byteLength (text.take length)
  rw [List.length_take_of_le hle] at hbytes
  have hsize := utf8ByteSize_eq (toList_take_drop hrest length)
  rw [byteLength_append] at hsize
  dsimp only
  omega

/-- The checked loop over the delimiters passes over what the unchecked one does, and counts bytes where
that counts characters. Only the text that is passed over has to fit. -/
theorem gives_skip {depth : Nat} {p : Position} {rest : String} {before text : List Char}
    (hrest : rest.toList = before ++ text)
    (hposition : p.Fits bound (text.take (walk depth text).2)) (hdepth : Fits depth bound text) :
    let result := Comment.skip (.ofDepth depth) p text
    Gives limit bound (skip limit (.ofDepth depth) p rest (byteLength before))
      { result with passed := result.passed.map fun n => byteLength (before ++ text.take n) } := by
  simp only [skip_ofDepth]
  induction hn : text.length using Nat.strong_induction_on generalizing depth p before text with
  | _ n ih =>
    subst hn
    cases depth with
    | zero =>
      rw [Nesting.ofDepth, skip]
      simp only [walk, if_true, Option.map_some, List.take_zero, List.append_nil]
      exact gives_ok ..
    | succ depth =>
      rw [Nesting.ofDepth, skip, slice_end hrest]
      apply (gives_ok ..).bind
      rw [String.toList_ofList]
      cases hfirst : firstDelimiter? text with
      | none =>
        have hwalk := walk_of_firstDelimiter? depth text
        rw [hfirst] at hwalk
        rw [hwalk, List.take_length] at hposition ⊢
        apply (gives_advance hposition).bind
        exact gives_ok ..
      | some found =>
        obtain ⟨delimiter, length⟩ := found
        obtain ⟨hpos, hle⟩ := firstDelimiter?_length hfirst
        have hshorter : (text.drop length).length < text.length := by
          rw [List.length_drop]
          omega
        -- What is passed over is the text up to the delimiter and what is passed over behind it.
        have hwalk := walk_append_of_firstDelimiter? depth hfirst (text.drop length)
        rw [List.take_append_drop] at hwalk
        rw [hwalk, Nat.add_comm _ length, List.take_add, Position.fits_append] at hposition
        obtain ⟨hpassed, hbehind⟩ := hposition
        have hafter := hdepth.drop hfirst
        have htail := ih _ hshorter (toList_take_drop hrest length) hbehind hafter rfl
        have hpass := pass_inside depth delimiter
        have hopen : ((Nesting.inside (depth + 1)).pass delimiter).depth ≤ bound := by
          rw [hpass, Nesting.depth_ofDepth]
          exact hafter.le
        dsimp only
        rw [slice_take hrest length]
        apply (gives_ok ..).bind
        rw [String.toList_ofList]
        apply (gives_advance hpassed).bind
        apply (gives_pass hopen).bind
        rw [if_pos (goes_forward hrest hfirst), ← byteLength_append, hpass, hwalk]
        simpa only [Nat.add_comm _ length, List.take_add, List.append_assoc, Position.advance_append,
          Option.map_if] using htail

/-- Skipping a comment is reading it character by character with a count of the comments that are open.
Where that comes to none, skipping stops there, behind a closing delimiter: the text passed is the
shortest that closes all comments, and it is counted in characters or in bytes. Where it does not,
skipping takes the whole text and leaves as many comments open. Outside of a comment nothing is
passed. Counters that have room for the lines, the columns and the depths on the way come to the
same. -/
theorem skip_eq_walk (depth : Nat) (p : Position) (text : List Char) (limit : Nat) :
    let start : Nesting := .inside (depth + 1)
    let inBytes := fun nesting => skip limit nesting p (String.ofList text) 0
    (match walk (depth + 1) text with
      | (0, length) =>
        let passed := text.take length
        Comment.skip start p text = ⟨.outside, p.advance passed, some length⟩ ∧
        (∀ bound, p.Fits bound passed → Fits (depth + 1) bound text →
          Gives limit bound (inBytes start)
            ⟨.outside, p.advance passed, some (byteLength passed)⟩) ∧
        length ≤ text.length ∧ ['*', '/'] <:+ passed ∧
        ∀ shorter < length, (walk (depth + 1) (text.take shorter)).1 ≠ 0
      | (left + 1, length) =>
        Comment.skip start p text = ⟨.inside (left + 1), p.advance text, none⟩ ∧
        (∀ bound, p.Fits bound text → Fits (depth + 1) bound text →
          Gives limit bound (inBytes start) ⟨.inside (left + 1), p.advance text, none⟩) ∧
        length = text.length) ∧
    Comment.skip .outside p text = ⟨.outside, p, some 0⟩ ∧
    inBytes .outside = .ok ⟨.outside, p, some 0⟩ := by
  intro start inBytes
  have hrest : (String.ofList text).toList = [] ++ text := String.toList_ofList
  have hbytes (bound : Nat) (hposition : p.Fits bound (text.take (walk (depth + 1) text).2))
      (hdepth : Fits (depth + 1) bound text) : Gives limit bound (inBytes start) _ :=
    gives_skip hrest hposition hdepth
  have houtside : inBytes .outside = .ok ⟨.outside, p, some 0⟩ := by
    change skip limit .outside p (String.ofList text) 0 = _
    rw [skip]
  rw [show Comment.skip start p text = _ from skip_ofDepth (depth + 1) p text]
  simp only [skip_ofDepth] at hbytes
  refine ⟨?_, by rw [Comment.skip], houtside⟩
  have hle := walk_le_length (depth + 1) text
  have hopen : (walk (depth + 1) text).1 ≠ 0 → _ := walk_of_open
  have hclosed (hzero : (walk (depth + 1) text).1 = 0) := walk_take_append hzero []
  have hshortest (shorter : Nat) : shorter < (walk (depth + 1) text).2 → _ := open_of_lt_walk
  generalize walk (depth + 1) text = result at *
  obtain ⟨left, length⟩ := result
  cases left with
  | zero =>
    refine ⟨rfl, hbytes, hle, ?_, hshortest⟩
    have hpassed : walk (depth + 1) (text.take length) = (0, (text.take length).length) := by
      rw [List.length_take_of_le hle]
      simpa using hclosed rfl
    exact isSuffix_of_closed hpassed
  | succ left =>
    obtain rfl : length = text.length := hopen (Nat.succ_ne_zero left)
    rw [List.take_length] at hbytes ⊢
    exact ⟨rfl, hbytes, rfl⟩

end DecafLex.Checked
