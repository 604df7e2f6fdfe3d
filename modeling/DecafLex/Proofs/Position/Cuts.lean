import DecafLex.Proofs.Checked.Position

/-! Cuts of a text and places on its lines. The tracked position leads from each cut to a place on a line,
and to each place on a line from exactly one cut. -/
namespace DecafLex.Position
open Text

/-- Every place on a line is where one cut is tracked to, and no other. -/
theorem existsUnique_cut {text line : List Char} {n column : Nat} (h : line? text n = some line)
    (hcolumn : column ≤ line.length) :
    ∃! before, before <+: text ∧ start.advance before = ⟨n, column⟩ := by
  have hline := newline_notMem_of_line? h
  cases n with
  | zero => cases h
  | succ n =>
    obtain ⟨above, below, rfl, rfl, hlast⟩ := exists_above h
    have hfront : '\n' ∉ line.take column := fun hmem => hline (List.mem_of_mem_take hmem)
    have hcut : above ++ line.take column <+: above ++ (line ++ below) :=
      (List.prefix_append_right_inj above).mpr
        ((List.take_prefix column line).trans (List.prefix_append line below))
    have hplace : start.advance (above ++ line.take column) = ⟨above.count '\n' + 1, column⟩ := by
      rw [advance_append, advance_start, hlast, advance_eq, if_neg hfront,
        List.length_take_of_le hcolumn, List.length_nil, Nat.zero_add]
    refine ⟨above ++ line.take column, ⟨hcut, hplace⟩, ?_⟩
    rintro before ⟨hbefore, hadvance⟩
    exact eq_of_advance_eq hbefore hcut (hadvance.trans hplace.symm)

/-- The numbered lines of a text hold no newline and, joined by newlines, give the text back. Every cut of
the text is tracked to a place on one of them; its column counts the characters behind the last newline
before the cut, and these are the first of that line. Exactly one cut is tracked to each place on a line.
Bounded counters with room for one more than the characters of the text are at the same place. -/
theorem lines_tracked (text : List Char) :
    let count := text.count '\n' + 1
    (∀ n, (line? text n).isSome ↔ 1 ≤ n ∧ n ≤ count) ∧
    (∀ n line, line? text n = some line → '\n' ∉ line) ∧
    ['\n'].intercalate ((List.range' 1 count).filterMap (line? text)) = text ∧
    (∀ before after, before ++ after = text →
      let p := start.advance before
      (∃ line, line? text p.line = some line ∧
        p.column = (lastLine before).length ∧ line.take p.column = lastLine before) ∧
      ∀ limit, text.length + 1 < limit →
        Checked.advance limit start before = .ok (p, start.cover before)) ∧
    ∀ n line column, line? text n = some line → column ≤ line.length →
      ∃! before, before <+: text ∧ start.advance before = ⟨n, column⟩ := by
  refine ⟨isSome_line?_iff text, fun _ _ => newline_notMem_of_line?, ?_, ?_,
    fun _ _ _ => existsUnique_cut⟩
  · rw [filterMap_line?, intercalate_lines]
  · rintro before after rfl
    have hcolumn : (start.advance before).column = (lastLine before).length := by rw [advance_start]
    refine ⟨⟨_, line?_advance before after, hcolumn, ?_⟩, ?_⟩
    · rw [hcolumn, List.take_left]
    · intro limit hlimit
      have hfits : start.Fits ((before ++ after).length + 1) before := by
        apply fits_of_le
        rw [List.length_append]
        change 1 + 0 + before.length ≤ before.length + after.length + 1
        omega
      exact (Checked.gives_advance hfits).of_lt hlimit

/-- A cut below an empty line, and the one cut on that line. -/
theorem lines_tracked_emptyLine :
    let text := ['é', '\n', '\n', 'b', 'c']
    let front := ['é', '\n', '\n', 'b']
    (∃ line, line? text 3 = some line ∧ line.take 1 = ['b']) ∧
    Checked.advance (Nat.pow 2 32) start front = .ok (⟨3, 1⟩, ⟨1, 1, 1⟩) ∧
    ∃! before, before <+: text ∧ start.advance before = ⟨2, 0⟩ := by
  intro text front
  obtain ⟨-, -, -, hcuts, hplaces⟩ := lines_tracked text
  obtain ⟨⟨line, hline, -, htake⟩, hbounded⟩ := hcuts front ['c'] rfl
  have hroom : text.length + 1 < Nat.pow 2 32 := by decide
  exact ⟨⟨line, hline, htake⟩, hbounded _ hroom, hplaces 2 [] 0 (by decide) (by decide)⟩

end DecafLex.Position
