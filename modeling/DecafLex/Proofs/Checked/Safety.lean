import DecafLex.Proofs.Checked.Scanner
import DecafLex.Runtime

/-! What the checked scan comes to: it stays inside the source and the symbol table, always goes
forward, and on sources that are not too long never runs a counter over its limit. -/
namespace DecafLex.Scanner
open Text Checked

variable {s : Scanner}

theorem start_eq_store (config : Config) (source : String) :
    Machine.start config = (ofSource config source).store source := by
  have hpos : source.utf8ByteSize - byteLength source.toList = 0 := by
    rw [byteLength, String.ofList_toList, Nat.sub_self]
  rw [store, ofSource, hpos]
  rfl

theorem gives_start (config : Config) (source : String) (calls : List Call) (limit : Nat) :
    let start := ofSource config source
    Gives limit (source.length + 1) ((Machine.start config).replies limit source calls)
      (start.replies calls, (start.answers calls).2.store source) := by
  intro start
  have hstart : Reached config source .between start := .start
  rw [start_eq_store config source]
  exact gives_replies hstart calls

/-- How many items an iteration gives that is asked for so many. -/
def items (s : Scanner) (count : Nat) : Nat :=
  (s.replies (List.replicate count .next)).countP Option.isSome

theorem items_of_finished (h : s.finished = true) (count : Nat) : s.items count = 0 := by
  induction count with
  | zero => rfl
  | succ count ih =>
    have hanswer : s.answer .next = (none, s) := by rw [answer, next_eq, if_pos h]
    rw [items, List.replicate_succ, replies, hanswer]
    exact ih

theorem items_le (s : Scanner) (count : Nat) : s.items count ≤ s.rest.length + 1 := by
  induction count generalizing s with
  | zero => exact Nat.zero_le _
  | succ count ih =>
    by_cases hfinished : s.finished = true
    · rw [items_of_finished hfinished]
      exact Nat.zero_le _
    · let s' := s.nextToken.2.marked (isLast s.nextToken.1)
      have hanswer : s.answer .next = (some s.nextToken.1, s') := by
        rw [answer, next_eq, if_neg hfinished]
      have hitems : s.items (count + 1) = s'.items count + 1 := by
        rw [items, List.replicate_succ, replies, hanswer]
        exact List.countP_cons_of_pos rfl
      rw [hitems]
      by_cases hlast : isLast s.nextToken.1 = true
      · rw [items_of_finished hlast]
        exact Nat.le_add_left ..
      · have hrest : s'.rest.length < s.rest.length :=
          rest_nextToken_lt (Bool.eq_false_iff.mpr hlast)
        have hitems := ih s'
        omega

/-- A scan is safe. Whatever is asked of it, every slice of the source lies between character
boundaries and every index inside its array, and every turn of a loop goes forward; only a counter can
stop it, if the source is as long as the limit. With a limit beyond that nothing stops it. It stands
behind the text that it has consumed, at a character boundary. Names can be looked up at any time, and
an iteration from any state on comes to an end after at most one item for each character that is left
and one more. -/
theorem replies_safe (config : Config) (source : String) (calls : List Call) (limit : Nat) :
    let start := ofSource config source
    let s := (start.answers calls).2
    let stored := s.store source
    (match (Machine.start config).replies limit source calls with
      | .ok (replies, m) =>
        replies = start.replies calls ∧ m = stored ∧
        (∃ before, source.toList = before ++ s.rest ∧ m.pos = byteLength before) ∧
        m.pos ≤ source.utf8ByteSize ∧ String.Pos.Raw.IsValid source ⟨m.pos⟩
      | .error fault => fault = .overflow ∧ limit < source.length + 2) ∧
    (source.length + 1 < limit →
      (Machine.start config).replies limit source calls = .ok (start.replies calls, stored)) ∧
    ((∃ before, source.toList = before ++ s.rest ∧ stored.pos = byteLength before) ∧
      stored.pos ≤ source.utf8ByteSize ∧ String.Pos.Raw.IsValid source ⟨stored.pos⟩) ∧
    (∀ name, find s.symbols name = .ok (s.symbols.find? name)) ∧
    ∀ count, s.items count ≤ s.rest.length + 1 := by
  intro start s stored
  have hreached : Reached config source .between s := reached_answers .start calls
  obtain ⟨before, hbefore⟩ := hreached.within.isSuffix
  have hpos : stored.pos = byteLength before := pos_store hbefore.symm
  have hplace : (∃ before, source.toList = before ++ s.rest ∧ stored.pos = byteLength before) ∧
      stored.pos ≤ source.utf8ByteSize ∧ String.Pos.Raw.IsValid source ⟨stored.pos⟩ := by
    refine ⟨⟨before, hbefore.symm, hpos⟩, Nat.sub_le .., ?_⟩
    rw [hpos]
    exact isValid_byteLength hbefore.symm
  have hgives := gives_start config source calls limit
  refine ⟨?_, hgives.of_lt, hplace, find_eq hreached.within.wellFormed, items_le s⟩
  rcases hgives with hrun | ⟨hrun, hlimit⟩
  · rw [hrun]
    exact ⟨rfl, rfl, hplace⟩
  · rw [hrun]
    exact ⟨rfl, Nat.lt_succ_of_le hlimit⟩

/-- Counters of 32 bits are enough for a source of at most two characters less than they can tell
apart. Lines and columns, the depth of comments, the declarations and their occurrences are at no
time more than the characters read, and no step of the scan runs a counter over its limit. -/
theorem counters_fit (config : Config) (source : String) (h : source.length ≤ 2 ^ 32 - 2) :
    (∀ point s, Reached config source point s →
      let read := source.length - s.rest.length
      s.position.line - 1 + s.position.column ≤ read ∧ 2 * s.nesting.depth ≤ read ∧
      s.symbols.size ≤ read ∧ s.symbols.total ≤ read) ∧
    ∀ calls,
      let start := ofSource config source
      let s := (start.answers calls).2
      Reached config source .between s ∧
      (Machine.start config).replies (2 ^ 32) source calls =
        .ok (start.replies calls, s.store source) := by
  refine ⟨?_, ?_⟩
  · intro point s hs read
    have hwithin := hs.within
    have hposition := hwithin.position
    have hdepth := hwithin.depth
    have hsize := hwithin.size
    have htotal := hwithin.total
    have hline := hwithin.line_pos
    omega
  · intro calls start s
    have hgives := gives_start config source calls (2 ^ 32)
    exact ⟨reached_answers .start calls, hgives.of_lt (by omega)⟩

/-- Two comments opened in seven characters. -/
theorem counters_fit_nested :
    let source := "x\n/* /*"
    let start := ofSource .standard source
    let s := (start.answers [.next, .next]).2
    source.length ≤ 2 ^ 32 - 2 ∧
    (Machine.start .standard).replies (2 ^ 32) source [.next, .next] =
      .ok (start.replies [.next, .next], s.store source) ∧
    2 * s.nesting.depth ≤ source.length - s.rest.length ∧ s.nesting.depth = 2 := by
  intro source start s
  have hlength : source.length ≤ 2 ^ 32 - 2 := by decide
  obtain ⟨hbounds, hruns⟩ := counters_fit .standard source hlength
  obtain ⟨hreached, hrun⟩ := hruns [.next, .next]
  exact ⟨hlength, hrun, (hbounds _ _ hreached).2.1, by decide +kernel⟩

end DecafLex.Scanner
