import DecafLex.Proofs.Checked.Machine
import DecafLex.Proofs.Scanner.Protocol
import DecafLex.Proofs.Scanner.Steps

/-! The checked scan gives what the unchecked one does, and none of its checks fails but the one for a
counter that the length of the source brings to its limit. -/
namespace DecafLex
open Text Checked

namespace Checked

theorem meaning_eq {rule : Rule} {lexeme : List Char} (h : lexeme ∈ rule.language) :
    meaning rule (String.ofList lexeme) = .ok (rule.meaning lexeme) := by
  cases rule with
  | hexadecimal =>
    obtain ⟨mark, digits, rfl, hmark, -⟩ := Rule.mem_hexadecimal.mp h
    have htwo : byteLength ['0', mark] = 2 := by
      rcases (by simpa [Rule.isHexMark] using hmark : mark = 'x' ∨ mark = 'X') with rfl | rfl <;> rfl
    have htext : (String.ofList ('0' :: mark :: digits)).toList = ['0', mark] ++ digits :=
      String.toList_ofList
    have hslice := slice_end htext
    rw [htwo] at hslice
    rw [meaning, hslice, htext]
    change Except.ok (Meaning.ofInteger _ (Numeral.value 16 (String.ofList digits).toList)) = _
    rw [String.toList_ofList]
    rfl
  | string =>
    obtain ⟨contents, rfl, -⟩ := Rule.mem_string.mp h
    have hquote : byteLength ['"'] = 1 := rfl
    have htext : (String.ofList ('"' :: (contents ++ ['"']))).toList = ['"'] ++ (contents ++ ['"']) :=
      String.toList_ofList
    have hslice := slice_eq htext
    have hsize := utf8ByteSize_eq htext
    rw [byteLength_append, hquote, ← Nat.add_assoc] at hsize
    rw [hquote] at hslice
    rw [meaning, hsize, Nat.add_sub_cancel, hslice]
    change Except.ok (Meaning.token _ (some (.str (String.ofList contents)))) = _
    simp [Rule.meaning]
  | _ => exact congrArg (fun text => Except.ok (Rule.meaning _ text)) String.toList_ofList

end Checked

namespace Scanner

variable {config : Config} {source : String} {s s' : Scanner} {limit : Nat}

/-- The scan as a machine over its source. -/
def store (source : String) (s : Scanner) : Machine where
  pos := source.utf8ByteSize - byteLength s.rest
  position := s.position
  nesting := s.nesting
  symbols := s.symbols
  diagnostics := s.diagnostics
  fatal := s.fatal
  finished := s.finished

theorem pos_store {before : List Char} (h : source.toList = before ++ s.rest) :
    (s.store source).pos = byteLength before := by
  rw [store, utf8ByteSize_eq h, Nat.add_sub_cancel]

theorem remainder_store (h : s.rest <:+ source.toList) :
    (s.store source).remainder source = .ok (String.ofList s.rest) := by
  obtain ⟨before, hbefore⟩ := h
  rw [Machine.remainder, pos_store hbefore.symm, slice_end hbefore.symm]

theorem store_consume (h : s.rest <:+ source.toList) (count : Nat) :
    (s.consume count).store source = { s.store source with
      pos := (s.store source).pos + byteLength (s.rest.take count)
      position := s.position.advance (s.rest.take count) } := by
  obtain ⟨before, hbefore⟩ := h
  have hconsumed : source.toList = (before ++ s.rest.take count) ++ (s.consume count).rest :=
    toList_take_drop hbefore.symm count
  have hpos := pos_store hconsumed
  rw [byteLength_append, ← pos_store hbefore.symm] at hpos
  rw [← hpos]
  rfl

theorem gives_skipComment {lexeme : String} {span : Span}
    (h : Reached config source (.consumed .commentOpener lexeme span) s) :
    Gives limit (source.length + 1) ((s.store source).skipComment limit source span)
      ((s.skipComment span).store source) := by
  have hwithin := h.within
  have hposition := hwithin.position
  have hdepth : 2 * (s.nesting.depth + 1) + s.rest.length ≤ source.length := hwithin.depth
  have hrest : (String.ofList s.rest).toList = [] ++ s.rest := String.toList_ofList
  have hopened : Comment.Fits (s.nesting.depth + 1) (source.length + 1) s.rest :=
    Comment.fits_of_le (by omega)
  have hpassed : s.position.Fits (source.length + 1)
      (s.rest.take (Comment.walk (s.nesting.depth + 1) s.rest).2) := by
    have hle := List.length_take_le' (Comment.walk (s.nesting.depth + 1) s.rest).2 s.rest
    exact Position.fits_of_le (by omega)
  have hopener : (s.nesting.pass .opening).depth ≤ source.length + 1 := hopened.le
  apply (gives_pass hopener).bind
  rw [remainder_store hwithin.isSuffix]
  apply (gives_ok ..).bind
  apply (gives_skip hrest hpassed hopened).bind
  let opened : Comment.Nesting := .ofDepth (s.nesting.depth + 1)
  change Gives _ _ _ ((s.resume span (Comment.skip opened s.position s.rest)).store source)
  generalize Comment.skip opened s.position s.rest = skip
  unfold resume
  cases skip.passed with
  | none => exact gives_ok ..
  | some count =>
    have hpos := congrArg Machine.pos (store_consume hwithin.isSuffix count)
    change Gives _ _ (.ok _) (Machine.mk (Machine.pos (store source (s.consume count))) _ _ _ _ _ _)
    rw [hpos]
    exact gives_ok ..

theorem gives_act {meaning : Meaning} {lexeme : String} {span : Span}
    (h : Reached config source (.consumed meaning lexeme span) s) :
    Gives limit (source.length + 1) ((s.store source).act limit source meaning lexeme span)
      ((s.act meaning lexeme span).1, (s.act meaning lexeme span).2.store source) := by
  cases meaning with
  | nothing | token | rejected => exact gives_ok ..
  | commentOpener => exact (gives_skipComment h).bind (gives_ok ..)
  | name =>
    have hwithin := h.within
    have hsize : s.symbols.size + 1 + s.rest.length ≤ source.length := hwithin.size
    have htotal : s.symbols.total + 1 + s.rest.length ≤ source.length := hwithin.total
    apply (gives_intern hwithin.wellFormed (by omega) (by omega) lexeme span.line).bind
    exact gives_ok ..

/-- The checked turn consumes the piece that the unchecked one does. -/
theorem gives_turn (h : Reached config source .between s) (hfatal : s.fatal = none)
    (hne : s.rest ≠ []) : Gives limit (source.length + 1) ((s.store source).turn limit source)
      (s.turn.1, s.turn.2.store source) := by
  have hsuffix := h.within.isSuffix
  have hposition := h.within.position
  have hact : Gives limit (source.length + 1) _ _ := gives_act (h.consume hfatal hne)
  have hadvance (count : Nat) : Gives limit (source.length + 1)
      (advance limit s.position (s.rest.take count))
      (s.position.advance (s.rest.take count), s.position.cover (s.rest.take count)) := by
    have hle := List.length_take_le' count s.rest
    exact gives_advance (Position.fits_of_le (by omega))
  rw [store_consume hsuffix] at hact
  rw [Machine.turn, remainder_store hsuffix]
  apply (gives_ok ..).bind
  rw [String.toList_ofList, Rule.search_eq]
  cases hmatch : Rule.longestMatch? Rule.all s.rest with
  | none =>
    have hpiece := Piece.first_of_none hmatch
    rw [hpiece] at hact
    rw [turn_of_piece hpiece]
    simp only [Option.map_none, String.toList_ofList]
    apply (hadvance 1).bind
    exact hact
  | some m =>
    have hpiece := Piece.first_of_some hmatch
    have hmem := (Rule.longestMatch?_all_isLongest hmatch).mem
    obtain ⟨before, hbefore⟩ := hsuffix
    have hslice := slice_take hbefore.symm m.length
    rw [← pos_store hbefore.symm] at hslice
    rw [hpiece] at hact
    rw [turn_of_piece hpiece]
    simp only [Option.map_some]
    rw [hslice]
    apply (gives_ok ..).bind
    rw [String.toList_ofList]
    apply (hadvance m.length).bind
    rw [meaning_eq hmem]
    exact hact

/-- Fewer characters left of the source are more bytes consumed. -/
theorem pos_store_lt (h : s.rest <:+ source.toList) (h' : s'.rest <:+ source.toList)
    (hlt : s'.rest.length < s.rest.length) : (s.store source).pos < (s'.store source).pos ∧
      (s'.store source).pos ≤ source.utf8ByteSize := by
  obtain ⟨front, hfront⟩ := List.suffix_of_suffix_length_le h' h hlt.le
  have hne : front ≠ [] := by
    rintro rfl
    exact Nat.lt_irrefl _ (hfront ▸ hlt)
  have hpos := byteLength_pos hne
  obtain ⟨before, hbefore⟩ := h
  have hsize := utf8ByteSize_eq hbefore.symm
  rw [← hfront, byteLength_append] at hsize
  rw [store, store, ← hfront, byteLength_append]
  exact ⟨by dsimp only; omega, Nat.sub_le ..⟩

/-- Where something is left of the source, the loop in `nextToken` takes a turn. -/
private theorem nextToken_store (h : Reached config source .between s) (hfatal : s.fatal = none)
    (hne : s.rest ≠ []) : (s.store source).nextToken limit source =
      ((s.store source).turn limit source >>= fun (token, m) =>
        match token with
        | some token => .ok (.ok token, m)
        | none =>
          if (s.store source).pos < m.pos ∧ m.pos ≤ source.utf8ByteSize then m.nextToken limit source
          else .error .idle) := by
  have hrest : String.ofList s.rest ≠ "" := by
    intro he
    apply hne
    rw [← String.toList_ofList (l := s.rest), he]
    rfl
  rw [Machine.nextToken, show (s.store source).fatal = none from hfatal]
  dsimp only
  rw [remainder_store h.within.isSuffix]
  change (if String.ofList s.rest = "" then _ else _) = _
  rw [if_neg hrest]
  congr 1
  funext result
  obtain ⟨token, m⟩ := result
  cases token <;> rfl

theorem gives_nextToken (h : Reached config source .between s) :
    Gives limit (source.length + 1) ((s.store source).nextToken limit source)
      (s.nextToken.1, s.nextToken.2.store source) := by
  fun_induction nextToken s with
  | case1 s d hfatal =>
    rw [Machine.nextToken, show (s.store source).fatal = some d from hfatal]
    exact gives_ok ..
  | case2 s hfatal hrest =>
    have hwithin := h.within
    have hposition := hwithin.position
    have hline := hwithin.line_pos
    have hhere : s.position.column + 1 ≤ source.length + 1 := by omega
    rw [Machine.nextToken, show (s.store source).fatal = none from hfatal]
    dsimp only
    rw [remainder_store hwithin.isSuffix, hrest]
    apply (gives_ok ..).bind
    rw [if_pos String.ofList_nil]
    apply (gives_here hhere).bind
    exact gives_ok ..
  | case3 s hfatal hrest t s' hturn =>
    have hgives : Gives limit _ _ _ := gives_turn h hfatal hrest
    rw [hturn] at hgives
    rw [nextToken_store h hfatal hrest]
    apply hgives.bind
    exact gives_ok ..
  | case4 s hfatal hrest s' hturn ih =>
    have hgives : Gives limit _ _ _ := gives_turn h hfatal hrest
    have hnext := h.turn hfatal hrest
    have hlt := rest_turn_lt hrest
    rw [hturn] at hgives hnext hlt
    have hforward := pos_store_lt h.within.isSuffix hnext.within.isSuffix hlt
    rw [nextToken_store h hfatal hrest]
    apply hgives.bind
    dsimp only
    rw [if_pos hforward]
    exact ih hnext

theorem gives_answer (h : Reached config source .between s) (call : Call) :
    Gives limit (source.length + 1) ((s.store source).answer limit source call)
      ((s.answer call).1, (s.answer call).2.store source) := by
  have hnext : Gives limit _ _ _ := gives_nextToken h
  cases call with
  | nextToken =>
    apply hnext.bind
    exact gives_ok ..
  | next =>
    rw [answer, next_eq, Machine.answer, Machine.next]
    change Gives _ _ (if s.finished = true then _ else _) _
    by_cases hfinished : s.finished = true
    · rw [if_pos hfinished, if_pos hfinished]
      exact gives_ok ..
    · rw [if_neg hfinished, if_neg hfinished]
      apply hnext.bind
      exact gives_ok ..

/-- Whatever is asked of it, the checked scan answers as the unchecked one does. -/
theorem gives_replies (h : Reached config source .between s) (calls : List Call) :
    Gives limit (source.length + 1) ((s.store source).replies limit source calls)
      (s.replies calls, (s.answers calls).2.store source) := by
  induction calls generalizing s with
  | nil => exact gives_ok ..
  | cons call calls ih =>
    apply (gives_answer h call).bind
    apply (ih (reached_answer h call)).bind
    exact gives_ok ..

end Scanner
end DecafLex
