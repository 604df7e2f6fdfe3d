import DecafLex.Proofs.Rule.Characters
import DecafLex.Proofs.Scanner.Run

/-! A machine that reads a source once and knows only strings, comments and the rest. A scan stops at
a fatal problem exactly where the machine ends in a block comment. -/
namespace DecafLex

/-- What the machine stands in. A block comment is known by the number of comments open and by the
number of characters read before it was opened from the code. -/
inductive Mode where
  | code
  | str
  | line
  | block (depth opener : Nat)
deriving DecidableEq, Repr

namespace Mode

/-- Reads a text where `read` characters have been read before. -/
@[simp] def run : Mode → Nat → List Char → Mode
  | mode, _, [] => mode
  | code, read, '/' :: '*' :: text => run (block 1 read) (read + 2) text
  | code, read, '/' :: '/' :: text => run line (read + 2) text
  | code, read, c :: text => run (if c = '"' then str else code) (read + 1) text
  | str, read, c :: text => run (if c = '"' ∨ c = '\n' then code else str) (read + 1) text
  | line, read, c :: text => run (if c = '\n' then code else line) (read + 1) text
  | block depth opener, read, '/' :: '*' :: text => run (block (depth + 1) opener) (read + 2) text
  | block depth opener, read, '*' :: '/' :: text =>
    run (if depth ≤ 1 then code else block (depth - 1) opener) (read + 2) text
  | block depth opener, read, _ :: text => run (block depth opener) (read + 1) text

/-- The block comment that the machine stands in. -/
def unclosed? : Mode → Option (Nat × Nat)
  | block depth opener => some (depth, opener)
  | _ => none

theorem eq_block_of_unclosed? {mode : Mode} {depth opener : Nat}
    (h : mode.unclosed? = some (depth, opener)) : mode = block depth opener := by
  cases mode with
  | block =>
    obtain ⟨rfl, rfl⟩ := Prod.mk.inj (Option.some.inj h)
    rfl
  | _ => cases h

variable {text after : List Char}

theorem run_code_of_plain (h : ∀ c ∈ text, Rule.isPlain c = true) (read : Nat) :
    run code read (text ++ after) = run code (read + text.length) after := by
  induction text generalizing read with
  | nil => rfl
  | cons c text ih =>
    obtain ⟨hc, htext⟩ := List.forall_mem_cons.mp h
    simp only [Rule.isPlain, Bool.and_eq_true, bne_iff_ne, ne_eq] at hc
    rw [List.cons_append, run.eq_4, if_neg hc.2, ih htext, List.length_cons, Nat.add_assoc,
      Nat.add_comm 1]
    · rintro _ rfl _
      exact hc.1 rfl
    · rintro _ rfl _
      exact hc.1 rfl

theorem run_str (h : ∀ c ∈ text, Rule.isInString c = true) (read : Nat) :
    run str read (text ++ after) = run str (read + text.length) after := by
  induction text generalizing read with
  | nil => rfl
  | cons c text ih =>
    obtain ⟨hc, htext⟩ := List.forall_mem_cons.mp h
    simp only [Rule.isInString, Bool.and_eq_true, bne_iff_ne, ne_eq] at hc
    rw [List.cons_append, run, if_neg (not_or.mpr hc), ih htext, List.length_cons, Nat.add_assoc,
      Nat.add_comm 1]

theorem run_line (h : '\n' ∉ text) (read : Nat) :
    run line read (text ++ after) = run line (read + text.length) after := by
  induction text generalizing read with
  | nil => rfl
  | cons c text ih =>
    obtain ⟨hc, htext⟩ := not_or.mp (mt List.mem_cons.mpr h)
    rw [List.cons_append, run, if_neg (Ne.symm hc), ih htext, List.length_cons, Nat.add_assoc,
      Nat.add_comm 1]

/-- A newline ends everything but a block comment. -/
theorem run_newline {mode : Mode} (h : mode.unclosed? = none) (read : Nat) :
    run mode read ('\n' :: text) = run code (read + 1) text := by
  cases mode with
  | code => exact run.eq_4 read '\n' text (by simp) (by simp)
  | str => rw [run, if_pos (.inr rfl)]
  | line => rw [run, if_pos rfl]
  | block => cases h

/-- In a block comment the machine goes on as the walk does. -/
theorem run_block (depth opener read : Nat) :
    run (block (depth + 1) opener) read text =
      match Comment.walk (depth + 1) text with
      | (0, length) => run code (read + length) (text.drop length)
      | (depth + 1, _) => block (depth + 1) opener := by
  generalize hstart : depth + 1 = start
  fun_induction Comment.walk start text generalizing depth read with
  | case1 => cases hstart
  | case2 => rfl
  | case3 start text d n hwalk ih =>
    rw [run, ih _ _ rfl, hwalk]
    cases d with
    | zero => simp [Nat.add_assoc, Nat.add_comm 2]
    | succ d => rfl
  | case4 start text d n hwalk ih =>
    obtain rfl : depth = start := Nat.succ.inj hstart
    cases depth with
    | zero =>
      obtain ⟨rfl, rfl⟩ : 0 = d ∧ 0 = n := by simpa [Comment.walk] using hwalk
      simp [run]
    | succ depth =>
      rw [run, if_neg (by omega), Nat.succ_sub_one, ih _ _ rfl, hwalk]
      cases d with
      | zero => simp [Nat.add_assoc, Nat.add_comm 2]
      | succ d => rfl
  | case5 start c text hopen hclose d n hwalk ih =>
    rw [run.eq_9 _ _ _ _ _ hopen hclose, ih _ _ hstart, hwalk]
    cases d with
    | zero => simp [Nat.add_assoc, Nat.add_comm 1]
    | succ d => rfl

example : run code 0 ['"', '/', '*', '"', '/', '*', '/', '/', '*'] = block 2 4 := rfl

end Mode

namespace Segment

variable {p : Position} {table : SymbolTable} {segment : Segment} {after : List Char}

private theorem run_comment {body : List Char}
    (h : Comment.walk 1 (body ++ after) = (0, body.length)) (read : Nat) :
    Mode.run .code read ('/' :: '*' :: body ++ after) =
      Mode.run .code (read + ('/' :: '*' :: body).length) after := by
  change Mode.run (.block (0 + 1) read) (read + 2) (body ++ after) = _
  rw [Mode.run_block, h]
  simp [Nat.add_assoc, Nat.add_comm 2]

private theorem run_string {front : List Char} (hmem : front ∈ Rule.string.language) (read : Nat) :
    Mode.run .code read (front ++ after) = Mode.run .code (read + front.length) after := by
  obtain ⟨contents, rfl, hcontents⟩ := Rule.mem_string.mp hmem
  have hopen : Mode.run .code read ('"' :: (contents ++ ['"']) ++ after) =
      Mode.run .str (read + 1) (contents ++ '"' :: after) := by
    rw [List.cons_append, List.append_assoc, Mode.run.eq_4 _ _ _ (by simp) (by simp), if_pos rfl]
    rfl
  rw [hopen, Mode.run_str hcontents, Mode.run, if_pos (.inl rfl)]
  congr 1
  simp
  omega

private theorem run_slash (hlonger : Fragment.NoLonger ['/'].length (['/'] ++ after))
    (read : Nat) : Mode.run .code read ('/' :: after) = Mode.run .code (read + 1) after := by
  apply Mode.run.eq_4
  · rintro rest - rfl
    exact hlonger.notMem .commentOpener (Rule.mem_commentOpener.mpr rfl)
  · rintro rest - rfl
    exact hlonger.notMem .lineComment (Rule.mem_lineComment.mpr ⟨[], rfl, List.not_mem_nil⟩)

private theorem unclosed?_lineComment {front : List Char}
    (hmem : front ∈ Rule.lineComment.language)
    (hlonger : Fragment.NoLonger front.length (front ++ after)) (read : Nat) :
    (Mode.run .code read (front ++ after)).unclosed? =
      (Mode.run .code (read + front.length) after).unclosed? := by
  obtain ⟨body, rfl, hbody⟩ := Rule.mem_lineComment.mp hmem
  have hopen : Mode.run .code read ('/' :: '/' :: body ++ after) =
      Mode.run .line (read + 2) (body ++ after) := rfl
  rw [hopen, Mode.run_line hbody]
  cases after with
  | nil => rfl
  | cons c after =>
    obtain rfl := hlonger.newline_of_lineComment hmem
    rw [Mode.run_newline rfl, Mode.run_newline rfl]
    simp [Nat.add_assoc, Nat.add_comm 2]

private theorem unclosed?_openString {front : List Char}
    (hmem : front ∈ Rule.openString.language)
    (hlonger : Fragment.NoLonger front.length (front ++ after)) (read : Nat) :
    (Mode.run .code read (front ++ after)).unclosed? =
      (Mode.run .code (read + front.length) after).unclosed? := by
  obtain ⟨contents, rfl, hcontents⟩ := Rule.mem_openString.mp hmem
  have hopen : Mode.run .code read ('"' :: contents ++ after) =
      Mode.run .str (read + 1) (contents ++ after) := by
    rw [List.cons_append, Mode.run.eq_4 _ _ _ (by simp) (by simp), if_pos rfl]
  rw [hopen, Mode.run_str hcontents]
  cases after with
  | nil => rfl
  | cons c after =>
    obtain rfl := hlonger.newline_of_openString hmem
    rw [Mode.run_newline rfl, Mode.run_newline rfl]
    simp [Nat.add_assoc, Nat.add_comm 1]

/-- A lexeme other than the opener of a comment brings the machine back to the code, unless the
source ends with it. -/
private theorem unclosed?_of_mem {rule : Rule} {front : List Char} (hrule : rule ≠ .commentOpener)
    (hmem : front ∈ rule.language) (hlonger : Fragment.NoLonger front.length (front ++ after))
    (read : Nat) : (Mode.run .code read (front ++ after)).unclosed? =
      (Mode.run .code (read + front.length) after).unclosed? := by
  by_cases hslash : rule = .operator .slash
  · subst hslash
    obtain rfl := Rule.mem_operator.mp hmem
    exact congrArg Mode.unclosed? (run_slash hlonger read)
  · cases rule with
    | commentOpener => exact absurd rfl hrule
    | lineComment => exact unclosed?_lineComment hmem hlonger read
    | openString => exact unclosed?_openString hmem hlonger read
    | string => exact congrArg Mode.unclosed? (run_string hmem read)
    | _ =>
      rw [Mode.run_code_of_plain fun c hc =>
        Rule.isPlain_of_mem (by simp) (by simp) hslash hmem hc]

private theorem isPlain_of_noLexeme {c : Char} (h : Fragment.NoLexeme (c :: after)) :
    Rule.isPlain c = true := by
  simp only [Rule.isPlain, Bool.and_eq_true, bne_iff_ne, ne_eq]
  constructor
  · rintro rfl
    exact h (.operator .slash) ['/'] (by simp) (Rule.mem_operator.mpr rfl)
  · rintro rfl
    exact h .openString ['"'] (by simp) (Rule.mem_openString.mpr ⟨[], rfl, by simp⟩)

theorem Stands.unclosed? (h : segment.Stands p table after) (hclosed : segment.fatal? = none)
    (read : Nat) : (Mode.run .code read (segment.text ++ after)).unclosed? =
      (Mode.run .code (read + segment.text.length) after).unclosed? := by
  cases h with
  | token rule front after kind value hmeaning hmem hlonger =>
    rw [text_token]
    exact unclosed?_of_mem (Rule.token_of_meaning hmeaning).1.1 hmem hlonger read
  | name front after id hid hmeaning hmem hlonger =>
    rw [text_token]
    exact unclosed?_of_mem (by simp) hmem hlonger read
  | rejected rule front after problem hmeaning hmem hlonger =>
    rw [text_rejected _ hmeaning]
    refine unclosed?_of_mem ?_ hmem hlonger read
    rintro rfl
    cases hmeaning
  | unknown c after hnone =>
    have hplain (d : Char) (hmem : d ∈ [c]) : Rule.isPlain d = true :=
      List.mem_singleton.mp hmem ▸ isPlain_of_noLexeme hnone
    rw [text_unknown, Mode.run_code_of_plain hplain]
  | skipped rule front after hrule hmem hlonger =>
    refine unclosed?_of_mem ?_ hmem hlonger read
    rintro rfl
    cases hrule
  | comment body after hbody => exact congrArg Mode.unclosed? (run_comment hbody read)
  | openComment => cases hclosed

end Segment

namespace Scanner
open Segment

/-- Segments that leave no comment open are as good as read. -/
theorem Runs.unclosed?_append {s s' : Scanner} {segments before after : List Segment}
    (h : s.Runs segments s') (hsplit : segments = before ++ after)
    (hclosed : ∀ segment ∈ before, segment.fatal? = none) :
    (Mode.run .code 0 s.rest).unclosed? =
      (Mode.run .code (before.flatMap text).length (after.flatMap text)).unclosed? := by
  induction before using List.reverseRecOn generalizing after with
  | nil =>
    obtain rfl : segments = after := hsplit
    rw [h.flatMap_text]
    rfl
  | append_singleton before segment ih =>
    rw [List.append_assoc, List.singleton_append] at hsplit
    have hbefore := List.forall_mem_append.mp hclosed
    have hsegment := hbefore.2 segment List.mem_cons_self
    rw [ih hsplit hbefore.1, List.flatMap_cons, (h.stands hsplit).unclosed? hsegment,
      List.flatMap_append, List.flatMap_singleton, List.length_append]

/-- A scan fails exactly where the machine ends in a block comment. It blames the opener by which
the machine left the code, and knows how many comments are open. -/
theorem tokenize_mode (config : Config) (source : String) :
    match Mode.run .code 0 source.toList with
    | .block depth opener =>
      let before := source.toList.take opener
      let line := before.count '\n' + 1
      let column := (Text.lastLine before).length + 1
      1 ≤ depth ∧ (∃ rest, source.toList = before ++ '/' :: '*' :: rest) ∧
      tokenize config source = .error ⟨.unterminatedComment, ⟨line, column, column + 1⟩⟩ ∧
      (ofSource config source).drain.2.nesting.depth = depth
    | _ => ∃ tokenized, tokenize config source = .ok tokenized := by
  obtain ⟨segments, s', hrun, hdrain, htokenize⟩ := exists_runs_ofSource config source
  have hsource : source.toList = (ofSource config source).rest := rfl
  rcases hrun.fatal rfl with ⟨hfatal, hall⟩ | ⟨before, front, d, rfl, hall, hfatal⟩
  · have hmode := hrun.unclosed?_append (List.append_nil segments).symm hall
    rw [← hsource] at hmode
    rw [htokenize, last, hfatal]
    split
    next hblock => rw [hblock] at hmode; cases hmode
    next => exact ⟨_, rfl⟩
  · have hmode := hrun.unclosed?_append rfl hall
    have hnesting := hrun.nesting
    have htext := hrun.flatMap_text
    rw [List.flatMap_append, List.flatMap_singleton, ← hsource] at htext
    rw [List.flatMap_singleton, ← hsource] at hmode
    cases hrun.stands rfl with
    | openComment body depth hbody =>
      have hblock : Mode.run .code (before.flatMap text).length ('/' :: '*' :: body) =
          .block (depth + 1) (before.flatMap text).length := by
        change Mode.run (.block (0 + 1) _) _ body = _
        rw [Mode.run_block, hbody]
      have hend := Mode.eq_block_of_unclosed? (hmode.trans (congrArg Mode.unclosed? hblock))
      have htake : source.toList.take (before.flatMap text).length = before.flatMap text := by
        rw [← htext, List.take_left]
      simp only [hend, htake]
      refine ⟨Nat.le_add_left 1 depth, ⟨body, htext.symm⟩, ?_, ?_⟩
      · have hposition : (ofSource config source).position.advance (before.flatMap text) =
            ⟨(before.flatMap text).count '\n' + 1, (Text.lastLine (before.flatMap text)).length⟩ :=
          Position.advance_start _
        rw [htokenize, last, hfatal, hposition, Position.cover_eq _ (by simp) (by simp)]
        rfl
      · rw [hdrain, hnesting, List.getLast?_concat]
        change (Comment.Nesting.ofDepth (Comment.walk 1 body).1).depth = depth + 1
        rw [hbody]
        rfl

end Scanner
end DecafLex
