import DecafLex.Piece
import DecafLex.Proofs.Comment.Depth
import DecafLex.Proofs.Rule.Characters
import DecafLex.Proofs.Rule.MaximalMunch

/-! What a turn of a scan takes off the front of a source, as a function of the text alone: a lexeme,
a whole block comment, or a single character that no rule takes. -/
namespace DecafLex

theorem Piece.first_of_none {source : List Char} (h : Rule.longestMatch? Rule.all source = none) :
    first source = ⟨1, .rejected (.unknownCharacter (String.ofList (source.take 1)))⟩ := by
  unfold first
  split
  next m hm => cases h.symm.trans hm
  next => rfl

theorem Piece.first_of_some {source : List Char} {m : Match}
    (h : Rule.longestMatch? Rule.all source = some m) :
    first source = ⟨m.length, m.rule.meaning (source.take m.length)⟩ := by
  unfold first
  split
  next m' hm =>
    cases h.symm.trans hm
    rfl
  next hm => cases h.symm.trans hm

theorem Piece.first_length_le {source : List Char} (hne : source ≠ []) :
    (first source).length ≤ source.length := by
  unfold first
  split
  next m hm =>
    obtain ⟨-, hlength, -⟩ := Rule.longestMatch?_spec hm
    exact hlength ▸ Rule.munch_le_length m.rule source
  next => exact List.length_pos_iff.mpr hne

structure Fragment where
  text : List Char
  meaning : Meaning
deriving DecidableEq, Repr

namespace Fragment

/-- The length of the first piece, with the comment that it opens. -/
def firstLength (source : List Char) : Nat :=
  let piece := Piece.first source
  match piece.meaning with
  | .commentOpener => piece.length + (Comment.walk 1 (source.drop piece.length)).2
  | _ => piece.length

def first (source : List Char) : Fragment :=
  ⟨source.take (firstLength source), (Piece.first source).meaning⟩

/-- Comments open after a fragment that begins with the opener of one. -/
def depth (f : Fragment) : Nat := (Comment.walk 1 (f.text.drop 2)).1

/-- No rule takes anything from the front of the text. -/
def NoLexeme (text : List Char) : Prop :=
  ∀ (rule : Rule) (front : List Char), front <+: text → front ∉ rule.language

/-- No rule takes more than `length` characters from the front of the text. -/
def NoLonger (length : Nat) (text : List Char) : Prop :=
  ∀ (rule : Rule) (front : List Char), front <+: text → front ∈ rule.language →
    front.length ≤ length

theorem NoLonger.notMem {front after : List Char} {c : Char}
    (h : NoLonger front.length (front ++ c :: after)) (rule : Rule) :
    front ++ [c] ∉ rule.language := by
  intro hmem
  have hle := h rule (front ++ [c]) (by simp) hmem
  rw [List.length_append, List.length_singleton] at hle
  omega

/-- A line comment goes on to the end of its line. -/
theorem NoLonger.newline_of_lineComment {front after : List Char} {c : Char}
    (h : NoLonger front.length (front ++ c :: after)) (hmem : front ∈ Rule.lineComment.language) :
    c = '\n' := by
  obtain ⟨body, rfl, hbody⟩ := Rule.mem_lineComment.mp hmem
  by_contra hc
  refine h.notMem .lineComment (Rule.mem_lineComment.mpr ⟨body ++ [c], rfl, ?_⟩)
  simp [hbody, Ne.symm hc]

/-- A string that is not closed goes on to the end of its line. -/
theorem NoLonger.newline_of_openString {front after : List Char} {c : Char}
    (h : NoLonger front.length (front ++ c :: after)) (hmem : front ∈ Rule.openString.language) :
    c = '\n' := by
  obtain ⟨contents, rfl, hcontents⟩ := Rule.mem_openString.mp hmem
  by_contra hc
  by_cases hquote : c = '"'
  · subst hquote
    exact h.notMem .string (Rule.mem_string.mpr ⟨contents, rfl, hcontents⟩)
  · refine h.notMem .openString (Rule.mem_openString.mpr ⟨contents ++ [c], rfl, ?_⟩)
    exact List.forall_mem_append.mpr ⟨hcontents, by simp [Rule.isInString, hc, hquote]⟩

/-- The fragment is what scanning takes first where `after` follows it. -/
inductive Leads : Fragment → List Char → Prop where
  | lexeme (rule : Rule) (text after : List Char) (hrule : rule ≠ .commentOpener)
      (hmem : text ∈ rule.language) (hlonger : NoLonger text.length (text ++ after)) :
      Leads ⟨text, rule.meaning text⟩ after
  | comment (body after : List Char)
      (hbody : (Comment.walk 1 (body ++ after)).2 = body.length) :
      Leads ⟨'/' :: '*' :: body, .commentOpener⟩ after
  | unknown (c : Char) (after : List Char) (hnone : NoLexeme (c :: after)) :
      Leads ⟨[c], .rejected (.unknownCharacter (String.ofList [c]))⟩ after

theorem Leads.text_ne_nil {f : Fragment} {after : List Char} (h : f.Leads after) : f.text ≠ [] := by
  cases h with
  | lexeme rule text after _ hmem =>
    intro hnil
    exact Rule.nil_notMem_language rule (hnil ▸ hmem)
  | comment => exact List.cons_ne_nil _ _
  | unknown => exact List.cons_ne_nil _ _

def newline : Fragment := ⟨['\n'], .nothing⟩

theorem newline_leads (rest : List Char) : newline.Leads rest := by
  refine .lexeme .newline ['\n'] rest (by simp) (Rule.mem_newline.mpr rfl) ?_
  intro rule front hfront hmem
  have hne : front ≠ [] := fun hnil => Rule.nil_notMem_language rule (hnil ▸ hmem)
  obtain ⟨c, front, rfl⟩ := List.exists_cons_of_ne_nil hne
  obtain rfl : c = '\n' := (List.cons_prefix_cons.mp hfront).1
  have hrule : rule = .newline := by
    by_contra hrule
    exact Rule.newline_notMem hrule hmem List.mem_cons_self
  subst hrule
  rw [Rule.mem_newline.mp hmem]

theorem first_of_comment {source : List Char} {length : Nat}
    (h : Piece.first source = ⟨length, .commentOpener⟩) :
    first source =
      ⟨source.take (length + (Comment.walk 1 (source.drop length)).2), .commentOpener⟩ := by
  unfold first firstLength
  generalize Piece.first source = piece at h
  subst h
  rfl

theorem first_of_piece {source : List Char} {length : Nat} {meaning : Meaning}
    (h : Piece.first source = ⟨length, meaning⟩) (hmeaning : meaning ≠ .commentOpener) :
    first source = ⟨source.take length, meaning⟩ := by
  unfold first firstLength
  generalize Piece.first source = piece at h
  subst h
  cases meaning with
  | commentOpener => exact absurd rfl hmeaning
  | _ => rfl

private theorem opener_of_rule {source : List Char} {m : Match}
    (h : Rule.longestMatch? Rule.all source = some m) (hrule : m.rule = .commentOpener) :
    m.length = 2 ∧ source.take 2 = ['/', '*'] := by
  obtain ⟨-, hlen, -⟩ := Rule.longestMatch?_spec h
  have hle := List.length_take_of_le (hlen ▸ Rule.munch_le_length m.rule source)
  have htext := Rule.mem_commentOpener.mp (hrule ▸ (Rule.longestMatch?_all_isLongest h).mem)
  have htwo : m.length = 2 := by rw [← hle, htext]; rfl
  exact ⟨htwo, htwo ▸ htext⟩

/-- A piece that opens a comment is the opener itself. -/
theorem length_of_commentOpener {source : List Char}
    (h : (Piece.first source).meaning = .commentOpener) : (Piece.first source).length = 2 := by
  cases hmatch : Rule.longestMatch? Rule.all source with
  | none =>
    rw [Piece.first_of_none hmatch] at h
    cases h
  | some m =>
    rw [Piece.first_of_some hmatch] at h ⊢
    exact (opener_of_rule hmatch (Rule.eq_commentOpener_of_meaning h)).1

private theorem leads_of_comment {source : List Char} {m : Match}
    (h : Rule.longestMatch? Rule.all source = some m) (hrule : m.rule = .commentOpener) :
    ∃ after, source = (first source).text ++ after ∧ (first source).Leads after := by
  obtain ⟨htwo, htext⟩ := opener_of_rule h hrule
  have hpiece := Piece.first_of_some h
  rw [htwo, hrule] at hpiece
  have hwalk := Comment.walk_le_length 1 (source.drop 2)
  have hfirst := first_of_comment hpiece
  rw [List.take_add, htext] at hfirst
  rw [hfirst]
  refine ⟨(source.drop 2).drop (Comment.walk 1 (source.drop 2)).2, ?_, .comment _ _ ?_⟩
  · have hsource := List.take_append_drop 2 source
    rw [htext] at hsource
    simpa only [List.append_assoc, List.take_append_drop] using hsource.symm
  · change (Comment.walk 1 (List.take _ (source.drop 2) ++ _)).2 = (List.take _ _).length
    rw [List.take_append_drop, List.length_take_of_le hwalk]

private theorem leads_of_lexeme {source : List Char} {m : Match}
    (h : Rule.longestMatch? Rule.all source = some m) (hrule : m.rule ≠ .commentOpener) :
    ∃ after, source = (first source).text ++ after ∧ (first source).Leads after := by
  obtain ⟨-, hlen, -⟩ := Rule.longestMatch?_spec h
  have hle : m.length ≤ source.length := hlen ▸ Rule.munch_le_length m.rule source
  rw [first_of_piece (Piece.first_of_some h) (fun he => hrule (Rule.eq_commentOpener_of_meaning he))]
  refine ⟨source.drop m.length, (List.take_append_drop ..).symm,
    .lexeme m.rule _ _ hrule (Rule.longestMatch?_all_isLongest h).mem
      fun rule front hfront hmem => ?_⟩
  rw [List.take_append_drop] at hfront
  rw [List.length_take_of_le hle]
  exact Rule.length_le_of_longestMatch? h hfront hmem

/-- The first fragment leads the rest of the source. -/
theorem first_leads {source : List Char} (hne : source ≠ []) : ∃ after,
    source = (first source).text ++ after ∧ (first source).Leads after := by
  cases hmatch : Rule.longestMatch? Rule.all source with
  | none =>
    obtain ⟨c, after, rfl⟩ := List.exists_cons_of_ne_nil hne
    rw [first_of_piece (Piece.first_of_none hmatch) (by simp)]
    refine ⟨after, rfl, .unknown c after fun rule front hfront => ?_⟩
    have hzero := Rule.longestMatch?_eq_none_iff.mp hmatch rule (Rule.mem_all rule)
    exact Rule.munch_eq_zero_iff.mp hzero front hfront
  | some m =>
    by_cases hrule : m.rule = .commentOpener
    · exact leads_of_comment hmatch hrule
    · exact leads_of_lexeme hmatch hrule

end Fragment
end DecafLex
