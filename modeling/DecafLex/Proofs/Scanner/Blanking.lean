import DecafLex.Proofs.Scanner.Spaces
import DecafLex.Proofs.Scanner.Spans
import DecafLex.Runtime

/-! Scanning a text in which only the lexemes of its tokens are left. Comments, rejected text and
tabs have become spaces, and the tokens are the same in the same places. -/
namespace DecafLex

/-- The character that comes next at the position stands in the span. -/
def Span.Holds (s : Span) (p : Position) : Prop :=
  p.line = s.line ∧ s.firstColumn ≤ p.column + 1 ∧ p.column + 1 ≤ s.lastColumn

instance (s : Span) (p : Position) : Decidable (s.Holds p) := inferInstanceAs (Decidable (_ ∧ _ ∧ _))

/-- All of the span has been consumed at the position. -/
def Position.Follows (p : Position) (s : Span) : Prop :=
  s.line < p.line ∨ s.line = p.line ∧ s.lastColumn ≤ p.column

namespace Text

/-- Spaces for all characters but the newlines. -/
def blank (text : List Char) : List Char := text.map fun c => if c = '\n' then c else ' '

/-- Spaces for the characters outside the spans, the newlines apart. -/
def blankOutside (spans : List Span) (p : Position) : List Char → List Char
  | [] => []
  | c :: text =>
    (if c = '\n' ∨ ∃ s ∈ spans, s.Holds p then c else ' ') :: blankOutside spans (p.step c) text

end Text

namespace Position
open Text

variable {p : Position} {s : Span}

theorem advance_blank (p : Position) (text : List Char) : p.advance (blank text) = p.advance text := by
  induction text generalizing p with
  | nil => rfl
  | cons c text ih =>
    have hstep : p.step (if c = '\n' then c else ' ') = p.step c := by
      split
      next => rfl
      next hc => rw [step, step, if_neg hc, if_neg (by decide)]
    change (p.step _).advance (blank text) = (p.step c).advance text
    rw [hstep, ih]

theorem Follows.advance (h : p.Follows s) (text : List Char) : (p.advance text).Follows s := by
  rw [advance_eq]
  unfold Follows at h ⊢
  split
  next hmem =>
    have := List.count_pos_iff.mpr hmem
    dsimp only
    omega
  next =>
    dsimp only
    omega

theorem follows_cover (p : Position) {text : List Char} (hne : text ≠ []) (h : '\n' ∉ text) :
    (p.advance text).Follows (p.cover text) := by
  rw [cover_eq p hne h, advance_eq, if_neg h]
  exact .inr ⟨rfl, Nat.le_refl _⟩

theorem Follows.not_holds (h : p.Follows s) : ¬ s.Holds p := by
  unfold Follows at h
  unfold Span.Holds
  omega

theorem Precedes.not_holds {c : Char} (h : (p.step c).Precedes s) : ¬ s.Holds p := by
  unfold Precedes step at h
  unfold Span.Holds
  split at h <;> dsimp only at h <;> omega

end Position

namespace Text

variable {spans : List Span} {p : Position}

theorem blankOutside_append (spans : List Span) (p : Position) (a b : List Char) :
    blankOutside spans p (a ++ b) =
      blankOutside spans p a ++ blankOutside spans (p.advance a) b := by
  induction a generalizing p with
  | nil => rfl
  | cons c a ih =>
    rw [List.cons_append, blankOutside, ih, blankOutside, List.cons_append]
    rfl

/-- Where every span lies behind or ahead, all of the text is blanked. -/
theorem blankOutside_of_outside {text : List Char}
    (h : ∀ s ∈ spans, p.Follows s ∨ (p.advance text).Precedes s) :
    blankOutside spans p text = blank text := by
  induction text generalizing p with
  | nil => rfl
  | cons c text ih =>
    have hout : ¬ ∃ s ∈ spans, s.Holds p := by
      intro ⟨s, hs, hholds⟩
      rcases h s hs with hbehind | hahead
      · exact hbehind.not_holds hholds
      · have hnext : ((p.step c).advance text).Precedes s := hahead
        exact hnext.of_advance.not_holds hholds
    have htail := ih (p := p.step c) fun s hs =>
      (h s hs).imp_left fun hbehind => hbehind.advance [c]
    simp only [blankOutside, hout, or_false, htail, blank, List.map_cons]

/-- Where a span reaches over the text, the text stays. -/
theorem blankOutside_of_mem {text : List Char} {s : Span} (hs : s ∈ spans) (hline : s.line = p.line)
    (hfirst : s.firstColumn ≤ p.column + 1) (hlast : p.column + text.length ≤ s.lastColumn)
    (hnewline : '\n' ∉ text) : blankOutside spans p text = text := by
  induction text generalizing p with
  | nil => rfl
  | cons c text ih =>
    obtain ⟨hc, htext⟩ : '\n' ≠ c ∧ '\n' ∉ text := by simpa using hnewline
    rw [List.length_cons] at hlast
    have hholds : s.Holds p := ⟨hline.symm, hfirst, by omega⟩
    have hstep : p.step c = ⟨p.line, p.column + 1⟩ := if_neg (Ne.symm hc)
    have htail : p.column + 1 + text.length ≤ s.lastColumn := by omega
    rw [blankOutside, if_pos (.inr ⟨s, hs, hholds⟩), hstep]
    exact congrArg _ (ih (p := ⟨p.line, p.column + 1⟩) hline (Nat.le_succ_of_le hfirst) htail htext)

end Text

namespace Fragment
open Text

variable {f : Fragment} {text text' : List Char} {fs : List Fragment}

theorem Fades.cons (h : Fades text text') (c : Char) : Fades (c :: text) (c :: text') := by
  intro front hspace hfront
  cases front with
  | nil => exact List.nil_prefix
  | cons d front =>
    obtain ⟨rfl, htail⟩ := List.cons_prefix_cons.mp hfront
    exact List.cons_prefix_cons.mpr ⟨rfl, h front (fun hmem => hspace (.tail _ hmem)) htail⟩

theorem Fades.append (h : Fades text text') (front : List Char) :
    Fades (front ++ text) (front ++ text') := by
  induction front with
  | nil => exact h
  | cons c front ih => exact ih.cons c

theorem Fades.append_blank (h : Fades text text') (front : List Char) :
    Fades (front ++ text) (blank front ++ text') := by
  induction front with
  | nil => exact h
  | cons c front ih =>
    change Fades _ ((if c = '\n' then c else ' ') :: (blank front ++ text'))
    split
    next => exact ih.cons c
    next => exact fades_space _ _

/-- The text of the fragment, blanked if it makes no token. -/
def faded (f : Fragment) : List Char := if f.makesToken then f.text else blank f.text

theorem fades_flatMap (fs : List Fragment) : Fades (fs.flatMap Fragment.text) (fs.flatMap faded) := by
  induction fs with
  | nil => exact fades_nil _
  | cons f fs ih =>
    rw [List.flatMap_cons, List.flatMap_cons, faded]
    split
    · exact ih.append f.text
    · exact ih.append_blank f.text

theorem advance_faded (p : Position) (fs : List Fragment) :
    p.advance (fs.flatMap faded) = p.advance (fs.flatMap Fragment.text) := by
  induction fs generalizing p with
  | nil => rfl
  | cons f fs ih =>
    have hfirst : p.advance f.faded = p.advance f.text := by
      unfold faded
      split
      · rfl
      · exact Position.advance_blank p f.text
    rw [List.flatMap_cons, List.flatMap_cons, Position.advance_append, Position.advance_append,
      hfirst, ih]

/-- Blanked text in front moves the lexemes as the text itself does. -/
theorem Splits.blank (h : Splits text fs) (hquiet : ∀ f ∈ fs, f.Quiet) (front : List Char) :
    ∃ gs, Splits (blank front ++ text) gs ∧ (∀ g ∈ gs, g.Quiet) ∧
      ∀ p : Position, lexemes p gs = lexemes (p.advance front) fs := by
  induction front with
  | nil => exact ⟨fs, h, hquiet, fun p => rfl⟩
  | cons c front ih =>
    obtain ⟨gs, hsplits, hgs, hlexemes⟩ := ih
    by_cases hc : c = '\n'
    · subst hc
      refine ⟨newline :: gs, .cons (newline_leads _) hsplits, ?_, ?_⟩
      · exact List.forall_mem_cons.mpr ⟨.inl rfl, hgs⟩
      · intro p
        exact hlexemes (p.step '\n')
    · obtain ⟨gs', hsplits', hgs', hlexemes'⟩ := hsplits.space
      refine ⟨gs', ?_, hgs' hgs, ?_⟩
      · rwa [Text.blank, List.map_cons, if_neg hc]
      · intro p
        have hstep : p.step ' ' = p.step c := by
          rw [Position.step, Position.step, if_neg (by decide), if_neg hc]
        rw [hlexemes', hlexemes, hstep]
        rfl

/-- Neighbours that are blanked leave a lexeme what it is. -/
theorem Splits.fade (h : Splits text fs) : ∃ gs, Splits (fs.flatMap faded) gs ∧
    (∀ g ∈ gs, g.Quiet) ∧ ∀ p : Position, lexemes p gs = lexemes p fs := by
  induction h with
  | nil => exact ⟨[], .nil, by simp, fun p => rfl⟩
  | @cons f after fs hleads hrest ih =>
    obtain ⟨gs, hsplits, hquiet, hlexemes⟩ := ih
    by_cases htoken : f.makesToken
    · have hfades := fades_flatMap fs
      rw [hrest.flatMap_text] at hfades
      refine ⟨f :: gs, ?_, List.forall_mem_cons.mpr ⟨.inr htoken, hquiet⟩, ?_⟩
      · rw [List.flatMap_cons, faded, if_pos htoken]
        exact .cons (hleads.fade htoken hfades) hsplits
      · intro p
        rw [lexemes_cons_of_makesToken p htoken, lexemes_cons_of_makesToken p htoken, hlexemes]
    · obtain ⟨gs', hsplits', hquiet', hlexemes'⟩ := hsplits.blank hquiet f.text
      refine ⟨gs', ?_, hquiet', ?_⟩
      · rwa [List.flatMap_cons, faded, if_neg htoken]
      · intro p
        rw [lexemes_cons_of_not_makesToken p htoken, hlexemes', hlexemes]

theorem Splits.precedes_lexemes (h : Splits text fs) {p : Position} {x : Placed}
    (hx : x ∈ lexemes p fs) : p.Precedes x.span := by
  induction h generalizing p with
  | nil => cases hx
  | @cons f after fs hleads hrest ih =>
    by_cases htoken : f.makesToken
    · rw [lexemes_cons_of_makesToken p htoken] at hx
      rcases List.mem_cons.mp hx with rfl | hx
      · exact p.precedes_cover hleads.text_ne_nil (hleads.newline_notMem htoken)
      · exact (ih hx).of_advance
    · rw [lexemes_cons_of_not_makesToken p htoken] at hx
      exact (ih hx).of_advance

/-- What is outside the lexemes is what makes no token. -/
theorem Splits.blankOutside (h : Splits text fs) {p : Position} {spans : List Span}
    (hspans : ∀ s ∈ spans, p.Follows s ∨ s ∈ (lexemes p fs).map Placed.span)
    (hlexemes : ∀ x ∈ lexemes p fs, x.span ∈ spans) :
    Text.blankOutside spans p text = fs.flatMap faded := by
  induction h generalizing p with
  | nil => rfl
  | @cons f after fs hleads hrest ih =>
    rw [blankOutside_append, List.flatMap_cons, faded]
    by_cases htoken : f.makesToken
    · have hnewline := hleads.newline_notMem htoken
      have hcover := p.cover_eq hleads.text_ne_nil hnewline
      rw [lexemes_cons_of_makesToken p htoken] at hspans hlexemes
      obtain ⟨hfirst, hlater⟩ := List.forall_mem_cons.mp hlexemes
      have htail : ∀ s ∈ spans, (p.advance f.text).Follows s ∨
          s ∈ (lexemes (p.advance f.text) fs).map Placed.span := by
        intro s hs
        rcases hspans s hs with hbehind | hmem
        · exact .inl (hbehind.advance f.text)
        · rw [List.map_cons] at hmem
          rcases List.mem_cons.mp hmem with rfl | hmem
          · exact .inl (p.follows_cover hleads.text_ne_nil hnewline)
          · exact .inr hmem
      change p.cover f.text ∈ spans at hfirst
      rw [hcover] at hfirst
      rw [if_pos htoken, ih htail hlater,
        blankOutside_of_mem hfirst rfl (Nat.le_refl _) (Nat.le_refl _) hnewline]
    · rw [lexemes_cons_of_not_makesToken p htoken] at hspans hlexemes
      have hout : ∀ s ∈ spans, p.Follows s ∨ (p.advance f.text).Precedes s := by
        intro s hs
        apply (hspans s hs).imp_right
        intro hmem
        obtain ⟨x, hx, rfl⟩ := List.mem_map.mp hmem
        exact hrest.precedes_lexemes hx
      have htail := ih (p := p.advance f.text)
        (fun s hs => (hspans s hs).imp_left fun hbehind => hbehind.advance f.text) hlexemes
      rw [if_neg htoken, htail, blankOutside_of_outside hout]

end Fragment

namespace Tokenized
open Fragment

/-- The places of the lexemes of the tokens. -/
def lexemeSpans (result : Tokenized) : List Span :=
  (result.tokens.filter (·.kind ≠ .endOfInput)).map (·.span)

/-- The source with nothing but the lexemes of the tokens and the newlines left. -/
def blanked (result : Tokenized) (source : String) : String :=
  String.ofList (Text.blankOutside result.lexemeSpans .start source.toList)

theorem lexemeSpans_ofFragments (config : Config) {source : List Char} {fs : List Fragment}
    (h : Splits source fs) :
    (ofFragments config fs).lexemeSpans = (lexemes .start fs).map Placed.span := by
  have hall : ∀ x ∈ lexemes .start fs, ∀ number, ∃ t : Token,
      x.token? number = some t ∧ t.kind ≠ .endOfInput ∧ t.span = x.span := by
    intro x hx number
    obtain ⟨hplaced, htoken⟩ := List.mem_filter.mp hx
    obtain ⟨after, hleads⟩ :=
      h.leads_of_mem (map_fragment_place .start fs ▸ List.mem_map_of_mem hplaced)
    exact token?_of_makesToken number hleads htoken
  have hlast (last : Position) :
      [(⟨.endOfInput, "", none, last.here⟩ : Token)].filter (·.kind ≠ .endOfInput) = [] := rfl
  unfold lexemeSpans ofFragments
  dsimp only
  rw [← filterMap_token?_lexemes, List.filter_append, hlast, List.append_nil]
  generalize lexemes .start fs = xs at hall
  generalize SymbolTable.idOf _ = number
  induction xs with
  | nil => rfl
  | cons x xs ih =>
    obtain ⟨hfirst, hrest⟩ := List.forall_mem_cons.mp hall
    obtain ⟨t, ht, hkind, hspan⟩ := hfirst number
    rw [List.filterMap_cons_some ht, List.filter_cons_of_pos (by simpa using hkind),
      List.map_cons, List.map_cons, hspan, ih hrest]

end Tokenized

namespace Scanner
open Fragment

/-- Text that makes no token is as good as spaces: with all of it blanked, the same tokens are found
in the same places, the same identifiers are declared, and nothing is reported. -/
theorem tokenize_blanked (config : Config) (source : String) {result : Tokenized}
    (h : tokenize config source = .ok result) :
    tokenize config (result.blanked source) = .ok { result with diagnostics := [] } := by
  obtain ⟨fs, hsplits, -, rfl⟩ := exists_splits_of_ok h
  obtain ⟨gs, hfaded, hquiet, hlexemes⟩ := hsplits.fade
  have hblanked : ((Tokenized.ofFragments config fs).blanked source).toList =
      fs.flatMap faded := by
    have hspans := Tokenized.lexemeSpans_ofFragments config hsplits
    rw [Tokenized.blanked, String.toList_ofList]
    apply hsplits.blankOutside
    · intro s hs
      exact .inr (hspans ▸ hs)
    · intro x hx
      rw [hspans]
      exact List.mem_map_of_mem hx
  rw [← hblanked] at hfaded
  rw [tokenize_of_quiet config hfaded hquiet, hlexemes, hblanked, advance_faded,
    Tokenized.ofLexemes_lexemes]

/-- A comment over two lines, a rejected character and a string that is not closed. -/
theorem tokenize_blanked_comment : ∃ result,
    tokenize .standard "x/*\n*/\t#7 \"y" = .ok result ∧ result.diagnostics.length = 2 ∧
    result.blanked "x/*\n*/\t#7 \"y" = "x  \n    7   " ∧
    tokenize .standard "x  \n    7   " = .ok { result with diagnostics := [] } := by
  obtain ⟨result, hresult⟩ : ∃ result, tokenize .standard "x/*\n*/\t#7 \"y" = .ok result :=
    exists_ok_of_isOk (by decide +kernel)
  have hcount : (tokenize .standard "x/*\n*/\t#7 \"y").map (·.diagnostics.length) = .ok 2 := by
    decide +kernel
  have hblanked : (tokenize .standard "x/*\n*/\t#7 \"y").map
      (·.blanked "x/*\n*/\t#7 \"y") = .ok "x  \n    7   " := by
    decide +kernel
  rw [hresult] at hcount hblanked
  have hagain := tokenize_blanked .standard "x/*\n*/\t#7 \"y" hresult
  have htext : result.blanked "x/*\n*/\t#7 \"y" = "x  \n    7   " := Except.ok.inj hblanked
  rw [htext] at hagain
  exact ⟨result, hresult, Except.ok.inj hcount, htext, hagain⟩

end Scanner
end DecafLex
