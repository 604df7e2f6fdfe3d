import DecafLex.Proofs.Rule.Characters
import DecafLex.Proofs.Scanner.Split

/-! Spaces around the lexemes of tokens. A lexeme in front of a space is taken as it stands, and a
space in front of a text only moves the lexemes of the text. -/
namespace DecafLex

namespace Fragment

/-- A front of the text `faded` without a space is also a front of `text`. -/
def Fades (text faded : List Char) : Prop :=
  ∀ front, ' ' ∉ front → front <+: faded → front <+: text

theorem fades_nil (text : List Char) : Fades text [] := by
  intro front _ hfront
  rw [List.prefix_nil.mp hfront]
  exact List.nil_prefix

theorem fades_space (text rest : List Char) : Fades text (' ' :: rest) := by
  intro front hspace hfront
  cases front with
  | nil => exact List.nil_prefix
  | cons c front =>
    obtain rfl : c = ' ' := (List.cons_prefix_cons.mp hfront).1
    exact absurd List.mem_cons_self hspace

variable {f : Fragment} {after : List Char}

/-- The lexeme of a token does not go on over spaces. -/
theorem NoLonger.fade {rule : Rule} {text faded : List Char} (hmem : text ∈ rule.language)
    (hrule : rule ≠ .openString ∧ rule.isSkipped = false)
    (h : NoLonger text.length (text ++ after)) (hfades : Fades after faded) :
    NoLonger text.length (text ++ faded) := by
  intro rule' front hfront hmem'
  by_contra hlt
  obtain ⟨rest, rfl⟩ : text <+: front :=
    List.prefix_of_prefix_length_le (List.prefix_append text faded) hfront (by omega)
  have hrest : rest <+: faded := (List.prefix_append_right_inj text).mp hfront
  -- Without a space the longer front stood there before; with one it would be no token.
  by_cases hspace : ' ' ∈ rest
  · have hne : text ≠ [] := fun hnil => Rule.nil_notMem_language rule (hnil ▸ hmem)
    rcases Rule.skipped_of_append_space hne hspace hmem' with ⟨other, hother, htext⟩ | ⟨rfl, hhead⟩
    · obtain rfl := Rule.eq_of_mem_language hmem htext
      rcases hother with hskipped | rfl
      · exact Bool.false_ne_true (hrule.2.symm.trans hskipped)
      · exact hrule.1 rfl
    · have hslash : ['/'] <+: after := by
        apply hfades _ (by decide)
        obtain ⟨tail, rfl⟩ := List.head?_eq_some_iff.mp hhead
        exact (List.prefix_append ['/'] tail).trans hrest
      have hcomment : ['/', '/'] ∈ Rule.lineComment.language :=
        Rule.mem_lineComment.mpr ⟨[], rfl, by simp⟩
      have hle := h .lineComment ['/', '/'] (List.cons_prefix_cons.mpr ⟨rfl, hslash⟩) hcomment
      simp at hle
  · have hback := (List.prefix_append_right_inj text).mpr (hfades rest hspace hrest)
    exact hlt (h rule' _ hback hmem')

/-- The fragment makes a token. -/
def makesToken (f : Fragment) : Bool :=
  match f.meaning with
  | .token .. | .name => true
  | _ => false

/-- The fragment is a token or it is passed over. -/
def Quiet (f : Fragment) : Prop := f.meaning = .nothing ∨ f.makesToken = true

theorem Leads.rule_of_makesToken (h : f.Leads after) (htoken : f.makesToken = true) :
    ∃ rule : Rule, f.meaning = rule.meaning f.text ∧
      (rule ≠ .commentOpener ∧ rule ≠ .openString ∧ rule.isSkipped = false) ∧
      f.text ∈ rule.language ∧ NoLonger f.text.length (f.text ++ after) := by
  cases h with
  | lexeme rule text after hrule hmem hlonger =>
    refine ⟨rule, rfl, ?_, hmem, hlonger⟩
    have hmeans := Rule.means_meaning rule text
    unfold makesToken at htoken
    generalize rule.meaning text = meaning at hmeans htoken
    cases hmeans with
    | token _ _ _ hkind => exact hkind
    | name => exact ⟨hrule, by simp, rfl⟩
    | _ => cases htoken
  | comment | unknown => cases htoken

theorem Leads.fade (h : f.Leads after) (htoken : f.makesToken = true) {faded : List Char}
    (hfades : Fades after faded) : f.Leads faded := by
  obtain ⟨rule, hmeaning, hrule, hmem, hlonger⟩ := h.rule_of_makesToken htoken
  obtain ⟨text, meaning⟩ := f
  obtain rfl : meaning = rule.meaning text := hmeaning
  exact .lexeme rule text faded hrule.1 hmem (hlonger.fade hmem hrule.2 hfades)

theorem Leads.newline_notMem (h : f.Leads after) (htoken : f.makesToken = true) :
    '\n' ∉ f.text := by
  obtain ⟨rule, -, ⟨-, -, hskipped⟩, hmem, -⟩ := h.rule_of_makesToken htoken
  apply Rule.newline_notMem _ hmem
  rintro rfl
  cases hskipped

/-- Blanks are the only fragment that begins with one. -/
theorem Leads.blanks_of_isBlank (h : f.Leads after) {c : Char} {rest : List Char}
    (htext : f.text = c :: rest) (hc : Rule.isBlank c = true) :
    f = ⟨f.text, .nothing⟩ ∧ f.text ∈ Rule.blanks.language ∧
      NoLonger f.text.length (f.text ++ after) := by
  cases h with
  | lexeme rule text after hrule hmem hlonger =>
    obtain rfl : text = c :: rest := htext
    obtain rfl := Rule.eq_blanks_of_isBlank hc hmem
    exact ⟨rfl, hmem, hlonger⟩
  | comment body =>
    obtain rfl : '/' = c := (List.cons.inj htext).1
    cases hc
  | unknown d after hnone =>
    obtain rfl : d = c := (List.cons.inj htext).1
    exact absurd (Rule.mem_blanks.mpr ⟨by simp, by simpa using hc⟩)
      (hnone .blanks [d] (List.prefix_append [d] after))

theorem space_leads {text : List Char} (hblank : ∀ c ∈ text, Rule.isBlank c = true)
    (h : ∀ front, front <+: text ++ after → front ∈ Rule.blanks.language →
      front.length ≤ text.length) :
    Leads ⟨' ' :: text, .nothing⟩ after := by
  have hmem : ' ' :: text ∈ Rule.blanks.language :=
    Rule.mem_blanks.mpr ⟨by simp, List.forall_mem_cons.mpr ⟨rfl, hblank⟩⟩
  refine .lexeme .blanks (' ' :: text) after (by simp) hmem ?_
  intro rule front hfront hmem'
  cases front with
  | nil => exact absurd hmem' (Rule.nil_notMem_language rule)
  | cons c front =>
    obtain ⟨rfl, htail⟩ := List.cons_prefix_cons.mp hfront
    obtain rfl := Rule.eq_blanks_of_isBlank rfl hmem'
    simp only [List.length_cons, Nat.add_le_add_iff_right]
    by_cases hnil : front = []
    · simp [hnil]
    · exact h front htail
        (Rule.mem_blanks.mpr ⟨hnil, (List.forall_mem_cons.mp (Rule.mem_blanks.mp hmem').2).2⟩)

/-- The fragments that make tokens, in their places. -/
def lexemes (p : Position) (fs : List Fragment) : List Placed :=
  (place p fs).filter (·.fragment.makesToken)

theorem lexemes_cons_of_makesToken (p : Position) (h : f.makesToken = true) (fs : List Fragment) :
    lexemes p (f :: fs) = ⟨p, f⟩ :: lexemes (p.advance f.text) fs := List.filter_cons_of_pos h

theorem lexemes_cons_of_not_makesToken (p : Position) (h : ¬ f.makesToken) (fs : List Fragment) :
    lexemes p (f :: fs) = lexemes (p.advance f.text) fs := List.filter_cons_of_neg h

/-- A space in front moves the lexemes one column to the right. -/
theorem Splits.space {text : List Char} {fs : List Fragment} (h : Splits text fs) :
    ∃ gs, Splits (' ' :: text) gs ∧ ((∀ f ∈ fs, f.Quiet) → ∀ g ∈ gs, g.Quiet) ∧
      ∀ p : Position, lexemes p gs = lexemes (p.step ' ') fs := by
  have hquiet (text : List Char) : Quiet ⟨text, .nothing⟩ := .inl rfl
  cases h with
  | nil =>
    have hspace : Leads ⟨[' '], .nothing⟩ [] := by
      apply space_leads (by simp)
      intro front hfront _
      rw [List.prefix_nil.mp hfront]
    refine ⟨_, .cons hspace .nil, ?_, fun p => rfl⟩
    intro _
    exact List.forall_mem_singleton.mpr (hquiet _)
  | @cons f after fs hleads hrest =>
    obtain ⟨c, rest, htext⟩ := List.exists_cons_of_ne_nil hleads.text_ne_nil
    -- Blanks at the front take the space in; from anything else it stands apart.
    by_cases hc : Rule.isBlank c = true
    · obtain ⟨hf, hmem, hlonger⟩ := hleads.blanks_of_isBlank htext hc
      have hspace : Leads ⟨' ' :: f.text, .nothing⟩ after :=
        space_leads (Rule.mem_blanks.mp hmem).2 (hlonger .blanks)
      refine ⟨_, .cons hspace hrest, ?_, ?_⟩
      · intro h
        exact List.forall_mem_cons.mpr ⟨hquiet _, (List.forall_mem_cons.mp h).2⟩
      · intro p
        rw [hf]
        rfl
    · have hspace : Leads ⟨[' '], .nothing⟩ (f.text ++ after) := by
        apply space_leads (by simp)
        intro front hfront hmem
        rw [htext] at hfront
        cases front with
        | nil => exact Nat.le_refl 0
        | cons d front =>
          obtain ⟨rfl, -⟩ := List.cons_prefix_cons.mp hfront
          exact absurd ((Rule.mem_blanks.mp hmem).2 d List.mem_cons_self) hc
      refine ⟨_, .cons hspace (.cons hleads hrest), ?_, fun p => rfl⟩
      intro h
      exact List.forall_mem_cons.mpr ⟨hquiet _, h⟩

theorem Quiet.closed (h : f.Quiet) : f.Closed := by
  intro hmeaning
  rcases h with hnothing | htoken
  · cases hnothing.symm.trans hmeaning
  · rw [makesToken, hmeaning] at htoken
    cases htoken

theorem Quiet.diagnostic? (h : f.Quiet) (p : Position) : Placed.diagnostic? ⟨p, f⟩ = none := by
  have hfatal := Placed.fatal?_eq_none_iff (x := ⟨p, f⟩) |>.mpr h.closed
  rw [Placed.diagnostic?, hfatal, Option.or_none, Placed.problem?]
  unfold Quiet makesToken at h
  cases hmeaning : f.meaning with
  | rejected => simp [hmeaning] at h
  | _ => rfl

theorem token?_eq_none_of_not_makesToken {x : Placed} (number : String → DeclId)
    (h : ¬ x.fragment.makesToken) : x.token? number = none ∧ x.occurrence? = none := by
  unfold Placed.token? Placed.occurrence?
  unfold makesToken at h
  cases hmeaning : x.fragment.meaning with
  | token | name => simp [hmeaning] at h
  | _ => exact ⟨rfl, rfl⟩

theorem token?_of_makesToken {x : Placed} (number : String → DeclId)
    (hleads : x.fragment.Leads after) (h : x.fragment.makesToken = true) :
    ∃ t : Token, x.token? number = some t ∧ t.kind ≠ .endOfInput ∧ t.span = x.span := by
  obtain ⟨rule, hmeaning, -⟩ := hleads.rule_of_makesToken h
  unfold Placed.token?
  unfold makesToken at h
  cases hcase : x.fragment.meaning with
  | token kind value =>
    exact ⟨_, rfl, (Rule.token_of_meaning (hmeaning.symm.trans hcase)).2.1, rfl⟩
  | name => exact ⟨_, rfl, TokenKind.noConfusion, rfl⟩
  | _ => simp [hcase] at h

private theorem filterMap_filter_of_none {α β : Type} {keep : α → Bool} {f : α → Option β}
    (h : ∀ x, ¬ keep x → f x = none) (xs : List α) :
    (xs.filter keep).filterMap f = xs.filterMap f := by
  rw [List.filterMap_filter]
  apply List.filterMap_congr
  intro x _
  by_cases hx : keep x
  · rw [if_pos hx]
  · rw [if_neg hx, h x hx]

theorem filterMap_token?_lexemes (number : String → DeclId) (p : Position) (fs : List Fragment) :
    (lexemes p fs).filterMap (Placed.token? number) =
      (place p fs).filterMap (Placed.token? number) :=
  filterMap_filter_of_none (fun _ hx => (token?_eq_none_of_not_makesToken number hx).1) _

theorem filterMap_occurrence?_lexemes (p : Position) (fs : List Fragment) :
    (lexemes p fs).filterMap Placed.occurrence? = occurrences p fs :=
  filterMap_filter_of_none
    (fun _ hx => (token?_eq_none_of_not_makesToken (fun _ => ⟨0⟩) hx).2) _

end Fragment

namespace Tokenized
open Fragment

/-- What a scan gives that finds these lexemes, reports nothing and ends at a position. -/
def ofLexemes (config : Config) (xs : List Placed) (last : Position) : Tokenized :=
  let table := (SymbolTable.empty config.hash config.bucketCount).internAll
    (xs.filterMap Placed.occurrence?)
  { tokens := xs.filterMap (Placed.token? table.idOf) ++ [⟨.endOfInput, "", none, last.here⟩]
    symbols := table
    diagnostics := [] }

theorem ofLexemes_lexemes (config : Config) (fs : List Fragment) :
    ofLexemes config (lexemes .start fs) (Position.start.advance (fs.flatMap text)) =
      { ofFragments config fs with diagnostics := [] } := by
  unfold ofLexemes ofFragments
  simp only [filterMap_occurrence?_lexemes, filterMap_token?_lexemes]

end Tokenized

namespace Scanner
open Fragment

/-- A source of quiet fragments is scanned to its end, and nothing is reported. -/
theorem tokenize_of_quiet (config : Config) {source : String} {fs : List Fragment}
    (h : Splits source.toList fs) (hquiet : ∀ f ∈ fs, f.Quiet) :
    tokenize config source =
      .ok (.ofLexemes config (lexemes .start fs) (Position.start.advance source.toList)) := by
  have hreported : (Tokenized.ofFragments config fs).diagnostics = [] := by
    apply List.filterMap_eq_nil_iff.mpr
    intro x hx
    have hf : x.fragment ∈ fs := map_fragment_place .start fs ▸ List.mem_map_of_mem hx
    exact (hquiet _ hf).diagnostic? x.position
  rw [tokenize_of_closed config h fun f hf => (hquiet f hf).closed, ← h.flatMap_text,
    Tokenized.ofLexemes_lexemes, ← hreported]

end Scanner
end DecafLex
