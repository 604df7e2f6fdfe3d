import DecafLex.Proofs.Rule.Munch
import DecafLex.Proofs.Text.Extent
import DecafLex.Rule.LongestMatch
import Mathlib.Data.List.Perm.Basic

/-! The choice among the rules. Every rule contributes its longest match, the longest of these wins,
and there is only one rule that can win. -/
namespace DecafLex.Rule
open Pattern Text

theorem mem_all (rule : Rule) : rule ∈ all := by
  cases rule <;> simp [all, Operator.mem_all]

theorem pattern_longestFirst (rule : Rule) : rule.pattern.LongestFirst := by
  cases rule with
  | commentOpener | newline | operator => exact longestFirst_literal _
  | lineComment => exact (longestFirst_star _).literal_seq _
  | blanks | decimal => exact longestFirst_plus _
  | double =>
    have hexponent : exponentPattern.LongestFirst := ((longestFirst_plus _).one_seq _).one_seq _
    have hempty : [] ∉ exponentPattern.language := fun h => by
      obtain ⟨mark, sign, digits, he, -⟩ := mem_exponentPattern.mp h
      cases he
    have hmark : (Pattern.optional exponentPattern).Avoids Char.isDigit :=
      (avoids_one_seq (by simp +contextual [isExponentMark, or_imp]) _).optional
    have hfraction := (hexponent.optional hempty).star_seq hmark
    have hpoint : (seq (char '.') (seq (star digit) (Pattern.optional exponentPattern))).Avoids
        Char.isDigit := avoids_one_seq (by simp) _
    exact (((hfraction.one_seq _).star_seq hpoint).one_seq _).assoc
  | hexadecimal => exact ((longestFirst_plus _).one_seq _).one_seq _
  | string =>
    have hquote : (char '"').Avoids isInString := avoids_one (by simp [isInString])
    exact ((longestFirst_one _).star_seq hquote).one_seq _
  | openString | word => exact (longestFirst_star _).one_seq _

/-- What the search for the pattern prefers is what the rule takes. -/
theorem find?_pattern (rule : Rule) (text : List Char) :
    rule.pattern.find? text =
      if rule.munch text = 0 then none else some (text.take (rule.munch text)) := by
  split
  next hzero => exact (find?_eq_none_iff _ _).mpr (munch_eq_zero_iff.mp hzero)
  next hne =>
    have hmunch := munch_isLongest (Nat.pos_of_ne_zero hne)
    cases hfind : rule.pattern.find? text with
    | none =>
      exact absurd hmunch.mem ((find?_eq_none_iff _ _).mp hfind _ hmunch.isPrefix)
    | some front =>
      have hfront := (pattern_longestFirst rule).find? hfind
      have hle := hfront.length_le _ hmunch.isPrefix hmunch.mem
      have hge := hmunch.length_le _ hfront.isPrefix hfront.mem
      have hlen := Nat.le_antisymm hge hle
      rw [(List.prefix_of_prefix_length_le hfront.isPrefix hmunch.isPrefix hge).eq_of_length hlen]

theorem longestMatch?_eq_none_iff {rules : List Rule} {text : List Char} :
    longestMatch? rules text = none ↔ ∀ rule ∈ rules, rule.munch text = 0 := by
  induction rules with
  | nil => simp [longestMatch?]
  | cons rule rules ih =>
    cases hbest : longestMatch? rules text with
    | none =>
      have hzero := ih.mp hbest
      simp only [longestMatch?, hbest, List.forall_mem_cons]
      by_cases hmunch : rule.munch text = 0
      · simpa [hmunch] using hzero
      · simp [hmunch]
    | some best =>
      have hsome : ¬ ∀ rule ∈ rules, rule.munch text = 0 := fun h => by simp [ih.mpr h] at hbest
      simp only [longestMatch?, hbest, List.forall_mem_cons]
      split <;> simp [hsome]

/-- The winner takes what its rule takes, and no rule takes more. -/
theorem longestMatch?_spec {rules : List Rule} {text : List Char} {m : Match}
    (h : longestMatch? rules text = some m) :
    m.rule ∈ rules ∧ m.length = m.rule.munch text ∧
      ∀ rule ∈ rules, rule.munch text ≤ m.length := by
  induction rules generalizing m with
  | nil => simp [longestMatch?] at h
  | cons rule rules ih =>
    cases hbest : longestMatch? rules text with
    | none =>
      have hzero := longestMatch?_eq_none_iff.mp hbest
      simp only [longestMatch?, hbest, Option.ite_none_left_eq_some, Option.some.injEq] at h
      obtain ⟨-, rfl⟩ := h
      refine ⟨List.mem_cons_self, rfl, List.forall_mem_cons.mpr ⟨le_rfl, fun other hother => ?_⟩⟩
      rw [hzero other hother]
      exact Nat.zero_le _
    | some best =>
      obtain ⟨hmem, hlen, hle⟩ := ih hbest
      simp only [longestMatch?, hbest] at h
      split at h <;> obtain rfl := Option.some.inj h
      next hge =>
        exact ⟨List.mem_cons_self, rfl, List.forall_mem_cons.mpr
          ⟨le_rfl, fun other hother => (hle other hother).trans hge⟩⟩
      next hlt =>
        exact ⟨List.mem_cons_of_mem _ hmem, hlen, List.forall_mem_cons.mpr
          ⟨(Nat.lt_of_not_le hlt).le, hle⟩⟩

theorem longestMatch?_all_isLongest {text : List Char} {m : Match}
    (h : longestMatch? all text = some m) :
    IsLongest m.rule.language text (text.take m.length) := by
  have hpos := longestMatch?_pos h
  obtain ⟨-, hlen, -⟩ := longestMatch?_spec h
  rw [hlen] at hpos ⊢
  exact munch_isLongest hpos

theorem length_le_of_longestMatch? {text front : List Char} {m : Match}
    (h : longestMatch? all text = some m) {rule : Rule} (hinit : front <+: text)
    (hfront : front ∈ rule.language) : front.length ≤ m.length := by
  obtain ⟨-, -, hle⟩ := longestMatch?_spec h
  have hmunch := hle rule (mem_all rule)
  rcases Nat.eq_zero_or_pos (rule.munch text) with hzero | hpos
  · exact absurd hfront (munch_eq_zero_iff.mp hzero front hinit)
  · have hlongest := (munch_isLongest hpos).length_le front hinit hfront
    rw [List.length_take_of_le (munch_le_length rule text)] at hlongest
    omega

theorem longestMatch?_perm {rules rules' : List Rule} (h : rules.Perm rules')
    (text : List Char) : longestMatch? rules text = longestMatch? rules' text := by
  cases hmatch : longestMatch? rules text with
  | none =>
    have hzero := longestMatch?_eq_none_iff.mp hmatch
    exact (longestMatch?_eq_none_iff.mpr fun rule hrule => hzero rule (h.mem_iff.mpr hrule)).symm
  | some m =>
    obtain ⟨hmem, hlen, hle⟩ := longestMatch?_spec hmatch
    have hpos := longestMatch?_pos hmatch
    cases hmatch' : longestMatch? rules' text with
    | none =>
      have := longestMatch?_eq_none_iff.mp hmatch' m.rule (h.mem_iff.mp hmem)
      omega
    | some m' =>
      obtain ⟨hmem', hlen', hle'⟩ := longestMatch?_spec hmatch'
      have hpos' := longestMatch?_pos hmatch'
      have hlength : m.length = m'.length := by
        have := hle m'.rule (h.mem_iff.mpr hmem')
        have := hle' m.rule (h.mem_iff.mp hmem)
        omega
      have hrule : m.rule = m'.rule := by
        have hlongest := (munch_isLongest (hlen ▸ hpos)).mem
        have hlongest' := (munch_isLongest (hlen' ▸ hpos')).mem
        rw [← hlen] at hlongest
        rw [← hlen', ← hlength] at hlongest'
        exact eq_of_mem_language hlongest hlongest'
      rw [show m = m' by cases m; cases m'; simp_all]

/-- A rule replaces the best match so far if what the search for its pattern prefers has more
bytes. -/
def improve (text : List Char) (best : Option (Rule × Nat)) (rule : Rule) : Option (Rule × Nat) :=
  match (rule.pattern.find? text).map byteLength with
  | some length => if best.elim 0 Prod.snd < length then some (rule, length) else best
  | none => best

/-- Goes through the rules once, with the best match so far and its number of bytes. -/
def search (rules : List Rule) (text : List Char) : Option (Rule × Nat) :=
  rules.foldl (improve text) none

private theorem foldl_improve (rules : List Rule) (text : List Char)
    (best : Option (Rule × Nat)) :
    rules.foldl (improve text) best =
      match longestMatch? rules text with
      | none => best
      | some m =>
        if best.elim 0 Prod.snd < byteLength (text.take m.length) then
          some (m.rule, byteLength (text.take m.length))
        else best := by
  induction rules generalizing best with
  | nil => rfl
  | cons rule rules ih =>
    rw [List.foldl_cons, ih]
    have hstep : improve text best rule = if rule.munch text = 0 then best
        else if best.elim 0 Prod.snd < byteLength (text.take (rule.munch text)) then
          some (rule, byteLength (text.take (rule.munch text))) else best := by
      rw [improve, find?_pattern]
      by_cases hzero : rule.munch text = 0 <;> simp [hzero]
    have hmunch := munch_le_length rule text
    cases hlongest : longestMatch? rules text with
    | none =>
      by_cases hzero : rule.munch text = 0 <;> simp [hstep, longestMatch?, hlongest, hzero]
    | some m =>
      have hpos := longestMatch?_pos hlongest
      obtain ⟨-, hlen, -⟩ := longestMatch?_spec hlongest
      have hmle : m.length ≤ text.length := hlen ▸ munch_le_length m.rule text
      by_cases hle : m.length ≤ rule.munch text
      · have hbytes := byteLength_take_le text hle
        simp only [hstep, longestMatch?, hlongest, if_pos hle, if_neg (by omega : rule.munch text ≠ 0)]
        split
        next hbest => exact if_neg (by simpa using hbytes)
        next hbest => exact if_neg (by omega)
      · have hbytes := byteLength_take_lt (Nat.lt_of_not_le hle) hmle
        simp only [hstep, longestMatch?, hlongest, if_neg hle]
        split
        next => rfl
        next hne =>
          split
          next hbest =>
            rw [if_pos (by simpa using hbytes), if_pos (by omega)]
          next => rfl

/-- The search by bytes makes the same choice as the one by characters. -/
theorem search_eq (rules : List Rule) (text : List Char) :
    search rules text =
      (longestMatch? rules text).map fun m => (m.rule, byteLength (text.take m.length)) := by
  rw [search, foldl_improve]
  cases hlongest : longestMatch? rules text with
  | none => rfl
  | some m =>
    have hpos := longestMatch?_pos hlongest
    obtain ⟨-, hlen, -⟩ := longestMatch?_spec hlongest
    have hle : m.length ≤ text.length := hlen ▸ munch_le_length m.rule text
    have hbytes := byteLength_take_lt hpos hle
    have hmore : (none : Option (Rule × Nat)).elim 0 Prod.snd < byteLength (text.take m.length) :=
      Nat.zero_lt_of_lt hbytes
    exact if_pos hmore

/-- The texts of all rules. -/
def lexemes : Language Char := {text | ∃ rule : Rule, text ∈ rule.language}

theorem longestMatch?_all_eq_none_iff {text : List Char} : longestMatch? all text = none ↔
    ∀ front, front <+: text → front ≠ [] → front ∉ lexemes := by
  constructor
  · rintro h front hfront - ⟨rule, hmem⟩
    exact munch_eq_zero_iff.mp (longestMatch?_eq_none_iff.mp h rule (mem_all rule)) front hfront hmem
  · intro h
    refine longestMatch?_eq_none_iff.mpr fun rule _ => munch_eq_zero_iff.mpr ?_
    intro front hfront hmem
    exact h front hfront (fun he => nil_notMem_language rule (he ▸ hmem)) ⟨rule, hmem⟩

/-- The winner takes the longest lexeme at the front of the text. -/
theorem longestMatch?_all_lexemes {text : List Char} {m : Match}
    (h : longestMatch? all text = some m) : IsLongest lexemes text (text.take m.length) := by
  have hlongest := longestMatch?_all_isLongest h
  refine ⟨hlongest.isPrefix, ⟨m.rule, hlongest.mem⟩, ?_⟩
  rintro front hfront ⟨rule, hmem⟩
  have hle := length_le_of_longestMatch? h hfront hmem
  have hlength := hfront.length_le
  rw [List.length_take]
  omega

/-- Maximal munch: the search for the pattern of a rule finds the longest text of its language, the
choice among the rules is the longest text of any of the languages, and since these are disjoint
neither the winner nor its length depends on the order of the rules. -/
theorem search_maximalMunch :
    (Pairwise fun rule rule' : Rule => ∀ text ∈ rule.language, text ∉ rule'.language) ∧
    ∀ text : List Char,
      (∀ rule : Rule, match rule.pattern.find? text with
        | none => ∀ front, front <+: text → front ∉ rule.language
        | some front => front ≠ [] ∧ IsLongest rule.language text front) ∧
      (longestMatch? all text = none ↔
        ∀ front, front <+: text → front ≠ [] → front ∉ lexemes) ∧
      (∀ m, longestMatch? all text = some m →
        0 < m.length ∧ m.length ≤ text.length ∧
        IsLongest lexemes text (text.take m.length) ∧
        ∀ rule : Rule, text.take m.length ∈ rule.language ↔ rule = m.rule) ∧
      ∀ rules : List Rule, rules.Perm all →
        longestMatch? rules text = longestMatch? all text ∧
        search rules text =
          (longestMatch? all text).map fun m => (m.rule, byteLength (text.take m.length)) := by
  refine ⟨fun rule rule' hne => ?_, fun text => ⟨fun rule => ?_, longestMatch?_all_eq_none_iff,
    fun m hm => ⟨longestMatch?_pos hm, ?_, ⟨List.take_prefix .., ?_, ?_⟩, fun rule => ⟨?_, ?_⟩⟩,
    fun rules hperm => ⟨longestMatch?_perm hperm text, ?_⟩⟩⟩
  · exact fun text h h' => hne (eq_of_mem_language h h')
  · rw [find?_pattern]
    by_cases hzero : rule.munch text = 0
    · simpa [hzero] using munch_eq_zero_iff.mp hzero
    · have hlongest := munch_isLongest (Nat.pos_of_ne_zero hzero)
      simp only [if_neg hzero]
      exact ⟨fun he => nil_notMem_language rule (he ▸ hlongest.mem), hlongest⟩
  · obtain ⟨-, hlen, -⟩ := longestMatch?_spec hm
    exact hlen ▸ munch_le_length m.rule text
  · exact ⟨m.rule, (longestMatch?_all_isLongest hm).mem⟩
  · rintro other hinit ⟨rule, hrule⟩
    obtain ⟨-, hlen, -⟩ := longestMatch?_spec hm
    rw [List.length_take_of_le (hlen ▸ munch_le_length m.rule text)]
    exact length_le_of_longestMatch? hm hinit hrule
  · exact fun h => eq_of_mem_language h (longestMatch?_all_isLongest hm).mem
  · rintro rfl
    exact (longestMatch?_all_isLongest hm).mem
  · rw [search_eq, longestMatch?_perm hperm]

end DecafLex.Rule
