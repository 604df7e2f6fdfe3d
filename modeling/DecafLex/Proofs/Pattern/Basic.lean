import Mathlib.Computability.Language

/-! Regular expressions over characters: the language of one, and the match that a backtracking
search prefers at the front of a text. -/
namespace DecafLex
open Computability

inductive Pattern where
  | empty
  | one (accepts : Char → Bool)
  | seq (a b : Pattern)
  | alt (a b : Pattern)
  | star (a : Pattern)

namespace Pattern

def language : Pattern → Language Char
  | empty => 1
  | one accepts => {text | ∃ c, accepts c = true ∧ text = [c]}
  | seq a b => a.language * b.language
  | alt a b => a.language + b.language
  | star a => a.language∗

/-- What up to `fuel` rounds leave of a text, more rounds first. A round has to take something. -/
def rounds (round : List Char → List (List Char)) : Nat → List Char → List (List Char)
  | 0, text => [text]
  | fuel + 1, text =>
    ((round text).filter (·.length < text.length)).flatMap (rounds round fuel) ++ [text]

/-- What the matches at the front of a text leave of it, in the order of preference: the left
alternative before the right one, and one more round before none. -/
def rests : Pattern → List Char → List (List Char)
  | empty, text => [text]
  | one accepts, text =>
    match text with
    | [] => []
    | c :: rest => if accepts c then [rest] else []
  | seq a b, text => (a.rests text).flatMap b.rests
  | alt a b, text => a.rests text ++ b.rests text
  | star a, text => rounds a.rests text.length text

/-- The preferred match at the front of a text. -/
def find? (p : Pattern) (text : List Char) : Option (List Char) :=
  (p.rests text).head?.map fun rest => text.take (text.length - rest.length)

def plus (a : Pattern) : Pattern := seq a (star a)

def optional (a : Pattern) : Pattern := alt a empty

def char (c : Char) : Pattern := one (· == c)

def literal (text : List Char) : Pattern := text.foldr (fun c => seq (char c)) empty

theorem mem_empty {text : List Char} : text ∈ empty.language ↔ text = [] := Iff.rfl

theorem mem_one {accepts : Char → Bool} {text : List Char} :
    text ∈ (one accepts).language ↔ ∃ c, accepts c = true ∧ text = [c] := Iff.rfl

theorem mem_seq {a b : Pattern} {text : List Char} :
    text ∈ (seq a b).language ↔ ∃ front ∈ a.language, ∃ back ∈ b.language, front ++ back = text :=
  Language.mem_mul

theorem mem_optional {a : Pattern} {text : List Char} :
    text ∈ (optional a).language ↔ text ∈ a.language ∨ text = [] := Iff.rfl

theorem mem_star_one {accepts : Char → Bool} {text : List Char} :
    text ∈ (star (one accepts)).language ↔ ∀ c ∈ text, accepts c = true := by
  constructor
  · intro h
    obtain ⟨parts, rfl, hparts⟩ := Language.mem_kstar.mp h
    intro c hc
    obtain ⟨part, hpart, hmem⟩ := List.mem_flatten.mp hc
    obtain ⟨d, hd, rfl⟩ := mem_one.mp (hparts part hpart)
    rwa [List.mem_singleton.mp hmem]
  · intro h
    refine Language.mem_kstar.mpr ⟨text.map ([·]), (List.flatMap_singleton' text).symm, ?_⟩
    intro part hpart
    obtain ⟨c, hc, rfl⟩ := List.mem_map.mp hpart
    exact mem_one.mpr ⟨c, h c hc, rfl⟩

theorem mem_plus_one {accepts : Char → Bool} {text : List Char} :
    text ∈ (plus (one accepts)).language ↔ text ≠ [] ∧ ∀ c ∈ text, accepts c = true := by
  simp only [plus, mem_seq, mem_one, mem_star_one]
  constructor
  · rintro ⟨-, ⟨c, hc, rfl⟩, back, hback, rfl⟩
    exact ⟨List.cons_ne_nil _ _, List.forall_mem_cons.mpr ⟨hc, hback⟩⟩
  · rintro ⟨hne, h⟩
    obtain ⟨c, back, rfl⟩ := List.exists_cons_of_ne_nil hne
    exact ⟨[c], ⟨c, h c List.mem_cons_self, rfl⟩, back, (List.forall_mem_cons.mp h).2, rfl⟩

theorem mem_literal {fixed text : List Char} : text ∈ (literal fixed).language ↔ text = fixed := by
  induction fixed generalizing text with
  | nil => exact mem_empty
  | cons c fixed ih =>
    change text ∈ (seq (char c) (literal fixed)).language ↔ _
    simp only [mem_seq, char, mem_one, ih, beq_iff_eq]
    grind

private theorem mem_rounds (l : Language Char) (round : List Char → List (List Char))
    (hround : ∀ text rest, rest ∈ round text ↔ ∃ front ∈ l, text = front ++ rest)
    (fuel : Nat) (text rest : List Char) (hfuel : text.length ≤ fuel) :
    rest ∈ rounds round fuel text ↔ ∃ front ∈ l∗, text = front ++ rest := by
  induction fuel generalizing text with
  | zero =>
    obtain rfl := List.length_eq_zero_iff.mp (Nat.le_zero.mp hfuel)
    simp only [rounds, List.mem_singleton]
    constructor
    · rintro rfl
      exact ⟨[], Language.nil_mem_kstar l, rfl⟩
    · rintro ⟨front, -, he⟩
      exact (List.append_eq_nil_iff.mp he.symm).2
  | succ fuel ih =>
    simp only [rounds, List.mem_append, List.mem_flatMap, List.mem_filter, decide_eq_true_eq,
      List.mem_singleton]
    constructor
    · rintro (⟨mid, ⟨hmid, hlt⟩, hrest⟩ | rfl)
      · obtain ⟨first, hfirst, rfl⟩ := (hround text mid).mp hmid
        obtain ⟨front, hfront, rfl⟩ := (ih mid (by omega)).mp hrest
        have hmem : first ++ front ∈ 1 + l * l∗ := Or.inr (Language.append_mem_mul hfirst hfront)
        rw [Language.one_add_self_mul_kstar_eq_kstar] at hmem
        exact ⟨first ++ front, hmem, (List.append_assoc ..).symm⟩
      · exact ⟨[], Language.nil_mem_kstar l, rfl⟩
    · rintro ⟨front, hfront, rfl⟩
      obtain ⟨parts, rfl, hparts⟩ := Language.mem_kstar_iff_exists_nonempty.mp hfront
      cases parts with
      | nil => exact .inr rfl
      | cons first parts =>
        obtain ⟨hfirst, hne⟩ := hparts first List.mem_cons_self
        have hpos := List.length_pos_iff.mpr hne
        have htail : parts.flatten ∈ l∗ := Language.join_mem_kstar fun part hpart =>
          (hparts part (List.mem_cons_of_mem _ hpart)).1
        simp only [List.flatten_cons, List.append_assoc, List.length_append] at hfuel ⊢
        refine .inl ⟨parts.flatten ++ rest, ⟨(hround _ _).mpr ⟨first, hfirst, rfl⟩, ?_⟩, ?_⟩
        · simp only [List.length_append]
          omega
        · exact (ih _ (by simp only [List.length_append]; omega)).mpr ⟨_, htail, rfl⟩

/-- The search finds all matches and nothing else. -/
theorem mem_rests (p : Pattern) (text rest : List Char) :
    rest ∈ p.rests text ↔ ∃ front ∈ p.language, text = front ++ rest := by
  induction p generalizing text rest with
  | empty => simp [rests, language, eq_comm]
  | one accepts =>
    cases text with
    | nil => simp +contextual [rests, mem_one]
    | cons c text => simp only [rests, mem_one]; grind
  | seq a b iha ihb =>
    simp only [rests, List.mem_flatMap, iha, ihb, language, Language.mem_mul]
    constructor
    · rintro ⟨mid, ⟨first, hfirst, rfl⟩, last, hlast, rfl⟩
      exact ⟨first ++ last, ⟨first, hfirst, last, hlast, rfl⟩, (List.append_assoc ..).symm⟩
    · rintro ⟨-, ⟨first, hfirst, last, hlast, rfl⟩, rfl⟩
      exact ⟨last ++ rest, ⟨first, hfirst, List.append_assoc ..⟩, last, hlast, rfl⟩
  | alt a b iha ihb =>
    simp only [rests, List.mem_append, iha, ihb, language, Language.mem_add, or_and_right,
      exists_or]
  | star a iha => exact mem_rounds a.language a.rests iha text.length text rest le_rfl

end Pattern
end DecafLex
