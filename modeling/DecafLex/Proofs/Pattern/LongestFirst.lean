import DecafLex.Proofs.Pattern.Basic

/-! When the match that a search prefers is the longest one. -/
namespace DecafLex

/-- A front of the text that is in the language, and no longer one is. -/
structure IsLongest (l : Language Char) (text front : List Char) : Prop where
  isPrefix : front <+: text
  mem : front ∈ l
  length_le : ∀ other, other <+: text → other ∈ l → other.length ≤ front.length

namespace Pattern

/-- Every match comes before the shorter ones. -/
def LongestFirst (p : Pattern) : Prop :=
  ∀ text, (p.rests text).Pairwise fun a b => a.length < b.length

/-- No match of the pattern begins with one of the characters. -/
def Avoids (p : Pattern) (accepts : Char → Bool) : Prop :=
  ∀ c text, c :: text ∈ p.language → accepts c = false

section
variable {accepts stops : Char → Bool}

theorem avoids_one (h : ∀ c, stops c = true → accepts c = false) : (one stops).Avoids accepts := by
  intro c text hmem
  obtain ⟨d, hd, he⟩ := mem_one.mp hmem
  obtain rfl := (List.cons.inj he).1
  exact h c hd

theorem avoids_one_seq (h : ∀ c, stops c = true → accepts c = false) (b : Pattern) :
    (seq (one stops) b).Avoids accepts := by
  intro c text hmem
  obtain ⟨_, ⟨d, hd, rfl⟩, back, _, he⟩ := mem_seq.mp hmem
  obtain rfl := (List.cons.inj he).1
  exact h d hd

theorem Avoids.optional {a : Pattern} (h : a.Avoids accepts) : a.optional.Avoids accepts := by
  intro c text hmem
  rcases mem_optional.mp hmem with hmem | hmem
  · exact h c text hmem
  · cases hmem

end

theorem find?_eq_none_iff (p : Pattern) (text : List Char) :
    p.find? text = none ↔ ∀ front, front <+: text → front ∉ p.language := by
  simp only [find?, Option.map_eq_none_iff, List.head?_eq_none_iff, List.eq_nil_iff_forall_not_mem,
    mem_rests]
  constructor
  · rintro h front ⟨rest, rfl⟩ hfront
    exact h rest ⟨front, hfront, rfl⟩
  · rintro h rest ⟨front, hfront, rfl⟩
    exact h front (List.prefix_append ..) hfront

theorem LongestFirst.find? {p : Pattern} (h : p.LongestFirst) {text front : List Char}
    (hfind : p.find? text = some front) : IsLongest p.language text front := by
  simp only [Pattern.find?, Option.map_eq_some_iff] at hfind
  obtain ⟨rest, hrest, rfl⟩ := hfind
  obtain ⟨others, hothers⟩ := List.head?_eq_some_iff.mp hrest
  obtain ⟨front, hfront, rfl⟩ := (mem_rests p text rest).mp (by simp [hothers])
  have htake : (front ++ rest).take ((front ++ rest).length - rest.length) = front := by simp
  rw [htake]
  refine ⟨List.prefix_append .., hfront, ?_⟩
  rintro other ⟨rest', he⟩ hother
  have hmem : rest' ∈ rest :: others :=
    hothers ▸ (mem_rests p _ rest').mpr ⟨other, hother, he.symm⟩
  have horder := h (front ++ rest)
  rw [hothers, List.pairwise_cons] at horder
  have hlen := congrArg List.length he
  simp only [List.length_append] at hlen
  rcases List.mem_cons.mp hmem with rfl | hmem
  · omega
  · have := horder.1 rest' hmem
    omega

private theorem longestFirst_of_length_le {p : Pattern}
    (h : ∀ text, (p.rests text).length ≤ 1) : p.LongestFirst := by
  intro text
  match p.rests text, h text with
  | [], _ => exact List.Pairwise.nil
  | [rest], _ => exact List.pairwise_singleton ..
  | _ :: _ :: _, hlen => simp at hlen

theorem longestFirst_empty : empty.LongestFirst := longestFirst_of_length_le fun _ => le_rfl

theorem longestFirst_one (accepts : Char → Bool) : (one accepts).LongestFirst := by
  apply longestFirst_of_length_le
  intro text
  cases text with
  | nil => simp [rests]
  | cons c text => by_cases hc : accepts c <;> simp [rests, hc]

private theorem rests_seq_assoc (a b c : Pattern) (text : List Char) :
    (seq (seq a b) c).rests text = (seq a (seq b c)).rests text := by
  simp only [rests, List.flatMap_assoc]

theorem LongestFirst.assoc {a b c : Pattern} (h : (seq a (seq b c)).LongestFirst) :
    (seq (seq a b) c).LongestFirst := fun text => rests_seq_assoc a b c text ▸ h text

theorem LongestFirst.one_seq {b : Pattern} (h : b.LongestFirst) (accepts : Char → Bool) :
    (seq (one accepts) b).LongestFirst := by
  intro text
  cases text with
  | nil => exact List.Pairwise.nil
  | cons c text =>
    by_cases hc : accepts c
    · simpa [rests, hc] using h text
    · simp [rests, hc]

theorem LongestFirst.literal_seq {b : Pattern} (h : b.LongestFirst) (fixed : List Char) :
    (seq (literal fixed) b).LongestFirst := by
  induction fixed with
  | nil =>
    intro text
    simpa [literal, rests] using h text
  | cons c fixed ih => exact (ih.one_seq (· == c)).assoc

theorem longestFirst_literal (fixed : List Char) : (literal fixed).LongestFirst := by
  induction fixed with
  | nil => exact longestFirst_empty
  | cons c fixed ih => exact ih.one_seq (· == c)

private theorem rests_star_one (accepts : Char → Bool) (c : Char) (text : List Char) :
    (star (one accepts)).rests (c :: text) =
      (if accepts c then (star (one accepts)).rests text else []) ++ [c :: text] := by
  by_cases hc : accepts c <;> simp [rests, rounds, hc]

private theorem length_le_of_mem_rests {p : Pattern} {text rest : List Char}
    (h : rest ∈ p.rests text) : rest.length ≤ text.length := by
  obtain ⟨front, -, rfl⟩ := (mem_rests p text rest).mp h
  simp

/-- The repetition runs on as long as it can, since what follows begins with none of its
characters. -/
theorem LongestFirst.star_seq {b : Pattern} (h : b.LongestFirst) {accepts : Char → Bool}
    (havoid : b.Avoids accepts) : (seq (star (one accepts)) b).LongestFirst := by
  intro text
  induction text with
  | nil => simpa [rests, rounds] using h []
  | cons c text ih =>
    by_cases hc : accepts c
    · have hshort : ∀ rest ∈ b.rests (c :: text), rest = c :: text := by
        intro rest hrest
        obtain ⟨front, hfront, he⟩ := (mem_rests b _ rest).mp hrest
        cases front with
        | nil => exact he.symm
        | cons d front =>
          obtain ⟨rfl, -⟩ := List.cons.inj he
          exact absurd hc (by simp [havoid _ front hfront])
      have hsplit : (seq (star (one accepts)) b).rests (c :: text) =
          (seq (star (one accepts)) b).rests text ++ b.rests (c :: text) := by
        change ((star (one accepts)).rests (c :: text)).flatMap b.rests = _
        rw [rests_star_one, if_pos hc, List.flatMap_append, List.flatMap_singleton]
        rfl
      rw [hsplit, List.pairwise_append]
      refine ⟨ih, h _, ?_⟩
      intro rest hrest other hother
      rw [hshort other hother]
      exact Nat.lt_succ_of_le (length_le_of_mem_rests hrest)
    · change (((star (one accepts)).rests (c :: text)).flatMap b.rests).Pairwise _
      rw [rests_star_one, if_neg hc, List.nil_append, List.flatMap_singleton]
      exact h _

theorem longestFirst_star (accepts : Char → Bool) : (star (one accepts)).LongestFirst := by
  intro text
  have havoid : empty.Avoids accepts := fun c text h => absurd (mem_empty.mp h) (by simp)
  simpa [rests] using longestFirst_empty.star_seq havoid text

theorem longestFirst_plus (accepts : Char → Bool) : (plus (one accepts)).LongestFirst :=
  (longestFirst_star accepts).one_seq accepts

theorem LongestFirst.optional {a : Pattern} (h : a.LongestFirst) (hne : [] ∉ a.language) :
    a.optional.LongestFirst := by
  intro text
  change (a.rests text ++ [text]).Pairwise _
  rw [List.pairwise_append]
  refine ⟨h text, List.pairwise_singleton .., ?_⟩
  intro rest hrest other hother
  obtain ⟨front, hfront, rfl⟩ := (mem_rests a text rest).mp hrest
  rw [List.mem_singleton.mp hother, List.length_append]
  have : front ≠ [] := fun he => hne (he ▸ hfront)
  have := List.length_pos_iff.mpr this
  omega

end Pattern
end DecafLex
