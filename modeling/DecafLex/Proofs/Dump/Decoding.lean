import DecafLex.Proofs.Scanner.Soundness
import DecafLex.Runtime
import DecafLex.Text.Lines
import Mathlib.Data.List.TakeWhile

/-! Reading a dump of tokens back. The line that describes a token holds no newline, and tells all of the
token but the number of an identifier, whatever a string in it holds. -/
namespace DecafLex

namespace Text

variable {accepts : Char → Bool} {a b : List Char} {x y : Char} {r s : List Char}

theorem takeWhile_append_cons (h : ∀ c ∈ a, accepts c = true) (hx : accepts x = false) :
    (a ++ x :: r).takeWhile accepts = a := by
  rw [List.takeWhile_append_of_pos h, List.takeWhile_cons_of_neg (by simp [hx]), List.append_nil]

/-- A run of characters of one class ends at the first that is not of the class. -/
theorem run_unique (ha : ∀ c ∈ a, accepts c = true) (hb : ∀ c ∈ b, accepts c = true)
    (hx : accepts x = false) (hy : accepts y = false) (h : a ++ x :: r = b ++ y :: s) :
    a = b ∧ x :: r = y :: s := by
  have hab : a = b := by rw [← takeWhile_append_cons (r := r) ha hx, h, takeWhile_append_cons hb hy]
  subst hab
  exact ⟨rfl, List.append_cancel_left h⟩

theorem isDigit_of_mem_toDigits {n : Nat} {c : Char} (h : c ∈ Nat.toDigits 10 n) :
    c.isDigit = true := Nat.isDigit_of_mem_toDigits (by decide) (by decide) h

theorem newline_notMem_toDigits (n : Nat) : '\n' ∉ Nat.toDigits 10 n :=
  fun h => Bool.false_ne_true (isDigit_of_mem_toDigits h)

/-- A number ends where its digits end. -/
theorem number_unique {m n : Nat} (hx : x.isDigit = false) (hy : y.isDigit = false)
    (h : Nat.toDigits 10 m ++ x :: r = Nat.toDigits 10 n ++ y :: s) : m = n ∧ x :: r = y :: s := by
  obtain ⟨hdigits, hrest⟩ := run_unique (fun _ => isDigit_of_mem_toDigits)
    (fun _ => isDigit_of_mem_toDigits) hx hy h
  have hvalue := congrArg (Nat.ofDigitChars 10 · 0) hdigits
  simp only [Nat.ofDigitChars_ten_toDigits] at hvalue
  exact ⟨hvalue, hrest⟩

theorem toList_unlines_cons (line : String) (lines : List String) :
    (unlines (line :: lines)).toList = line.toList ++ '\n' :: (unlines lines).toList := by
  simp [unlines]

end Text

namespace Span

theorem toList_text (s : Span) : s.text.toList = "line ".toList ++ (Nat.toDigits 10 s.line ++
    " cols ".toList ++ (Nat.toDigits 10 s.firstColumn ++ "-".toList ++
      Nat.toDigits 10 s.lastColumn)) := by
  have htext (text : String) : toString text = text := rfl
  simp [text, htext]

theorem newline_notMem_text (s : Span) : '\n' ∉ s.text.toList := by
  simp [toList_text, Text.newline_notMem_toDigits]

/-- The place is told by its text, where a space follows. -/
theorem eq_of_text_append {a b : Span} {r s : List Char}
    (h : a.text.toList ++ ' ' :: r = b.text.toList ++ ' ' :: s) : a = b := by
  simp only [toList_text, List.append_assoc] at h
  obtain ⟨hline, hcolumns⟩ := Text.number_unique (by decide) (by decide) (List.append_cancel_left h)
  obtain ⟨hfirst, hlast⟩ := Text.number_unique (by decide) (by decide)
    ((List.append_right_inj " cols ".toList).mp hcolumns)
  obtain ⟨hlast, -⟩ := Text.number_unique (by decide) (by decide)
    ((List.append_right_inj "-".toList).mp hlast)
  cases a
  cases b
  simp_all

end Span

namespace Binary64

private theorem newline_notMem_positional (d : Decimal) : '\n' ∉ d.positional := by
  have hdigits (places : Nat) :
      '\n' ∉ (Nat.toDigits 10 (d.digits * Nat.pow 10 d.exponent.toNat)).leftpad places '0' := by
    simp [List.leftpad, Text.newline_notMem_toDigits]
  unfold Decimal.positional
  dsimp only
  split
  · exact hdigits _
  · intro h
    rcases List.mem_append.mp h with h | h
    · exact hdigits _ (List.mem_of_mem_take h)
    · rcases List.mem_cons.mp h with h | h
      · cases h
      · exact hdigits _ (List.mem_of_mem_drop h)

theorem newline_notMem_text (x : Binary64) : '\n' ∉ x.text.toList := by
  have hunsigned : '\n' ∉ (if x.isZero then "0" else if x.isInfinite then "inf"
      else String.ofList x.shortest.positional).toList := by
    split
    · decide
    · split
      · decide
      · rw [String.toList_ofList]
        exact newline_notMem_positional _
  unfold text
  split
  · decide
  · dsimp only
    split
    · simpa using hunsigned
    · exact hunsigned

end Binary64

namespace Token

/-- What a description says behind the lexeme and the spaces that follow it. -/
def details (t : Token) : List Char :=
  t.span.text.toList ++ " is ".toList ++ t.kind.dumpName.toList ++
    t.valueText?.elim [] fun value => " (value = ".toList ++ value.toList ++ [')']

theorem toList_describe (t : Token) : t.describe.toList =
    t.lexeme.toList ++ ' ' :: (List.replicate (12 - t.lexeme.toList.length) ' ' ++ t.details) := by
  have hspan : toString t.span = t.span.text := rfl
  have htext (text : String) : toString text = text := rfl
  have hspaces (count : Nat) (rest : List Char) :
      List.replicate count ' ' ++ ' ' :: rest = ' ' :: (List.replicate count ' ' ++ rest) := by
    rw [List.append_cons, ← List.replicate_succ', List.replicate_succ, List.cons_append]
  unfold describe details
  cases t.valueText? with
  | none => simp [List.rightpad, hspan, htext, hspaces]
  | some value => simp [List.rightpad, hspan, htext, hspaces]

/-- The lexeme at the front of a description: a string up to its second quote, anything else up to the
first space. -/
def lexemeAt : List Char → List Char
  | '"' :: text => '"' :: (text.takeWhile (· != '"') ++ ['"'])
  | text => text.takeWhile (· != ' ')

variable {t u : Token}

private theorem lexemeAt_append {rule : Rule} {text : List Char} (hskipped : rule.isSkipped = false)
    (hopen : rule ≠ .openString) (hmem : text ∈ rule.language) (rest : List Char) :
    lexemeAt (text ++ ' ' :: rest) = text := by
  by_cases hstring : rule = .string
  · subst hstring
    obtain ⟨contents, rfl, hcontents⟩ := Rule.mem_string.mp hmem
    have hinside : ∀ c ∈ contents, (c != '"') = true :=
      fun c hc => (Bool.and_eq_true_iff.mp (hcontents c hc)).1
    rw [List.cons_append, List.append_assoc, lexemeAt]
    exact congrArg (fun front => '"' :: (front ++ ['"']))
      (Text.takeWhile_append_cons hinside rfl)
  · have hsolid : ∀ c ∈ text, (c != ' ') = true := by
      intro c hc
      apply bne_iff_ne.mpr
      rintro rfl
      exact Bool.false_ne_true (Rule.isSolid_of_mem hskipped ⟨hstring, hopen⟩ hmem hc)
    obtain ⟨c, front, rfl⟩ := List.exists_cons_of_ne_nil
      (fun hnil => Rule.nil_notMem_language rule (hnil ▸ hmem))
    -- A lexeme that begins with a quote is a string, closed or not.
    have hquote : c ≠ '"' := by
      rintro rfl
      have hrule : some rule =
          some (if front.getLast? = some '"' then .string else .openString) :=
        (Rule.ofLexeme?_of_mem hmem).symm
      split at hrule
      · exact hstring (Option.some.inj hrule)
      · exact hopen (Option.some.inj hrule)
    rw [List.cons_append, lexemeAt.eq_2 _ (by
      rintro rest' he
      exact hquote (List.cons.inj he).1), ← List.cons_append]
    exact Text.takeWhile_append_cons hsolid rfl

theorem Meant.lexemeAt_describe (h : t.Meant) : lexemeAt t.describe.toList = t.lexeme.toList := by
  rw [toList_describe]
  cases h with
  | endOfInput _ hlexeme =>
    rw [hlexeme]
    rfl
  | token rule hmem hmeaning =>
    obtain ⟨⟨-, hopen, hskipped⟩, -⟩ := Rule.token_of_meaning hmeaning
    exact lexemeAt_append hskipped hopen hmem _
  | name hmem => exact lexemeAt_append rfl (by simp) hmem _

theorem Meant.newline_notMem_lexeme (h : t.Meant) : '\n' ∉ t.lexeme.toList := by
  cases h with
  | endOfInput _ hlexeme =>
    rw [hlexeme]
    exact List.not_mem_nil
  | token rule hmem hmeaning =>
    obtain ⟨⟨-, -, hskipped⟩, -⟩ := Rule.token_of_meaning hmeaning
    apply Rule.newline_notMem _ hmem
    rintro rfl
    cases hskipped
  | name hmem => exact Rule.newline_notMem (by simp) hmem

theorem newline_notMem_valueText {text : String} (hlexeme : '\n' ∉ t.lexeme.toList)
    (h : t.valueText? = some text) : '\n' ∉ text.toList := by
  obtain ⟨value, -, htext⟩ := Option.bind_eq_some_iff.mp h
  cases value with
  | integer n =>
    obtain rfl := Option.some.inj htext
    cases n with
    | ofNat n => exact Nat.toList_repr ▸ Text.newline_notMem_toDigits n
    | negSucc n =>
      change '\n' ∉ ("-" ++ (n + 1).repr).toList
      simp [Text.newline_notMem_toDigits]
  | double x =>
    obtain rfl := Option.some.inj htext
    exact x.newline_notMem_text
  | bool b =>
    obtain rfl := Option.some.inj htext
    cases b <;> decide
  | str contents =>
    obtain rfl := Option.some.inj htext
    exact hlexeme
  | identifier id => cases htext

theorem newline_notMem_dumpName (kind : TokenKind) : '\n' ∉ kind.dumpName.toList := by
  have hall : ∀ kind ∈ TokenKind.all, '\n' ∉ kind.dumpName.toList := by decide
  exact hall kind kind.mem_all

theorem newline_notMem_details (hlexeme : '\n' ∉ t.lexeme.toList) : '\n' ∉ t.details := by
  unfold details
  cases hvalue : t.valueText? with
  | none => simp [t.span.newline_notMem_text, newline_notMem_dumpName]
  | some value =>
    simp [t.span.newline_notMem_text, newline_notMem_dumpName, newline_notMem_valueText hlexeme hvalue]

theorem Meant.newline_notMem_describe (h : t.Meant) : '\n' ∉ t.describe.toList := by
  have hlexeme := h.newline_notMem_lexeme
  simp [toList_describe, hlexeme, newline_notMem_details hlexeme]

/-- All that a description tells of the two tokens is the same. -/
structure SameButNumber (t u : Token) : Prop where
  kind : t.kind = u.kind
  lexeme : t.lexeme = u.lexeme
  span : t.span = u.span
  value : t.value = u.value ∨
    ∃ id id', t.value = some (.identifier id) ∧ u.value = some (.identifier id')

theorem Meant.exists_identifier (h : t.Meant) (hkind : t.kind = .identifier) :
    ∃ id, t.value = some (.identifier id) := by
  have hholds := h.holds
  rw [hkind] at hholds
  generalize t.value = value at hholds
  cases hholds with
  | identifier id => exact ⟨id, rfl⟩
  | nothing _ hnone => cases hnone

theorem Meant.sameButNumber (ht : t.Meant) (hu : u.Meant) (h : t.describe = u.describe) :
    t.SameButNumber u := by
  have hlexeme : t.lexeme = u.lexeme := by
    rw [← String.toList_inj, ← ht.lexemeAt_describe, h, hu.lexemeAt_describe]
  obtain ⟨hkind, hvalue⟩ := ht.eq_of_lexeme hu hlexeme
  refine ⟨hkind, hlexeme, ?_, ?_⟩
  · rw [← String.toList_inj, toList_describe, toList_describe, hlexeme] at h
    have hdetails := List.append_cancel_left (List.cons.inj (List.append_cancel_left h)).2
    simp only [details, List.append_assoc] at hdetails
    exact Span.eq_of_text_append hdetails
  · by_cases hidentifier : t.kind = .identifier
    · obtain ⟨id, hid⟩ := ht.exists_identifier hidentifier
      obtain ⟨id', hid'⟩ := hu.exists_identifier (hkind ▸ hidentifier)
      exact .inr ⟨id, id', hid, hid'⟩
    · exact .inl (hvalue hidentifier)

theorem SameButNumber.describe_eq (h : t.SameButNumber u) : t.describe = u.describe := by
  have hvalue : t.valueText? = u.valueText? := by
    unfold valueText?
    rcases h.value with hvalue | ⟨id, id', ht, hu⟩
    · rw [hvalue, h.lexeme]
    · rw [ht, hu]
      rfl
  rw [← String.toList_inj, toList_describe, toList_describe, details, details, h.lexeme, h.span,
    h.kind, hvalue]

/-- The lines that describe some tokens, one below the other, tell the tokens one by one. -/
theorem sameButNumber_of_unlines {ts us : List Token} (hts : ∀ t ∈ ts, t.Meant)
    (hus : ∀ u ∈ us, u.Meant)
    (h : Text.unlines (ts.map describe) = Text.unlines (us.map describe)) :
    List.Forall₂ SameButNumber ts us := by
  have hline {t : Token} (ht : t.Meant) : ∀ c ∈ t.describe.toList, (c != '\n') = true :=
    Text.forall_bne_newline ht.newline_notMem_describe
  have hempty (t : Token) (ts : List Token) : Text.unlines ((t :: ts).map describe) ≠ "" := by
    rw [Ne, ← String.toList_inj, List.map_cons, Text.toList_unlines_cons]
    simp
  induction ts generalizing us with
  | nil =>
    cases us with
    | nil => exact .nil
    | cons u us => exact absurd h.symm (hempty u us)
  | cons t ts ih =>
    cases us with
    | nil => exact absurd h (hempty t ts)
    | cons u us =>
      obtain ⟨ht, hts⟩ := List.forall_mem_cons.mp hts
      obtain ⟨hu, hus⟩ := List.forall_mem_cons.mp hus
      rw [← String.toList_inj, List.map_cons, List.map_cons, Text.toList_unlines_cons,
        Text.toList_unlines_cons] at h
      obtain ⟨hfirst, hrest⟩ := Text.run_unique (hline ht) (hline hu) rfl rfl h
      exact .cons (ht.sameButNumber hu (String.toList_inj.mp hfirst))
        (ih hts hus (String.toList_inj.mp (List.cons.inj hrest).2))

/-- A token is described in one line, and the line tells all of it but the number of an identifier. So
a dump of tokens can be read back line by line. -/
theorem describe_lossless :
    (∀ t : Token, t.Returned → '\n' ∉ t.describe.toList) ∧
    (∀ t u : Token, t.Returned → u.Returned → (t.describe = u.describe ↔ t.SameButNumber u)) ∧
    ∀ ts us : List Token, (∀ t ∈ ts, t.Returned) → (∀ u ∈ us, u.Returned) →
      Text.unlines (ts.map describe) = Text.unlines (us.map describe) →
      List.Forall₂ SameButNumber ts us := by
  refine ⟨fun t ht => ht.meant.newline_notMem_describe, ?_, ?_⟩
  · intro t u ht hu
    exact ⟨ht.meant.sameButNumber hu.meant, SameButNumber.describe_eq⟩
  · intro ts us hts hus h
    exact sameButNumber_of_unlines (fun t ht => (hts t ht).meant) (fun u hu => (hus u hu).meant) h

/-- A name in the same place of two sources, of which one declares another name before it. -/
theorem describe_lossless_renumbered :
    let t : Token := ⟨.identifier, "x", some (.identifier ⟨0⟩), ⟨1, 3, 3⟩⟩
    let u : Token := ⟨.identifier, "x", some (.identifier ⟨1⟩), ⟨1, 3, 3⟩⟩
    t.Returned ∧ u.Returned ∧ t.describe = u.describe ∧ t.SameButNumber u ∧ t ≠ u := by
  intro t u
  have ht : t.Returned := ⟨.standard, "\t x", [.nextToken], by decide +kernel⟩
  have hu : u.Returned := ⟨.standard, "y x", [.nextToken, .next], by decide +kernel⟩
  have hdescribe : t.describe = u.describe := by decide +kernel
  exact ⟨ht, hu, hdescribe, (describe_lossless.2.1 t u ht hu).mp hdescribe, by decide⟩

end Token
end DecafLex
