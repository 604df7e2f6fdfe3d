import DecafLex.Proofs.Scanner.Consistency

/-! Calls of `nextToken` and `next` in any order. All of them draw on one sequence of results, which
ends in the end of input or in a fatal problem. -/
namespace DecafLex.Scanner

variable {s s' : Scanner}

/-- The answer to a call that finds nothing but the last result. The iteration gives it once. -/
def Call.again (last : Except Diagnostic Token) (given : Bool) :
    Call → Option (Except Diagnostic Token)
  | .nextToken => some last
  | .next => if given then none else some last

/-- The answers to some calls, one for each. -/
def replies (s : Scanner) : List Call → List (Option (Except Diagnostic Token))
  | [] => []
  | call :: calls => (s.answer call).1 :: (s.answer call).2.replies calls

theorem length_replies (s : Scanner) (calls : List Call) :
    (s.replies calls).length = calls.length := by
  induction calls generalizing s with
  | nil => rfl
  | cons call calls ih => rw [replies, List.length_cons, ih, List.length_cons]

theorem answers_cons (s : Scanner) (call : Call) (calls : List Call) :
    (s.answers (call :: calls)).2 = ((s.answer call).2.answers calls).2 := rfl

theorem answers_append (s : Scanner) (calls more : List Call) :
    (s.answers (calls ++ more)).2 = ((s.answers calls).2.answers more).2 := by
  induction calls generalizing s with
  | nil => rfl
  | cons call calls ih => exact ih (s.answer call).2

/-- The result of a call of `nextToken` after so many others. -/
def result (s : Scanner) : Nat → Except Diagnostic Token
  | 0 => s.nextToken.1
  | n + 1 => s.nextToken.2.result n

theorem answer_of_nil (hrest : s.rest = []) (call : Call) : s.answer call =
    (call.again s.last s.finished, s.marked (s.finished || Call.next == call)) := by
  cases call with
  | nextToken =>
    rw [answer, nextToken_of_nil hrest, show (Call.next == Call.nextToken) = false from rfl,
      Bool.or_false, marked_finished]
    rfl
  | next =>
    rw [answer, next_eq, nextToken_of_nil hrest, isLast_last, Call.again]
    cases hfinished : s.finished with
    | false => rfl
    | true =>
      rw [Bool.true_or, ← hfinished, marked_finished]
      simp only [hfinished, if_true]

private theorem answer_eq (hfinished : s.finished = false) (hnext : s.nextToken.2.finished = false)
    (call : Call) : s.answer call = (some s.nextToken.1,
      s.nextToken.2.marked (Call.next == call && isLast s.nextToken.1)) := by
  cases call with
  | nextToken =>
    rw [show (Call.next == Call.nextToken) = false from rfl, Bool.false_and, ← hnext,
      marked_finished]
    rfl
  | next =>
    rw [answer, next_eq, if_neg (by simp [hfinished])]
    rfl

/-- Both calls give the next token. -/
theorem answer_of_token {t : Token} (hfinished : s.finished = false)
    (hnext : s.nextToken = (.ok t, s')) (hkind : t.kind ≠ .endOfInput) (hs' : s'.finished = false)
    (call : Call) : s.answer call = (some (.ok t), s') := by
  have hlast : isLast (.ok t) = false := beq_eq_false_iff_ne.mpr hkind
  rw [answer_eq hfinished (by rw [hnext]; exact hs'), hnext]
  dsimp only
  rw [hlast, Bool.and_false, ← hs', marked_finished]

/-- Both calls give the last result, and then the iteration is over. -/
theorem answer_of_last (hfinished : s.finished = false) (hnext : s.nextToken = (s'.last, s'))
    (hs' : s'.finished = false) (call : Call) :
    s.answer call = (some s'.last, s'.marked (Call.next == call)) := by
  rw [answer_eq hfinished (by rw [hnext]; exact hs'), hnext]
  dsimp only
  rw [isLast_last, Bool.and_true]

theorem replies_of_nil (hrest : s.rest = []) {calls : List Call} {i : Nat} {call : Call}
    (hcall : calls[i]? = some call) : (s.replies calls)[i]? =
      some (call.again s.last (s.finished || (calls.take i).contains .next)) := by
  induction calls generalizing s i with
  | nil => cases hcall
  | cons first calls ih =>
    rw [replies, answer_of_nil hrest]
    cases i with
    | zero =>
      obtain rfl := Option.some.inj hcall
      simp
    | succ i =>
      have hmarked : (s.marked (s.finished || Call.next == first)).rest = [] := hrest
      rw [List.getElem?_cons_succ, ih hmarked hcall, List.take_succ_cons, List.contains_cons,
        finished_marked, Bool.or_assoc]
      rfl

/-- With nothing left of the source no call changes anything but the record of the iteration. -/
theorem answers_of_nil (hrest : s.rest = []) (calls : List Call) :
    (s.answers calls).2 = s.marked (s.finished || calls.contains .next) := by
  induction calls generalizing s with
  | nil => rw [List.contains_nil, Bool.or_false, marked_finished, answers]
  | cons call calls ih =>
    have hmarked : (s.marked (s.finished || Call.next == call)).rest = [] := hrest
    rw [answers_cons, answer_of_nil hrest, ih hmarked, finished_marked, marked_marked, Bool.or_assoc,
      List.contains_cons]

/-- A scanner gives `n` tokens before its last result. -/
inductive Ends : Scanner → Nat → Prop where
  | last {s s' : Scanner} (hnext : s.nextToken = (s'.last, s')) (hrest : s'.rest = [])
      (hfinished : s'.finished = s.finished) : Ends s 0
  | token {s s' : Scanner} {t : Token} {n : Nat} (hnext : s.nextToken = (.ok t, s'))
      (hkind : t.kind ≠ .endOfInput) (hfinished : s'.finished = s.finished) (hends : Ends s' n) :
      Ends s (n + 1)

theorem Runs.exists_ends {segments : List Segment} (h : s.Runs segments s') : ∃ n, s.Ends n := by
  induction hlength : s.rest.length using Nat.strong_induction_on generalizing s segments with
  | _ length ih =>
    subst hlength
    rcases h.nextToken with ⟨silent, t, rest, s₁, rfl, hnext, hreaches⟩ | ⟨-, hnext⟩
    · obtain ⟨n, hends⟩ := ih _ hreaches.rest_lt hreaches.run rfl
      exact ⟨n + 1, .token hnext hreaches.kind hreaches.finished hends⟩
    · exact ⟨0, .last hnext h.rest_eq_nil h.finished⟩

namespace Ends

variable {n : Nat}

theorem isLast_result (h : s.Ends n) :
    isLast (s.result n) = true ∧ ∀ i < n, isLast (s.result i) = false := by
  induction h with
  | last hnext =>
    rw [result, hnext]
    exact ⟨isLast_last _, by simp⟩
  | token hnext hkind _ _ ih =>
    simp only [result, hnext]
    refine ⟨ih.1, ?_⟩
    intro i hi
    cases i with
    | zero =>
      rw [result, hnext]
      exact beq_eq_false_iff_ne.mpr hkind
    | succ i =>
      rw [result, hnext]
      exact ih.2 i (Nat.lt_of_succ_lt_succ hi)

/-- The reply to each call: the results one after the other, and the last of them again and again. -/
theorem replies (h : s.Ends n) (hfinished : s.finished = false) {calls : List Call} {i : Nat}
    {call : Call} (hcall : calls[i]? = some call) : (s.replies calls)[i]? =
      some (if i < n then some (s.result i)
        else call.again (s.result n) (((calls.take i).drop n).contains .next)) := by
  induction h generalizing calls i with
  | @last s s' hnext hrest hfin =>
    cases calls with
    | nil => cases hcall
    | cons first calls =>
      rw [Scanner.replies, answer_of_last hfinished hnext (hfin.trans hfinished),
        if_neg (Nat.not_lt_zero i), List.drop_zero, result, hnext]
      cases i with
      | zero =>
        obtain rfl := Option.some.inj hcall
        cases first <;> rfl
      | succ i =>
        rw [List.getElem?_cons_succ] at hcall ⊢
        have hmarked : (s'.marked (Call.next == first)).rest = [] := hrest
        rw [replies_of_nil hmarked hcall, List.take_succ_cons, List.contains_cons]
        rfl
  | @token s s' t n hnext hkind hfin hends ih =>
    cases calls with
    | nil => cases hcall
    | cons first calls =>
      have hs' := hfin.trans hfinished
      rw [Scanner.replies, answer_of_token hfinished hnext hkind hs']
      cases i with
      | zero => rw [List.getElem?_cons_zero, if_pos (Nat.succ_pos n), result, hnext]
      | succ i =>
        rw [List.getElem?_cons_succ] at hcall ⊢
        rw [ih hs' hcall]
        simp only [result, hnext, Nat.add_lt_add_iff_right, List.take_succ_cons,
          List.drop_succ_cons]

/-- Once the last result has been given, there is nothing left of the source. -/
theorem answers (h : s.Ends n) (hfinished : s.finished = false) {calls : List Call}
    (hlength : n < calls.length) :
    (s.answers calls).2.rest = [] ∧ (s.answers calls).2.last = s.result n := by
  induction h generalizing calls with
  | @last s s' hnext hrest hfin =>
    obtain ⟨first, calls, rfl⟩ := List.exists_cons_of_length_pos hlength
    have hmarked : (s'.marked (Call.next == first)).rest = [] := hrest
    rw [answers_cons, answer_of_last hfinished hnext (hfin.trans hfinished),
      answers_of_nil hmarked, result, hnext]
    exact ⟨hrest, rfl⟩
  | @token s s' t n hnext hkind hfin hends ih =>
    obtain ⟨first, calls, rfl⟩ := List.exists_cons_of_length_pos (Nat.zero_lt_of_lt hlength)
    have hs' := hfin.trans hfinished
    rw [answers_cons, answer_of_token hfinished hnext hkind hs', result, hnext]
    exact ih hs' (Nat.lt_of_succ_lt_succ hlength)

/-- A scanner that halts does so with its last result. -/
theorem result_of_halted (h : s.Ends n) (hfinished : s.finished = false) (hs : s.Consistent)
    {calls : List Call} (hhalted : (s.answers calls).2.isHalted = true) :
    ∃ d, s.result n = .error d := by
  have hrest := (consistent_answers hs calls).rest_eq_nil hhalted
  obtain ⟨d, hd⟩ := Option.isSome_iff_exists.mp hhalted
  -- More calls change nothing, and with enough of them the last result has been given.
  have hmore := answers_of_nil hrest (List.replicate (n + 1) .nextToken)
  have hlength : n < (calls ++ List.replicate (n + 1) Call.nextToken).length := by
    rw [List.length_append, List.length_replicate]
    exact Nat.le_add_left (n + 1) calls.length
  have hlast := (h.answers hfinished hlength).2
  rw [answers_append, hmore] at hlast
  exact ⟨d, hlast.symm.trans (last_of_fatal hd)⟩

/-- A scan that ends in an error never gives the end of input. -/
theorem kind_ne (h : s.Ends n) (hfinished : s.finished = false) {d : Diagnostic}
    (herror : s.result n = .error d) {calls : List Call} {t : Token}
    (ht : some (.ok t) ∈ s.replies calls) : t.kind ≠ .endOfInput := by
  obtain ⟨i, hi⟩ := List.mem_iff_getElem?.mp ht
  have hlength : i < calls.length := by
    rw [← length_replies s calls]
    exact (List.getElem?_eq_some_iff.mp hi).1
  have hreply := h.replies hfinished (List.getElem?_eq_getElem hlength)
  rw [hi, herror] at hreply
  split at hreply
  next hlt =>
    have hlast := h.isLast_result.2 i hlt
    rw [← Option.some.inj (Option.some.inj hreply)] at hlast
    exact beq_eq_false_iff_ne.mp hlast
  next => cases hcall : calls[i] <;> simp [hcall, Call.again] at hreply

end Ends

/-- The calls of `nextToken` and `next` share one sequence of results, which has a last one: the end
of input or a fatal problem. From then on `nextToken` repeats it, `next` gives it once more if it has
not given it, and nothing is reported or moved. A scan has halted if and only if it has reported
something fatal, once and as the last thing; then it is in a comment, and it never gives the end of
input. -/
theorem answers_protocol (config : Config) (source : String) :
    let start := ofSource config source
    ∃ n, isLast (start.result n) = true ∧ (∀ i < n, isLast (start.result i) = false) ∧
      ∀ calls : List Call,
        let replies := start.replies calls
        let s := (start.answers calls).2
        (∀ i ≤ n, i < calls.length → replies[i]? = some (some (start.result i))) ∧
        (∀ i > n, calls[i]? = some .nextToken → replies[i]? = some (some (start.result n))) ∧
        (∀ i ≥ n, calls[i]? = some .next → replies[i]? =
          some (if .next ∈ (calls.take i).drop n then none else some (start.result n))) ∧
        (n < calls.length → ∀ more, ∃ finished, (s.answers more).2 = { s with finished }) ∧
        (s.isHalted = true ↔ ∃ d ∈ s.diagnostics.toList, d.isFatal = true) ∧
        (s.isHalted = true →
          (∃ before d, s.diagnostics.toList = before ++ [d] ∧ d.isFatal = true ∧
            ∀ e ∈ before, e.isFatal = false) ∧
          ∀ more t, some (.ok t) ∈ start.replies (calls ++ more) → t.kind ≠ .endOfInput) ∧
        s.diagnostics.toList.foldl Tally.report .empty =
          ⟨s.diagnostics.size, if s.isHalted then 1 else 0⟩ ∧
        (if s.isHalted then 1 ≤ s.nesting.depth else s.nesting.depth = 0) := by
  intro start
  obtain ⟨segments, s', hrun⟩ := exists_runs (ready_ofSource config source)
  obtain ⟨n, hends⟩ := hrun.exists_ends
  have hstart : start.Consistent := consistent_ofSource config source
  refine ⟨n, hends.isLast_result.1, hends.isLast_result.2, ?_⟩
  intro calls replies s
  have hs : s.Consistent := consistent_answers hstart calls
  refine ⟨?_, ?_, ?_, ?_, hs.isHalted_iff, ?_, hs.tally, hs.depth⟩
  · intro i hi hlength
    have hreply := hends.replies rfl (List.getElem?_eq_getElem hlength)
    rcases Nat.lt_or_eq_of_le hi with hlt | rfl
    · rwa [if_pos hlt] at hreply
    · rw [if_neg (Nat.lt_irrefl i)] at hreply
      rw [List.drop_of_length_le (List.length_take_le i calls)] at hreply
      rw [hreply]
      cases calls[i] <;> rfl
  · intro i hi hcall
    have hreply := hends.replies rfl hcall
    rwa [if_neg (Nat.lt_asymm hi)] at hreply
  · intro i hi hcall
    have hreply := hends.replies rfl hcall
    rw [if_neg (Nat.not_lt.mpr hi), Call.again] at hreply
    simpa only [List.contains_iff_mem] using hreply
  · intro hlength more
    exact ⟨_, answers_of_nil (hends.answers rfl hlength).1 more⟩
  · intro hhalted
    obtain ⟨d, hd⟩ := hends.result_of_halted rfl hstart hhalted
    exact ⟨hs.last_reported hhalted, fun more t ht => hends.kind_ne rfl hd ht⟩

end DecafLex.Scanner
