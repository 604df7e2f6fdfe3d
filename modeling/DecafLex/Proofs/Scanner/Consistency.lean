import DecafLex.Proofs.Scanner.Interning

/-! What a scanner has reported and where it stands, whatever calls have been made. Something fatal is
the last thing reported, and it leaves the scanner in a comment. -/
namespace DecafLex

theorem Tally.foldl_report (reports : List Diagnostic) (t : Tally) : reports.foldl Tally.report t =
    ⟨t.reported + reports.length, t.fatal + reports.countP Diagnostic.isFatal⟩ := by
  induction reports generalizing t with
  | nil => rfl
  | cons d reports ih =>
    rw [List.foldl_cons, ih, List.length_cons, List.countP_cons, report]
    cases d.isFatal
    · simp [Nat.add_comm, Nat.add_left_comm]
    · simp [Nat.add_comm, Nat.add_left_comm]

namespace Segment

variable {p : Position} {table : SymbolTable} {segment : Segment} {after : List Char}

/-- A segment that does not stop the scan leaves no comment open and reports nothing fatal. -/
theorem Stands.recoverable (h : segment.Stands p table after) (hfatal : segment.fatal? = none) :
    segment.depth = 0 ∧ ∀ d ∈ segment.diagnostic?, d.isFatal = false := by
  cases h with
  | openComment => cases hfatal
  | rejected rule front after problem hmeaning =>
    refine ⟨rfl, ?_⟩
    intro d hd
    obtain rfl := Option.some.inj hd
    exact (Rule.blames_of_meaning hmeaning).isFatal
  | unknown c =>
    refine ⟨rfl, ?_⟩
    intro d hd
    obtain rfl := Option.some.inj hd
    rfl
  | _ => exact ⟨rfl, fun d hd => by cases hd⟩

/-- The segment that stops the scan is the last one, and it leaves a comment open. -/
theorem Stands.fatal (h : segment.Stands p table after) {d : Diagnostic}
    (hfatal : segment.fatal? = some d) :
    after = [] ∧ 1 ≤ segment.depth ∧ segment.diagnostic? = some d ∧ d.isFatal = true := by
  cases h with
  | openComment body depth hbody =>
    obtain rfl := Option.some.inj hfatal
    refine ⟨rfl, ?_, rfl, rfl⟩
    change 1 ≤ (Comment.walk 1 body).1
    rw [hbody]
    exact Nat.le_add_left 1 depth
  | _ => cases hfatal

end Segment

namespace Scanner

/-- Where a scanner can stand: outside of comments with nothing fatal reported, or in a comment at the
end of the source, where that comment is the last thing reported and the only fatal one. -/
inductive Consistent (s : Scanner) : Prop where
  | going (hfatal : s.fatal = none) (hnesting : s.nesting = .outside)
      (hreported : ∀ d ∈ s.diagnostics.toList, d.isFatal = false)
  | halted (before : List Diagnostic) (d : Diagnostic) (hfatal : s.fatal = some d)
      (hrest : s.rest = []) (hdepth : 1 ≤ s.nesting.depth)
      (hreported : s.diagnostics.toList = before ++ [d]) (hd : d.isFatal = true)
      (hbefore : ∀ e ∈ before, e.isFatal = false)

variable {s s' : Scanner}

theorem consistent_ofSource (config : Config) (source : String) :
    (ofSource config source).Consistent := .going rfl rfl (fun _ hd => by cases hd)

theorem Consistent.ready (h : s.Consistent) : s.Ready := by
  intro hne
  cases h with
  | going hfatal hnesting => exact ⟨hfatal, hnesting⟩
  | halted _ _ _ hrest => exact absurd hrest hne

theorem Passes.consistent {segment : Segment} (h : s.Passes segment s') (hs : s.Consistent)
    (hnone : s.fatal = none) : s'.Consistent := by
  cases hs with
  | halted _ d hfatal => cases hnone.symm.trans hfatal
  | going _ _ hreported =>
    have hdiagnostics := h.diagnostics
    cases hsegment : segment.fatal? with
    | none =>
      obtain ⟨hdepth, hrecoverable⟩ := h.stands.recoverable hsegment
      refine .going ?_ ?_ ?_
      · rw [h.fatal, hsegment, hnone, Option.or_none]
      · rw [h.nesting, hdepth, Comment.Nesting.ofDepth]
      · rw [hdiagnostics]
        exact List.forall_mem_append.mpr ⟨hreported, by simpa using hrecoverable⟩
    | some d =>
      obtain ⟨hrest, hdepth, hdiagnostic, hd⟩ := h.stands.fatal hsegment
      rw [hdiagnostic] at hdiagnostics
      refine .halted _ d ?_ hrest ?_ hdiagnostics hd hreported
      · rw [h.fatal, hsegment, Option.some_or]
      · obtain ⟨depth, hsucc⟩ := Nat.exists_eq_add_of_le' hdepth
        rw [h.nesting, hsucc]
        exact Nat.le_add_left 1 depth

theorem consistent_nextToken (h : s.Consistent) : s.nextToken.2.Consistent := by
  have hready := h.ready
  revert h
  apply hready.nextToken_induction (motive := fun s _ s' => s.Consistent → s'.Consistent)
  case stopped => exact fun _ _ h => h
  case done => exact fun _ _ h => h
  case token => exact fun hfatal hpasses h => hpasses.consistent h hfatal
  case silent => exact fun hfatal hpasses _ ih h => ih (hpasses.consistent h hfatal)

theorem Consistent.isHalted_iff (h : s.Consistent) :
    s.isHalted = true ↔ ∃ d ∈ s.diagnostics.toList, d.isFatal = true := by
  rw [isHalted]
  cases h with
  | going hfatal _ hreported => simpa [hfatal] using hreported
  | halted before d hfatal _ _ hreported hd => simp [hfatal, hreported, hd]

theorem Consistent.last_reported (h : s.Consistent) (hhalted : s.isHalted = true) :
    ∃ before d, s.diagnostics.toList = before ++ [d] ∧ d.isFatal = true ∧
      ∀ e ∈ before, e.isFatal = false := by
  rw [isHalted] at hhalted
  cases h with
  | going hfatal => simp [hfatal] at hhalted
  | halted before d _ _ _ hreported hd hbefore => exact ⟨before, d, hreported, hd, hbefore⟩

theorem Consistent.tally (h : s.Consistent) : s.diagnostics.toList.foldl Tally.report .empty =
    ⟨s.diagnostics.size, if s.isHalted then 1 else 0⟩ := by
  rw [Tally.foldl_report, Tally.empty, Nat.zero_add, Nat.zero_add, Array.length_toList, isHalted]
  cases h with
  | going hfatal _ hreported => simpa [hfatal, List.countP_eq_zero] using hreported
  | halted before d hfatal _ _ hreported hd hbefore =>
    have hzero : before.countP Diagnostic.isFatal = 0 := by
      simpa [List.countP_eq_zero] using hbefore
    rw [hreported, List.countP_append, hzero]
    simp [hfatal, hd]

theorem Consistent.depth (h : s.Consistent) :
    if s.isHalted then 1 ≤ s.nesting.depth else s.nesting.depth = 0 := by
  rw [isHalted]
  cases h with
  | going hfatal hnesting => simp [hfatal, hnesting, Comment.Nesting.depth]
  | halted _ _ hfatal _ hdepth => simpa [hfatal] using hdepth

theorem Consistent.rest_eq_nil (h : s.Consistent) (hhalted : s.isHalted = true) : s.rest = [] := by
  rw [isHalted] at hhalted
  cases h with
  | going hfatal => simp [hfatal] at hhalted
  | halted _ _ _ hrest => exact hrest

/-- The scanner with another record of whether `next` has given its last result. -/
def marked (s : Scanner) (finished : Bool) : Scanner := { s with finished }

theorem finished_marked (s : Scanner) (finished : Bool) : (s.marked finished).finished = finished := rfl

theorem marked_finished (s : Scanner) : s.marked s.finished = s := rfl

theorem marked_marked (s : Scanner) (a b : Bool) : (s.marked a).marked b = s.marked b := rfl

theorem Consistent.marked (h : s.Consistent) (finished : Bool) : (s.marked finished).Consistent := by
  cases h with
  | going hfatal hnesting hreported => exact .going hfatal hnesting hreported
  | halted before d hfatal hrest hdepth hreported hd hbefore =>
    exact .halted before d hfatal hrest hdepth hreported hd hbefore

theorem next_eq (s : Scanner) : s.next =
    if s.finished then (none, s)
    else (some s.nextToken.1, s.nextToken.2.marked (isLast s.nextToken.1)) := rfl

theorem consistent_answer (h : s.Consistent) (call : Call) : (s.answer call).2.Consistent := by
  have hnext := consistent_nextToken h
  cases call with
  | nextToken => exact hnext
  | next =>
    rw [answer, next_eq]
    split
    · exact h
    · exact hnext.marked _

theorem consistent_answers (h : s.Consistent) (calls : List Call) :
    (s.answers calls).2.Consistent := by
  induction calls generalizing s with
  | nil => exact h
  | cons call calls ih => exact ih (consistent_answer h call)

end Scanner
end DecafLex
