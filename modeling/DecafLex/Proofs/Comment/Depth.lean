import DecafLex.Comment
import DecafLex.Proofs.Text.Extent

/-! Comments read character by character. Skipping from delimiter to delimiter reads the same text,
to the same depth and the same place. -/
namespace DecafLex.Comment

/-- Reads a text from left to right, from a depth on and until no comment is open: the depth
reached, and the number of characters read. -/
@[simp] def walk : Nat → List Char → Nat × Nat
  | 0, _ => (0, 0)
  | depth + 1, [] => (depth + 1, 0)
  | depth + 1, '/' :: '*' :: text => let (d, n) := walk (depth + 2) text; (d, n + 2)
  | depth + 1, '*' :: '/' :: text => let (d, n) := walk depth text; (d, n + 2)
  | depth + 1, _ :: text => let (d, n) := walk (depth + 1) text; (d, n + 1)

def Nesting.ofDepth : Nat → Nesting
  | 0 => outside
  | depth + 1 => inside (depth + 1)

theorem Nesting.depth_ofDepth (depth : Nat) : (ofDepth depth).depth = depth := by
  cases depth <;> rfl

/-- The depth after a delimiter that is read at depth `depth + 1`. -/
def Delimiter.depthAfter (depth : Nat) : Delimiter → Nat
  | opening => depth + 2
  | closing => depth

theorem pass_inside (depth : Nat) (delimiter : Delimiter) :
    (Nesting.inside (depth + 1)).pass delimiter = .ofDepth (delimiter.depthAfter depth) := by
  cases delimiter with
  | opening => rfl
  | closing =>
    cases depth with
    | zero => rfl
    | succ depth => simp [Nesting.pass, Nesting.leave, Nesting.depth, Nesting.ofDepth,
        Delimiter.depthAfter]

theorem walk_of_firstDelimiter? (depth : Nat) (text : List Char) :
    walk (depth + 1) text =
      match firstDelimiter? text with
      | none => (depth + 1, text.length)
      | some (delimiter, length) =>
        let (d, n) := walk (delimiter.depthAfter depth) (text.drop length)
        (d, n + length) := by
  fun_induction firstDelimiter? text with
  | case1 => rfl
  | case2 text => rfl
  | case3 text => rfl
  | case4 c text hopen hclose ih =>
    rw [walk.eq_5 depth c text hopen hclose, ih]
    cases firstDelimiter? text with
    | none => rfl
    | some found => rfl

/-- A delimiter is found without what follows it. -/
private theorem firstDelimiter?_take_append {text : List Char} {delimiter : Delimiter} {length : Nat}
    (h : firstDelimiter? text = some (delimiter, length)) (rest : List Char) :
    firstDelimiter? (text.take length ++ rest) = some (delimiter, length) := by
  fun_induction firstDelimiter? text generalizing delimiter length with
  | case1 => cases h
  | case2 | case3 =>
    obtain ⟨rfl, rfl⟩ := Prod.mk.inj (Option.some.inj h)
    rfl
  | case4 c text hopen hclose ih =>
    obtain ⟨⟨delimiter', length'⟩, hfound, he⟩ := Option.map_eq_some_iff.mp h
    obtain ⟨rfl, rfl⟩ := Prod.mk.inj he
    obtain ⟨hpos, hle⟩ := firstDelimiter?_length hfound
    obtain ⟨n, rfl⟩ := Nat.exists_eq_succ_of_ne_zero hpos.ne'
    obtain ⟨b, back, rfl⟩ := List.exists_cons_of_length_pos (hpos.trans_le hle)
    have htext := ih hfound
    rw [List.take_succ_cons, List.cons_append] at htext ⊢
    rw [List.take_succ_cons, List.cons_append, firstDelimiter?, htext]
    · rfl
    · rintro rest' rfl hcons
      exact hopen back rfl (by rw [(List.cons.inj hcons).1])
    · rintro rest' rfl hcons
      exact hclose back rfl (by rw [(List.cons.inj hcons).1])

/-- Behind a delimiter the walk goes on at the depth after it. -/
theorem walk_append_of_firstDelimiter? (depth : Nat) {text : List Char} {delimiter : Delimiter}
    {length : Nat} (h : firstDelimiter? text = some (delimiter, length)) (rest : List Char) :
    walk (depth + 1) (text.take length ++ rest) =
      ((walk (delimiter.depthAfter depth) rest).1,
        (walk (delimiter.depthAfter depth) rest).2 + length) := by
  obtain ⟨-, hle⟩ := firstDelimiter?_length h
  rw [walk_of_firstDelimiter?, firstDelimiter?_take_append h]
  dsimp only
  rw [List.drop_left' (List.length_take_of_le hle)]

/-- No more than `bound` comments are open at any time in the text. -/
def Fits (depth bound : Nat) (text : List Char) : Prop :=
  ∀ front, front <+: text → (walk depth front).1 ≤ bound

section
variable {depth bound : Nat} {text : List Char}

theorem walk_depth_le (depth : Nat) (text : List Char) :
    (walk depth text).1 ≤ depth + text.length := by
  fun_induction walk depth text <;> simp_all <;> omega

theorem fits_of_le (h : depth + text.length ≤ bound) : Fits depth bound text := by
  intro front hfront
  have hdepth := walk_depth_le depth front
  have hlength := hfront.length_le
  omega

theorem Fits.le (h : Fits depth bound text) : depth ≤ bound := by
  have hnil := h [] List.nil_prefix
  cases depth with
  | zero => exact Nat.zero_le _
  | succ depth => exact hnil

theorem Fits.drop (h : Fits (depth + 1) bound text) {delimiter : Delimiter} {length : Nat}
    (hfirst : firstDelimiter? text = some (delimiter, length)) :
    Fits (delimiter.depthAfter depth) bound (text.drop length) := by
  intro front hfront
  have hfronts := (List.prefix_append_right_inj (text.take length)).mpr hfront
  rw [List.take_append_drop] at hfronts
  have hdepth := h _ hfronts
  rwa [walk_append_of_firstDelimiter? depth hfirst] at hdepth

end

theorem Nesting.depth_leave_le (n : Nesting) : n.leave.depth ≤ n.depth := by
  unfold leave
  split
  · exact Nat.zero_le _
  · exact Nat.sub_le ..

/-- A delimiter takes two characters. -/
theorem two_le_firstDelimiter? {text : List Char} {delimiter : Delimiter} {length : Nat}
    (h : firstDelimiter? text = some (delimiter, length)) : 2 ≤ length := by
  fun_induction firstDelimiter? text generalizing delimiter length with
  | case1 => cases h
  | case2 | case3 =>
    obtain ⟨-, rfl⟩ := Prod.mk.inj (Option.some.inj h)
    exact le_rfl
  | case4 c text _ _ ih =>
    obtain ⟨⟨delimiter', length'⟩, hfound, he⟩ := Option.map_eq_some_iff.mp h
    obtain ⟨-, rfl⟩ := Prod.mk.inj he
    exact Nat.le_succ_of_le (ih hfound)

/-- Skipping reads what the walk reads. -/
theorem skip_ofDepth (depth : Nat) (p : Position) (text : List Char) :
    skip (.ofDepth depth) p text =
      ⟨.ofDepth (walk depth text).1, p.advance (text.take (walk depth text).2),
        if (walk depth text).1 = 0 then some (walk depth text).2 else none⟩ := by
  induction hn : text.length using Nat.strong_induction_on generalizing depth p text with
  | _ n ih =>
    subst hn
    cases depth with
    | zero => simp [Nesting.ofDepth, skip, walk, Position.advance]
    | succ depth =>
      have hwalk := walk_of_firstDelimiter? depth text
      rw [Nesting.ofDepth, skip]
      split
      next hnone =>
        rw [hnone] at hwalk
        simp [hwalk, Nesting.ofDepth]
      next delimiter length hsome =>
        obtain ⟨hpos, hle⟩ := firstDelimiter?_length hsome
        rw [hsome] at hwalk
        rw [pass_inside, ih _ (by rw [List.length_drop]; omega) _ _ _ rfl, hwalk]
        simp only [← Position.advance_append, Nat.add_comm _ length, ← List.take_add]
        split <;> rfl

/-- A walk that leaves a comment open has read everything. -/
theorem walk_of_open {depth : Nat} {text : List Char} (h : (walk depth text).1 ≠ 0) :
    (walk depth text).2 = text.length := by
  fun_induction walk depth text <;> simp_all

theorem walk_le_length (depth : Nat) (text : List Char) : (walk depth text).2 ≤ text.length := by
  fun_induction walk depth text <;> simp_all

theorem two_le_walk {depth : Nat} {text : List Char} (h : (walk (depth + 1) text).1 = 0) :
    2 ≤ (walk (depth + 1) text).2 := by
  generalize hdepth : depth + 1 = start at h
  fun_induction walk start text generalizing depth with
  | case1 => cases hdepth
  | case2 => cases h
  | case3 => simp_all
  | case4 => simp_all
  | case5 depth c text hopen hclose d n hwalk ih =>
    have := ih rfl (by simpa [hwalk] using h)
    simp_all
    omega

/-- The end of a closed comment does not depend on what follows it. -/
theorem walk_take_append {depth : Nat} {text : List Char} (h : (walk depth text).1 = 0)
    (rest : List Char) :
    walk depth (text.take (walk depth text).2 ++ rest) = walk depth text := by
  fun_induction walk depth text with
  | case1 => simp [walk]
  | case2 => cases h
  | case3 depth text d n hwalk ih =>
    have htext := ih (by simpa [hwalk] using h)
    rw [hwalk] at htext
    simp [walk, htext]
  | case4 depth text d n hwalk ih =>
    have htext := ih (by simpa [hwalk] using h)
    rw [hwalk] at htext
    simp [walk, htext]
  | case5 depth c text hopen hclose d n hwalk ih =>
    have hzero : (walk (depth + 1) text).1 = 0 := by simpa [hwalk] using h
    have hpos := two_le_walk hzero
    rw [hwalk] at ih hpos
    have hhead (b : Char) (back : List Char) (he : text.take n ++ rest = b :: back) :
        ∃ back, text = b :: back := by
      cases text with
      | nil => simp [walk] at hzero
      | cons b' text =>
        obtain ⟨m, rfl⟩ : ∃ m, n = m + 1 := ⟨n - 1, by omega⟩
        obtain rfl : b' = b := by simpa using (List.cons.inj he).1
        exact ⟨text, rfl⟩
    rw [List.take_succ_cons, List.cons_append, walk.eq_5]
    · simp [ih (by simpa [hwalk] using h)]
    · rintro back rfl he
      obtain ⟨back, rfl⟩ := hhead _ _ he
      exact hopen back rfl rfl
    · rintro back rfl he
      obtain ⟨back, rfl⟩ := hhead _ _ he
      exact hclose back rfl rfl

/-- Nothing follows what a walk reads without closing it. -/
theorem nil_of_open {depth : Nat} {text rest : List Char}
    (h : (walk depth (text ++ rest)).2 = text.length) (hopen : (walk depth (text ++ rest)).1 ≠ 0) :
    rest = [] := by
  have hlength := walk_of_open hopen
  rw [h, List.length_append] at hlength
  exact List.eq_nil_of_length_eq_zero (by omega)

/-- What a walk reads decides how it ends. -/
theorem walk_of_reads {depth : Nat} {text rest : List Char}
    (h : (walk depth (text ++ rest)).2 = text.length) :
    walk depth (text ++ rest) = walk depth text := by
  by_cases hzero : (walk depth (text ++ rest)).1 = 0
  · have htake := walk_take_append hzero []
    rw [h, List.take_left, List.append_nil] at htake
    exact htake.symm
  · rw [nil_of_open h hzero, List.append_nil]

/-- A comment that is closed reads the same whatever follows it. -/
theorem walk_append_of_closed {body after : List Char}
    (hbody : (walk 1 (body ++ after)).2 = body.length) (hclosed : (walk 1 body).1 = 0)
    (rest : List Char) : walk 1 (body ++ rest) = (0, body.length) := by
  have hreads := walk_of_reads hbody
  have hwalk := walk_take_append hclosed rest
  rw [hreads] at hbody
  rw [hbody, List.take_length] at hwalk
  exact hwalk.trans (Prod.ext hclosed hbody)

/-- A walk that closes the last comment ends in a delimiter. -/
theorem isSuffix_of_closed {depth : Nat} {text : List Char}
    (h : walk (depth + 1) text = (0, text.length)) : ['*', '/'] <:+ text := by
  generalize hdepth : depth + 1 = start at h
  fun_induction walk start text generalizing depth with
  | case1 => cases hdepth
  | case2 => cases h
  | case3 depth text d n hwalk ih =>
    simp only [List.length_cons, Prod.mk.injEq, Nat.add_right_cancel_iff] at h
    obtain ⟨rfl, rfl⟩ := h
    exact (ih rfl hwalk).trans (List.suffix_append ['/', '*'] text)
  | case4 start text d n hwalk ih =>
    simp only [List.length_cons, Prod.mk.injEq, Nat.add_right_cancel_iff] at h
    obtain ⟨rfl, rfl⟩ := h
    cases start with
    | zero =>
      have hlength : 0 = text.length := by simpa [walk] using hwalk
      obtain rfl := List.eq_nil_of_length_eq_zero hlength.symm
      exact List.suffix_rfl
    | succ start => exact (ih rfl hwalk).trans (List.suffix_append ['*', '/'] text)
  | case5 depth c text hopen hclose d n hwalk ih =>
    simp only [List.length_cons, Prod.mk.injEq, Nat.add_right_cancel_iff] at h
    obtain ⟨rfl, rfl⟩ := h
    exact (ih rfl hwalk).trans (List.suffix_cons c text)

theorem getLast?_of_closed {depth : Nat} {text : List Char}
    (h : walk (depth + 1) text = (0, text.length)) : text.getLast? = some '/' := by
  obtain ⟨front, rfl⟩ := isSuffix_of_closed h
  rw [List.getLast?_append]
  rfl

/-- What closes the last comment is the shortest text that does. -/
theorem open_of_lt_walk {depth : Nat} {text : List Char} {length : Nat}
    (h : length < (walk depth text).2) : (walk depth (text.take length)).1 ≠ 0 := by
  intro hzero
  -- A comment closed in the shorter text ends at the same place in the longer one.
  have hwalk := walk_take_append hzero ((text.take length).drop (walk depth (text.take length)).2 ++
    text.drop length)
  rw [← List.append_assoc, List.take_append_drop, List.take_append_drop] at hwalk
  have hle := walk_le_length depth (text.take length)
  have htake := List.length_take_le length text
  rw [← hwalk] at hle
  omega

end DecafLex.Comment
