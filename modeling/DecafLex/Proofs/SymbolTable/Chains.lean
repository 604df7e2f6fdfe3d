import DecafLex.SymbolTable.Basic
import Mathlib.Algebra.Order.BigOperators.Group.List
import Mathlib.Algebra.Order.Ring.Nat
import Mathlib.Data.List.Nodup

/-! Finding a name in a symbol table. A bucket chains exactly the declarations whose names hash to
it and no name is declared twice, so a name is found at its place among the declared ones. -/
namespace DecafLex.SymbolTable

/-- The bucket that a name hashes to. -/
def slot (hash : String → UInt64) (count : Nat) (name : String) : Nat := (hash name).toNat % count

/-- The places of the names that hash to a bucket, the first place first. -/
def chain (hash : String → UInt64) (names : List String) (count bucket : Nat) : List DeclId :=
  (names.zipIdx.filter fun entry => slot hash count entry.1 = bucket).map fun entry => ⟨entry.2⟩

variable {hash : String → UInt64}

theorem mem_chain {names : List String} {count bucket : Nat} {id : DeclId} :
    id ∈ chain hash names count bucket ↔
      ∃ name, names[id.index]? = some name ∧ slot hash count name = bucket := by
  simp only [chain, List.mem_map, List.mem_filter, List.mem_zipIdx_iff_getElem?, decide_eq_true_eq]
  constructor
  · rintro ⟨⟨name, i⟩, ⟨hname, hslot⟩, rfl⟩
    exact ⟨name, hname, hslot⟩
  · rintro ⟨name, hname, hslot⟩
    exact ⟨(name, id.index), ⟨hname, hslot⟩, rfl⟩

/-- A new name goes to the end of its own chain. -/
theorem chain_concat (names : List String) (name : String) (count bucket : Nat) :
    chain hash (names ++ [name]) count bucket =
      if slot hash count name = bucket then chain hash names count bucket ++ [⟨names.length⟩]
      else chain hash names count bucket := by
  simp only [chain, List.zipIdx_append, List.filter_append, List.map_append, List.zipIdx_singleton,
    Nat.zero_add]
  by_cases hslot : slot hash count name = bucket <;> simp [hslot]

/-- The declared names, in the order they were first seen. -/
def names (t : SymbolTable) : List String := t.declarations.toList.map (·.name)

/-- The number of a name that is declared; the next free number for any other name. -/
def idOf (t : SymbolTable) (name : String) : DeclId := ⟨t.names.idxOf name⟩

structure WellFormed (t : SymbolTable) : Prop where
  nodup : t.names.Nodup
  chained : ∀ (bucket : Nat) (h : bucket < t.buckets.size),
    t.buckets[bucket] = chain t.hash t.names t.buckets.size bucket

variable {t : SymbolTable} {name : String}

theorem length_names (t : SymbolTable) : t.names.length = t.size := by simp [names, size]

theorem get?_map_name (t : SymbolTable) (id : DeclId) :
    (t.get? id).map (·.name) = t.names[id.index]? := by simp [get?, names]

private theorem get?_any_name (id : DeclId) :
    (t.get? id).any (·.name == name) = true ↔ t.names[id.index]? = some name := by
  rw [← get?_map_name]
  cases t.get? id <;> simp

theorem idOf_getElem (h : t.WellFormed) {i : Nat} (hname : t.names[i]? = some name) :
    t.idOf name = ⟨i⟩ := by
  obtain ⟨hlt, rfl⟩ := List.getElem?_eq_some_iff.mp hname
  rw [idOf, h.nodup.idxOf_getElem]

theorem wellFormed_empty (hash : String → UInt64) (count : Nat) :
    (empty hash count).WellFormed := by
  constructor
  · exact List.nodup_nil
  · intro bucket hbucket
    exact Array.getElem_replicate ..

theorem WellFormed.index_lt (h : t.WellFormed) {bucket : Nat} (hbucket : bucket < t.buckets.size)
    {id : DeclId} (hid : id ∈ t.buckets[bucket]) : id.index < t.size := by
  rw [h.chained bucket hbucket] at hid
  obtain ⟨name, hname, -⟩ := mem_chain.mp hid
  have hlt := (List.getElem?_eq_some_iff.mp hname).1
  rwa [length_names] at hlt

/-- A declaration is found exactly by its name, whatever other names hash to its bucket. -/
theorem find?_eq (h : t.WellFormed) (name : String) :
    t.find? name = if name ∈ t.names then some (t.idOf name) else none := by
  have hchain : t.buckets[t.bucketOf name] =
      chain t.hash t.names t.buckets.size (slot t.hash t.buckets.size name) := h.chained _ _
  unfold find?
  rw [hchain]
  split
  next hmem =>
    have hidx := List.getElem?_idxOf hmem
    cases hfind : List.find? _ _ with
    | none =>
      have hid : t.idOf name ∈
          chain t.hash t.names t.buckets.size (slot t.hash t.buckets.size name) :=
        mem_chain.mpr ⟨name, hidx, rfl⟩
      exact absurd (get?_any_name _ |>.mpr hidx) (List.find?_eq_none.mp hfind _ hid)
    | some id =>
      have hany := List.find?_some hfind
      rw [idOf_getElem h ((get?_any_name id).mp hany)]
  next hmem =>
    apply List.find?_eq_none.mpr
    intro id _ hany
    exact hmem (List.mem_of_getElem? ((get?_any_name id).mp hany))

/-- Counts one more occurrence of a name in a plain list of declarations. -/
def record (entries : List Declaration) (name : String) (line : Nat) : List Declaration :=
  if name ∈ entries.map (·.name) then
    entries.map fun d => if d.name = name then { d with occurrences := d.occurrences + 1 } else d
  else entries ++ [⟨name, line, 1⟩]

theorem names_record (entries : List Declaration) (name : String) (line : Nat) :
    (record entries name line).map (·.name) =
      if name ∈ entries.map (·.name) then entries.map (·.name)
      else entries.map (·.name) ++ [name] := by
  unfold record
  split
  next =>
    rw [List.map_map]
    apply List.map_congr_left
    intro d _
    dsimp only [Function.comp]
    split <;> rfl
  next => simp

theorem nodup_record {entries : List Declaration} (h : (entries.map (·.name)).Nodup)
    (name : String) (line : Nat) : ((record entries name line).map (·.name)).Nodup := by
  rw [names_record]
  split
  next => exact h
  next hmem => exact List.nodup_append_comm.mp (List.nodup_cons.mpr ⟨hmem, h⟩)

/-- A table counts an occurrence as a plain list of declarations does. -/
theorem declarations_intern (h : t.WellFormed) (name : String) (line : Nat) :
    (t.intern name line).2.declarations.toList = record t.declarations.toList name line := by
  unfold intern record
  rw [find?_eq h]
  change _ = if name ∈ t.names then _ else _
  by_cases hmem : name ∈ t.names
  · rw [if_pos hmem, if_pos hmem]
    dsimp only
    rw [Array.toList_modify]
    apply List.ext_getElem?
    intro i
    rw [List.getElem?_modify, List.getElem?_map]
    cases hd : t.declarations.toList[i]? with
    | none => rfl
    | some d =>
      have hname : t.names[i]? = some d.name := by simp [names, hd]
      have hplace : (t.idOf name).index = i ↔ d.name = name := by
        constructor
        · rintro rfl
          exact Option.some.inj (hname.symm.trans (List.getElem?_idxOf hmem))
        · rintro rfl
          rw [idOf_getElem h hname]
      simp only [Option.map_eq_map, Option.map_some, hplace]
  · rw [if_neg hmem, if_neg hmem]
    exact Array.toList_push

theorem names_intern (h : t.WellFormed) (name : String) (line : Nat) :
    (t.intern name line).2.names = if name ∈ t.names then t.names else t.names ++ [name] := by
  rw [names, declarations_intern h, names_record]
  rfl

/-- The number given out is the place of the name among the declared ones, then and now. -/
theorem id_intern (h : t.WellFormed) (name : String) (line : Nat) :
    (t.intern name line).1 = t.idOf name := by
  unfold intern
  rw [find?_eq h]
  by_cases hmem : name ∈ t.names
  · rw [if_pos hmem]
  · rw [if_neg hmem, idOf, List.idxOf_eq_length hmem, length_names]

theorem wellFormed_intern (h : t.WellFormed) (name : String) (line : Nat) :
    (t.intern name line).2.WellFormed := by
  have hnames := names_intern h name line
  constructor
  · rw [names, declarations_intern h]
    exact nodup_record h.nodup name line
  · rw [hnames]
    unfold intern
    rw [find?_eq h]
    by_cases hmem : name ∈ t.names
    · rw [if_pos hmem, if_pos hmem]
      exact h.chained
    · rw [if_neg hmem, if_neg hmem]
      intro bucket hbucket
      simp only [Array.size_modify] at hbucket ⊢
      rw [Array.getElem_modify, chain_concat, h.chained bucket hbucket, length_names]
      rfl

/-- Occurrences of all names together. -/
def total (t : SymbolTable) : Nat := (t.declarations.toList.map (·.occurrences)).sum

theorem size_intern_le (t : SymbolTable) (name : String) (line : Nat) :
    (t.intern name line).2.size ≤ t.size + 1 := by
  unfold intern
  split
  · simp [size]
  · simp [size]

private theorem sum_record {entries : List Declaration} (h : (entries.map (·.name)).Nodup)
    (name : String) (line : Nat) : ((record entries name line).map (·.occurrences)).sum =
      (entries.map (·.occurrences)).sum + 1 := by
  unfold record
  split
  next hmem =>
    induction entries with
    | nil => cases hmem
    | cons d entries ih =>
      obtain ⟨hd, hnodup⟩ := List.nodup_cons.mp h
      simp only [List.map_cons, List.sum_cons]
      by_cases hname : d.name = name
      · -- No other declaration has the name, so the others stay as they are.
        have hothers : entries.map (fun e =>
            if e.name = name then { e with occurrences := e.occurrences + 1 } else e) = entries := by
          apply (List.map_congr_left _).trans (List.map_id entries)
          intro e he
          apply if_neg
          intro hename
          exact hd (List.mem_map.mpr ⟨e, he, hename.trans hname.symm⟩)
        rw [hothers, if_pos hname]
        exact Nat.add_right_comm ..
      · have htail := ih hnodup ((List.mem_cons.mp hmem).resolve_left (Ne.symm hname))
        rw [if_neg hname, htail, Nat.add_assoc]
  next => simp

theorem total_intern (h : t.WellFormed) (name : String) (line : Nat) :
    (t.intern name line).2.total = t.total + 1 := by
  rw [total, declarations_intern h, total]
  exact sum_record h.nodup name line

theorem occurrences_le_total {d : Declaration} (h : d ∈ t.declarations) : d.occurrences ≤ t.total :=
  List.le_sum_of_mem (List.mem_map_of_mem (Array.mem_toList_iff.mpr h))

end DecafLex.SymbolTable
