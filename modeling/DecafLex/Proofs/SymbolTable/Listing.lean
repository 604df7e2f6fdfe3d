import DecafLex.Proofs.SymbolTable.Chains

/-! A symbol table behaves as a plain list of declarations. Whatever is asked of the two, in whatever
order, the responses are the same; buckets and the names that share one do not show. -/
namespace DecafLex

/-- Declarations in a plain list, no name twice. -/
structure Listing where
  entries : List Declaration
  nodup : (entries.map (·.name)).Nodup

/-- What a table or a list can be asked for. -/
inductive Request where
  | intern (name : String) (line : Nat)
  | find (name : String)
  | get (id : DeclId)
  | getByName (name : String)
deriving DecidableEq, Repr

inductive Response where
  | interned (id : DeclId)
  | found (id : Option DeclId)
  | declared (d : Option Declaration)
deriving DecidableEq, Repr

namespace Response

/-- The numbers that a response gives out. -/
def ids : Response → List DeclId
  | interned id => [id]
  | found id => id.toList
  | declared _ => []

end Response

namespace Request

variable {σ τ : Type}

/-- The responses to some requests, one after the other, and the state that they leave. -/
def run (respond : σ → Request → Response × σ) (s : σ) : List Request → List Response × σ
  | [] => ([], s)
  | request :: requests =>
    let (response, s) := respond s request
    let (responses, s) := run respond s requests
    (response :: responses, s)

/-- Two states that respond alike to every request, and stay alike, respond alike to all of them. -/
theorem run_eq (Alike : σ → τ → Prop) {respond : σ → Request → Response × σ}
    {respond' : τ → Request → Response × τ}
    (hstep : ∀ s s' request, Alike s s' → (respond s request).1 = (respond' s' request).1 ∧
      Alike (respond s request).2 (respond' s' request).2)
    {s : σ} {s' : τ} (h : Alike s s') (requests : List Request) :
    (run respond s requests).1 = (run respond' s' requests).1 ∧
      Alike (run respond s requests).2 (run respond' s' requests).2 := by
  induction requests generalizing s s' with
  | nil => exact ⟨rfl, h⟩
  | cons request requests ih =>
    obtain ⟨hresponse, halike⟩ := hstep s s' request h
    obtain ⟨hresponses, hend⟩ := ih halike
    exact ⟨List.cons_eq_cons.mpr ⟨hresponse, hresponses⟩, hend⟩

end Request

/-- A declaration as it may stand later: with more occurrences. -/
structure Declaration.Grows (d d' : Declaration) : Prop where
  name : d'.name = d.name
  firstLine : d'.firstLine = d.firstLine
  occurrences : d.occurrences ≤ d'.occurrences

theorem Declaration.Grows.trans {d d' d'' : Declaration} (h : d.Grows d') (h' : d'.Grows d'') :
    d.Grows d'' where
  name := h'.name.trans h.name
  firstLine := h'.firstLine.trans h.firstLine
  occurrences := Nat.le_trans h.occurrences h'.occurrences

namespace Listing
open SymbolTable

def empty : Listing := ⟨[], List.nodup_nil⟩

def names (l : Listing) : List String := l.entries.map (·.name)

def size (l : Listing) : Nat := l.entries.length

def get? (l : Listing) (id : DeclId) : Option Declaration := l.entries[id.index]?

/-- The number of the entry with exactly this name. -/
def find? (l : Listing) (name : String) : Option DeclId :=
  (l.entries.findIdx? (·.name = name)).map DeclId.mk

def getByName? (l : Listing) (name : String) : Option Declaration :=
  l.entries.find? (·.name = name)

/-- A known name keeps its number and is counted once more. A new one becomes the last entry, numbered
by the entries before it. -/
def intern (l : Listing) (name : String) (line : Nat) : DeclId × Listing :=
  ((l.find? name).getD ⟨l.size⟩, ⟨record l.entries name line, nodup_record l.nodup name line⟩)

def respond (l : Listing) : Request → Response × Listing
  | .intern name line => (.interned (l.intern name line).1, (l.intern name line).2)
  | .find name => (.found (l.find? name), l)
  | .get id => (.declared (l.get? id), l)
  | .getByName name => (.declared (l.getByName? name), l)

variable {l l' l'' : Listing} {name : String} {id : DeclId}

theorem find?_eq (l : Listing) (name : String) :
    l.find? name = if name ∈ l.names then some ⟨l.names.idxOf name⟩ else none := by
  have hplace : l.entries.findIdx (·.name = name) = l.names.idxOf name := by
    rw [names, List.idxOf, List.findIdx_map]
    congr 1
  rw [find?, List.findIdx?_eq_guard_findIdx_lt, hplace, ← List.length_map (·.name)]
  change Option.map _ (Option.guard (fun i => decide (i < l.names.length)) _) = _
  by_cases hmem : name ∈ l.names
  · have hlt := List.idxOf_lt_length_iff.mpr hmem
    simp [Option.guard, hmem, hlt]
  · simp [Option.guard, hmem]

theorem get?_map_name (l : Listing) (id : DeclId) :
    (l.get? id).map (·.name) = l.names[id.index]? := by simp [get?, names]

/-- A name is found at an entry exactly if it is the name there. -/
theorem find?_eq_some_iff : l.find? name = some id ↔ ∃ d, l.get? id = some d ∧ d.name = name := by
  rw [find?_eq, ← Option.map_eq_some_iff, get?_map_name]
  constructor
  · intro h
    split at h
    next hmem =>
      obtain rfl := Option.some.inj h
      exact List.getElem?_idxOf hmem
    next => cases h
  · intro h
    obtain ⟨hlt, rfl⟩ := List.getElem?_eq_some_iff.mp h
    have hnodup : l.names.Nodup := l.nodup
    rw [if_pos (List.getElem_mem hlt), hnodup.idxOf_getElem]

theorem getByName?_eq (l : Listing) (name : String) :
    l.getByName? name = (l.find? name).bind l.get? := by
  rw [getByName?, List.find?_eq_bind_findIdx?_getElem?, find?, Option.bind_map]
  rfl

theorem names_intern (l : Listing) (name : String) (line : Nat) :
    (l.intern name line).2.names = if name ∈ l.names then l.names else l.names ++ [name] :=
  names_record l.entries name line

theorem id_intern (l : Listing) (name : String) (line : Nat) :
    (l.intern name line).1 = ⟨l.names.idxOf name⟩ := by
  change (l.find? name).getD ⟨l.size⟩ = _
  rw [find?_eq]
  split
  next => rfl
  next hmem =>
    rw [List.idxOf_eq_length hmem, names, List.length_map]
    rfl

/-- The number given out is that of the entry with the name. -/
theorem find?_intern (l : Listing) (name : String) (line : Nat) :
    (l.intern name line).2.find? name = some (l.intern name line).1 := by
  rw [find?_eq, names_intern, id_intern]
  by_cases hmem : name ∈ l.names
  · rw [if_pos hmem, if_pos hmem]
  · rw [if_neg hmem, if_pos (by simp), List.idxOf_append_of_notMem hmem, List.idxOf_cons_self,
      List.idxOf_eq_length hmem, Nat.add_zero]

/-- Every entry keeps its number, and grows at most. -/
def Extends (l l' : Listing) : Prop :=
  ∀ id d, l.get? id = some d → ∃ d', l'.get? id = some d' ∧ d.Grows d'

theorem Extends.refl (l : Listing) : l.Extends l :=
  fun _ d hd => ⟨d, hd, rfl, rfl, Nat.le_refl _⟩

theorem Extends.trans (h : l.Extends l') (h' : l'.Extends l'') : l.Extends l'' := by
  intro id d hd
  obtain ⟨d', hd', hgrows⟩ := h id d hd
  obtain ⟨d'', hd'', hgrows'⟩ := h' id d' hd'
  exact ⟨d'', hd'', hgrows.trans hgrows'⟩

theorem extends_intern (l : Listing) (name : String) (line : Nat) :
    l.Extends (l.intern name line).2 := by
  intro id d hd
  change l.entries[id.index]? = some d at hd
  change ∃ d', (record l.entries name line)[id.index]? = some d' ∧ _
  unfold record
  split
  next =>
    rw [List.getElem?_map, hd]
    refine ⟨_, rfl, ?_⟩
    dsimp only
    split
    · exact ⟨rfl, rfl, Nat.le_succ _⟩
    · exact ⟨rfl, rfl, Nat.le_refl _⟩
  next =>
    have hlt := (List.getElem?_eq_some_iff.mp hd).1
    rw [List.getElem?_append_left hlt]
    exact ⟨d, hd, rfl, rfl, Nat.le_refl _⟩

/-- A request leaves a longer list, or the same one, in which every number it gave out has an entry. -/
theorem extends_respond (l : Listing) (request : Request) :
    l.Extends (l.respond request).2 ∧
      ∀ id ∈ (l.respond request).1.ids, ∃ d, (l.respond request).2.get? id = some d := by
  cases request with
  | intern name line =>
    refine ⟨extends_intern l name line, List.forall_mem_singleton.mpr ?_⟩
    obtain ⟨d, hd, -⟩ := find?_eq_some_iff.mp (find?_intern l name line)
    exact ⟨d, hd⟩
  | find name =>
    refine ⟨.refl l, ?_⟩
    intro id hid
    obtain ⟨d, hd, -⟩ := find?_eq_some_iff.mp (Option.mem_toList.mp hid)
    exact ⟨d, hd⟩
  | get id => exact ⟨.refl l, fun _ hid => by cases hid⟩
  | getByName name => exact ⟨.refl l, fun _ hid => by cases hid⟩

theorem extends_run (l : Listing) (requests : List Request) :
    l.Extends (Request.run respond l requests).2 ∧
      ∀ response ∈ (Request.run respond l requests).1, ∀ id ∈ response.ids,
        ∃ d, (Request.run respond l requests).2.get? id = some d := by
  induction requests generalizing l with
  | nil => exact ⟨.refl l, fun _ h => by cases h⟩
  | cons request requests ih =>
    obtain ⟨hfirst, hids⟩ := extends_respond l request
    obtain ⟨hrest, hall⟩ := ih (l.respond request).2
    refine ⟨hfirst.trans hrest, List.forall_mem_cons.mpr ⟨?_, hall⟩⟩
    intro id hid
    obtain ⟨d, hd⟩ := hids id hid
    obtain ⟨d', hd', -⟩ := hrest id d hd
    exact ⟨d', hd'⟩

end Listing

namespace SymbolTable

def respond (t : SymbolTable) : Request → Response × SymbolTable
  | .intern name line => (.interned (t.intern name line).1, (t.intern name line).2)
  | .find name => (.found (t.find? name), t)
  | .get id => (.declared (t.get? id), t)
  | .getByName name => (.declared (t.getByName? name), t)

/-- The table declares the entries of the list, and chains them in its buckets. -/
structure Represents (t : SymbolTable) (l : Listing) : Prop where
  wellFormed : t.WellFormed
  declarations : t.declarations.toList = l.entries

namespace Represents

variable {t : SymbolTable} {l : Listing}

theorem names (h : t.Represents l) : t.names = l.names := congrArg _ h.declarations

theorem find? (h : t.Represents l) (name : String) : t.find? name = l.find? name := by
  rw [find?_eq h.wellFormed, l.find?_eq, idOf, h.names]

theorem get? (h : t.Represents l) (id : DeclId) : t.get? id = l.get? id := by
  rw [SymbolTable.get?, ← Array.getElem?_toList, h.declarations, Listing.get?]

theorem getByName? (h : t.Represents l) (name : String) :
    t.getByName? name = l.getByName? name := by
  rw [SymbolTable.getByName?, l.getByName?_eq, h.find?, funext h.get?]

theorem intern (h : t.Represents l) (name : String) (line : Nat) :
    (t.intern name line).1 = (l.intern name line).1 ∧
      (t.intern name line).2.Represents (l.intern name line).2 := by
  refine ⟨?_, wellFormed_intern h.wellFormed name line, ?_⟩
  · rw [id_intern h.wellFormed, l.id_intern, idOf, h.names]
  · rw [declarations_intern h.wellFormed, h.declarations]
    rfl

theorem respond (h : t.Represents l) (request : Request) :
    (t.respond request).1 = (l.respond request).1 ∧
      (t.respond request).2.Represents (l.respond request).2 := by
  cases request with
  | intern name line =>
    obtain ⟨hid, hend⟩ := h.intern name line
    exact ⟨congrArg Response.interned hid, hend⟩
  | find name => exact ⟨congrArg Response.found (h.find? name), h⟩
  | get id => exact ⟨congrArg Response.declared (h.get? id), h⟩
  | getByName name => exact ⟨congrArg Response.declared (h.getByName? name), h⟩

theorem run (h : t.Represents l) (requests : List Request) :
    (Request.run SymbolTable.respond t requests).1 =
        (Request.run Listing.respond l requests).1 ∧
      (Request.run SymbolTable.respond t requests).2.Represents
        (Request.run Listing.respond l requests).2 :=
  Request.run_eq Represents (fun _ _ request h => respond h request) h requests

end Represents

theorem represents_empty (hash : String → UInt64) (count : Nat) :
    (empty hash count).Represents .empty where
  wellFormed := wellFormed_empty hash count
  declarations := rfl

/-- Whatever a new table is asked for, and however its names are spread over however few buckets, it
responds as a plain list does: names are told apart exactly, a number once given out leads to the same
name and line for ever, and its count never falls. -/
theorem run_listing (hash : String → UInt64) (count : Nat) (requests : List Request) :
    let responses := (Request.run respond (empty hash count) requests).1
    let t := (Request.run respond (empty hash count) requests).2
    let l := (Request.run Listing.respond .empty requests).2
    responses = (Request.run Listing.respond .empty requests).1 ∧
    t.toList = l.entries.mapIdx (fun index d => (⟨index⟩, d)) ∧
    t.size = l.size ∧
    (∀ name id, t.find? name = some id ↔ ∃ d, l.get? id = some d ∧ d.name = name) ∧
    ∀ response ∈ responses, ∀ id ∈ response.ids, ∃ d, t.get? id = some d ∧
      ∀ more, ∃ d', (Request.run respond t more).2.get? id = some d' ∧ d.Grows d' := by
  intro responses t l
  obtain ⟨hresponses, hrepresents⟩ := (represents_empty hash count).run requests
  change t.Represents l at hrepresents
  refine ⟨hresponses, congrArg _ hrepresents.declarations,
    congrArg List.length hrepresents.declarations, ?_, ?_⟩
  · intro name id
    rw [hrepresents.find?]
    exact Listing.find?_eq_some_iff
  · intro response hresponse id hid
    rw [show responses = _ from hresponses] at hresponse
    obtain ⟨d, hd⟩ := (Listing.extends_run .empty requests).2 response hresponse id hid
    refine ⟨d, (hrepresents.get? id).trans hd, ?_⟩
    intro more
    obtain ⟨d', hd', hgrows⟩ := (l.extends_run more).1 id d hd
    exact ⟨d', ((hrepresents.run more).2.get? id).trans hd', hgrows⟩

end SymbolTable
end DecafLex
