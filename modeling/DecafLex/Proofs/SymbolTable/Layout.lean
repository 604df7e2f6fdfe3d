import DecafLex.Proofs.SymbolTable.Listing
import Mathlib.Algebra.Order.BigOperators.Group.Finset
import Mathlib.Algebra.Ring.Nat
import Mathlib.Data.Finset.Lattice.Fold
import Mathlib.Order.Lattice.Nat

/-! How the declarations of a table are spread over its buckets. The chains part the numbers given out
among them, and how long the longest one is depends on the distinct names alone. -/
namespace DecafLex

namespace Request

def name? : Request → Option String
  | intern name _ => some name
  | _ => none

/-- The distinct names that some requests intern. -/
def interned (requests : List Request) : Finset String := (requests.filterMap name?).toFinset

theorem interned_cons (request : Request) (requests : List Request) :
    interned (request :: requests) = request.name?.toFinset ∪ interned requests := by
  cases request with
  | intern name line =>
    change (name :: requests.filterMap name?).toFinset = {name} ∪ interned requests
    rw [List.toFinset_cons, Finset.insert_eq, interned]
  | _ => exact (Finset.empty_union _).symm

end Request

namespace SymbolTable

section Load
variable (hash : String → UInt64) (count : Nat)

/-- How many of the names hash to a bucket. -/
def load (names : Finset String) (bucket : Nat) : Nat :=
  (names.filter fun name => slot hash count name = bucket).card

/-- The largest number of the names that share a bucket. -/
def heaviest (names : Finset String) : Nat := (Finset.range count).sup (load hash count names)

theorem sum_load (h : 0 < count) (names : Finset String) :
    ∑ bucket ∈ Finset.range count, load hash count names bucket = names.card :=
  (Finset.card_eq_sum_card_fiberwise fun _ _ => Finset.mem_range.mpr (Nat.mod_lt _ h)).symm

theorem heaviest_le_card (names : Finset String) : heaviest hash count names ≤ names.card :=
  Finset.sup_le fun _ _ => Finset.card_filter_le ..

/-- All buckets together have room for the names if each has room for the largest number of them that
share one. -/
theorem card_le_mul_heaviest (h : 0 < count) (names : Finset String) :
    names.card ≤ count * heaviest hash count names := by
  calc names.card = ∑ bucket ∈ Finset.range count, load hash count names bucket :=
        (sum_load hash count h names).symm
    _ ≤ (Finset.range count).card • heaviest hash count names :=
        Finset.sum_le_card_nsmul _ _ _ fun _ hbucket => Finset.le_sup hbucket
    _ = count * heaviest hash count names := by rw [Finset.card_range]; rfl

theorem length_chain {names : List String} (h : names.Nodup) (bucket : Nat) :
    (chain hash names count bucket).length = load hash count names.toFinset bucket := by
  have hnames : names.zipIdx.map Prod.fst = names := List.zipIdx_map_fst 0 names
  have hload : (names.filter fun name => slot hash count name = bucket).toFinset =
      names.toFinset.filter fun name => slot hash count name = bucket := by
    simp [List.toFinset_filter]
  rw [load, ← hload, List.toFinset_card_of_nodup (h.filter _), chain, List.length_map]
  conv_rhs => rw [← hnames, List.filter_map, List.length_map]
  rfl

/-- A chain goes from the oldest declaration to the newest. -/
theorem pairwise_chain (names : List String) (bucket : Nat) :
    (chain hash names count bucket).Pairwise fun a b => a.index < b.index := by
  rw [chain, List.pairwise_map]
  apply List.Pairwise.filter
  have hindex := List.pairwise_lt_range' (s := 0) (n := names.length)
  rw [← List.zipIdx_map_snd 0 names, List.pairwise_map] at hindex
  exact hindex

end Load

variable {t : SymbolTable}

theorem bucketCount_pos (t : SymbolTable) : 0 < t.bucketCount := t.buckets_pos

private theorem foldl_max_le_iff (chains : List (List DeclId)) (longest bound : Nat) :
    chains.foldl (fun longest chain => max longest chain.length) longest ≤ bound ↔
      longest ≤ bound ∧ ∀ chain ∈ chains, chain.length ≤ bound := by
  induction chains generalizing longest with
  | nil => simp
  | cons chain chains ih => rw [List.foldl_cons, ih, max_le_iff, List.forall_mem_cons, and_assoc]

theorem longestChain_le_iff {bound : Nat} :
    t.longestChain ≤ bound ↔ ∀ chain ∈ t.buckets.toList, chain.length ≤ bound := by
  rw [longestChain, ← Array.foldl_toList, foldl_max_le_iff]
  simp

namespace WellFormed

theorem mem_bucket_iff (h : t.WellFormed) {bucket : Nat} (hbucket : bucket < t.buckets.size)
    {id : DeclId} : id ∈ t.buckets[bucket] ↔
      ∃ d, t.get? id = some d ∧ slot t.hash t.bucketCount d.name = bucket := by
  rw [h.chained bucket hbucket, mem_chain, ← get?_map_name]
  simp [bucketCount]

theorem pairwise_bucket (h : t.WellFormed) {bucket : Nat} (hbucket : bucket < t.buckets.size) :
    t.buckets[bucket].Pairwise fun a b => a.index < b.index := by
  rw [h.chained bucket hbucket]
  exact pairwise_chain ..

/-- The number of a declaration stands in the bucket that its name hashes to, and in no other. -/
theorem existsUnique_bucket (h : t.WellFormed) {id : DeclId} {d : Declaration}
    (hd : t.get? id = some d) : ∃! bucket : Fin t.buckets.size, id ∈ t.buckets[bucket] := by
  refine ⟨t.bucketOf d.name, (h.mem_bucket_iff _).mpr ⟨d, hd, rfl⟩, ?_⟩
  intro bucket hmem
  obtain ⟨d', hd', hslot⟩ := (h.mem_bucket_iff bucket.isLt).mp hmem
  obtain rfl := Option.some.inj (hd.symm.trans hd')
  exact Fin.ext hslot.symm

theorem lengths_eq (h : t.WellFormed) : t.buckets.toList.map List.length =
    (List.range t.bucketCount).map (load t.hash t.bucketCount t.names.toFinset) := by
  apply List.ext_getElem
  · simp [bucketCount]
  · intro bucket hbucket _
    rw [List.length_map, Array.length_toList] at hbucket
    simp only [List.getElem_map, Array.getElem_toList, List.getElem_range]
    rw [h.chained bucket hbucket, length_chain _ _ h.nodup]
    rfl

theorem card_names (h : t.WellFormed) : t.names.toFinset.card = t.size := by
  rw [List.toFinset_card_of_nodup h.nodup, length_names]

theorem sum_lengths (h : t.WellFormed) : (t.buckets.toList.map List.length).sum = t.size := by
  rw [h.lengths_eq, ← h.card_names, ← sum_load t.hash _ t.bucketCount_pos]
  rfl

theorem longestChain_eq (h : t.WellFormed) :
    t.longestChain = heaviest t.hash t.bucketCount t.names.toFinset := by
  apply eq_of_forall_ge_iff
  intro bound
  rw [longestChain_le_iff, heaviest, Finset.sup_le_iff, ← List.forall_mem_map
    (P := fun length => length ≤ bound), h.lengths_eq]
  simp

end WellFormed

theorem intern_keeps (t : SymbolTable) (name : String) (line : Nat) :
    (t.intern name line).2.hash = t.hash ∧ (t.intern name line).2.bucketCount = t.bucketCount := by
  unfold intern
  split
  · exact ⟨rfl, rfl⟩
  · exact ⟨rfl, Array.size_modify ..⟩

/-- A request keeps the hash function and the number of buckets, and adds no name but the one it
interns. -/
theorem respond_keeps (h : t.WellFormed) (request : Request) :
    (t.respond request).2.WellFormed ∧ (t.respond request).2.hash = t.hash ∧
      (t.respond request).2.bucketCount = t.bucketCount ∧
      (t.respond request).2.names.toFinset = t.names.toFinset ∪ request.name?.toFinset := by
  cases request with
  | intern name line =>
    obtain ⟨hhash, hcount⟩ := intern_keeps t name line
    refine ⟨wellFormed_intern h name line, hhash, hcount, ?_⟩
    change (t.intern name line).2.names.toFinset = _
    rw [names_intern h]
    split
    next hmem => simp [Request.name?, hmem]
    next => simp [Request.name?]
  | _ => exact ⟨h, rfl, rfl, (Finset.union_empty _).symm⟩

theorem run_keeps (h : t.WellFormed) (requests : List Request) :
    (Request.run respond t requests).2.WellFormed ∧
      (Request.run respond t requests).2.hash = t.hash ∧
      (Request.run respond t requests).2.bucketCount = t.bucketCount ∧
      (Request.run respond t requests).2.names.toFinset =
        t.names.toFinset ∪ Request.interned requests := by
  induction requests generalizing t with
  | nil => exact ⟨h, rfl, rfl, (Finset.union_empty _).symm⟩
  | cons request requests ih =>
    obtain ⟨hwell, hhash, hcount, hnames⟩ := respond_keeps h request
    obtain ⟨hend, hhashes, hcounts, hall⟩ := ih hwell
    refine ⟨hend, hhashes.trans hhash, hcounts.trans hcount, hall.trans ?_⟩
    rw [hnames, Request.interned_cons, Finset.union_assoc]

/-- The layout of every table that requests can lead to, for any hash function. A bucket chains the
declarations whose names hash to it, from the oldest to the newest, so each has its place in one chain.
No request changes the number of buckets, and the longest chain depends only on that number and on the
set of names interned, whatever their order, their repetitions and their lines. The numbers of no more
than `2 ^ 32` names fit 32 bits. -/
theorem run_layout (hash : String → UInt64) (count : Nat) (requests : List Request) :
    let t := (Request.run respond (empty hash count) requests).2
    t.bucketCount = max count 1 ∧
    (∀ (bucket : Nat) (_ : bucket < t.buckets.size),
      (∀ id, id ∈ t.buckets[bucket] ↔ ∃ d, t.get? id = some d ∧
        (hash d.name).toNat % max count 1 = bucket) ∧
      t.buckets[bucket].Pairwise fun a b => a.index < b.index) ∧
    (∀ id, id.index < t.size ↔ ∃! bucket : Fin t.buckets.size, id ∈ t.buckets[bucket]) ∧
    (t.buckets.toList.map List.length).sum = t.size ∧
    t.size ≤ t.bucketCount * t.longestChain ∧ t.longestChain ≤ t.size ∧
    t.longestChain = heaviest hash (max count 1) (Request.interned requests) ∧
    t.size = (Request.interned requests).card ∧
    ((Request.interned requests).card ≤ UInt32.size →
      ∀ (bucket : Nat) (_ : bucket < t.buckets.size), ∀ id ∈ t.buckets[bucket],
        id.index < UInt32.size) := by
  intro t
  obtain ⟨hwell, hhash, hcount, hnames⟩ := run_keeps (wellFormed_empty hash count) requests
  change t.WellFormed at hwell
  change t.hash = hash at hhash
  change t.names.toFinset = ∅ ∪ _ at hnames
  have hbuckets : t.bucketCount = max count 1 := hcount.trans Array.size_replicate
  rw [Finset.empty_union] at hnames
  have hsize : t.size = (Request.interned requests).card := by rw [← hwell.card_names, hnames]
  refine ⟨hbuckets, ?_, ?_, hwell.sum_lengths, ?_, ?_, ?_, hsize, ?_⟩
  · intro bucket hbucket
    refine ⟨fun id => ?_, hwell.pairwise_bucket hbucket⟩
    rw [hwell.mem_bucket_iff, hbuckets, hhash]
    rfl
  · intro id
    constructor
    · intro hlt
      exact hwell.existsUnique_bucket (Array.getElem?_eq_getElem hlt)
    · rintro ⟨bucket, hmem, -⟩
      exact hwell.index_lt bucket.isLt hmem
  · rw [hwell.longestChain_eq, ← hwell.card_names]
    exact card_le_mul_heaviest _ _ t.bucketCount_pos _
  · rw [hwell.longestChain_eq, ← hwell.card_names]
    exact heaviest_le_card ..
  · rw [hwell.longestChain_eq, hbuckets, hnames, hhash]
  · intro hcard bucket hbucket id hmem
    exact (hwell.index_lt hbucket hmem).trans_le (hsize.trans_le hcard)

end SymbolTable
end DecafLex
