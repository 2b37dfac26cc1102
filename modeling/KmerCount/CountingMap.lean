import KmerCount.Distributed

/-!
# The counting map: insert and count

`counting_unordered_map::insert` ships each transformed key to its `KeyToRank` owner, which
folds `(x, 1)` into its local table with `std::plus`: the owner of `k` gains one for every
accepted occurrence of `k` on any rank.  `unordered_map_base::count` routes the queried keys
the same way and answers with `LocalCount`, which reports `db.count(v)`: whether the owner
holds the key, not the number stored for it.
-/

namespace KmerCount

variable {K T U : Type} [DecidableEq K] {P : ℕ} [NeZero P]

/-- The keys rank `r` inserts: its own transformed keys on one rank, otherwise what
`imxx::distribute` delivers to it by `KeyToRank`. -/
def countingRecv (hash : K → ℕ) (transform : K → K) (input : Fin P → List K) (r : Fin P) :
    List K :=
  if 1 < P then distribute (keyToRank hash P) (fun q => (input q).map transform) r
  else (input r).map transform

def allKeys (transform : K → K) (keys : Fin P → List K) : List K :=
  (List.finRange P).flatMap fun q => (keys q).map transform

omit [DecidableEq K] in
theorem countingRecv_eq_filter (hash : K → ℕ) (transform : K → K) (keys : Fin P → List K)
    (r : Fin P) :
    countingRecv hash transform keys r =
      (allKeys transform keys).filter fun k => keyToRank hash P k = r := by
  unfold countingRecv allKeys
  split_ifs with hP
  · rw [distribute, List.filter_flatMap]
    rfl
  · rw [finRange_eq_singleton hP r, List.flatMap_singleton]
    obtain rfl : P = 1 := by have := r.isLt; omega
    exact (List.filter_eq_self.mpr fun k _ => decide_eq_true (keyToRank_one _ _ _)).symm

/-- `counting_unordered_map::insert(input, sorted_input, pred)` on every rank; the
`TruePredicate` overload is `pred = truePredicate`.  Rank `r`'s result and new state. -/
def countingInsert [AddCommMonoidWithOne U] (hash : K → ℕ) (transform : K → K)
    (pred : K × U → Bool) (maps : Fin P → MapState K U) (input : Fin P → List K) (r : Fin P) :
    ℕ × MapState K U :=
  if globalEmpty input then (0, maps r)
  else localInsert (· + ·) pred (maps r) ((countingRecv hash transform input r).map fun x => (x, 1))

/-- `unordered_map_base::count(keys, sorted_input, pred)` with `remove_duplicate` on every
rank: the distinct transformed keys go to their `KeyToRank`, each rank runs `LocalCount` over
the segment of every source, and `mxx::all2allv` returns the answers.  Rank `q`'s result. -/
def count (hash : K → ℕ) (transform : K → K) (pred : Option (Predicate (K × T)))
    (c : Fin P → Table K T) (keys : Fin P → List K) (q : Fin P) : List (K × ℕ) :=
  if globalEmpty keys then []
  else
    let keys' : Fin P → List K := fun r => ((keys r).map transform).dedup
    if 1 < P then
      all2allv (fun d src => (Query.process (Query.tableCountElement pred) (c d)
        (sendSegment (keyToRank hash P) (keys' src) d)).2.1) q
    else (Query.process (Query.tableCountElement pred) (c q) (keys' q)).2.1

theorem countP_countingRecv (hash : K → ℕ) (transform : K → K) (input : Fin P → List K)
    (r : Fin P) (p : K → Bool) (k : K) :
    (countingRecv hash transform input r).countP (fun x => x = k ∧ p x) =
      if keyToRank hash P k = r then
        ((List.finRange P).map fun q => ((input q).map transform).countP fun x => x = k ∧ p x).sum
      else 0 := by
  unfold countingRecv
  by_cases hP : 1 < P
  · rw [if_pos hP]
    exact count_distribute _ _ r p k
  · rw [if_neg hP]
    obtain rfl : P = 1 := by have := r.isLt; omega
    obtain rfl : r = 0 := Subsingleton.elim _ _
    simp [keyToRank_one hash k 0, List.finRange_succ]

theorem countIn_tableRange_none (c : Table K T) (k : K) :
    Query.countIn (Query.tableRange c k) none = Table.count c k := by
  unfold Query.countIn Query.tableRange Table.count
  cases h : c.lookup k <;> simp [← AList.lookup_isSome, h]

theorem process_tableCountElement (pred : Option (Predicate (K × T))) (c : Table K T)
    (ks : List K) :
    (Query.process (Query.tableCountElement pred) c ks).2.1 =
      ks.map fun k => (k, Query.countIn (Query.tableRange c k) pred) := by
  rw [Query.process_readOnly _ fun _ _ => rfl]
  exact (List.map_eq_flatMap _ _).symm

section Counting

variable [AddCommMonoidWithOne U]

theorem countingInsert_lookup (hash : K → ℕ) (transform : K → K) (pred : K × U → Bool)
    (maps : Fin P → MapState K U) (input : Fin P → List K) (r : Fin P) (k : K) :
    ((countingInsert hash transform pred maps input r).2.c.lookup k).getD 0 =
      ((maps r).c.lookup k).getD 0 +
        ((if keyToRank hash P k = r then
          ((List.finRange P).map fun q =>
            ((input q).map transform).countP fun x => x = k ∧ pred (x, 1)).sum
          else 0 : ℕ) : U) := by
  unfold countingInsert
  by_cases hempty : globalEmpty input = true
  · rw [if_pos hempty]
    simp only [globalEmpty_eq_true_iff.mp hempty, List.map_nil, List.countP_nil, List.map_const',
      List.sum_replicate, smul_zero, ite_self, Nat.cast_zero, add_zero]
  · rw [if_neg hempty, localInsert_count, countP_countingRecv]

end Counting

theorem mem_count (hash : K → ℕ) (transform : K → K) (pred : Option (Predicate (K × T)))
    (c : Fin P → Table K T) (keys : Fin P → List K) (q : Fin P) (k : K) (n : ℕ) :
    (k, n) ∈ count hash transform pred c keys q ↔
      k ∈ (keys q).map transform ∧
        n = Query.countIn (Query.tableRange (c (keyToRank hash P k)) k) pred := by
  unfold count
  by_cases hempty : globalEmpty keys = true
  · simp [hempty, globalEmpty_eq_true_iff.mp hempty q]
  rw [if_neg hempty]
  split_ifs with hP
  · simp only [mem_all2allv, process_tableCountElement, List.mem_map, mem_sendSegment,
      List.mem_dedup, Prod.mk.injEq]
    constructor
    · rintro ⟨d, k', ⟨hk', hd⟩, rfl, rfl⟩
      exact ⟨hk', by rw [hd]⟩
    · rintro ⟨hk, rfl⟩
      exact ⟨_, k, ⟨hk, rfl⟩, rfl, rfl⟩
  · obtain rfl : P = 1 := by have := q.isLt; omega
    simp only [process_tableCountElement, List.mem_map, List.mem_dedup, Prod.mk.injEq,
      keyToRank_one hash k q]
    constructor
    · rintro ⟨k', hk', rfl, rfl⟩
      exact ⟨hk', rfl⟩
    · rintro ⟨hk, rfl⟩
      exact ⟨k, hk, rfl, rfl⟩

/-- After every rank inserts, the owner of each transformed key `k` holds its old count plus
the accepted occurrences of `k` on all ranks, and no other rank's count moves; a later
`count(keys)` answers each distinct transformed key with whether its owner holds it. -/
theorem countingInsert_then_count [AddCommMonoidWithOne U] (hash : K → ℕ) (transform : K → K)
    (pred : K × U → Bool) (maps : Fin P → MapState K U) (input : Fin P → List K) :
    (∀ r k, ((countingInsert hash transform pred maps input r).2.c.lookup k).getD 0 =
      ((maps r).c.lookup k).getD 0 +
        ((if keyToRank hash P k = r then
          ((List.finRange P).map fun q =>
            ((input q).map transform).countP fun x => x = k ∧ pred (x, 1)).sum
          else 0 : ℕ) : U)) ∧
      ∀ (keys : Fin P → List K) q k n,
        (k, n) ∈ count hash transform none
            (fun r => (countingInsert hash transform pred maps input r).2.c) keys q ↔
          k ∈ (keys q).map transform ∧
            n = Table.count
              (countingInsert hash transform pred maps input (keyToRank hash P k)).2.c k := by
  refine ⟨countingInsert_lookup hash transform pred maps input, fun keys q k n => ?_⟩
  rw [mem_count, countIn_tableRange_none]

theorem countingInsert_then_count_two_ranks :
    let maps : Fin 2 → MapState ℕ ℕ := fun _ => ⟨∅, false⟩
    let input : Fin 2 → List ℕ := fun r => if r = 0 then [3, 3] else [3]
    NeZero 2 ∧
    (∀ r k, ((countingInsert id id truePredicate maps input r).2.c.lookup k).getD 0 =
      ((maps r).c.lookup k).getD 0 +
        ((if keyToRank id 2 k = r then
          ((List.finRange 2).map fun q =>
            ((input q).map id).countP fun x => x = k ∧ truePredicate (x, 1)).sum
          else 0 : ℕ) : ℕ)) ∧
      ∀ (keys : Fin 2 → List ℕ) q k n,
        (k, n) ∈ count id id none (fun r => (countingInsert id id truePredicate maps input r).2.c)
            keys q ↔
          k ∈ (keys q).map id ∧
            n = Table.count (countingInsert id id truePredicate maps input (keyToRank id 2 k)).2.c k := by
  intro maps input
  exact ⟨inferInstance, countingInsert_then_count id id truePredicate maps input⟩

theorem count_after_insert_counterexample :
    (countingInsert (P := 1) (U := ℕ) id id truePredicate (fun _ => ⟨∅, false⟩)
        (fun _ => [5, 5]) 0).2.c.lookup 5 = some 2 ∧
      count (P := 1) id id none
          (fun r => (countingInsert (U := ℕ) id id truePredicate (fun _ => ⟨∅, false⟩)
            (fun _ => [5, 5]) r).2.c)
          (fun _ => [5]) 0 = [(5, 1)] := by
  decide

end KmerCount
