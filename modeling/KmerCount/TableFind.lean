import KmerCount.MapQuery
import KmerCount.ReductionMap

/-!
# Reading the tables back: `find` on the unique-key maps

`unordered_map::find(keys, sorted_input, pred)` runs `unordered_map_base::find` with
`unordered_map::LocalFind`, whose filtered overload is undefined on a key its owner does not
hold.  So `find` fails exactly when some rank asks, with a predicate, for such a key
(`tableFind_eq_none_iff`); otherwise rank `q` receives exactly the entries of its own
transformed keys, each read from the key's owner (`mem_tableFind`).
-/

namespace KmerCount

variable {K T : Type} [DecidableEq K] {P : ℕ} [NeZero P]

theorem processOpt_tableFindElement (pred : Option (Predicate (K × T))) (c : Table K T)
    (ks : List K) :
    Query.processOpt (Query.tableFindElement pred) c ks =
      if ∀ k ∈ ks, Query.tableFindDefined pred c k then
        some (c, ks.flatMap fun k => Query.findIn (Query.tableRange c k) pred,
          (ks.flatMap fun k => Query.findIn (Query.tableRange c k) pred).length)
      else none := by
  rw [Query.processOpt_readOnly _ c _ (fun k => (Query.findIn (Query.tableRange c k) pred,
    (Query.findIn (Query.tableRange c k) pred).length)) (Query.tableFindElement_eq pred c)]
  simp [List.length_flatMap, Function.comp_def]

/-- With one rank, running `LocalFind` over the first `estimating` keys and then over the rest
returns what one pass over all of them returns. -/
theorem processOpt_tableFindElement_take_drop (pred : Option (Predicate (K × T)))
    (c : Table K T) (ks : List K) (n : ℕ) :
    ((Query.processOpt (Query.tableFindElement pred) c (ks.take n)).bind fun first =>
      (Query.processOpt (Query.tableFindElement pred) c (ks.drop n)).map fun rest =>
        first.2.1 ++ rest.2.1) =
      (Query.processOpt (Query.tableFindElement pred) c ks).map (·.2.1) := by
  conv_rhs => rw [← List.take_append_drop n ks]
  simp only [processOpt_tableFindElement, List.forall_mem_append, List.flatMap_append]
  split_ifs <;> simp_all

theorem mem_tableRange {c : Table K T} {k : K} {e : K × T} :
    e ∈ Query.tableRange c k ↔ e.1 = k ∧ c.lookup k = some e.2 := by
  unfold Query.tableRange
  cases c.lookup k <;> simp [Prod.ext_iff, eq_comm]

/-- `unordered_map::find(keys, sorted_input, pred)` on every rank: `unordered_map_base::find`
with `unordered_map::LocalFind`.  With more than one rank each rank answers the segment from
every source into one buffer, which `mxx::all2allv(results, send_counts)` returns.  With one
rank it runs over the first `estimating` keys and then over the rest; `estimating` is
`ceil(keys.size() * 0.05)`, computed in floating point.  Rank `q`'s result, or `none` when a
`LocalFind` on some rank is undefined. -/
def tableFind (hash : K → ℕ) (transform : K → K) (pred : Option (Predicate (K × T)))
    (c : Fin P → Table K T) (keys : Fin P → List K) (estimating : ℕ) (q : Fin P) :
    Option (List (K × T)) :=
  if globalEmpty (fun r => (c r).keys) || globalEmpty keys then some []
  else
    let keys' : Fin P → List K := fun r => ((keys r).map transform).dedup
    if 1 < P then
      (allRanks fun d => allRanks fun i => Query.processOpt (Query.tableFindElement pred) (c d)
          (sendSegment (keyToRank hash P) (keys' i) d)).map fun out =>
        all2allvCounts (fun d => (List.finRange P).flatMap fun i => (out d i).2.1)
          (fun d i => (out d i).2.2) q
    else
      (Query.processOpt (Query.tableFindElement pred) (c q) ((keys' q).take estimating)).bind
        fun first => (Query.processOpt (Query.tableFindElement pred) (c q)
          ((keys' q).drop estimating)).map fun rest => first.2.1 ++ rest.2.1

theorem tableFind_eq (hash : K → ℕ) (transform : K → K) (pred : Option (Predicate (K × T)))
    (c : Fin P → Table K T) (keys : Fin P → List K) (estimating : ℕ) (q : Fin P) :
    tableFind hash transform pred c keys estimating q =
      if globalEmpty (fun r => (c r).keys) || globalEmpty keys then some []
      else if ∀ i, ∀ k ∈ (keys i).map transform,
          Query.tableFindDefined pred (c (keyToRank hash P k)) k then
        some ((List.finRange P).flatMap fun s =>
          (sendSegment (keyToRank hash P) ((keys q).map transform).dedup s).flatMap fun k =>
            Query.findIn (Query.tableRange (c s) k) pred)
      else none := by
  unfold tableFind
  dsimp only
  split_ifs with hempty hP hdef hdef
  · rfl
  · have hseg : ∀ d i, Query.processOpt (Query.tableFindElement pred) (c d)
        (sendSegment (keyToRank hash P) ((keys i).map transform).dedup d) = some (c d,
          (sendSegment (keyToRank hash P) ((keys i).map transform).dedup d).flatMap fun k =>
            Query.findIn (Query.tableRange (c d) k) pred, _) := fun d i => by
      rw [processOpt_tableFindElement, if_pos fun k hk => ?_]
      obtain ⟨hki, rfl⟩ := mem_sendSegment.mp hk
      exact hdef i k (List.mem_dedup.mp hki)
    simp only [allRanks_of_forall fun d => allRanks_of_forall (hseg d), Option.map_some']
    rw [all2allvCounts_eq_all2allv _ fun d i => rfl]
    rfl
  · push_neg at hdef
    obtain ⟨i, k, hk, hund⟩ := hdef
    have hnone : Query.processOpt (Query.tableFindElement pred) (c (keyToRank hash P k))
        (sendSegment (keyToRank hash P) ((keys i).map transform).dedup (keyToRank hash P k)) =
          none := by
      rw [processOpt_tableFindElement, if_neg fun hall =>
        hund (hall k (mem_sendSegment.mpr ⟨List.mem_dedup.mpr hk, rfl⟩))]
    rw [allRanks_of_none (allRanks_of_none hnone)]
    rfl
  · obtain rfl : P = 1 := by have := q.isLt; omega
    have hseg : sendSegment (keyToRank hash 1) ((keys q).map transform).dedup q =
        ((keys q).map transform).dedup :=
      List.filter_eq_self.mpr fun k _ => decide_eq_true (keyToRank_one _ _ _)
    rw [processOpt_tableFindElement_take_drop, processOpt_tableFindElement,
      if_pos fun k hk => keyToRank_one hash k q ▸ hdef q k (List.mem_dedup.mp hk),
      finRange_eq_singleton hP q, List.flatMap_singleton, hseg]
    rfl
  · obtain rfl : P = 1 := by have := q.isLt; omega
    push_neg at hdef
    obtain ⟨i, k, hk, hund⟩ := hdef
    obtain rfl := Subsingleton.elim i q
    rw [processOpt_tableFindElement_take_drop, processOpt_tableFindElement,
      if_neg fun hall => hund (keyToRank_one hash k i ▸ hall k (List.mem_dedup.mpr hk))]
    rfl

/-- `find` fails exactly when some rank asks, with a predicate, for a key its owner does not
hold, unless the map or the keys are empty on every rank. -/
theorem tableFind_eq_none_iff (hash : K → ℕ) (transform : K → K)
    (pred : Option (Predicate (K × T))) (c : Fin P → Table K T) (keys : Fin P → List K)
    (estimating : ℕ) (q : Fin P) :
    tableFind hash transform pred c keys estimating q = none ↔
      (globalEmpty (fun r => (c r).keys) || globalEmpty keys) = false ∧
        ∃ i, ∃ k ∈ (keys i).map transform,
          Query.tableFindDefined pred (c (keyToRank hash P k)) k = false := by
  rw [tableFind_eq]
  split_ifs with hempty hdef
  · simp [hempty]
  · simpa [hempty] using hdef
  · simp only [hempty, true_and]
    push_neg at hdef
    simpa using hdef

example :
    tableFind id id (some ⟨fun _ => true, fun _ => true⟩)
      (fun s => if s = 0 then (∅ : Table ℕ ℕ).insert 4 1 else ∅)
      (fun q => if q = 0 then [2] else []) 0 (0 : Fin 2) = none := by
  decide

/-- When no rank asks, with a predicate, for a key its owner does not hold, rank `q`'s `find`
returns exactly the entries of its transformed keys that their owners hold and that pass the
predicate. -/
theorem mem_tableFind (hash : K → ℕ) (transform : K → K) (pred : Option (Predicate (K × T)))
    (c : Fin P → Table K T) (keys : Fin P → List K) (estimating : ℕ) (q : Fin P)
    (hdef : ∀ i, ∀ k ∈ (keys i).map transform,
      Query.tableFindDefined pred (c (keyToRank hash P k)) k) :
    ∃ l, tableFind hash transform pred c keys estimating q = some l ∧
      ∀ e, e ∈ l ↔ e.1 ∈ (keys q).map transform ∧
        e ∈ Query.findIn (Query.tableRange (c (keyToRank hash P e.1)) e.1) pred := by
  rw [tableFind_eq, if_pos hdef]
  split_ifs with hempty
  · refine ⟨[], rfl, fun e => ?_⟩
    simp only [List.not_mem_nil, false_iff, not_and]
    intro hk he
    rcases Bool.or_eq_true_iff.mp hempty with hc | hkeys
    · have hnone : (c (keyToRank hash P e.1)).lookup e.1 = none :=
        AList.lookup_eq_none.mpr fun hmem => by
          simp [AList.mem_keys, globalEmpty_eq_true_iff.mp hc] at hmem
      exact absurd (mem_tableRange.mp (Query.mem_of_mem_findIn he)).2 (by rw [hnone]; exact nofun)
    · simp [globalEmpty_eq_true_iff.mp hkeys q] at hk
  · refine ⟨_, rfl, fun e => ?_⟩
    simp only [List.mem_flatMap, List.mem_finRange, true_and, mem_sendSegment, List.mem_dedup]
    constructor
    · rintro ⟨s, k, ⟨hk, rfl⟩, he⟩
      obtain rfl := (mem_tableRange.mp (Query.mem_of_mem_findIn he)).1
      exact ⟨hk, he⟩
    · rintro ⟨hk, he⟩
      exact ⟨_, e.1, ⟨hk, rfl⟩, he⟩

theorem Represents.tableRange_owner {hash : K → ℕ} {maps : Fin P → MapState K T}
    {S : Table K T} (h : Represents hash maps S) (k : K) :
    Query.tableRange (maps (keyToRank hash P k)).c k = Query.tableRange S k := by
  unfold Query.tableRange
  rw [h.lookup_owner]

theorem Represents.tableFindDefined_owner {hash : K → ℕ} {maps : Fin P → MapState K T}
    {S : Table K T} (h : Represents hash maps S) (pred : Option (Predicate (K × T))) (k : K) :
    Query.tableFindDefined pred (maps (keyToRank hash P k)).c k =
      Query.tableFindDefined pred S k := by
  simp only [Query.tableFindDefined, ← AList.lookup_isSome, h.lookup_owner]

theorem Represents.mem_tableFind {hash : K → ℕ} {maps : Fin P → MapState K T}
    {S : Table K T} (h : Represents hash maps S) (transform : K → K)
    (pred : Option (Predicate (K × T))) (keys : Fin P → List K) (estimating : ℕ) (q : Fin P)
    (hdef : ∀ i, ∀ k ∈ (keys i).map transform, Query.tableFindDefined pred S k) :
    ∃ l, tableFind hash transform pred (fun s => (maps s).c) keys estimating q = some l ∧
      ∀ e, e ∈ l ↔ e.1 ∈ (keys q).map transform ∧
        e ∈ Query.findIn (Query.tableRange S e.1) pred := by
  obtain ⟨l, hl, hmem⟩ := KmerCount.mem_tableFind hash transform pred (fun s => (maps s).c) keys estimating q
    fun i k hk => (h.tableFindDefined_owner pred k).trans (hdef i k hk)
  exact ⟨l, hl, fun e => by rw [hmem, h.tableRange_owner]⟩

end KmerCount
