import KmerCount.TableRuns

/-!
# The unique-key map: insert and read back

`unordered_map::insert` ships each transformed pair to its `KeyToRank` owner, whose
`local_insert` calls `c.emplace(*it)` on every pair, after `std::partition` by the predicate
when there is one.  `emplace` leaves a present key alone, so a new key takes the first of its
accepted values in the order they reach `emplace`: rank order without a predicate, any order
with one, since the partition is not stable.  `uniqueChoices` lists the entries a run leaves
open for a key, and the ranks always hold one of them (`uniqueRun_lookup_mem`).
-/

namespace KmerCount

variable {K T : Type} [DecidableEq K]

/-- The loop of `unordered_map_base::local_insert(first, last)`: `c.emplace(*it)` for every
pair, which inserts a pair only when its key is absent. -/
def emplaceAll (c : Table K T) (input : List (K × T)) : Table K T :=
  input.foldl (fun c kv => if kv.1 ∈ c then c else c.insert kv.1 kv.2) c

/-- `unordered_map_base::local_insert(first, last, pred)`: `std::partition` moves the pairs
that pass `pred` to the front and `local_insert(first, new_end)` emplaces them.  The
two-argument overload is `pred = none`. -/
def baseLocalInsert (pred : Option (InsertPredicate (K × T))) (m : MapState K T)
    (input : List (K × T)) : ℕ × MapState K T :=
  let c := emplaceAll m.c (InsertPredicate.kept pred input)
  (c.size - m.c.size, { c := c, localChanged := m.localChanged || c.size != m.c.size })

theorem lookup_emplaceAll (c : Table K T) (input : List (K × T)) (k : K) :
    (emplaceAll c input).lookup k = (c.lookup k).or (valuesFor truePredicate k input).head? := by
  induction input generalizing c with
  | nil => exact Option.or_none.symm
  | cons kv input ih =>
    rw [emplaceAll, List.foldl_cons, ← emplaceAll, ih]
    by_cases hk : kv.1 = k
    · subst hk
      cases hx : c.lookup kv.1 <;> simp [← AList.lookup_isSome, hx, valuesFor, truePredicate]
    · split_ifs <;> simp [AList.lookup_insert_ne (Ne.symm hk), valuesFor, hk]

theorem mem_emplaceAll {c : Table K T} {input : List (K × T)} {k : K} :
    k ∈ emplaceAll c input ↔ k ∈ c ∨ k ∈ input.map Prod.fst := by
  rw [← AList.lookup_isSome, lookup_emplaceAll, ← AList.lookup_isSome]
  cases c.lookup k <;> simp [valuesFor, truePredicate, List.filter_eq_nil_iff]

theorem valuesFor_truePredicate_filter (pred : K × T → Bool) (k : K)
    (input : List (K × T)) :
    valuesFor truePredicate k (input.filter pred) = valuesFor pred k input := by
  unfold valuesFor
  rw [List.filter_filter]
  congr 1
  exact List.filter_congr fun e _ => by by_cases he : e.1 = k <;> simp [he, truePredicate]

theorem valuesFor_kept_perm (pred : Option (InsertPredicate (K × T))) (k : K)
    (input : List (K × T)) :
    (valuesFor truePredicate k (InsertPredicate.kept pred input)).Perm
      (valuesFor (InsertPredicate.accepts pred) k input) := by
  exact (valuesFor_perm truePredicate k (InsertPredicate.kept_perm pred input)).trans
    (List.Perm.of_eq (valuesFor_truePredicate_filter _ k input))

/-! ## The entries an insert leaves open -/

/-- The entries `emplace` may leave for a key that held `o` when its accepted values `vs`
arrive: the old entry; nothing when no value arrives; otherwise the first value without a
predicate, and any of them after `std::partition`. -/
def emplaceChoices (pred : Option (InsertPredicate (K × T))) : Option T → List T → List (Option T)
  | some x, _ => [some x]
  | none, [] => [none]
  | none, v :: vs => if pred.isNone then [some v] else (v :: vs).map some

omit [DecidableEq K] in
theorem or_head?_mem_emplaceChoices (pred : Option (InsertPredicate (K × T))) (o : Option T)
    {vs ws : List T} (hperm : ws.Perm vs) (hnone : pred.isNone → ws = vs) :
    o.or ws.head? ∈ emplaceChoices pred o vs := by
  cases o with
  | some x => exact List.mem_singleton_self _
  | none =>
    cases vs with
    | nil => simp [List.perm_nil.mp hperm, emplaceChoices]
    | cons v vs =>
      cases pred with
      | none => simp [hnone rfl, emplaceChoices]
      | some p =>
        cases ws with
        | nil => exact absurd (List.nil_perm.mp hperm) (List.cons_ne_nil v vs)
        | cons w ws => simpa [emplaceChoices] using hperm.subset (List.mem_cons_self w ws)

variable {P : ℕ} [NeZero P]

/-- `unordered_map::insert(input, sorted_input, pred)` on every rank; the `TruePredicate`
overload is `pred = none`.  Rank `q`'s result and new state. -/
def unorderedMapInsert (hash : K → ℕ) (transform : K → K)
    (pred : Option (InsertPredicate (K × T))) (maps : Fin P → MapState K T)
    (input : Fin P → List (K × T)) (q : Fin P) : ℕ × MapState K T :=
  if globalEmpty input then (0, maps q)
  else baseLocalInsert pred (maps q) (insertRecv hash transform input q)

theorem unorderedMapInsert_lookup_eq (hash : K → ℕ) (transform : K → K)
    (pred : Option (InsertPredicate (K × T))) (maps : Fin P → MapState K T)
    (input : Fin P → List (K × T)) (q : Fin P) (k : K) :
    (unorderedMapInsert hash transform pred maps input q).2.c.lookup k =
      ((maps q).c.lookup k).or
        (valuesFor truePredicate k (InsertPredicate.kept pred (insertRecv hash transform input q))).head? := by
  unfold unorderedMapInsert
  split_ifs with hempty
  · rw [insertRecv_of_globalEmpty hash transform hempty]
    cases pred <;> simp [InsertPredicate.kept, valuesFor]
  · simp only [baseLocalInsert, lookup_emplaceAll]

theorem valuesFor_kept_insertRecv_of_ne (hash : K → ℕ) (transform : K → K)
    (pred : Option (InsertPredicate (K × T))) (input : Fin P → List (K × T)) {q : Fin P} {k : K}
    (hq : keyToRank hash P k ≠ q) :
    valuesFor truePredicate k (InsertPredicate.kept pred (insertRecv hash transform input q)) =
      [] := by
  refine List.perm_nil.mp ((valuesFor_kept_perm pred k _).trans ?_)
  rw [valuesFor_insertRecv, if_neg hq]

theorem unorderedMapInsert_lookup_of_ne (hash : K → ℕ) (transform : K → K)
    (pred : Option (InsertPredicate (K × T))) (maps : Fin P → MapState K T)
    (input : Fin P → List (K × T)) {q : Fin P} {k : K} (hq : keyToRank hash P k ≠ q) :
    (unorderedMapInsert hash transform pred maps input q).2.c.lookup k = (maps q).c.lookup k := by
  rw [unorderedMapInsert_lookup_eq, valuesFor_kept_insertRecv_of_ne hash transform pred input hq]
  exact Option.or_none

theorem unorderedMapInsert_lookup_owner (hash : K → ℕ) (transform : K → K)
    (pred : Option (InsertPredicate (K × T))) (maps : Fin P → MapState K T)
    (input : Fin P → List (K × T)) (k : K) :
    (unorderedMapInsert hash transform pred maps input (keyToRank hash P k)).2.c.lookup k ∈
      emplaceChoices pred ((maps (keyToRank hash P k)).c.lookup k)
        (valuesFor (InsertPredicate.accepts pred) k (allPairs transform input)) := by
  have hrecv := valuesFor_insertRecv (InsertPredicate.accepts pred) k hash transform input
    (keyToRank hash P k)
  rw [if_pos rfl] at hrecv
  rw [unorderedMapInsert_lookup_eq]
  refine or_head?_mem_emplaceChoices pred _ (hrecv ▸ valuesFor_kept_perm pred k _) fun hnone => ?_
  obtain rfl := Option.isNone_iff_eq_none.mp hnone
  exact hrecv

/-- The owner of `k` keeps the entry it holds; otherwise it stores one of the values of `k`
that pass the predicate among all ranks' pairs, the first in rank order without a predicate,
and nothing when there is none.  Every other rank keeps its entry. -/
theorem unorderedMapInsert_lookup (hash : K → ℕ) (transform : K → K)
    (pred : Option (InsertPredicate (K × T))) (maps : Fin P → MapState K T)
    (input : Fin P → List (K × T)) (q : Fin P) (k : K) :
    (unorderedMapInsert hash transform pred maps input q).2.c.lookup k ∈
      if keyToRank hash P k = q then
        emplaceChoices pred ((maps q).c.lookup k)
          (valuesFor (InsertPredicate.accepts pred) k (allPairs transform input))
      else [(maps q).c.lookup k] := by
  split_ifs with hq
  · subst hq
    exact unorderedMapInsert_lookup_owner hash transform pred maps input k
  · rw [unorderedMapInsert_lookup_of_ne hash transform pred maps input hq]
    exact List.mem_singleton_self _

theorem unorderedMapInsert_lookup_first :
    (unorderedMapInsert id id none (fun _ : Fin 2 => (MapState.empty : MapState ℕ ℕ))
      (fun q => if q = 0 then [(1, 5)] else [(1, 7), (1, 9)]) 1).2.c.lookup 1 = some 5 :=
  List.mem_singleton.mp (unorderedMapInsert_lookup id id none _ _ 1 1)

/-! ## What `insert` returns -/

theorem unorderedMapInsert_fst_add (hash : K → ℕ) (transform : K → K)
    (pred : Option (InsertPredicate (K × T))) (maps : Fin P → MapState K T)
    (input : Fin P → List (K × T)) (q : Fin P) :
    (unorderedMapInsert hash transform pred maps input q).1 + (maps q).c.size =
      (unorderedMapInsert hash transform pred maps input q).2.c.size := by
  unfold unorderedMapInsert
  split_ifs
  · exact Nat.zero_add _
  · exact Nat.sub_add_cancel (Table.size_le_of_subset fun _ hk => mem_emplaceAll.mpr (.inl hk))

/-- The pairs the ranks emplace, rank by rank. -/
def keptPairs (hash : K → ℕ) (transform : K → K) (pred : Option (InsertPredicate (K × T)))
    (input : Fin P → List (K × T)) : List (K × T) :=
  (List.finRange P).flatMap fun q => InsertPredicate.kept pred (insertRecv hash transform input q)

omit [DecidableEq K] in
theorem keptPairs_perm (hash : K → ℕ) (transform : K → K)
    (pred : Option (InsertPredicate (K × T))) (input : Fin P → List (K × T)) :
    (keptPairs hash transform pred input).Perm
      ((allPairs transform input).filter (InsertPredicate.accepts pred)) := by
  refine (List.Perm.flatMap_left _ fun q _ => InsertPredicate.kept_perm pred _).trans ?_
  have h := flatMap_sendSegment_perm (fun e : K × T => keyToRank hash P e.1)
    ((allPairs transform input).filter (InsertPredicate.accepts pred)) fun _ e => [e]
  simp only [List.flatMap_singleton', List.flatMap_pure_eq_map, List.map_id'] at h
  refine List.Perm.trans (List.Perm.of_eq ?_) h
  simp only [insertRecv_eq_filter, sendSegment, List.filter_comm]

theorem valuesFor_keptPairs (hash : K → ℕ) (transform : K → K)
    (pred : Option (InsertPredicate (K × T))) (input : Fin P → List (K × T)) (k : K) :
    valuesFor truePredicate k (keptPairs hash transform pred input) =
      valuesFor truePredicate k
        (InsertPredicate.kept pred (insertRecv hash transform input (keyToRank hash P k))) := by
  simp only [keptPairs, valuesFor, List.filter_flatMap, List.map_flatMap]
  rw [flatMap_eq_of_nodup (List.nodup_finRange P) (a := keyToRank hash P k) fun q _ hq => ?_,
    if_pos (List.mem_finRange _)]
  exact valuesFor_kept_insertRecv_of_ne hash transform pred input (Ne.symm hq)

theorem Represents.unorderedMapInsert {hash : K → ℕ} {maps : Fin P → MapState K T}
    {S : Table K T} (h : Represents hash maps S) (transform : K → K)
    (pred : Option (InsertPredicate (K × T))) (input : Fin P → List (K × T)) :
    Represents hash (fun q => (KmerCount.unorderedMapInsert hash transform pred maps input q).2)
      (emplaceAll S (keptPairs hash transform pred input)) :=
  h.of_lookup
    (fun k o => o.or (valuesFor truePredicate k (keptPairs hash transform pred input)).head?)
    (fun q k => by
      split_ifs with hq
      · simp only [unorderedMapInsert_lookup_eq, valuesFor_keptPairs, hq]
      · exact unorderedMapInsert_lookup_of_ne hash transform pred maps input hq)
    (lookup_emplaceAll S _)

omit [DecidableEq K] in
theorem Table.size_eq_of_mem_iff {c c' : Table K T} (h : ∀ k, k ∈ c ↔ k ∈ c') :
    c.size = c'.size :=
  ((List.perm_ext_iff_of_nodup (AList.keys_nodup _) (AList.keys_nodup _)).mpr fun k => by
    rw [← AList.mem_keys, ← AList.mem_keys]
    exact h k).length_eq

/-- What `insert` returns, added over the ranks, is the number of keys the insert adds to the
table the ranks hold together. -/
theorem sum_unorderedMapInsert_fst {hash : K → ℕ} {maps : Fin P → MapState K T}
    {S : Table K T} (h : Represents hash maps S) (transform : K → K)
    (pred : Option (InsertPredicate (K × T))) (input : Fin P → List (K × T)) :
    ((List.finRange P).map fun q => (unorderedMapInsert hash transform pred maps input q).1).sum =
      (emplaceAll S ((allPairs transform input).filter (InsertPredicate.accepts pred))).size -
        S.size := by
  have hperm := keptPairs_perm hash transform pred input
  rw [h.sum_fst (h.unorderedMapInsert transform pred input) _
    (unorderedMapInsert_fst_add hash transform pred maps input)]
  congr 1
  exact Table.size_eq_of_mem_iff fun k => by
    rw [mem_emplaceAll, mem_emplaceAll, (hperm.map Prod.fst).mem_iff]

theorem sum_unorderedMapInsert_fst_two :
    Represents id (fun _ : Fin 2 => (MapState.empty : MapState ℕ ℕ)) ∅ ∧
      ((List.finRange 2).map fun q => (unorderedMapInsert id id none
          (fun _ => MapState.empty) (fun q => if q = 0 then [(1, 5)] else [(1, 7), (2, 9)])
          q).1).sum =
        (emplaceAll ∅ ((allPairs id (fun q : Fin 2 => if q = 0 then [(1, 5)]
          else [(1, 7), (2, 9)])).filter (InsertPredicate.accepts none))).size -
            (∅ : Table ℕ ℕ).size :=
  ⟨represents_empty id, sum_unorderedMapInsert_fst (represents_empty id) id none _⟩

/-! ## Runs of inserts and erases -/

/-- The collective operations of the unique-key map, on every rank: its own
`insert(input, sorted_input, pred)` and the inherited `erase(keys, sorted_input, pred)`. -/
inductive UniqueOp (K T : Type) (P : ℕ)
  | insert (pred : Option (InsertPredicate (K × T))) (input : Fin P → List (K × T))
  | erase (pred : Option (Predicate (K × T))) (keys : Fin P → List K)

def uniqueStep (hash : K → ℕ) (transform : K → K) (maps : Fin P → MapState K T) :
    UniqueOp K T P → Fin P → ℕ × MapState K T
  | .insert pred input => unorderedMapInsert hash transform pred maps input
  | .erase pred keys => tableErase hash transform pred maps keys

def uniqueRun (hash : K → ℕ) (transform : K → K) (maps : Fin P → MapState K T)
    (ops : List (UniqueOp K T P)) : Fin P → MapState K T :=
  ops.foldl (fun maps op q => (uniqueStep hash transform maps op q).2) maps

/-- The entries one operation may leave for a key `k` that held `o`. -/
def uniqueKeyStep (transform : K → K) (k : K) (o : Option T) : UniqueOp K T P → List (Option T)
  | .insert pred input =>
    emplaceChoices pred o (valuesFor (InsertPredicate.accepts pred) k (allPairs transform input))
  | .erase pred keys => [if k ∈ allKeys transform keys then eraseEntry pred k o else o]

/-- The entries a run may leave for `k`, starting from an absent key. -/
def uniqueChoices (transform : K → K) (ops : List (UniqueOp K T P)) (k : K) : List (Option T) :=
  ops.foldl (fun C op => C.flatMap fun o => uniqueKeyStep transform k o op) [none]

theorem uniqueStep_lookup_of_ne (hash : K → ℕ) (transform : K → K) (maps : Fin P → MapState K T)
    (op : UniqueOp K T P) {q : Fin P} {k : K} (hq : keyToRank hash P k ≠ q) :
    (uniqueStep hash transform maps op q).2.c.lookup k = (maps q).c.lookup k := by
  cases op with
  | insert pred input => exact unorderedMapInsert_lookup_of_ne hash transform pred maps input hq
  | erase pred keys => rw [uniqueStep, tableErase_lookup, if_neg hq]

theorem uniqueStep_lookup_owner (hash : K → ℕ) (transform : K → K)
    (maps : Fin P → MapState K T) (op : UniqueOp K T P) (k : K) :
    (uniqueStep hash transform maps op (keyToRank hash P k)).2.c.lookup k ∈
      uniqueKeyStep transform k ((maps (keyToRank hash P k)).c.lookup k) op := by
  cases op with
  | insert pred input => exact unorderedMapInsert_lookup_owner hash transform pred maps input k
  | erase pred keys =>
    rw [uniqueStep, tableErase_lookup, if_pos rfl]
    exact List.mem_singleton_self _

theorem uniqueRun_lookup_of_ne (hash : K → ℕ) (transform : K → K) (maps : Fin P → MapState K T)
    (ops : List (UniqueOp K T P)) {q : Fin P} {k : K} (hq : keyToRank hash P k ≠ q) :
    (uniqueRun hash transform maps ops q).c.lookup k = (maps q).c.lookup k := by
  induction ops generalizing maps with
  | nil => rfl
  | cons op ops ih =>
    exact (ih _).trans (uniqueStep_lookup_of_ne hash transform maps op hq)

theorem uniqueRun_lookup_owner (hash : K → ℕ) (transform : K → K)
    (maps : Fin P → MapState K T) (ops : List (UniqueOp K T P)) (k : K) {C : List (Option T)}
    (hC : (maps (keyToRank hash P k)).c.lookup k ∈ C) :
    (uniqueRun hash transform maps ops (keyToRank hash P k)).c.lookup k ∈
      ops.foldl (fun C op => C.flatMap fun o => uniqueKeyStep transform k o op) C := by
  induction ops generalizing maps C with
  | nil => exact hC
  | cons op ops ih =>
    exact ih _ (List.mem_flatMap.mpr ⟨_, hC, uniqueStep_lookup_owner hash transform maps op k⟩)

/-- After any run of inserts and erases into fresh maps, the owner of `k` holds one of the
entries the run may leave for `k`, and no other rank holds `k`. -/
theorem uniqueRun_lookup_mem (hash : K → ℕ) (transform : K → K) (ops : List (UniqueOp K T P))
    (q : Fin P) (k : K) :
    (uniqueRun hash transform (fun _ => MapState.empty) ops q).c.lookup k ∈
      if keyToRank hash P k = q then uniqueChoices transform ops k else [none] := by
  split_ifs with hq
  · subst hq
    exact uniqueRun_lookup_owner hash transform _ ops k (List.mem_singleton_self _)
  · rw [uniqueRun_lookup_of_ne hash transform _ ops hq]
    exact List.mem_singleton_self _

def entryRange (k : K) : Option T → List (K × T)
  | some x => [(k, x)]
  | none => []

theorem tableRange_eq_entryRange (c : Table K T) (k : K) :
    Query.tableRange c k = entryRange k (c.lookup k) := by
  unfold Query.tableRange entryRange
  cases c.lookup k <;> rfl

/-- After any run of inserts and erases into fresh maps, `find(keys)` is defined when it is
unfiltered or asks only for keys every run leaves present.  Rank `q` then receives, for each
of its transformed keys, what `LocalFind` selects from one of the entries the run may leave. -/
theorem mem_tableFind_uniqueRun (hash : K → ℕ) (transform : K → K) (ops : List (UniqueOp K T P))
    (pred : Option (Predicate (K × T))) (keys : Fin P → List K) (estimating : ℕ) (q : Fin P)
    (hdef : ∀ i, ∀ k ∈ (keys i).map transform,
      pred.isNone ∨ none ∉ uniqueChoices transform ops k) :
    ∃ entry : K → Option T, (∀ k, entry k ∈ uniqueChoices transform ops k) ∧
      ∃ l, tableFind hash transform pred
          (fun s => (uniqueRun hash transform (fun _ => MapState.empty) ops s).c)
          keys estimating q = some l ∧
        ∀ e, e ∈ l ↔ e.1 ∈ (keys q).map transform ∧
          e ∈ Query.findIn (entryRange e.1 (entry e.1)) pred := by
  have hmem : ∀ k, (uniqueRun hash transform (fun _ => MapState.empty) ops
      (keyToRank hash P k)).c.lookup k ∈ uniqueChoices transform ops k := fun k => by
    simpa using uniqueRun_lookup_mem hash transform ops (keyToRank hash P k) k
  refine ⟨_, hmem, ?_⟩
  obtain ⟨l, hl, hmem_l⟩ := mem_tableFind hash transform pred
    (fun s => (uniqueRun hash transform (fun _ => MapState.empty) ops s).c) keys estimating q
    fun i k hk => by
    rcases hdef i k hk with hnone | hpresent
    · simp [Query.tableFindDefined, hnone]
    · have hsome := Option.ne_none_iff_isSome.mp fun h => hpresent (h ▸ hmem k)
      simp [Query.tableFindDefined, AList.lookup_isSome.mp hsome]
  exact ⟨l, hl, fun e => by rw [hmem_l, tableRange_eq_entryRange]⟩

theorem mem_tableFind_uniqueRun_first :
    ∃ l, tableFind id id (some ⟨fun _ => true, fun e => 4 < e.2⟩)
      (fun s => (uniqueRun id id (fun _ : Fin 2 => (MapState.empty : MapState ℕ ℕ))
        [.insert none fun q => if q = 0 then [(1, 5)] else [(1, 7)]] s).c)
      (fun q => if q = 0 then [1] else []) 0 0 = some l ∧ (1, 5) ∈ l := by
  obtain ⟨entry, hentry, l, hl, hmem⟩ := mem_tableFind_uniqueRun id id
    [.insert none fun q => if q = 0 then [(1, 5)] else [(1, 7)]]
    (some ⟨fun _ => true, fun e => 4 < e.2⟩) (fun q => if q = 0 then [1] else []) 0
    (0 : Fin 2) (by decide)
  have h1 : entry 1 = some 5 := List.mem_singleton.mp (hentry 1)
  exact ⟨l, hl, (hmem _).mpr (by simp [h1, entryRange, Query.findIn])⟩

end KmerCount
