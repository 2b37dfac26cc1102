import KmerCount.TableRuns

/-!
# The counting map under inserts and erases

The collective operations of `counting_unordered_map` are its own `insert` and the inherited
`erase(keys, sorted_input, pred)` (`CountingOp`).  Its insert is the reduction map's insert of
`(k, 1)` over `std::plus`, so a run of them is a run of the reduction map.  Stated on the
counting map's own terms: with unfiltered erases a key's count is the number of its accepted
occurrences inserted since the last erase that named it, and `find(keys)` reads it back.
-/

namespace KmerCount

variable {K U : Type} [DecidableEq K] {P : ℕ} [NeZero P] [AddCommMonoidWithOne U]

/-- The collective operations of a counting map, on every rank: `insert(input, sorted_input,
pred)` and the inherited `erase(keys, sorted_input, pred)`. -/
inductive CountingOp (K U : Type) (P : ℕ)
  | insert (pred : K × U → Bool) (input : Fin P → List K)
  | erase (pred : Option (Predicate (K × U))) (keys : Fin P → List K)

def countingStep (hash : K → ℕ) (transform : K → K) (maps : Fin P → MapState K U) :
    CountingOp K U P → Fin P → ℕ × MapState K U
  | .insert pred input => countingInsert hash transform pred maps input
  | .erase pred keys => tableErase hash transform pred maps keys

def countingMapRun (hash : K → ℕ) (transform : K → K) (maps : Fin P → MapState K U)
    (ops : List (CountingOp K U P)) : Fin P → MapState K U :=
  ops.foldl (fun maps op q => (countingStep hash transform maps op q).2) maps

/-- A counting operation as the reduction-map operation it is: inserting keys inserts
`(k, 1)`. -/
def CountingOp.toTableOp : CountingOp K U P → TableOp K U P
  | .insert pred input => .insert pred fun q => (input q).map fun x => (x, 1)
  | .erase pred keys => .erase pred keys

theorem countingStep_eq (hash : K → ℕ) (transform : K → K) (maps : Fin P → MapState K U)
    (op : CountingOp K U P) :
    countingStep hash transform maps op = tableStep (· + ·) hash transform maps op.toTableOp := by
  cases op with
  | insert pred input => exact countingInsert_eq_reductionInsert hash transform pred maps input
  | erase pred keys => rfl

theorem countingMapRun_eq_tableRun (hash : K → ℕ) (transform : K → K)
    (maps : Fin P → MapState K U) (ops : List (CountingOp K U P)) :
    countingMapRun hash transform maps ops =
      tableRun (· + ·) hash transform maps (ops.map CountingOp.toTableOp) := by
  induction ops generalizing maps with
  | nil => rfl
  | cons op ops ih =>
    simp only [countingMapRun, tableRun, List.foldl_cons, List.map_cons, countingStep_eq] at ih ⊢
    exact ih _

/-! ## A counter with resets -/

/-- An operation whose erase, if it is one, is unfiltered: `erase(keys)` with `TruePredicate`. -/
def CountingOp.unfiltered : CountingOp K U P → Bool
  | .insert _ _ => true
  | .erase pred _ => pred.isNone

/-- One operation on the number of occurrences of `k` counted since its last erasure: an
insert adds the accepted occurrences of `k` on all ranks, an erase that names `k` resets it. -/
def sinceStep (transform : K → K) (k : K) (n : ℕ) : CountingOp K U P → ℕ
  | .insert pred input => n + (allKeys transform input).countP fun x => x = k ∧ pred (x, 1)
  | .erase _ keys => if k ∈ allKeys transform keys then 0 else n

/-- The accepted occurrences of `k` inserted since the last operation that erased it. -/
def occurrencesSince (transform : K → K) (ops : List (CountingOp K U P)) (k : K) : ℕ :=
  ops.foldl (sinceStep transform k) 0

/-- The entry a counter of `n` occurrences is stored as: absent when `n = 0`. -/
def counterEntry (n : ℕ) : Option U := if n = 0 then none else some (n : U)

theorem foldValues_replicate_one (n : ℕ) :
    foldValues (· + ·) (none : Option U) (List.replicate n 1) =
      if n = 0 then none else some (n : U) := by
  cases n with
  | zero => rfl
  | succ n =>
    have hget := foldValues_ones (none : Option U) (n + 1)
    rw [List.replicate_succ, foldValues, foldValues_some] at hget ⊢
    simpa using hget

theorem foldValues_counterEntry (m n : ℕ) :
    foldValues (· + ·) (counterEntry m : Option U) (List.replicate n 1) = counterEntry (m + n) := by
  by_cases hm : m = 0
  · subst hm
    rw [counterEntry, if_pos rfl, foldValues_replicate_one, Nat.zero_add]
    rfl
  · have hget := foldValues_ones (counterEntry m : Option U) n
    rw [counterEntry, if_neg hm, foldValues_some] at hget ⊢
    rw [counterEntry, if_neg (by omega), Nat.cast_add]
    exact congrArg some hget

omit [NeZero P] in
theorem keyStep_counterEntry (transform : K → K) (k : K) (m : ℕ) {op : CountingOp K U P}
    (hop : op.unfiltered) :
    keyStep (· + ·) transform k (counterEntry m) op.toTableOp =
      counterEntry (sinceStep transform k m op) := by
  cases op with
  | insert pred input =>
    simp only [CountingOp.toTableOp, keyStep, sinceStep]
    rw [allPairs_map_const, valuesFor_ones, foldValues_counterEntry]
  | erase pred keys =>
    obtain rfl : pred = none := Option.isNone_iff_eq_none.mp hop
    simp only [CountingOp.toTableOp, keyStep, sinceStep]
    split_ifs
    · exact eraseEntry_none_pred k _
    · rfl

omit [NeZero P] in
theorem foldl_keyStep_counterEntry (transform : K → K) (k : K) (ops : List (CountingOp K U P))
    (hops : ∀ op ∈ ops, op.unfiltered) (m : ℕ) :
    (ops.map CountingOp.toTableOp).foldl (keyStep (· + ·) transform k) (counterEntry m) =
      counterEntry (ops.foldl (sinceStep transform k) m) := by
  induction ops generalizing m with
  | nil => rfl
  | cons op ops ih =>
    rw [List.map_cons, List.foldl_cons, keyStep_counterEntry transform k m (hops op (by simp)),
      ih (fun op hop => hops op (List.mem_cons_of_mem _ hop))]
    rfl

theorem represents_countingMapRun (hash : K → ℕ) (transform : K → K)
    (ops : List (CountingOp K U P)) :
    Represents hash (countingMapRun hash transform (fun _ => MapState.empty) ops)
      (absTableRun (· + ·) transform ∅ (ops.map CountingOp.toTableOp)) :=
  countingMapRun_eq_tableRun hash transform (fun _ => MapState.empty) ops ▸
    (represents_empty hash).tableRun (· + ·) transform (ops.map CountingOp.toTableOp)

omit [NeZero P] in
theorem lookup_absTableRun_counting (transform : K → K) (ops : List (CountingOp K U P))
    (hops : ∀ op ∈ ops, op.unfiltered) (k : K) :
    (absTableRun (· + ·) transform ∅ (ops.map CountingOp.toTableOp)).lookup k =
      (counterEntry (occurrencesSince transform ops k) : Option U) := by
  rw [lookup_absTableRun, AList.lookup_empty]
  exact foldl_keyStep_counterEntry transform k ops hops 0

/-- After any run of inserts and unfiltered erases into fresh maps, the owner of `k` holds the
number of accepted occurrences of `k` inserted since `k` was last erased, and holds `k` only
when that number is positive; no other rank holds `k`. -/
theorem lookup_countingMapRun (hash : K → ℕ) (transform : K → K) (ops : List (CountingOp K U P))
    (hops : ∀ op ∈ ops, op.unfiltered) (q : Fin P) (k : K) :
    (countingMapRun hash transform (fun _ => MapState.empty) ops q).c.lookup k =
      if keyToRank hash P k = q then counterEntry (occurrencesSince transform ops k) else none := by
  have h := represents_countingMapRun hash transform ops
  split_ifs with hq
  · rw [← lookup_absTableRun_counting transform ops hops, ← h.lookup_owner k, hq]
  · exact AList.lookup_eq_none.mpr fun hk => hq (h.owned q k hk)

theorem lookup_countingMapRun_reinsert :
    (∀ op ∈ ([.insert truePredicate fun q => if q = 0 then [1, 1] else [1], .erase none fun _ => [1],
        .insert truePredicate fun _ => [1]] : List (CountingOp ℕ ℕ 2)), op.unfiltered) ∧
      (countingMapRun id id (fun _ => MapState.empty) ([.insert truePredicate fun q => if q = 0 then [1, 1] else [1], .erase none fun _ => [1],
        .insert truePredicate fun _ => [1]] : List (CountingOp ℕ ℕ 2)) 1).c.lookup 1 =
        if keyToRank id 2 1 = 1 then counterEntry (occurrencesSince id ([.insert truePredicate fun q => if q = 0 then [1, 1] else [1], .erase none fun _ => [1],
        .insert truePredicate fun _ => [1]] : List (CountingOp ℕ ℕ 2)) 1)
        else none :=
  ⟨by decide, lookup_countingMapRun id id _ (by decide) 1 1⟩

example :
    (countingMapRun id id (fun _ : Fin 2 => (MapState.empty : MapState ℕ ℕ))
      [.insert truePredicate fun q => if q = 0 then [1, 1] else [1],
        .erase none fun _ => [1], .insert truePredicate fun _ => [1]] 1).c.lookup 1 = some 2 := by
  decide

/-- After any run of inserts and unfiltered erases into fresh maps, `find` returns an asked key
exactly when it has occurred since it was last erased, with the number of those occurrences. -/
theorem mem_tableFind_countingMapRun (hash : K → ℕ) (transform : K → K)
    (ops : List (CountingOp K U P)) (hops : ∀ op ∈ ops, op.unfiltered) (keys : Fin P → List K)
    (estimating : ℕ) (q : Fin P) :
    ∃ l, tableFind hash transform none
        (fun s => (countingMapRun hash transform (fun _ => MapState.empty) ops s).c)
        keys estimating q = some l ∧
      ∀ k v, (k, v) ∈ l ↔ k ∈ (keys q).map transform ∧ occurrencesSince transform ops k ≠ 0 ∧
        v = (occurrencesSince transform ops k : U) := by
  obtain ⟨l, hl, hmem⟩ := (represents_countingMapRun hash transform ops).mem_tableFind transform
    none keys estimating q fun _ _ _ => rfl
  refine ⟨l, hl, fun k v => ?_⟩
  simp only [hmem, Query.findIn, mem_tableRange, lookup_absTableRun_counting transform ops hops,
    counterEntry]
  by_cases h0 : occurrencesSince transform ops k = 0 <;> simp [h0, eq_comm]

theorem mem_tableFind_countingMapRun_reinsert :
    (∀ op ∈ ([.insert truePredicate fun q => if q = 0 then [1, 1] else [1], .erase none fun _ => [1],
        .insert truePredicate fun _ => [1]] : List (CountingOp ℕ ℕ 2)), op.unfiltered) ∧
      ∃ l, tableFind id id none
          (fun s => (countingMapRun id id (fun _ => MapState.empty)
            ([.insert truePredicate fun q => if q = 0 then [1, 1] else [1], .erase none fun _ => [1],
              .insert truePredicate fun _ => [1]] : List (CountingOp ℕ ℕ 2)) s).c)
          (fun _ => [1]) 0 0 = some l ∧
        ∀ k v, (k, v) ∈ l ↔ k ∈ [1].map id ∧
          occurrencesSince id ([.insert truePredicate fun q => if q = 0 then [1, 1] else [1],
            .erase none fun _ => [1], .insert truePredicate fun _ => [1]] :
              List (CountingOp ℕ ℕ 2)) k ≠ 0 ∧
          v = occurrencesSince id ([.insert truePredicate fun q => if q = 0 then [1, 1] else [1],
            .erase none fun _ => [1], .insert truePredicate fun _ => [1]] :
              List (CountingOp ℕ ℕ 2)) k :=
  ⟨by decide, mem_tableFind_countingMapRun id id _ (by decide) _ 0 0⟩

end KmerCount
