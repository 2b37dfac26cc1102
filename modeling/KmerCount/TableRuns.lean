import KmerCount.TableFind

/-!
# Erase on the unique-key maps, and runs of every collective operation

`unordered_map_base::erase(keys, sorted_input, pred)` routes the transformed keys as `count`
does, keeps one copy of each and runs `LocalErase` over them on their owners.  With `insert`,
it makes up the collective operations of a reduction map (`TableOp`).  Every run of them keeps
the ranks holding the table one sequential container reaches by the same operations
(`Represents.tableRun`), and `find`, `count` and what the operations return are read from it.
-/

namespace KmerCount

variable {K T : Type}

/-! ## `LocalErase` on a table -/

/-- Whether an erase with `pred` takes the table entry `e` once its key is asked for: always
unfiltered; otherwise when the one-entry range passes `pred(first, last)` and `e` passes
`pred(*it)`. -/
def tableErased (pred : Option (Predicate (K × T))) (e : K × T) : Bool :=
  match pred with
  | none => true
  | some p => p.range [e] && p.elem e

/-- What an erase with `pred` leaves of the entry a table holds for `k`. -/
def eraseEntry (pred : Option (Predicate (K × T))) (k : K) : Option T → Option T
  | none => none
  | some x => if tableErased pred (k, x) then none else some x

@[simp] theorem eraseEntry_none (pred : Option (Predicate (K × T))) (k : K) :
    eraseEntry pred k none = none := rfl

@[simp] theorem eraseEntry_none_pred (k : K) (o : Option T) : eraseEntry none k o = none := by
  cases o <;> rfl

theorem eraseEntry_eraseEntry (pred : Option (Predicate (K × T))) (k : K) (o : Option T) :
    eraseEntry pred k (eraseEntry pred k o) = eraseEntry pred k o := by
  cases o with
  | none => rfl
  | some x => by_cases hx : tableErased pred (k, x) <;> simp [eraseEntry, hx]

variable [DecidableEq K]

namespace Table

theorem size_erase (c : Table K T) (v : K) :
    Table.size (c.erase v) = if v ∈ c then c.size - 1 else c.size := by
  rw [size, size, AList.keys_erase, List.length_erase]
  exact if_congr AList.mem_keys rfl rfl

end Table

theorem lookup_tableEraseElement (pred : Option (Predicate (K × T))) (c : Table K T) (v k : K) :
    (Query.tableEraseElement pred c v).1.lookup k =
      if k = v then eraseEntry pred k (c.lookup k) else c.lookup k := by
  split_ifs with hk
  · subst hk
    unfold Query.tableEraseElement eraseEntry tableErased
    cases pred <;> cases hv : c.lookup k <;> simp [hv, apply_ite]
  · unfold Query.tableEraseElement
    split <;> (try split) <;> simp [AList.lookup_erase_ne hk]

theorem lookup_eq_none_of_keys_eq_nil {c : Table K T} (hc : c.keys = []) (k : K) :
    c.lookup k = none :=
  AList.lookup_eq_none.mpr fun h => List.not_mem_nil k (hc ▸ AList.mem_keys.mp h)

theorem lookup_process_tableEraseElement (pred : Option (Predicate (K × T))) (c : Table K T)
    (ks : List K) (k : K) :
    (Query.process (Query.tableEraseElement pred) c ks).1.lookup k =
      if k ∈ ks then eraseEntry pred k (c.lookup k) else c.lookup k := by
  induction ks generalizing c with
  | nil => rfl
  | cons v ks ih =>
    simp only [Query.process_cons]
    rw [ih, lookup_tableEraseElement]
    by_cases hv : k = v
    · subst hv
      by_cases hks : k ∈ ks <;> simp [hks, eraseEntry_eraseEntry]
    · simp [hv]

theorem tableEraseElement_count (pred : Option (Predicate (K × T))) (c : Table K T) (v : K) :
    (Query.tableEraseElement pred c v).2.2 + (Query.tableEraseElement pred c v).1.size =
      c.size := by
  have hle : Table.size (c.erase v) ≤ c.size := by rw [Table.size_erase]; split_ifs <;> omega
  unfold Query.tableEraseElement
  split
  · exact Nat.sub_add_cancel hle
  · exact Nat.zero_add _
  · rename_i p x hv
    split_ifs
    · have hmem : v ∈ c := AList.lookup_isSome.mp (by rw [hv]; rfl)
      have hpos : 0 < c.size := List.length_pos_of_mem (AList.mem_keys.mp hmem)
      show 1 + Table.size (c.erase v) = c.size
      rw [Table.size_erase, if_pos hmem]
      omega
    · exact Nat.zero_add _

theorem process_tableEraseElement_count (pred : Option (Predicate (K × T))) (c : Table K T)
    (ks : List K) :
    (Query.process (Query.tableEraseElement pred) c ks).2.2 +
      (Query.process (Query.tableEraseElement pred) c ks).1.size = c.size := by
  induction ks generalizing c with
  | nil => exact Nat.zero_add _
  | cons v ks ih =>
    have hstep := tableEraseElement_count pred c v
    have hrest := ih (Query.tableEraseElement pred c v).1
    simp only [Query.process_cons]
    omega

/-! ## Erase on one rank -/

namespace MapState

/-- The local part of `erase(erase_element, keys, sorted_input, pred)`: `erase_element` over
the keys this rank received, `local_changed` set when the size changed, and
`before - c.size()` returned. -/
def eraseKeys (pred : Option (Predicate (K × T))) (m : MapState K T) (keys : List K) :
    ℕ × MapState K T :=
  let c := (Query.process (Query.tableEraseElement pred) m.c keys).1
  (m.c.size - c.size, { c := c, localChanged := m.localChanged || m.c.size != c.size })

theorem lookup_eraseKeys (pred : Option (Predicate (K × T))) (m : MapState K T) (keys : List K)
    (k : K) :
    (m.eraseKeys pred keys).2.c.lookup k =
      if k ∈ keys then eraseEntry pred k (m.c.lookup k) else m.c.lookup k :=
  lookup_process_tableEraseElement pred m.c keys k

theorem eraseKeys_fst_add (pred : Option (Predicate (K × T))) (m : MapState K T)
    (keys : List K) : (m.eraseKeys pred keys).1 + (m.eraseKeys pred keys).2.c.size = m.c.size :=
  Nat.sub_add_cancel (Nat.le.intro ((Nat.add_comm _ _).trans
    (process_tableEraseElement_count pred m.c keys)))

end MapState

/-! ## Erase on every rank -/

variable {P : ℕ} [NeZero P]

/-- `erase(keys, sorted_input, pred)` of a unique-key map, `unordered_map_base::erase` with
`LocalErase`, on every rank: nothing when the map or the keys are empty on all ranks;
otherwise the transformed keys travel as `count`'s do, `fsc::unique` keeps one copy of each,
and every rank erases the keys it received.  Rank `r`'s result and new state. -/
def tableErase (hash : K → ℕ) (transform : K → K) (pred : Option (Predicate (K × T)))
    (maps : Fin P → MapState K T) (keys : Fin P → List K) (r : Fin P) : ℕ × MapState K T :=
  if globalEmpty (fun r => (maps r).c.keys) || globalEmpty keys then (0, maps r)
  else (maps r).eraseKeys pred (countingRecv hash transform keys r).dedup

omit [DecidableEq K] [NeZero P] in
theorem allKeys_of_globalEmpty {transform : K → K} {keys : Fin P → List K}
    (h : globalEmpty keys = true) : allKeys transform keys = [] := by
  simp [allKeys, globalEmpty_eq_true_iff.mp h]

theorem tableErase_lookup (hash : K → ℕ) (transform : K → K) (pred : Option (Predicate (K × T)))
    (maps : Fin P → MapState K T) (keys : Fin P → List K) (q : Fin P) (k : K) :
    (tableErase hash transform pred maps keys q).2.c.lookup k =
      if keyToRank hash P k = q then
        (if k ∈ allKeys transform keys then eraseEntry pred k ((maps q).c.lookup k)
          else (maps q).c.lookup k)
      else (maps q).c.lookup k := by
  have hrecv : k ∈ (countingRecv hash transform keys q).dedup ↔
      k ∈ allKeys transform keys ∧ keyToRank hash P k = q := by
    rw [List.mem_dedup, countingRecv_eq_filter, List.mem_filter, decide_eq_true_eq]
  unfold tableErase
  by_cases hempty : (globalEmpty (fun r => (maps r).c.keys) || globalEmpty keys) = true
  · rw [if_pos hempty]
    rcases Bool.or_eq_true_iff.mp hempty with hc | hkeys
    · rw [lookup_eq_none_of_keys_eq_nil ((globalEmpty_eq_true_iff.mp hc) q)]
      split_ifs <;> rfl
    · simp [allKeys_of_globalEmpty hkeys]
  · rw [if_neg hempty, MapState.lookup_eraseKeys]
    by_cases hq : keyToRank hash P k = q <;> simp [hrecv, hq]

theorem Represents.tableErase {hash : K → ℕ} {maps : Fin P → MapState K T} {S : Table K T}
    (h : Represents hash maps S) (transform : K → K) (pred : Option (Predicate (K × T)))
    (keys : Fin P → List K) :
    Represents hash (fun q => (tableErase hash transform pred maps keys q).2)
      (Query.process (Query.tableEraseElement pred) S (allKeys transform keys)).1 :=
  h.of_lookup (fun k o => if k ∈ allKeys transform keys then eraseEntry pred k o else o)
    (tableErase_lookup hash transform pred maps keys)
    (lookup_process_tableEraseElement pred S _)

theorem tableErase_fst_add (hash : K → ℕ) (transform : K → K) (pred : Option (Predicate (K × T)))
    (maps : Fin P → MapState K T) (keys : Fin P → List K) (q : Fin P) :
    (tableErase hash transform pred maps keys q).1 +
      (tableErase hash transform pred maps keys q).2.c.size = (maps q).c.size := by
  unfold tableErase
  split_ifs
  · exact Nat.zero_add _
  · exact MapState.eraseKeys_fst_add pred (maps q) _

/-! ## Runs of every collective operation -/

/-- The collective operations of a reduction map, on every rank: `insert(input, sorted_input,
pred)` and `erase(keys, sorted_input, pred)`. -/
inductive TableOp (K T : Type) (P : ℕ)
  | insert (pred : K × T → Bool) (input : Fin P → List (K × T))
  | erase (pred : Option (Predicate (K × T))) (keys : Fin P → List K)

def tableStep (r : T → T → T) (hash : K → ℕ) (transform : K → K) (maps : Fin P → MapState K T) :
    TableOp K T P → Fin P → ℕ × MapState K T
  | .insert pred input => reductionInsert r hash transform pred maps input
  | .erase pred keys => tableErase hash transform pred maps keys

def tableRun (r : T → T → T) (hash : K → ℕ) (transform : K → K) (maps : Fin P → MapState K T)
    (ops : List (TableOp K T P)) : Fin P → MapState K T :=
  ops.foldl (fun maps op q => (tableStep r hash transform maps op q).2) maps

/-- The same operation on one sequential table: `local_insert` of all ranks' accepted pairs,
or `LocalErase` over all ranks' keys. -/
def absTableStep (r : T → T → T) (transform : K → K) (S : Table K T) :
    TableOp K T P → Table K T
  | .insert pred input => reduceAll r pred S (allPairs transform input)
  | .erase pred keys => (Query.process (Query.tableEraseElement pred) S (allKeys transform keys)).1

def absTableRun (r : T → T → T) (transform : K → K) (S : Table K T)
    (ops : List (TableOp K T P)) : Table K T :=
  ops.foldl (absTableStep r transform) S

/-- What one operation does to the entry of `k` in the sequential table. -/
def keyStep (r : T → T → T) (transform : K → K) (k : K) (o : Option T) :
    TableOp K T P → Option T
  | .insert pred input => foldValues r o (valuesFor pred k (allPairs transform input))
  | .erase pred keys => if k ∈ allKeys transform keys then eraseEntry pred k o else o

omit [NeZero P] in
theorem lookup_absTableStep (r : T → T → T) (transform : K → K) (S : Table K T)
    (op : TableOp K T P) (k : K) :
    (absTableStep r transform S op).lookup k = keyStep r transform k (S.lookup k) op := by
  cases op with
  | insert pred input => exact lookup_reduceAll r pred S _ k
  | erase pred keys => exact lookup_process_tableEraseElement pred S _ k

omit [NeZero P] in
theorem lookup_absTableRun (r : T → T → T) (transform : K → K) (S : Table K T)
    (ops : List (TableOp K T P)) (k : K) :
    (absTableRun r transform S ops).lookup k = ops.foldl (keyStep r transform k) (S.lookup k) := by
  induction ops generalizing S with
  | nil => rfl
  | cons op ops ih =>
    simp only [absTableRun, List.foldl_cons] at ih ⊢
    rw [ih, lookup_absTableStep]

theorem Represents.tableStep {hash : K → ℕ} {maps : Fin P → MapState K T} {S : Table K T}
    (h : Represents hash maps S) (r : T → T → T) (transform : K → K) (op : TableOp K T P) :
    Represents hash (fun q => (tableStep r hash transform maps op q).2)
      (absTableStep r transform S op) := by
  cases op with
  | insert pred input => exact h.reductionInsert r transform pred input
  | erase pred keys => exact h.tableErase transform pred keys

/-- Along every run of inserts and erases, from any state in which the ranks hold a table,
each key sits only on its owner, with the entry one sequential table reaches by the same
operations. -/
theorem Represents.tableRun {hash : K → ℕ} {maps : Fin P → MapState K T} {S : Table K T}
    (h : Represents hash maps S) (r : T → T → T) (transform : K → K) (ops : List (TableOp K T P)) :
    Represents hash (tableRun r hash transform maps ops) (absTableRun r transform S ops) := by
  induction ops generalizing maps S with
  | nil => exact h
  | cons op ops ih => exact ih (h.tableStep r transform op)

theorem sum_tableStep_fst {hash : K → ℕ} {maps : Fin P → MapState K T}
    {S : Table K T} (h : Represents hash maps S) (r : T → T → T) (transform : K → K)
    (op : TableOp K T P) :
    ((List.finRange P).map fun q => (tableStep r hash transform maps op q).1).sum =
      match op with
      | .insert _ _ => (absTableStep r transform S op).size - S.size
      | _ => S.size - (absTableStep r transform S op).size := by
  cases op with
  | insert pred input => exact sum_reductionInsert_fst h r transform pred input
  | erase pred keys =>
    exact (h.tableErase transform pred keys).sum_fst h _
      (tableErase_fst_add hash transform pred maps keys)

/-- After any run of inserts and erases into fresh maps, the owner of each key holds the entry
one sequential table reaches by the same operations, and no other rank holds the key. -/
theorem tableRun_lookup (r : T → T → T) (hash : K → ℕ) (transform : K → K)
    (ops : List (TableOp K T P)) (q : Fin P) (k : K) :
    (tableRun r hash transform (fun _ => MapState.empty) ops q).c.lookup k =
      if keyToRank hash P k = q then (absTableRun r transform ∅ ops).lookup k else none := by
  have h := (represents_empty hash).tableRun r transform ops
  split_ifs with hq
  · exact hq ▸ h.lookup_owner k
  · exact AList.lookup_eq_none.mpr fun hk => hq (h.owned q k hk)

theorem tableRun_lookup_insert_erase :
    (tableRun (· + ·) id id (fun _ : Fin 2 => (MapState.empty : MapState ℕ ℕ))
        [.insert truePredicate fun q => if q = 0 then [(1, 5), (2, 3)] else [(1, 7)],
          .erase none fun q => if q = 0 then [1] else []] 1).c.lookup 1 = none ∧
      (tableRun (· + ·) id id (fun _ : Fin 2 => (MapState.empty : MapState ℕ ℕ))
        [.insert truePredicate fun q => if q = 0 then [(1, 5), (2, 3)] else [(1, 7)],
          .erase none fun q => if q = 0 then [1] else []] 0).c.lookup 2 = some 3 :=
  ⟨(tableRun_lookup _ _ _ _ _ _).trans (by decide), (tableRun_lookup _ _ _ _ _ _).trans (by decide)⟩

/-- After any run of inserts and erases into fresh maps, `find` answers each asked key from the
sequential table, when no rank asks, with a predicate, for a key that table does not hold. -/
theorem mem_tableFind_tableRun (r : T → T → T) (hash : K → ℕ) (transform : K → K)
    (ops : List (TableOp K T P)) (pred : Option (Predicate (K × T))) (keys : Fin P → List K)
    (estimating : ℕ) (q : Fin P)
    (hdef : ∀ i, ∀ k ∈ (keys i).map transform,
      Query.tableFindDefined pred (absTableRun r transform ∅ ops) k) :
    ∃ l, tableFind hash transform pred
        (fun s => (tableRun r hash transform (fun _ => MapState.empty) ops s).c)
        keys estimating q = some l ∧
      ∀ e, e ∈ l ↔ e.1 ∈ (keys q).map transform ∧
        e ∈ Query.findIn (Query.tableRange (absTableRun r transform ∅ ops) e.1) pred :=
  ((represents_empty hash).tableRun r transform ops).mem_tableFind transform pred keys
    estimating q hdef

theorem mem_tableFind_tableRun_sum :
    ∃ l, tableFind id id (some ⟨fun _ => true, fun e => 10 < e.2⟩)
      (fun s => (tableRun (· + ·) id id (fun _ : Fin 2 => (MapState.empty : MapState ℕ ℕ))
        [.insert truePredicate fun q => if q = 0 then [(1, 5), (2, 3)] else [(1, 7)]] s).c)
      (fun q => if q = 0 then [1] else []) 0 0 = some l ∧ (1, 12) ∈ l := by
  obtain ⟨l, hl, hmem⟩ := mem_tableFind_tableRun (· + ·) id id
    [.insert truePredicate fun q => if q = 0 then [(1, 5), (2, 3)] else [(1, 7)]]
    (some ⟨fun _ => true, fun e => 10 < e.2⟩) (fun q => if q = 0 then [1] else []) 0
    (0 : Fin 2) (by decide)
  exact ⟨l, hl, (hmem _).mpr (by decide)⟩

/-- After any run of inserts and erases into fresh maps, `count` answers each distinct asked
key with `LocalCount` on the sequential table's entry. -/
theorem mem_count_tableRun (r : T → T → T) (hash : K → ℕ) (transform : K → K)
    (ops : List (TableOp K T P)) (pred : Option (Predicate (K × T))) (keys : Fin P → List K)
    (q : Fin P) (k : K) (n : ℕ) :
    (k, n) ∈ count hash transform pred
        (fun s => (tableRun r hash transform (fun _ => MapState.empty) ops s).c) keys q ↔
      k ∈ (keys q).map transform ∧
        n = Query.countIn (Query.tableRange (absTableRun r transform ∅ ops) k) pred := by
  rw [mem_count, ((represents_empty hash).tableRun r transform ops).tableRange_owner]

theorem mem_count_tableRun_erased :
    (1, 0) ∈ count id id none
      (fun s => (tableRun (· + ·) id id (fun _ : Fin 2 => (MapState.empty : MapState ℕ ℕ))
        [.insert truePredicate fun q => if q = 0 then [(1, 5), (2, 3)] else [(1, 7)],
          .erase none fun q => if q = 0 then [1] else []] s).c)
      (fun q => if q = 0 then [1, 2] else []) 0 :=
  (mem_count_tableRun _ _ _ _ _ _ _ _ _).mpr (by decide)

/-- After any run from fresh maps, what the next operation returns, added over the ranks, is
the number of keys the sequential table gains by an insert, or loses by an erase. -/
theorem sum_tableStep_fst_tableRun (r : T → T → T) (hash : K → ℕ) (transform : K → K)
    (ops : List (TableOp K T P)) (op : TableOp K T P) :
    ((List.finRange P).map fun q => (tableStep r hash transform
        (tableRun r hash transform (fun _ => MapState.empty) ops) op q).1).sum =
      match op with
      | .insert _ _ =>
        (absTableRun r transform ∅ (ops ++ [op])).size - (absTableRun r transform ∅ ops).size
      | _ =>
        (absTableRun r transform ∅ ops).size - (absTableRun r transform ∅ (ops ++ [op])).size := by
  rw [sum_tableStep_fst ((represents_empty hash).tableRun r transform ops) r transform op]
  simp only [absTableRun, List.foldl_append, List.foldl_cons, List.foldl_nil]

theorem sum_tableStep_fst_tableRun_erase :
    ((List.finRange 2).map fun q => (tableStep (· + ·) id id
        (tableRun (· + ·) id id (fun _ : Fin 2 => (MapState.empty : MapState ℕ ℕ))
          [.insert truePredicate fun q => if q = 0 then [(1, 5), (2, 3)] else [(1, 7)]])
        (.erase none fun q => if q = 0 then [1, 2] else [1]) q).1).sum = 2 :=
  (sum_tableStep_fst_tableRun _ _ _ _ _).trans (by decide)

end KmerCount
