import KmerCount.CountingMap

/-!
# The reduction map: insert, and the order of values

`reduction_unordered_map::insert` ships each transformed pair to the `KeyToRank` of its key
and folds what a rank receives into its table with `local_insert`, so the owner of `k` folds
every accepted value of `k` into its entry (`reductionInsert_lookup`) and the ranks together
hold one table (`Represents`).  The counting map is the reduction map over `std::plus`.  For a
commutative and associative operator, neither the order of a rank's input nor
`local_reduction` changes what `local_insert` stores or returns.
-/

namespace KmerCount

variable {K T : Type} [DecidableEq K]

/-! ## The order of a key's values -/

theorem foldValues_eq_foldl_merge (r : T → T → T) (acc : Option T) (vs : List T) :
    foldValues r acc vs = (vs.map some).foldl (Option.merge r) acc := by
  induction vs generalizing acc with
  | nil => rfl
  | cons v vs ih => cases acc <;> exact ih _

theorem valuesFor_perm (pred : K × T → Bool) (k : K) {l₁ l₂ : List (K × T)} (h : l₁.Perm l₂) :
    (valuesFor pred k l₁).Perm (valuesFor pred k l₂) :=
  (h.filter _).map _

theorem Table.size_eq_of_lookup {c c' : Table K T} (h : ∀ k, c.lookup k = c'.lookup k) :
    c.size = c'.size :=
  ((List.perm_ext_iff_of_nodup (AList.keys_nodup _) (AList.keys_nodup _)).mpr fun k => by
    rw [← AList.mem_keys, ← AList.mem_keys, ← AList.lookup_isSome, ← AList.lookup_isSome,
      h]).length_eq

section Commutative

variable (r : T → T → T) [Std.Commutative r] [Std.Associative r]

theorem merge_right_comm (a x y : Option T) :
    Option.merge r (Option.merge r a x) y = Option.merge r (Option.merge r a y) x := by
  cases a <;> cases x <;> cases y <;> simp only [Option.merge, Option.some.injEq] <;> ac_rfl

theorem foldValues_perm {vs ws : List T} (h : vs.Perm ws) (acc : Option T) :
    foldValues r acc vs = foldValues r acc ws := by
  have : RightCommutative (Option.merge r) := ⟨merge_right_comm r⟩
  rw [foldValues_eq_foldl_merge, foldValues_eq_foldl_merge, (h.map some).foldl_eq]

/-- With a commutative and associative `r`, the order in which `local_insert` receives the
pairs changes neither any key's entry nor the number of keys it reports as added. -/
theorem localInsert_perm (pred : K × T → Bool) (m : MapState K T) {l₁ l₂ : List (K × T)}
    (h : l₁.Perm l₂) :
    (∀ k, (localInsert r pred m l₁).2.c.lookup k = (localInsert r pred m l₂).2.c.lookup k) ∧
      (localInsert r pred m l₁).1 = (localInsert r pred m l₂).1 := by
  have hlookup : ∀ k, (reduceAll r pred m.c l₁).lookup k = (reduceAll r pred m.c l₂).lookup k :=
    fun k => by rw [lookup_reduceAll, lookup_reduceAll, foldValues_perm r (valuesFor_perm pred k h)]
  exact ⟨hlookup, congrArg (· - m.c.size) (Table.size_eq_of_lookup hlookup)⟩

end Commutative

theorem localInsert_perm_sum :
    ([(1, 2), (2, 5), (1, 3)] : List (ℕ × ℕ)).Perm [(1, 3), (2, 5), (1, 2)] ∧
      ((∀ k, (localInsert (· + ·) truePredicate (⟨∅, false⟩ : MapState ℕ ℕ)
            [(1, 2), (2, 5), (1, 3)]).2.c.lookup k =
          (localInsert (· + ·) truePredicate ⟨∅, false⟩ [(1, 3), (2, 5), (1, 2)]).2.c.lookup k) ∧
        (localInsert (· + ·) truePredicate (⟨∅, false⟩ : MapState ℕ ℕ) [(1, 2), (2, 5), (1, 3)]).1 =
          (localInsert (· + ·) truePredicate ⟨∅, false⟩ [(1, 3), (2, 5), (1, 2)]).1) :=
  ⟨by decide, localInsert_perm (· + ·) truePredicate ⟨∅, false⟩ (by decide)⟩

/-! ## `local_reduction` -/

/-- `reduction_unordered_map::local_reduction`: an empty input stays as it is; otherwise the
pairs are folded into a fresh table, `temp.emplace(k, v)` for a new key and
`temp.at(k) = r(temp.at(k), v)` for a present one, and `input.assign(temp.begin(),
temp.end())` replaces the input by the table's entries, in the table's order. -/
def localReduction (r : T → T → T) (input : List (K × T)) : List (K × T) :=
  if input.isEmpty then input
  else (reduceAll r truePredicate ∅ input).entries.map fun e => (e.1, e.2)

theorem valuesFor_entries (c : Table K T) (k : K) :
    valuesFor truePredicate k (c.entries.map fun e => (e.1, e.2)) = (c.lookup k).toList := by
  obtain ⟨l, hl⟩ := c
  show valuesFor truePredicate k (l.map fun e => (e.1, e.2)) = (l.dlookup k).toList
  induction l with
  | nil => rfl
  | cons s l ih =>
    obtain ⟨hs, hl⟩ := List.nodupKeys_cons.mp hl
    by_cases hk : s.1 = k
    · subst hk
      have hnil := ih hl
      rw [List.dlookup_eq_none.mpr hs] at hnil
      simp only [valuesFor, truePredicate, and_true] at hnil ⊢
      rw [List.dlookup_cons_eq]
      simp [hnil]
    · rw [List.dlookup_cons_ne _ _ (Ne.symm hk), ← ih hl]
      simp [valuesFor, hk]

theorem valuesFor_localReduction (r : T → T → T) (input : List (K × T)) (k : K) :
    valuesFor truePredicate k (localReduction r input) =
      (foldValues r none (valuesFor truePredicate k input)).toList := by
  unfold localReduction
  split_ifs with hempty
  · rw [List.isEmpty_iff.mp hempty]
    rfl
  · rw [valuesFor_entries, lookup_reduceAll, AList.lookup_empty]

theorem foldValues_toList_foldValues (r : T → T → T) [Std.Associative r] (acc : Option T)
    (vs : List T) : foldValues r acc (foldValues r none vs).toList = foldValues r acc vs := by
  cases vs with
  | nil => rfl
  | cons v vs =>
    rw [foldValues, foldValues_some, Option.toList_some]
    cases acc with
    | none => exact (foldValues_some r v vs).symm
    | some a => simp only [foldValues, foldValues_some, List.foldl_cons, List.foldl_nil,
        List.foldl_assoc]

/-- With an associative `r`, `local_insert` of the reduced input, in whatever order the table
hands out its entries, leaves every key's entry and reports the count that `local_insert` of
the input itself does. -/
theorem localInsert_localReduction (r : T → T → T) [Std.Associative r] (m : MapState K T)
    (input : List (K × T)) {l : List (K × T)} (hl : l.Perm (localReduction r input)) :
    (∀ k, (localInsert r truePredicate m l).2.c.lookup k =
        (localInsert r truePredicate m input).2.c.lookup k) ∧
      (localInsert r truePredicate m l).1 = (localInsert r truePredicate m input).1 := by
  have hlookup : ∀ k, (localInsert r truePredicate m l).2.c.lookup k =
      (localInsert r truePredicate m input).2.c.lookup k := fun k => by
    have hvals := valuesFor_perm truePredicate k hl
    rw [valuesFor_localReduction] at hvals
    -- a list that is a permutation of at most one value is that value
    have heq : valuesFor truePredicate k l =
        (foldValues r none (valuesFor truePredicate k input)).toList := by
      cases h : foldValues r none (valuesFor truePredicate k input) with
      | none => rw [h] at hvals; exact List.perm_nil.mp hvals
      | some w => rw [h] at hvals; exact List.perm_singleton.mp hvals
    rw [localInsert_lookup, localInsert_lookup, heq, foldValues_toList_foldValues]
  exact ⟨hlookup, congrArg (· - m.c.size) (Table.size_eq_of_lookup hlookup)⟩

theorem localInsert_localReduction_sum :
    (localReduction (· + ·) [(1, 2), (2, 5), (1, 3)]).Perm
        (localReduction (· + ·) [(1, 2), (2, 5), (1, 3)]) ∧
      ((∀ k, (localInsert (· + ·) truePredicate (⟨∅, false⟩ : MapState ℕ ℕ)
            (localReduction (· + ·) [(1, 2), (2, 5), (1, 3)])).2.c.lookup k =
          (localInsert (· + ·) truePredicate ⟨∅, false⟩ [(1, 2), (2, 5), (1, 3)]).2.c.lookup k) ∧
        (localInsert (· + ·) truePredicate (⟨∅, false⟩ : MapState ℕ ℕ)
            (localReduction (· + ·) [(1, 2), (2, 5), (1, 3)])).1 =
          (localInsert (· + ·) truePredicate ⟨∅, false⟩ [(1, 2), (2, 5), (1, 3)]).1) :=
  ⟨List.Perm.refl _, localInsert_localReduction (· + ·) ⟨∅, false⟩ _ (List.Perm.refl _)⟩

/-! ## Insert on every rank -/

variable {P : ℕ} [NeZero P]

/-- `reduction_unordered_map::insert(input, sorted_input, pred)` on every rank; the
`TruePredicate` overload is `pred = truePredicate`.  Rank `q`'s result and new state. -/
def reductionInsert (r : T → T → T) (hash : K → ℕ) (transform : K → K) (pred : K × T → Bool)
    (maps : Fin P → MapState K T) (input : Fin P → List (K × T)) (q : Fin P) :
    ℕ × MapState K T :=
  if globalEmpty input then (0, maps q)
  else localInsert r pred (maps q) (insertRecv hash transform input q)

omit [NeZero P] in
theorem valuesFor_filter_key (pred : K × T → Bool) (k : K) (p : K → Prop) [DecidablePred p]
    (l : List (K × T)) :
    valuesFor pred k (l.filter fun e => p e.1) = if p k then valuesFor pred k l else [] := by
  unfold valuesFor
  rw [List.filter_filter]
  split_ifs with hk
  · congr 1
    exact List.filter_congr fun e _ => by by_cases he : e.1 = k <;> simp [he, hk]
  · rw [List.filter_eq_nil_iff.mpr fun e _ => by by_cases he : e.1 = k <;> simp [he, hk],
      List.map_nil]

theorem valuesFor_insertRecv (pred : K × T → Bool) (k : K) (hash : K → ℕ) (transform : K → K)
    (input : Fin P → List (K × T)) (q : Fin P) :
    valuesFor pred k (insertRecv hash transform input q) =
      if keyToRank hash P k = q then valuesFor pred k (allPairs transform input) else [] := by
  rw [insertRecv_eq_filter]
  exact valuesFor_filter_key pred k (fun k => keyToRank hash P k = q) _

/-- The owner of `k` folds every accepted value of `k`, from all ranks in rank order, into
its entry; every other rank keeps its entry. -/
theorem reductionInsert_lookup (r : T → T → T) (hash : K → ℕ) (transform : K → K)
    (pred : K × T → Bool) (maps : Fin P → MapState K T) (input : Fin P → List (K × T))
    (q : Fin P) (k : K) :
    (reductionInsert r hash transform pred maps input q).2.c.lookup k =
      if keyToRank hash P k = q then
        foldValues r ((maps q).c.lookup k) (valuesFor pred k (allPairs transform input))
      else (maps q).c.lookup k := by
  by_cases hempty : globalEmpty input = true
  · have hnil : allPairs transform input = [] := by
      simp [allPairs, globalEmpty_eq_true_iff.mp hempty]
    rw [reductionInsert, if_pos hempty, hnil]
    split_ifs <;> rfl
  · rw [reductionInsert, if_neg hempty, localInsert_lookup, valuesFor_insertRecv]
    split_ifs <;> rfl

omit [DecidableEq K] [NeZero P] in
theorem allPairs_map_const {U : Type} (transform : K → K) (input : Fin P → List K) (v : U) :
    allPairs transform (fun q => (input q).map fun x => (x, v)) =
      (allKeys transform input).map fun x => (x, v) := by
  simp only [allPairs, allKeys, List.map_flatMap, List.map_map]
  rfl

theorem countingInsert_eq_reductionInsert {U : Type} [AddCommMonoidWithOne U] (hash : K → ℕ)
    (transform : K → K) (pred : K × U → Bool) (maps : Fin P → MapState K U)
    (input : Fin P → List K) :
    countingInsert hash transform pred maps input =
      reductionInsert (· + ·) hash transform pred maps fun q => (input q).map fun x => (x, 1) := by
  funext q
  have hempty : globalEmpty (fun q => (input q).map fun x => (x, (1 : U))) = globalEmpty input := by
    unfold globalEmpty
    congr 1
    funext r
    dsimp only
    cases input r <;> rfl
  have hrecv : insertRecv hash transform (fun q => (input q).map fun x => (x, (1 : U))) q =
      (countingRecv hash transform input q).map fun x => (x, 1) := by
    rw [insertRecv_eq_filter, countingRecv_eq_filter, allPairs_map_const, List.filter_map]
    rfl
  rw [countingInsert, reductionInsert, hempty, hrecv]

/-! ## The table the ranks hold -/

/-- A freshly constructed map: an empty local container and `local_changed` unset. -/
def MapState.empty : MapState K T := ⟨∅, false⟩

/-- The ranks' tables together hold the table `S`: every key sits on the rank `KeyToRank`
sends it to, with the entry `S` has for it. -/
structure Represents (hash : K → ℕ) (maps : Fin P → MapState K T) (S : Table K T) : Prop where
  owned : ∀ q, ∀ k ∈ (maps q).c, keyToRank hash P k = q
  lookup_owner : ∀ k, (maps (keyToRank hash P k)).c.lookup k = S.lookup k

theorem represents_empty (hash : K → ℕ) :
    Represents hash (fun _ : Fin P => (MapState.empty : MapState K T)) ∅ :=
  ⟨fun _ _ hk => absurd hk (AList.not_mem_empty _), fun _ => rfl⟩

/-- A step that changes each key's entry only on its owner, and there as `S` becomes `S'`,
keeps the ranks holding the table. -/
theorem Represents.of_lookup {hash : K → ℕ} {maps maps' : Fin P → MapState K T}
    {S S' : Table K T} (h : Represents hash maps S) (f : K → Option T → Option T)
    (hmaps : ∀ q k, (maps' q).c.lookup k =
      if keyToRank hash P k = q then f k ((maps q).c.lookup k) else (maps q).c.lookup k)
    (hS : ∀ k, S'.lookup k = f k (S.lookup k)) : Represents hash maps' S' where
  owned q k hk := by
    by_contra hne
    have hsome := AList.lookup_isSome.mpr hk
    rw [hmaps, if_neg hne] at hsome
    exact hne (h.owned q k (AList.lookup_isSome.mp hsome))
  lookup_owner k := by rw [hmaps, if_pos rfl, h.lookup_owner, hS]

theorem Represents.reductionInsert {hash : K → ℕ} {maps : Fin P → MapState K T}
    {S : Table K T} (h : Represents hash maps S) (r : T → T → T) (transform : K → K)
    (pred : K × T → Bool) (input : Fin P → List (K × T)) :
    Represents hash (fun q => (reductionInsert r hash transform pred maps input q).2)
      (reduceAll r pred S (allPairs transform input)) :=
  h.of_lookup (fun k o => foldValues r o (valuesFor pred k (allPairs transform input)))
    (reductionInsert_lookup r hash transform pred maps input)
    (lookup_reduceAll r pred S (allPairs transform input))

theorem Represents.size_eq {hash : K → ℕ} {maps : Fin P → MapState K T} {S : Table K T}
    (h : Represents hash maps S) :
    S.size = ((List.finRange P).map fun q => (maps q).c.size).sum := by
  have hnodup : ((List.finRange P).flatMap fun q => (maps q).c.keys).Nodup :=
    List.nodup_flatMap.mpr ⟨fun q _ => (maps q).c.keys_nodup, (List.nodup_finRange P).imp
      fun hne => List.disjoint_left.mpr fun k ha hb =>
        hne ((h.owned _ k ha).symm.trans (h.owned _ k hb))⟩
  have hperm : S.keys.Perm ((List.finRange P).flatMap fun q => (maps q).c.keys) :=
    (List.perm_ext_iff_of_nodup S.keys_nodup hnodup).mpr fun k => by
      rw [List.mem_flatMap, ← AList.mem_keys, ← AList.lookup_isSome, ← h.lookup_owner,
        AList.lookup_isSome]
      exact ⟨fun hk => ⟨_, List.mem_finRange _, hk⟩, fun ⟨q, _, hk⟩ => by rwa [h.owned q k hk]⟩
  rw [Table.size, hperm.length_eq, List.length_flatMap]
  rfl

theorem reductionInsert_fst_add (r : T → T → T) (hash : K → ℕ) (transform : K → K)
    (pred : K × T → Bool) (maps : Fin P → MapState K T) (input : Fin P → List (K × T))
    (q : Fin P) :
    (reductionInsert r hash transform pred maps input q).1 + (maps q).c.size =
      (reductionInsert r hash transform pred maps input q).2.c.size := by
  unfold reductionInsert
  split_ifs
  · exact Nat.zero_add _
  · exact Nat.sub_add_cancel (size_le_reduceAll r pred (maps q).c _)

theorem Represents.sum_fst {hash : K → ℕ} {maps maps' : Fin P → MapState K T}
    {S S' : Table K T} (h : Represents hash maps S) (h' : Represents hash maps' S')
    (n : Fin P → ℕ) (hn : ∀ q, n q + (maps q).c.size = (maps' q).c.size) :
    ((List.finRange P).map n).sum = S'.size - S.size := by
  have hadd := congrArg List.sum <| List.map_congr_left (l := List.finRange P) fun q _ => hn q
  rw [List.sum_map_add] at hadd
  rw [h'.size_eq, h.size_eq, ← hadd, Nat.add_sub_cancel]

theorem sum_reductionInsert_fst {hash : K → ℕ} {maps : Fin P → MapState K T} {S : Table K T}
    (h : Represents hash maps S) (r : T → T → T) (transform : K → K) (pred : K × T → Bool)
    (input : Fin P → List (K × T)) :
    ((List.finRange P).map fun q => (reductionInsert r hash transform pred maps input q).1).sum =
      (reduceAll r pred S (allPairs transform input)).size - S.size :=
  h.sum_fst (h.reductionInsert r transform pred input) _
    (reductionInsert_fst_add r hash transform pred maps input)

end KmerCount
