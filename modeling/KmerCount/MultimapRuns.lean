import KmerCount.MapQuery
import KmerCount.Multimap
import KmerCount.CountingMap

/-!
# Runs of the distributed multimap

`insert` and `erase(keys)` route every transformed key to its `KeyToRank`, so each entry sits
on the rank its key names.  The standard fixes neither the order of an equal range nor the
order `std::partition` leaves, so the ranks are compared with one abstract multimap up to
permutation, for range predicates that do not read order.
-/

namespace KmerCount

variable {K T : Type} {P : ℕ}

def contents (maps : Fin P → MultimapState K T) : List (K × T) :=
  (List.finRange P).flatMap fun r => (maps r).c

theorem contents_initial :
    contents (fun _ : Fin P => (MultimapState.initial : MultimapState K T)) = [] :=
  List.flatMap_eq_nil_iff.mpr fun _ _ => rfl

variable [NeZero P]

/-- `unordered_multimap::insert(input, sorted_input, pred)` on every rank; the
`TruePredicate` overload is `pred = none`.  Rank `r`'s result and new state. -/
def multimapInsert (hash : K → ℕ) (transform : K → K) (pred : Option (InsertPredicate (K × T)))
    (maps : Fin P → MultimapState K T) (input : Fin P → List (K × T)) (r : Fin P) :
    ℕ × MultimapState K T :=
  if globalEmpty input then (0, maps r)
  else (maps r).localInsert pred (insertRecv hash transform input r)

/-- The collective operations that change a multimap's containers.  `erase(pred)` is left out:
it calls `this->keys()`, which `keys(std::vector<Key>&)` hides, so it does not compile. -/
inductive MapOp (K T : Type) (P : ℕ)
  | insert (pred : Option (InsertPredicate (K × T))) (input : Fin P → List (K × T))
  | erase (pred : Option (Predicate (K × T))) (keys : Fin P → List K)

/-- An operation whose range predicate, if it has one, does not read order. -/
def MapOp.OrderFree : MapOp K T P → Prop
  | .insert _ _ => True
  | .erase pred _ => orderFree pred

/-! ## Placement -/

def Placed (hash : K → ℕ) (maps : Fin P → MultimapState K T) : Prop :=
  ∀ r, ∀ e ∈ (maps r).c, keyToRank hash P e.1 = r

theorem placed_initial (hash : K → ℕ) :
    Placed hash fun _ : Fin P => (MultimapState.initial : MultimapState K T) :=
  fun _ _ he => absurd he (List.not_mem_nil _)

theorem multimapInsert_c (hash : K → ℕ) (transform : K → K)
    (pred : Option (InsertPredicate (K × T))) (maps : Fin P → MultimapState K T)
    (input : Fin P → List (K × T)) (r : Fin P) :
    (multimapInsert hash transform pred maps input r).2.c =
      (InsertPredicate.kept pred (insertRecv hash transform input r)).reverse ++ (maps r).c := by
  unfold multimapInsert
  split_ifs with h
  · rw [insertRecv_of_globalEmpty hash transform h]
    cases pred <;> simp [InsertPredicate.kept]
  · rfl

theorem Placed.of_sublist {hash : K → ℕ} {maps maps' : Fin P → MultimapState K T}
    (h : Placed hash maps) (hsub : ∀ r, List.Sublist (maps' r).c (maps r).c) : Placed hash maps' :=
  fun r e he => h r e ((hsub r).subset he)

variable [DecidableEq K]

/-- `erase(erase_element, keys, sorted_input, pred)` of `unordered_map_base` on every rank of a
multimap: the transformed keys travel as the counting map's keys do (`countingRecv`),
`fsc::unique` keeps one copy of each, and `LocalErase` runs over them. -/
def multimapErase (hash : K → ℕ) (transform : K → K) (pred : Option (Predicate (K × T)))
    (maps : Fin P → MultimapState K T) (keys : Fin P → List K) (r : Fin P) :
    ℕ × MultimapState K T :=
  if globalEmpty (fun r => (maps r).c) || globalEmpty keys then (0, maps r)
  else (maps r).eraseKeys pred (countingRecv hash transform keys r).dedup

def mapStep (hash : K → ℕ) (transform : K → K) (maps : Fin P → MultimapState K T) :
    MapOp K T P → Fin P → MultimapState K T
  | .insert pred input => fun r => (multimapInsert hash transform pred maps input r).2
  | .erase pred keys => fun r => (multimapErase hash transform pred maps keys r).2

def mapRun (hash : K → ℕ) (transform : K → K) (maps : Fin P → MultimapState K T)
    (ops : List (MapOp K T P)) : Fin P → MultimapState K T :=
  ops.foldl (mapStep hash transform) maps

/-! ## Local erase as a filter -/

/-- Whether an erase with `pred` takes the entry `e` of `db` once its key is asked for: always
unfiltered; otherwise when the key's equal range passes `pred(first, last)` and `e` passes
`pred(*it)`. -/
def erased (pred : Option (Predicate (K × T))) (db : List (K × T)) (e : K × T) : Bool :=
  match pred with
  | none => true
  | some p => p.range (Query.equalRange db e.1) && p.elem e

theorem equalRange_filter (db : List (K × T)) (f : K × T → Bool) (v : K) :
    Query.equalRange (db.filter f) v = (Query.equalRange db v).filter f := by
  simp only [Query.equalRange, List.filter_filter, Bool.and_comm]

theorem equalRange_append (A B : List (K × T)) (v : K) :
    Query.equalRange (A ++ B) v = Query.equalRange A v ++ Query.equalRange B v := by
  simp only [Query.equalRange, List.filter_append]

theorem erased_perm {pred : Option (Predicate (K × T))} (hpred : orderFree pred)
    {A B : List (K × T)} {e : K × T}
    (h : (Query.equalRange A e.1).Perm (Query.equalRange B e.1)) :
    erased pred A e = erased pred B e := by
  cases pred with
  | none => rfl
  | some p => simp only [erased, show p.range _ = p.range _ from hpred _ _ h]

theorem erased_congr {pred : Option (Predicate (K × T))} {A B : List (K × T)} {e : K × T}
    (h : Query.equalRange A e.1 = Query.equalRange B e.1) : erased pred A e = erased pred B e := by
  cases pred <;> simp only [erased, h]

theorem eraseIn_eq_filter (db : List (K × T)) (k : K) (pred : Option (Predicate (K × T))) :
    Query.eraseIn db k pred = db.filter fun e => !(decide (e.1 = k) && erased pred db e) := by
  cases pred with
  | none => simp [Query.eraseIn, erased]
  | some p =>
    simp only [Query.eraseIn, erased]
    split_ifs with hr
    · refine List.filter_congr fun e he => ?_
      by_cases hk : e.1 = k
      · subst hk; simp [hr]
      · simp [hk]
    · refine (List.filter_eq_self.mpr fun e he => ?_).symm
      by_cases hk : e.1 = k
      · subst hk; simp [hr]
      · simp [hk]

theorem process_eraseElement (pred : Option (Predicate (K × T))) (db : List (K × T))
    {ks : List K} (hks : ks.Nodup) :
    (Query.process (Query.eraseElement pred) db ks).1 =
      db.filter fun e => !(decide (e.1 ∈ ks) && erased pred db e) := by
  induction ks generalizing db with
  | nil => simp
  | cons k ks ih =>
    obtain ⟨hk, hks⟩ := List.nodup_cons.mp hks
    rw [Query.process_cons, ih _ hks]
    simp only [Query.eraseElement, eraseIn_eq_filter, List.filter_filter]
    refine List.filter_congr fun e _ => ?_
    by_cases hek : e.1 = k
    · simp [hek, hk]
    · have hrange : Query.equalRange (db.filter fun e => !(decide (e.1 = k) && erased pred db e))
          e.1 = Query.equalRange db e.1 := by
        rw [equalRange_filter]
        refine List.filter_eq_self.mpr fun x hx => ?_
        simp [Query.fst_of_mem_equalRange hx, hek]
      rw [erased_congr hrange]
      simp [hek]

/-! ## Placement along runs -/

theorem multimapErase_sublist (hash : K → ℕ) (transform : K → K)
    (pred : Option (Predicate (K × T))) (maps : Fin P → MultimapState K T) (keys : Fin P → List K)
    (r : Fin P) : List.Sublist (multimapErase hash transform pred maps keys r).2.c (maps r).c := by
  unfold multimapErase
  split_ifs
  · exact List.Sublist.refl _
  · exact MultimapState.process_erase_sublist _ _ _

theorem Placed.mapStep {hash : K → ℕ} {maps : Fin P → MultimapState K T} (h : Placed hash maps)
    (transform : K → K) (op : MapOp K T P) : Placed hash (mapStep hash transform maps op) := by
  cases op with
  | insert pred input =>
    intro r e he
    rcases List.mem_append.mp ((multimapInsert_c hash transform pred maps input r) ▸ he) with
      he | he
    · exact keyToRank_of_mem_insertRecv (InsertPredicate.mem_of_mem_kept (List.mem_reverse.mp he))
    · exact h r e he
  | erase pred keys => exact h.of_sublist (multimapErase_sublist hash transform pred maps keys)

theorem mapRun_placed {hash : K → ℕ} {maps : Fin P → MultimapState K T} (h : Placed hash maps)
    (transform : K → K) (ops : List (MapOp K T P)) : Placed hash (mapRun hash transform maps ops) := by
  induction ops generalizing maps with
  | nil => exact h
  | cons op ops ih => exact ih (h.mapStep transform op)

/-! ## The abstract multimap -/

/-- The multimap as one container: `insert` adds the accepted transformed pairs of all ranks;
`erase(keys)` drops the entries of the asked keys that `erased` takes. -/
def absStep (transform : K → K) (S : List (K × T)) : MapOp K T P → List (K × T)
  | .insert pred input => S ++ (allPairs transform input).filter (InsertPredicate.accepts pred)
  | .erase pred keys =>
    S.filter fun e => !(decide (e.1 ∈ allKeys transform keys) && erased pred S e)

def absRun (transform : K → K) (S : List (K × T)) (ops : List (MapOp K T P)) : List (K × T) :=
  ops.foldl (absStep transform) S

theorem equalRange_contents {hash : K → ℕ} {maps : Fin P → MultimapState K T}
    (h : Placed hash maps) (v : K) :
    Query.equalRange (contents maps) v = Query.equalRange (maps (keyToRank hash P v)).c v := by
  rw [contents, Query.equalRange, List.filter_flatMap,
    ← flatMap_finRange_ite (keyToRank hash P v) (Query.equalRange (maps (keyToRank hash P v)).c v)]
  congr 1
  funext r
  split_ifs with hr
  · rw [hr]
    rfl
  · refine List.filter_eq_nil_iff.mpr fun e he hev => hr ?_
    rw [← h r e he, of_decide_eq_true hev]

theorem equalRange_insertRecv_owner (hash : K → ℕ) (transform : K → K)
    (input : Fin P → List (K × T)) (v : K) :
    Query.equalRange (insertRecv hash transform input (keyToRank hash P v)) v =
      Query.equalRange (allPairs transform input) v := by
  rw [insertRecv_eq_filter, equalRange_filter]
  exact List.filter_eq_self.mpr fun e he => by simp [Query.fst_of_mem_equalRange he]

theorem multimapErase_c (hash : K → ℕ) (transform : K → K) (pred : Option (Predicate (K × T)))
    (maps : Fin P → MultimapState K T) (keys : Fin P → List K) (r : Fin P) :
    (multimapErase hash transform pred maps keys r).2.c =
      if globalEmpty (fun r => (maps r).c) || globalEmpty keys then (maps r).c
      else (maps r).c.filter fun e =>
        !(decide (e.1 ∈ countingRecv hash transform keys r) && erased pred (maps r).c e) := by
  unfold multimapErase
  split_ifs
  · rfl
  · simp only [MultimapState.eraseKeys, process_eraseElement pred _ (List.nodup_dedup _),
      List.mem_dedup]

theorem equalRange_filter_perm {A B : List (K × T)} {v : K}
    (hAB : (Query.equalRange A v).Perm (Query.equalRange B v)) {f g : K × T → Bool}
    (hfg : ∀ e ∈ Query.equalRange B v, f e = g e) :
    (Query.equalRange (A.filter f) v).Perm (Query.equalRange (B.filter g) v) := by
  rw [equalRange_filter, equalRange_filter, ← List.filter_congr hfg]
  exact hAB.filter f

/-- One order-free operation keeps every key's entries on the ranks a rearrangement of those
of the abstract multimap. -/
theorem mapStep_equalRange {hash : K → ℕ} {transform : K → K} {maps : Fin P → MultimapState K T}
    {S : List (K × T)} (h : Placed hash maps)
    (hS : ∀ v, (Query.equalRange (contents maps) v).Perm (Query.equalRange S v))
    {op : MapOp K T P} (hop : op.OrderFree) (v : K) :
    (Query.equalRange (contents (mapStep hash transform maps op)) v).Perm
      (Query.equalRange (absStep transform S op) v) := by
  have hv := (equalRange_contents h v).symm ▸ hS v
  rw [equalRange_contents (h.mapStep transform op)]
  cases op with
  | insert pred input =>
    simp only [mapStep, absStep]
    rw [multimapInsert_c, equalRange_append, equalRange_append]
    refine List.perm_append_comm.trans (hv.append ?_)
    rw [equalRange_filter, ← equalRange_insertRecv_owner hash transform input v,
      ← equalRange_filter]
    exact ((List.reverse_perm _).filter _).trans ((InsertPredicate.kept_perm pred _).filter _)
  | erase pred keys =>
    simp only [mapStep, absStep]
    rw [multimapErase_c]
    split_ifs with hempty
    · -- no rank holds an entry, or no rank asks for a key: nothing is erased
      rw [equalRange_filter]
      refine hv.trans (List.Perm.of_eq (List.filter_eq_self.mpr fun e he => ?_).symm)
      rcases Bool.or_eq_true_iff.mp hempty with hc | hk
      · rw [globalEmpty_eq_true_iff.mp hc] at hv
        exact absurd he (List.Perm.nil_eq hv ▸ List.not_mem_nil e)
      · simp [allKeys, globalEmpty_eq_true_iff.mp hk]
    · refine equalRange_filter_perm hv fun e he => ?_
      obtain rfl := Query.fst_of_mem_equalRange he
      rw [erased_perm hop hv, countingRecv_eq_filter]
      simp

theorem mapRun_equalRange {hash : K → ℕ} {transform : K → K} {maps : Fin P → MultimapState K T}
    {S : List (K × T)} (h : Placed hash maps)
    (hS : ∀ v, (Query.equalRange (contents maps) v).Perm (Query.equalRange S v))
    {ops : List (MapOp K T P)} (hops : ∀ op ∈ ops, op.OrderFree) (v : K) :
    (Query.equalRange (contents (mapRun hash transform maps ops)) v).Perm
      (Query.equalRange (absRun transform S ops) v) := by
  induction ops generalizing maps S with
  | nil => exact hS v
  | cons op ops ih =>
    exact ih (h.mapStep transform op)
      (mapStep_equalRange h hS (hops op (List.mem_cons_self op ops)))
      fun op' hop' => hops op' (List.mem_cons_of_mem op hop')

theorem perm_of_equalRange {A B : List (K × T)}
    (h : ∀ v, (Query.equalRange A v).Perm (Query.equalRange B v)) : A.Perm B := by
  suffices H : ∀ (ks : List K) (A B : List (K × T)), (∀ e ∈ A ++ B, e.1 ∈ ks) →
      (∀ v, (Query.equalRange A v).Perm (Query.equalRange B v)) → A.Perm B from
    H ((A ++ B).map Prod.fst) A B (fun e he => List.mem_map_of_mem _ he) h
  intro ks
  induction ks with
  | nil =>
    intro A B hks _
    obtain ⟨rfl, rfl⟩ := List.append_eq_nil.mp
      (List.eq_nil_iff_forall_not_mem.mpr fun e he => List.not_mem_nil _ (hks e he))
    exact List.Perm.refl _
  | cons k ks ih =>
    intro A B hks h
    refine (List.filter_append_perm (fun e => decide (e.1 = k)) A).symm.trans
      (List.Perm.trans ?_ (List.filter_append_perm (fun e => decide (e.1 = k)) B))
    refine (h k).append (ih _ _ (fun e he => ?_) fun v => ?_)
    · rw [← List.filter_append, List.mem_filter] at he
      exact (List.mem_cons.mp (hks e he.1)).resolve_left (by simpa using he.2)
    · rw [equalRange_filter, equalRange_filter]
      exact (h v).filter _

theorem mapRun_equalRange_initial (hash : K → ℕ) (transform : K → K)
    {ops : List (MapOp K T P)} (hops : ∀ op ∈ ops, op.OrderFree) (v : K) :
    (Query.equalRange (contents (mapRun hash transform (fun _ => MultimapState.initial) ops)) v).Perm
      (Query.equalRange (absRun transform [] ops) v) :=
  mapRun_equalRange (placed_initial hash) (fun v => by rw [contents_initial]) hops v

/-- From the empty multimap, along every run of order-free operations and for every order the
partitions leave, the ranks together hold the entries of the abstract multimap, with
multiplicity. -/
theorem contents_mapRun_perm (hash : K → ℕ) (transform : K → K) (ops : List (MapOp K T P))
    (hops : ∀ op ∈ ops, op.OrderFree) :
    (contents (mapRun hash transform (fun _ => MultimapState.initial) ops)).Perm
      (absRun transform [] ops) :=
  perm_of_equalRange (mapRun_equalRange_initial hash transform hops)

theorem contents_mapRun_perm_erase :
    (∀ op ∈ ([.insert none fun q => if q = 0 then [(1, 5), (2, 3)] else [(1, 7)],
        .erase (some ⟨fun r => decide (r.length = 1), fun _ => true⟩) fun _ => [2]] :
        List (MapOp ℕ ℕ 2)), op.OrderFree) ∧
      (contents (mapRun id id (fun _ : Fin 2 => (MultimapState.initial : MultimapState ℕ ℕ))
        [.insert none fun q => if q = 0 then [(1, 5), (2, 3)] else [(1, 7)],
          .erase (some ⟨fun r => decide (r.length = 1), fun _ => true⟩) fun _ => [2]])).Perm
        [(1, 7), (1, 5)] := by
  have hops : ∀ op ∈ ([.insert none fun q => if q = 0 then [(1, 5), (2, 3)] else [(1, 7)],
      .erase (some ⟨fun r => decide (r.length = 1), fun _ => true⟩) fun _ => [2]] :
      List (MapOp ℕ ℕ 2)), op.OrderFree := by
    simp only [List.mem_cons, List.mem_singleton, forall_eq_or_imp, forall_eq, List.not_mem_nil,
      or_false]
    exact ⟨trivial, fun xs ys h => by simp [h.length_eq]⟩
  exact ⟨hops, (contents_mapRun_perm id id _ hops).trans (by decide)⟩

/-! ## What `erase` returns -/

theorem multimapErase_fst (hash : K → ℕ) (transform : K → K) (pred : Option (Predicate (K × T)))
    (maps : Fin P → MultimapState K T) (keys : Fin P → List K) (r : Fin P) :
    (multimapErase hash transform pred maps keys r).1 =
      (maps r).c.length - (multimapErase hash transform pred maps keys r).2.c.length := by
  unfold multimapErase
  split_ifs
  · simp
  · rfl

theorem sum_map_tsub {ι : Type} (l : List ι) {f g : ι → ℕ} (hgf : ∀ i, g i ≤ f i) :
    (l.map fun i => f i - g i).sum + (l.map g).sum = (l.map f).sum := by
  induction l with
  | nil => rfl
  | cons i l ih =>
    simp only [List.map_cons, List.sum_cons]
    have := hgf i
    omega

theorem sum_multimapErase_fst (hash : K → ℕ) (transform : K → K)
    (pred : Option (Predicate (K × T))) (maps : Fin P → MultimapState K T) (keys : Fin P → List K) :
    ((List.finRange P).map fun r => (multimapErase hash transform pred maps keys r).1).sum =
      (contents maps).length - (contents (mapStep hash transform maps (.erase pred keys))).length := by
  have h := sum_map_tsub (List.finRange P) (f := fun r => (maps r).c.length)
    (g := fun r => (multimapErase hash transform pred maps keys r).2.c.length)
    fun r => (multimapErase_sublist hash transform pred maps keys r).length_le
  simp only [contents, List.length_flatMap, mapStep, Function.comp_def, ← multimapErase_fst]
    at h ⊢
  omega

/-- After any run of order-free operations from the empty multimap, the counts an order-free
`erase(keys)` returns add up to the number of entries the abstract erase drops. -/
theorem sum_multimapErase_mapRun (hash : K → ℕ) (transform : K → K) (ops : List (MapOp K T P))
    (hops : ∀ op ∈ ops, op.OrderFree) (pred : Option (Predicate (K × T))) (hpred : orderFree pred)
    (keys : Fin P → List K) :
    ((List.finRange P).map fun r => (multimapErase hash transform pred
        (mapRun hash transform (fun _ => MultimapState.initial) ops) keys r).1).sum =
      (absRun transform [] ops).length -
        (absStep transform (absRun transform [] ops) (.erase pred keys)).length := by
  have hS := mapRun_equalRange_initial hash transform hops
  rw [sum_multimapErase_fst, (perm_of_equalRange hS).length_eq,
    (perm_of_equalRange (mapStep_equalRange (mapRun_placed (placed_initial hash) transform ops)
      hS (show (MapOp.erase pred keys : MapOp K T P).OrderFree from hpred))).length_eq]

theorem sum_multimapErase_mapRun_two :
    ((List.finRange 2).map fun r => (multimapErase id id
      (some ⟨fun r => decide (r.length = 2), fun _ => true⟩)
      (mapRun id id (fun _ : Fin 2 => (MultimapState.initial : MultimapState ℕ ℕ))
        [.insert none fun q => if q = 0 then [(1, 5), (2, 3)] else [(1, 7)]])
      (fun _ => [1]) r).1).sum = 2 :=
  (sum_multimapErase_mapRun id id _ (by simp [MapOp.OrderFree])
    (some ⟨fun r => decide (r.length = 2), fun _ => true⟩)
    (fun xs ys h => by simp [h.length_eq]) _).trans (by decide)

/-! ## `find` after a run -/

/-- After any run of order-free operations from the empty multimap, `find(keys)`, which is
`find_overlap`, fills every slot of `results`.  With multiplicity, the entries are, for each
distinct transformed key asked, those of the abstract multimap that an order-free `LocalFind`
selects. -/
theorem findOverlap_mapRun_perm (hash : K → ℕ) (transform : K → K) (ops : List (MapOp K T P))
    (hops : ∀ op ∈ ops, op.OrderFree) (pred : Option (Predicate (K × T))) (hpred : orderFree pred)
    (keys : Fin P → List K) (q : Fin P) :
    ∃ l : List (K × T), (FindQuery.mk hash transform pred
        (fun r => (mapRun hash transform (fun _ => MultimapState.initial) ops r).c) keys).findOverlap
          q = some (l.map some) ∧
      l.Perm (((keys q).map transform).dedup.flatMap fun k =>
        Query.findIn (Query.equalRange (absRun transform [] ops) k) pred) := by
  have hS := mapRun_equalRange_initial hash transform hops
  have hplaced := mapRun_placed (placed_initial hash) transform ops
  refine ⟨_, FindQuery.findOverlap_eq _ q, ?_⟩
  have hkey : ∀ k, (Query.findIn (Query.equalRange
      (mapRun hash transform (fun _ => MultimapState.initial) ops (keyToRank hash P k)).c k)
        pred).Perm (Query.findIn (Query.equalRange (absRun transform [] ops) k) pred) :=
    fun k => Query.findIn_perm hpred (equalRange_contents hplaced k ▸ hS k)
  split_ifs with hempty
  · -- no rank holds an entry, or no rank asks for a key: nothing is found
    rcases Bool.or_eq_true_iff.mp hempty with hc | hk
    · refine List.Perm.of_eq (List.flatMap_eq_nil_iff.mpr fun k _ => List.perm_nil.mp ?_).symm
      have hc' : (mapRun hash transform (fun _ => MultimapState.initial) ops
          (keyToRank hash P k)).c = [] := globalEmpty_eq_true_iff.mp hc _
      simpa only [hc', Query.equalRange, List.filter_nil, Query.findIn_nil] using (hkey k).symm
    · have hq : keys q = [] := globalEmpty_eq_true_iff.mp hk q
      simp [hq]
  · exact (FindQuery.answers_perm _ q).trans (List.Perm.flatMap_left _ fun k _ => hkey k)

theorem findOverlap_mapRun_perm_duplicate :
    (∀ op ∈ ([.insert none fun q => if q = 0 then [(1, 5), (2, 3)] else [(1, 7)]] :
        List (MapOp ℕ ℕ 2)), op.OrderFree) ∧
      ∃ l : List (ℕ × ℕ), (FindQuery.mk id id none
        (fun r => (mapRun id id (fun _ : Fin 2 => (MultimapState.initial : MultimapState ℕ ℕ))
          [.insert none fun q => if q = 0 then [(1, 5), (2, 3)] else [(1, 7)]] r).c)
        fun q => if q = 0 then [1, 1] else []).findOverlap 0 = some (l.map some) ∧
        l.Perm [(1, 5), (1, 7)] := by
  have hops : ∀ op ∈ ([.insert none fun q => if q = 0 then [(1, 5), (2, 3)] else [(1, 7)]] :
      List (MapOp ℕ ℕ 2)), op.OrderFree := by
    simp [MapOp.OrderFree]
  obtain ⟨l, hl, hperm⟩ := findOverlap_mapRun_perm id id _ hops none trivial
    (fun q : Fin 2 => if q = 0 then [1, 1] else []) 0
  exact ⟨hops, l, hl, hperm.trans (by decide)⟩

end KmerCount
