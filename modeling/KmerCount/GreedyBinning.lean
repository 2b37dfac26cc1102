import Mathlib

/-!
# Greedy binning of minimizers to ranks

Before it ships a super-mer, `minimizer_based_counting_unordered_map::insert` sorts the
minimizer indices with `std::sort` by `H[i1] > H[i2]` and gives each, in that order, to the
first rank of least current load, adding its `size_t` load there.  `std::sort` is modelled by
its contract (`SortedBy`), so every result holds for every order the contract allows; the
loop invariant `BinningInv` gives the binning's whole contract.
-/

namespace KmerCount

/-- `size_t` addition, modulo `2^64`. -/
def sizeTAdd (a b : ℕ) : ℕ := (a + b) % 2 ^ 64

/-- The comparator given to `std::sort`: `minimizer_kmer_load_map[i1] > minimizer_kmer_load_map[i2]`. -/
def loadGreater (H : List ℕ) (i1 i2 : ℕ) : Prop := H.getD i2 0 < H.getD i1 0

instance (H : List ℕ) : DecidableRel (loadGreater H) := fun _ _ =>
  inferInstanceAs (Decidable (_ < _))

/-- What `std::sort(first, last, comp)` guarantees of its result `out` on the input `xs`:
a permutation of `xs` in which no element compares before an earlier one. -/
structure SortedBy (comp : ℕ → ℕ → Prop) (xs out : List ℕ) : Prop where
  perm : out.Perm xs
  sorted : out.Pairwise fun a b => ¬comp b a

/-- `std::iota(first, last, 0)`. -/
def iota (n : ℕ) : List ℕ := List.range n

/-- One sort that meets the contract: a stable merge sort by decreasing load. -/
def sortByLoad (H : List ℕ) : List ℕ :=
  (iota H.length).mergeSort fun a b => decide (H.getD b 0 ≤ H.getD a 0)

instance (comp : ℕ → ℕ → Prop) [DecidableRel comp] (xs out : List ℕ) :
    Decidable (SortedBy comp xs out) :=
  decidable_of_iff (out.Perm xs ∧ out.Pairwise fun a b => ¬comp b a)
    ⟨fun h => ⟨h.1, h.2⟩, fun h => ⟨h.perm, h.sorted⟩⟩

/-- The scan for `min_rank`: `min_load = rank_load[0]`, `min_rank = 0`, then for
`j = 1 .. P - 1` a strictly smaller load takes over.  Returns `(min_load, min_rank)`. -/
def minLoadRank (P : ℕ) (rankLoad : List ℕ) : ℕ × ℕ :=
  (List.range' 1 (P - 1)).foldl
    (fun acc j => if rankLoad.getD j 0 < acc.1 then (rankLoad.getD j 0, j) else acc)
    (rankLoad.getD 0 0, 0)

structure Binning where
  rankLoad : List ℕ
  minimizerRank : List ℕ

/-- One iteration: `minimizer_rank[minimizer] = min_rank;
rank_load[min_rank] += minimizer_kmer_load_map[minimizer]`. -/
def binStep (H : List ℕ) (P : ℕ) (b : Binning) (minimizer : ℕ) : Binning :=
  let minRank := (minLoadRank P b.rankLoad).2
  { rankLoad := b.rankLoad.set minRank (sizeTAdd (b.rankLoad.getD minRank 0) (H.getD minimizer 0))
    minimizerRank := b.minimizerRank.set minimizer minRank }

/-- The loop over the sorted indices, from `rank_load(comm.size(), 0)` and
`minimizer_rank(minimizer_kmer_load_map.size())`. -/
def greedyBinning (H : List ℕ) (P : ℕ) (order : List ℕ) : Binning :=
  order.foldl (binStep H P) ⟨List.replicate P 0, List.replicate H.length 0⟩

/-- `TupleToRank2::operator()`: `minimizer_rank[t(x).getPrefix()]`, an unchecked subscript.  A
prefix outside `minimizer_rank` is undefined behaviour; every result that routes tuples
assumes their prefixes index the histogram, so the value read here for such a prefix is never
used. -/
def tupleToRank2 {M S : Type} (getPrefix : M → ℕ) (minimizerRank : List ℕ) (x : M × S) : ℕ :=
  minimizerRank.getD (getPrefix x.1) 0

/-! ## Vectors as lists -/

theorem getD_set_self {l : List ℕ} {i : ℕ} (x : ℕ) (h : i < l.length) :
    (l.set i x).getD i 0 = x := by
  rw [List.getD_eq_getElem?_getD, List.getElem?_set, if_pos rfl, if_pos h]
  rfl

theorem getD_set_ne {l : List ℕ} {i j : ℕ} (x : ℕ) (h : i ≠ j) :
    (l.set i x).getD j 0 = l.getD j 0 := by
  rw [List.getD_eq_getElem?_getD, List.getElem?_set, if_neg h, ← List.getD_eq_getElem?_getD]

@[simp] theorem getD_replicate_zero (n i : ℕ) : (List.replicate n 0).getD i 0 = 0 := by
  rw [List.getD_eq_getElem?_getD, List.getElem?_replicate]
  split_ifs <;> rfl

theorem sum_eq_sum_range_getD (l : List ℕ) :
    l.sum = ∑ i ∈ Finset.range l.length, l.getD i 0 := by
  induction l with
  | nil => rfl
  | cons a l ih =>
    rw [List.sum_cons, ih, List.length_cons, Finset.sum_range_succ', add_comm]
    rfl

theorem toFinset_range (n : ℕ) : (List.range n).toFinset = Finset.range n := by
  ext i; simp

theorem SortedBy.nodup {comp : ℕ → ℕ → Prop} {n : ℕ} {out : List ℕ}
    (hs : SortedBy comp (iota n) out) : out.Nodup :=
  hs.perm.nodup_iff.mpr (List.nodup_range n)

theorem SortedBy.mem_iff {comp : ℕ → ℕ → Prop} {n : ℕ} {out : List ℕ}
    (hs : SortedBy comp (iota n) out) {i : ℕ} : i ∈ out ↔ i < n :=
  hs.perm.mem_iff.trans List.mem_range

theorem SortedBy.toFinset_eq {comp : ℕ → ℕ → Prop} {n : ℕ} {out : List ℕ}
    (hs : SortedBy comp (iota n) out) : out.toFinset = Finset.range n := by
  rw [List.toFinset_eq_of_perm _ _ hs.perm, iota, toFinset_range]

/-- The contract of `std::sort` can be met on every histogram. -/
theorem sortByLoad_sortedBy (H : List ℕ) : SortedBy (loadGreater H) (iota H.length) (sortByLoad H) := by
  refine ⟨List.mergeSort_perm _ _, ?_⟩
  refine (@List.sorted_mergeSort ℕ (fun a b => decide (H.getD b 0 ≤ H.getD a 0))
    (fun a b c hab hbc => ?_) (fun a b => ?_) (iota H.length)).imp fun hab => ?_
  · simp only [decide_eq_true_eq] at hab hbc ⊢; omega
  · simp only [Bool.or_eq_true, decide_eq_true_eq]; omega
  · simp only [decide_eq_true_eq, loadGreater] at hab ⊢; omega

/-! ## The scan for `min_rank` -/

/-- After the scan has looked at the ranks below `s`: `acc` holds the load and the index of
the first rank of least load among them. -/
def ScanInv (l : List ℕ) (s : ℕ) (acc : ℕ × ℕ) : Prop :=
  acc.2 < s ∧ acc.1 = l.getD acc.2 0 ∧ (∀ j < s, acc.1 ≤ l.getD j 0) ∧
    ∀ j < acc.2, acc.1 < l.getD j 0

theorem scanInv_foldl (l : List ℕ) (n : ℕ) :
    ∀ (s : ℕ) (acc : ℕ × ℕ), ScanInv l s acc →
      ScanInv l (s + n) ((List.range' s n).foldl
        (fun acc j => if l.getD j 0 < acc.1 then (l.getD j 0, j) else acc) acc) := by
  induction n with
  | zero => exact fun s acc h => h
  | succ n ih =>
    intro s acc ⟨hlt, hval, hle, hfirst⟩
    rw [List.range'_succ, List.foldl_cons, show s + (n + 1) = s + 1 + n by omega]
    apply ih
    split_ifs with hs
    · refine ⟨by simp, rfl, fun j hj => ?_, fun j hj => ?_⟩
      · rcases Nat.lt_succ_iff_lt_or_eq.mp hj with hj | rfl
        · exact le_trans hs.le (hle j hj)
        · exact le_rfl
      · exact lt_of_lt_of_le hs (hle j hj)
    · refine ⟨by omega, hval, fun j hj => ?_, hfirst⟩
      rcases Nat.lt_succ_iff_lt_or_eq.mp hj with hj | rfl
      · exact hle j hj
      · exact not_lt.mp hs

theorem minLoadRank_spec {P : ℕ} (hP : 0 < P) (l : List ℕ) :
    (minLoadRank P l).2 < P ∧ (minLoadRank P l).1 = l.getD (minLoadRank P l).2 0 ∧
      (∀ j < P, l.getD (minLoadRank P l).2 0 ≤ l.getD j 0) ∧
      ∀ j < (minLoadRank P l).2, l.getD (minLoadRank P l).2 0 < l.getD j 0 := by
  have h := scanInv_foldl l (P - 1) 1 (l.getD 0 0, 0)
    ⟨by omega, rfl, fun j hj => by rw [show j = 0 by omega], fun j hj => absurd hj (by omega)⟩
  rw [show 1 + (P - 1) = P by omega] at h
  obtain ⟨hlt, hval, hle, hfirst⟩ := h
  exact ⟨hlt, hval, fun j hj => hval ▸ hle j hj, fun j hj => hval ▸ hfirst j hj⟩

/-! ## The loop invariant -/

/-- After visiting `done`: the vectors keep their sizes, each visited minimizer has a rank
below `P`, and each rank's load is the sum of the loads of its visited minimizers. -/
structure BinningInv (H : List ℕ) (P : ℕ) (done : List ℕ) (b : Binning) : Prop where
  length_rankLoad : b.rankLoad.length = P
  length_minimizerRank : b.minimizerRank.length = H.length
  rank_lt : ∀ i ∈ done, b.minimizerRank.getD i 0 < P
  rankLoad_eq : ∀ r < P, b.rankLoad.getD r 0 =
    ∑ i ∈ done.toFinset.filter (fun i => b.minimizerRank.getD i 0 = r), H.getD i 0

theorem binningInv_initial (H : List ℕ) (P : ℕ) :
    BinningInv H P [] ⟨List.replicate P 0, List.replicate H.length 0⟩ :=
  ⟨List.length_replicate _ _, List.length_replicate _ _, by simp, fun r _ => by
    simp only [getD_replicate_zero, List.toFinset_nil, Finset.filter_empty, Finset.sum_empty]⟩

variable {H : List ℕ} {P : ℕ}

theorem BinningInv.rankLoad_le {done : List ℕ} {b : Binning} (hb : BinningInv H P done b)
    {r : ℕ} (hr : r < P) :
    b.rankLoad.getD r 0 ≤ ∑ i ∈ done.toFinset, H.getD i 0 := by
  rw [hb.rankLoad_eq r hr]
  exact Finset.sum_le_sum_of_subset (Finset.filter_subset _ _)

theorem BinningInv.sum_rankLoad {done : List ℕ} {b : Binning} (hb : BinningInv H P done b) :
    ∑ r ∈ Finset.range P, b.rankLoad.getD r 0 = ∑ i ∈ done.toFinset, H.getD i 0 := by
  rw [Finset.sum_congr rfl fun r hr => hb.rankLoad_eq r (Finset.mem_range.mp hr)]
  exact Finset.sum_fiberwise_of_maps_to
    (fun i hi => Finset.mem_range.mpr (hb.rank_lt i (List.mem_toFinset.mp hi))) _

theorem BinningInv.sizeTAdd_eq {done : List ℕ} {b : Binning} (hb : BinningInv H P done b)
    {r m : ℕ} (hr : r < P) (hfit : (∑ i ∈ done.toFinset, H.getD i 0) + H.getD m 0 < 2 ^ 64) :
    sizeTAdd (b.rankLoad.getD r 0) (H.getD m 0) = b.rankLoad.getD r 0 + H.getD m 0 :=
  Nat.mod_eq_of_lt (lt_of_le_of_lt (Nat.add_le_add_right (hb.rankLoad_le hr) _) hfit)

theorem BinningInv.binStep_rankLoad (hP : 0 < P) {done : List ℕ} {b : Binning}
    (hb : BinningInv H P done b) {m : ℕ}
    (hfit : (∑ i ∈ done.toFinset, H.getD i 0) + H.getD m 0 < 2 ^ 64) (r : ℕ) :
    (binStep H P b m).rankLoad.getD r 0 =
      if (minLoadRank P b.rankLoad).2 = r then b.rankLoad.getD r 0 + H.getD m 0
      else b.rankLoad.getD r 0 := by
  obtain ⟨hr0, -, -, -⟩ := minLoadRank_spec hP b.rankLoad
  simp only [binStep]
  generalize (minLoadRank P b.rankLoad).2 = r0 at hr0 ⊢
  split_ifs with hr
  · subst hr
    rw [getD_set_self _ (hb.length_rankLoad ▸ hr0), hb.sizeTAdd_eq hr0 hfit]
  · exact getD_set_ne _ hr

theorem BinningInv.step (hP : 0 < P) {done : List ℕ} {b : Binning} (hb : BinningInv H P done b)
    {m : ℕ} (hm : m ∉ done) (hmH : m < H.length)
    (hfit : (∑ i ∈ done.toFinset, H.getD i 0) + H.getD m 0 < 2 ^ 64) :
    BinningInv H P (done ++ [m]) (binStep H P b m) := by
  have hload := hb.binStep_rankLoad hP hfit
  obtain ⟨hr0, -, -, -⟩ := minLoadRank_spec hP b.rankLoad
  simp only [binStep] at hload ⊢
  generalize (minLoadRank P b.rankLoad).2 = r0 at hr0 hload ⊢
  have hmr : ∀ i, i ≠ m → (b.minimizerRank.set m r0).getD i 0 = b.minimizerRank.getD i 0 :=
    fun i hi => getD_set_ne _ (Ne.symm hi)
  have hmrm : (b.minimizerRank.set m r0).getD m 0 = r0 :=
    getD_set_self _ (hb.length_minimizerRank ▸ hmH)
  have hnotin : m ∉ done.toFinset := fun h => hm (List.mem_toFinset.mp h)
  have hfilter : ∀ r, (done.toFinset.filter fun i => (b.minimizerRank.set m r0).getD i 0 = r) =
      done.toFinset.filter fun i => b.minimizerRank.getD i 0 = r := fun r =>
    Finset.filter_congr fun i hi => by rw [hmr i fun h => hnotin (h ▸ hi)]
  have hins : (done ++ [m]).toFinset = insert m done.toFinset := by ext; simp [or_comm]
  refine ⟨by simp [hb.length_rankLoad], by simp [hb.length_minimizerRank], fun i hi => ?_,
    fun r hr => ?_⟩
  · by_cases him : i = m
    · rw [him, hmrm]; exact hr0
    · rw [hmr i him]
      exact hb.rank_lt i (by simpa [him] using hi)
  · rw [hins, Finset.filter_insert, hmrm, hload, hfilter]
    split_ifs with hr0r
    · rw [Finset.sum_insert (fun h => hnotin (Finset.mem_of_mem_filter _ h)),
        ← hb.rankLoad_eq r hr, add_comm]
    · exact hb.rankLoad_eq r hr

theorem fit_of_cons {done l : List ℕ} {m : ℕ} (hnd : (done ++ m :: l).Nodup)
    (hfit : (∑ i ∈ (done ++ m :: l).toFinset, H.getD i 0) < 2 ^ 64) :
    m ∉ done ∧ (∑ i ∈ done.toFinset, H.getD i 0) + H.getD m 0 < 2 ^ 64 := by
  have hm : m ∉ done := fun h => (List.nodup_append.mp hnd).2.2 h (List.mem_cons_self m l)
  refine ⟨hm, lt_of_le_of_lt ?_ hfit⟩
  calc (∑ i ∈ done.toFinset, H.getD i 0) + H.getD m 0
      = ∑ i ∈ insert m done.toFinset, H.getD i 0 := by
        rw [Finset.sum_insert fun h => hm (List.mem_toFinset.mp h), add_comm]
    _ ≤ _ := Finset.sum_le_sum_of_subset fun i hi => List.mem_toFinset.mpr <| by
        rcases Finset.mem_insert.mp hi with rfl | hi
        · exact List.mem_append_right _ (List.mem_cons_self i l)
        · exact List.mem_append_left _ (List.mem_toFinset.mp hi)

theorem BinningInv.foldl (hP : 0 < P) {done l : List ℕ} {b : Binning}
    (hb : BinningInv H P done b) (hnd : (done ++ l).Nodup) (hlt : ∀ i ∈ l, i < H.length)
    (hfit : (∑ i ∈ (done ++ l).toFinset, H.getD i 0) < 2 ^ 64) :
    BinningInv H P (done ++ l) (l.foldl (binStep H P) b) := by
  induction l generalizing done b with
  | nil => rwa [List.append_nil]
  | cons m l ih =>
    obtain ⟨hm, hfit'⟩ := fit_of_cons hnd hfit
    rw [List.append_cons] at hnd hfit ⊢
    exact ih (hb.step hP hm (hlt m (List.mem_cons_self m l)) hfit') hnd
      (fun i hi => hlt i (List.mem_cons_of_mem m hi)) hfit

/-- The loop over a `std::sort` result: its invariant over all minimizers. -/
theorem greedyBinning_inv (hP : 0 < P) (hsum : H.sum < 2 ^ 64) {order : List ℕ}
    (hsort : SortedBy (loadGreater H) (iota H.length) order) :
    BinningInv H P order (greedyBinning H P order) := by
  simpa using (binningInv_initial H P).foldl hP (l := order) (by simpa using hsort.nodup)
    (fun i hi => hsort.mem_iff.mp hi)
    (by rw [List.nil_append, hsort.toFinset_eq, ← sum_eq_sum_range_getD]; exact hsum)

/-- The binning's contract: the visiting order is a permutation of `[0, n)` so each
minimizer is assigned once, every rank lies in `[0, P)`, each rank's load is the sum of
the loads of its minimizers and the loads add up to the histogram; hence `TupleToRank2`
maps every tuple whose prefix is below `n` into `[0, P)`. -/
theorem greedyBinning_spec (hP : 1 ≤ P) (hsum : H.sum < 2 ^ 64) {order : List ℕ}
    (hsort : SortedBy (loadGreater H) (iota H.length) order) :
    order.Perm (List.range H.length) ∧ (∀ i < H.length, order.count i = 1) ∧
      (∀ i < H.length, (greedyBinning H P order).minimizerRank.getD i 0 < P) ∧
      (∀ r < P, (greedyBinning H P order).rankLoad.getD r 0 =
        ∑ i ∈ (Finset.range H.length).filter
          (fun i => (greedyBinning H P order).minimizerRank.getD i 0 = r), H.getD i 0) ∧
      (greedyBinning H P order).rankLoad.sum = H.sum ∧
      ∀ {M S : Type} (getPrefix : M → ℕ) (x : M × S), getPrefix x.1 < H.length →
        tupleToRank2 getPrefix (greedyBinning H P order).minimizerRank x < P := by
  have hinv := greedyBinning_inv (show 0 < P by omega) hsum hsort
  refine ⟨hsort.perm, fun i hi => List.count_eq_one_of_mem hsort.nodup (hsort.mem_iff.mpr hi),
    fun i hi => hinv.rank_lt i (hsort.mem_iff.mpr hi),
    fun r hr => hsort.toFinset_eq ▸ hinv.rankLoad_eq r hr, ?_,
    fun getPrefix x hx => hinv.rank_lt _ (hsort.mem_iff.mpr hx)⟩
  rw [sum_eq_sum_range_getD, hinv.length_rankLoad, hinv.sum_rankLoad, hsort.toFinset_eq,
    ← sum_eq_sum_range_getD]

theorem greedyBinning_spec_scenario :
    (1 ≤ 2 ∧ [300, 100, 100, 100].sum < 2 ^ 64 ∧
      SortedBy (loadGreater [300, 100, 100, 100]) (iota 4) [0, 1, 2, 3]) ∧
    ([0, 1, 2, 3].Perm (List.range 4) ∧ (∀ i < 4, [0, 1, 2, 3].count i = 1) ∧
      (∀ i < 4, (greedyBinning [300, 100, 100, 100] 2 [0, 1, 2, 3]).minimizerRank.getD i 0 < 2) ∧
      (∀ r < 2, (greedyBinning [300, 100, 100, 100] 2 [0, 1, 2, 3]).rankLoad.getD r 0 =
        ∑ i ∈ (Finset.range 4).filter
          (fun i => (greedyBinning [300, 100, 100, 100] 2 [0, 1, 2, 3]).minimizerRank.getD i 0 = r),
          [300, 100, 100, 100].getD i 0) ∧
      (greedyBinning [300, 100, 100, 100] 2 [0, 1, 2, 3]).rankLoad.sum = [300, 100, 100, 100].sum ∧
      ∀ {M S : Type} (getPrefix : M → ℕ) (x : M × S), getPrefix x.1 < 4 →
        tupleToRank2 getPrefix (greedyBinning [300, 100, 100, 100] 2 [0, 1, 2, 3]).minimizerRank x < 2) :=
  have hsort : SortedBy (loadGreater [300, 100, 100, 100]) (iota 4) [0, 1, 2, 3] := by decide
  ⟨⟨by decide, by decide, hsort⟩, greedyBinning_spec (by decide) (by decide) hsort⟩

end KmerCount
