import KmerCount.CountingMap
import KmerCount.GreedyBinning

/-!
# The minimizer-based counting map

`minimizer_based_counting_unordered_map::insert` bins the minimizers to ranks, ships each
super-mer to `minimizer_rank` of its minimizer's prefix with `imxx::distribute_supermers`
(modelled from the spec), and counts the `K`-mers of what it receives.  The shipping runs
only with more than one rank, so on a single rank `insert` counts nothing; otherwise no
occurrence is lost or counted twice over any sequence of inserts.  `count`, `find` and
`erase` route by `KeyToRank`, which need not be the rank `insert` chose.
-/

namespace KmerCount

variable {M U : Type} {P : ℕ}

/-- The `K`-mers the extraction loop takes from one super-mer: every window of `K` bases,
from the left, when the super-mer has at least `K` bases. -/
def extractKmers (kmerSize : ℕ) (supermer : List ℕ) : List (List ℕ) :=
  if kmerSize ≤ supermer.length then
    (List.range (supermer.length - kmerSize + 1)).map fun i => (supermer.drop i).take kmerSize
  else []

/-- Modelled from the spec: the routing of `imxx::distribute_supermers`, which the repository
does not contain; the tuples of all ranks, by ascending rank, that `toRank` sends to `r`. -/
def routedTuples (toRank : M × List ℕ → ℕ) (input : Fin P → List (M × List ℕ)) (r : Fin P) :
    List (M × List ℕ) :=
  (List.finRange P).flatMap fun src => (input src).filter fun t => toRank t = r

/-- Modelled from the spec: `imxx::distribute_supermers`; rank `r` receives the super-mers of
the tuples routed to it. -/
def distributeSupermers (toRank : M × List ℕ → ℕ) (input : Fin P → List (M × List ℕ))
    (r : Fin P) : List (List ℕ) :=
  (routedTuples toRank input r).map Prod.snd

/-- The `K`-mers rank `r` extracts: from the super-mers `distribute_supermers` delivered,
which on a single rank is nothing (`output` stays empty). -/
def supermerKmers (kmerSize : ℕ) (toRank : M × List ℕ → ℕ) (input : Fin P → List (M × List ℕ))
    (r : Fin P) : List (List ℕ) :=
  (if 1 < P then distributeSupermers toRank input r else []).flatMap (extractKmers kmerSize)

/-- `minimizer_based_counting_unordered_map::insert(input, minimizer_kmer_load_map,
sorted_input, pred)` on every rank, for the reduced histogram `H` and the order `std::sort`
returns for it; the `TruePredicate` overload is `pred = truePredicate`.  Rank `r`'s result and
new state. -/
def supermerInsert [AddCommMonoidWithOne U] (kmerSize : ℕ) (getPrefix : M → ℕ)
    (pred : List ℕ × U → Bool) (H order : List ℕ) (maps : Fin P → MapState (List ℕ) U)
    (input : Fin P → List (M × List ℕ)) (r : Fin P) : ℕ × MapState (List ℕ) U :=
  if globalEmpty input then (0, maps r)
  else
    let minimizerRank := (greedyBinning H P order).minimizerRank
    localInsert (· + ·) pred (maps r)
      ((supermerKmers kmerSize (tupleToRank2 getPrefix minimizerRank) input r).map fun x => (x, 1))

theorem extractKmers_self (s : List ℕ) : extractKmers s.length s = [s] := by
  simp [extractKmers, List.range_succ]

/-! ## The extraction loop -/

/-- The inner loop of the extraction, `for (it_b = supermer.begin(), it_e = it_b + kmer_size;
it_b != supermer.end() - kmer_size + 1; ++it_b, ++it_e) kmers.emplace_back(it_b, it_e)`.
The list is the suffix `it_b` points to: the loop stops at the suffix of `kmer_size - 1`
bases, and each step appends the `kmer_size` bases from `it_b`.  The empty suffix is reached
only when `kmer_size = 1`, and the loop stops there. -/
def supermerLoop (kmerSize : ℕ) (kmers : List (List ℕ)) : List ℕ → List (List ℕ)
  | [] => kmers
  | b :: rest =>
    if (b :: rest).length = kmerSize - 1 then kmers
    else supermerLoop kmerSize (kmers ++ [(b :: rest).take kmerSize]) rest

/-- The extraction loop of `insert`, `for (auto const & supermer : output)`: from an empty
`kmers`, each super-mer of at least `kmer_size` bases goes through the inner loop. -/
def extractLoop (kmerSize : ℕ) (output : List (List ℕ)) : List (List ℕ) :=
  output.foldl (fun kmers supermer =>
    if kmerSize ≤ supermer.length then supermerLoop kmerSize kmers supermer else kmers) []

theorem extractKmers_eq_range (kmerSize : ℕ) (s : List ℕ) :
    extractKmers kmerSize s =
      (List.range (s.length + 1 - kmerSize)).map fun i => (s.drop i).take kmerSize := by
  unfold extractKmers
  split_ifs with h
  · rw [show s.length - kmerSize + 1 = s.length + 1 - kmerSize by omega]
  · rw [show s.length + 1 - kmerSize = 0 by omega]
    rfl

theorem extractKmers_cons {kmerSize : ℕ} (b : ℕ) (rest : List ℕ)
    (h : kmerSize ≤ (b :: rest).length) :
    extractKmers kmerSize (b :: rest) = (b :: rest).take kmerSize :: extractKmers kmerSize rest := by
  have hn : (b :: rest).length + 1 - kmerSize = (rest.length + 1 - kmerSize) + 1 := by
    rw [List.length_cons] at h ⊢
    omega
  rw [extractKmers_eq_range, extractKmers_eq_range, hn, List.range_succ_eq_map, List.map_cons,
    List.map_map]
  rfl

theorem supermerLoop_eq {kmerSize : ℕ} (hK : 1 ≤ kmerSize) (kmers : List (List ℕ))
    (s : List ℕ) (hs : kmerSize - 1 ≤ s.length) :
    supermerLoop kmerSize kmers s = kmers ++ extractKmers kmerSize s := by
  induction s generalizing kmers with
  | nil =>
    rw [supermerLoop, extractKmers_eq_range, List.length_nil,
      show 0 + 1 - kmerSize = 0 by omega, List.range_zero, List.map_nil, List.append_nil]
  | cons b rest ih =>
    by_cases hstop : (b :: rest).length = kmerSize - 1
    · rw [supermerLoop, if_pos hstop, extractKmers_eq_range,
        show (b :: rest).length + 1 - kmerSize = 0 by omega, List.range_zero, List.map_nil,
        List.append_nil]
    · have hrest : kmerSize - 1 ≤ rest.length := by
        rw [List.length_cons] at hs hstop
        omega
      rw [supermerLoop, if_neg hstop, ih _ hrest, extractKmers_cons b rest (by omega),
        List.append_assoc]
      rfl

theorem extractStep_eq {kmerSize : ℕ} (hK : 1 ≤ kmerSize) (kmers : List (List ℕ))
    (s : List ℕ) :
    (if kmerSize ≤ s.length then supermerLoop kmerSize kmers s else kmers) =
      kmers ++ extractKmers kmerSize s := by
  split_ifs with hs
  · exact supermerLoop_eq hK kmers s (by omega)
  · rw [extractKmers, if_neg hs, List.append_nil]

theorem extractLoop_eq_flatMap {kmerSize : ℕ} (hK : 1 ≤ kmerSize) (output : List (List ℕ)) :
    extractLoop kmerSize output = output.flatMap (extractKmers kmerSize) := by
  rw [extractLoop, List.flatMap_eq_foldl]
  congr
  funext kmers s
  exact extractStep_eq hK kmers s

theorem length_extractKmers (kmerSize : ℕ) (s : List ℕ) :
    (extractKmers kmerSize s).length = s.length + 1 - kmerSize := by
  rw [extractKmers_eq_range, List.length_map, List.length_range]

theorem extractKmers_of_lt {kmerSize : ℕ} {s : List ℕ} (h : s.length < kmerSize) :
    extractKmers kmerSize s = [] := by
  rw [extractKmers, if_neg (by omega)]

theorem getElem?_extractKmers {kmerSize : ℕ} {s : List ℕ} {i : ℕ} (h : i < s.length + 1 - kmerSize) :
    (extractKmers kmerSize s)[i]? = some ((s.drop i).take kmerSize) := by
  rw [extractKmers_eq_range, List.getElem?_map, List.getElem?_range h]
  rfl

theorem map_head?_extractKmers {kmerSize : ℕ} (hK : 1 ≤ kmerSize) {s : List ℕ}
    (h : kmerSize ≤ s.length) :
    (extractKmers kmerSize s).map List.head? = (s.take (s.length - kmerSize + 1)).map some := by
  have hlen : ((s.take (s.length - kmerSize + 1)).map some).length = s.length + 1 - kmerSize := by
    rw [List.length_map, List.length_take]
    omega
  refine List.ext_getElem (by rw [List.length_map, length_extractKmers, hlen]) fun j _ hj => ?_
  rw [hlen] at hj
  simp only [List.getElem_map, extractKmers_eq_range, List.getElem_range, List.head?_take,
    List.head?_drop, List.getElem_take, if_neg (by omega : kmerSize ≠ 0),
    List.getElem?_eq_getElem (by omega : j < s.length)]

theorem getLast?_extractKmers {kmerSize : ℕ} {s : List ℕ} (h : kmerSize ≤ s.length) :
    (extractKmers kmerSize s).getLast? = some (s.drop (s.length - kmerSize)) := by
  rw [extractKmers_eq_range, List.getLast?_map, List.getLast?_range, if_neg (by omega),
    Option.map_some', show s.length + 1 - kmerSize - 1 = s.length - kmerSize by omega,
    List.take_of_length_le (by rw [List.length_drop]; omega)]

/-- The extraction loop appends, for each received super-mer in order, its windows of
`kmer_size` bases from the left: `|s| - K + 1` of them, the `i`-th being `s[i, i + K)`, when
`|s| ≥ K`, and none when `|s| < K`.  So `kmers` has `∑ max(0, |s| - K + 1)` entries, the first
bases of a super-mer's k-mers spell `s[0, |s| - K]`, and its last k-mer is `s[|s| - K, |s|)`. -/
theorem extractLoop_windows (kmerSize : ℕ) (hK : 1 ≤ kmerSize) (output : List (List ℕ)) :
    extractLoop kmerSize output = output.flatMap (extractKmers kmerSize) ∧
      (∀ s : List ℕ, kmerSize ≤ s.length →
        (extractKmers kmerSize s).length = s.length - kmerSize + 1 ∧
        (∀ i, i < s.length - kmerSize + 1 →
          (extractKmers kmerSize s)[i]? = some ((s.drop i).take kmerSize)) ∧
        (extractKmers kmerSize s).map List.head? = (s.take (s.length - kmerSize + 1)).map some ∧
        (extractKmers kmerSize s).getLast? = some (s.drop (s.length - kmerSize))) ∧
      (∀ s : List ℕ, s.length < kmerSize → extractKmers kmerSize s = []) ∧
      ((extractLoop kmerSize output).length : ℤ) =
        (output.map fun s => max 0 ((s.length : ℤ) - kmerSize + 1)).sum := by
  refine ⟨extractLoop_eq_flatMap hK output, fun s hs => ⟨?_, fun i hi => ?_,
    map_head?_extractKmers hK hs, getLast?_extractKmers hs⟩, fun s hs => extractKmers_of_lt hs, ?_⟩
  · rw [length_extractKmers]
    omega
  · exact getElem?_extractKmers (by omega)
  · rw [extractLoop_eq_flatMap hK, List.length_flatMap, Nat.cast_list_sum, List.map_map]
    congr 1
    exact List.map_congr_left fun s _ => by
      rw [Function.comp_apply, Function.comp_apply, length_extractKmers]
      omega

theorem extractLoop_windows_two :
    1 ≤ 2 ∧
      (extractLoop 2 [[0, 1, 2], [3]] = [[0, 1, 2], [3]].flatMap (extractKmers 2) ∧
        (∀ s : List ℕ, 2 ≤ s.length →
          (extractKmers 2 s).length = s.length - 2 + 1 ∧
          (∀ i, i < s.length - 2 + 1 → (extractKmers 2 s)[i]? = some ((s.drop i).take 2)) ∧
          (extractKmers 2 s).map List.head? = (s.take (s.length - 2 + 1)).map some ∧
          (extractKmers 2 s).getLast? = some (s.drop (s.length - 2))) ∧
        (∀ s : List ℕ, s.length < 2 → extractKmers 2 s = []) ∧
        ((extractLoop 2 [[0, 1, 2], [3]]).length : ℤ) =
          ([[0, 1, 2], [3]].map fun s : List ℕ => max 0 ((s.length : ℤ) - 2 + 1)).sum) :=
  ⟨by decide, extractLoop_windows 2 (by decide) _⟩

/-- The `K`-mers `insert` counts on a rank are what the extraction loop appends for the
super-mers the shipping delivered. -/
theorem supermerKmers_eq_extractLoop {kmerSize : ℕ} (hK : 1 ≤ kmerSize)
    (toRank : M × List ℕ → ℕ) (input : Fin P → List (M × List ℕ)) (r : Fin P) :
    supermerKmers kmerSize toRank input r =
      extractLoop kmerSize (if 1 < P then distributeSupermers toRank input r else []) :=
  (extractLoop_eq_flatMap hK _).symm

example : extractLoop 2 [[0, 1, 2], [3]] = [[0, 1], [1, 2]] := by decide

theorem mem_routedTuples {toRank : M × List ℕ → ℕ} {input : Fin P → List (M × List ℕ)}
    {r : Fin P} {t : M × List ℕ} :
    t ∈ routedTuples toRank input r ↔ (∃ src, t ∈ input src) ∧ toRank t = r := by
  simp only [routedTuples, List.mem_flatMap, List.mem_finRange, true_and, List.mem_filter,
    decide_eq_true_eq]
  exact ⟨fun ⟨src, ht, hr⟩ => ⟨⟨src, ht⟩, hr⟩, fun ⟨⟨src, ht⟩, hr⟩ => ⟨src, ht, hr⟩⟩

theorem countP_supermerKmers (hP : 1 < P) (kmerSize : ℕ) (toRank : M × List ℕ → ℕ)
    (input : Fin P → List (M × List ℕ)) (r : Fin P) (p : List ℕ → Bool) :
    (supermerKmers kmerSize toRank input r).countP p =
      ((routedTuples toRank input r).map fun t => (extractKmers kmerSize t.2).countP p).sum := by
  rw [supermerKmers, if_pos hP, distributeSupermers, List.flatMap, List.countP_flatten,
    List.map_map, List.map_map]
  rfl

theorem sum_filter_rank_eq {α β : Type} [AddCommMonoid β] (g : α → ℕ) (f : α → β) (l : List α)
    (hlt : ∀ t ∈ l, g t < P) :
    ∑ r : Fin P, ((l.filter fun t => g t = r).map f).sum = (l.map f).sum := by
  induction l with
  | nil => simp only [List.filter_nil, List.map_nil, List.sum_nil, Finset.sum_const_zero]
  | cons t l ih =>
    have hsplit : ∀ r : Fin P, (((t :: l).filter fun t => g t = r).map f).sum =
        (if (⟨g t, hlt t (List.mem_cons_self t l)⟩ : Fin P) = r then f t else 0) +
          ((l.filter fun t => g t = r).map f).sum := fun r => by
      by_cases h : g t = r <;> simp [List.filter_cons, h, Fin.ext_iff]
    rw [Finset.sum_congr rfl fun r _ => hsplit r, Finset.sum_add_distrib, Finset.sum_ite_eq,
      if_pos (Finset.mem_univ _), ih fun t' ht' => hlt t' (List.mem_cons_of_mem t ht'),
      List.map_cons, List.sum_cons]

theorem sum_routedTuples {β : Type} [AddCommMonoid β] (toRank : M × List ℕ → ℕ)
    (input : Fin P → List (M × List ℕ)) (f : M × List ℕ → β)
    (hlt : ∀ src, ∀ t ∈ input src, toRank t < P) :
    ∑ r : Fin P, ((routedTuples toRank input r).map f).sum =
      ∑ src : Fin P, ((input src).map f).sum := by
  simp only [routedTuples, List.flatMap, List.map_flatten, List.sum_flatten, List.map_map,
    Function.comp_def, ← Fin.sum_univ_def]
  rw [Finset.sum_comm]
  exact Finset.sum_congr rfl fun src _ => sum_filter_rank_eq toRank f (input src) (hlt src)

section Counting

variable [AddCommMonoidWithOne U]

/-- On a single rank `insert` returns `0` and changes nothing, whatever its input. -/
theorem supermerInsert_single_rank (kmerSize : ℕ) (getPrefix : M → ℕ) (pred : List ℕ × U → Bool)
    (H order : List ℕ) (maps : Fin 1 → MapState (List ℕ) U) (input : Fin 1 → List (M × List ℕ))
    (r : Fin 1) : supermerInsert kmerSize getPrefix pred H order maps input r = (0, maps r) := by
  unfold supermerInsert
  split_ifs
  · rfl
  · simp [supermerKmers]

theorem supermerInsert_of_routedTuples_eq_nil (kmerSize : ℕ) (getPrefix : M → ℕ)
    (pred : List ℕ × U → Bool) (H order : List ℕ) (maps : Fin P → MapState (List ℕ) U)
    (input : Fin P → List (M × List ℕ)) (r : Fin P)
    (hr : routedTuples (tupleToRank2 getPrefix (greedyBinning H P order).minimizerRank) input r = []) :
    (supermerInsert kmerSize getPrefix pred H order maps input r).2 = maps r := by
  unfold supermerInsert
  split_ifs
  · rfl
  · simp [supermerKmers, distributeSupermers, hr]

/-- With more than one rank, every rank gains one for each accepted window of each super-mer
routed to it. -/
theorem supermerInsert_lookup (hP : 1 < P) (kmerSize : ℕ) (getPrefix : M → ℕ)
    (pred : List ℕ × U → Bool) (H order : List ℕ) (maps : Fin P → MapState (List ℕ) U)
    (input : Fin P → List (M × List ℕ)) (r : Fin P) (k : List ℕ) :
    ((supermerInsert kmerSize getPrefix pred H order maps input r).2.c.lookup k).getD 0 =
      ((maps r).c.lookup k).getD 0 +
        ((((routedTuples (tupleToRank2 getPrefix (greedyBinning H P order).minimizerRank) input r).map
          fun t => (extractKmers kmerSize t.2).countP fun x => x = k ∧ pred (x, 1)).sum : ℕ) : U) := by
  unfold supermerInsert
  by_cases hempty : globalEmpty input = true
  · have hnil : routedTuples (tupleToRank2 getPrefix (greedyBinning H P order).minimizerRank)
        input r = [] := List.eq_nil_iff_forall_not_mem.mpr fun t ht => by
      obtain ⟨⟨src, hsrc⟩, -⟩ := mem_routedTuples.mp ht
      rw [globalEmpty_eq_true_iff.mp hempty] at hsrc
      exact List.not_mem_nil t hsrc
    rw [if_pos hempty, hnil, List.map_nil, List.sum_nil, Nat.cast_zero, add_zero]
  · rw [if_neg hempty, localInsert_count, countP_supermerKmers hP]

theorem supermerInsert_sum_lookup (hP : 1 < P) (kmerSize : ℕ) (getPrefix : M → ℕ)
    (pred : List ℕ × U → Bool) {H order : List ℕ} (hsum : H.sum < 2 ^ 64)
    (hsort : SortedBy (loadGreater H) (iota H.length) order) (maps : Fin P → MapState (List ℕ) U)
    {input : Fin P → List (M × List ℕ)} (hpre : ∀ src, ∀ t ∈ input src, getPrefix t.1 < H.length)
    (k : List ℕ) :
    ∑ r, ((supermerInsert kmerSize getPrefix pred H order maps input r).2.c.lookup k).getD 0 =
      ∑ r, ((maps r).c.lookup k).getD 0 +
        ((∑ src, ((input src).map fun t =>
          (extractKmers kmerSize t.2).countP fun x => x = k ∧ pred (x, 1)).sum : ℕ) : U) := by
  have hinv := greedyBinning_inv (show 0 < P by omega) hsum hsort
  rw [Finset.sum_congr rfl fun r _ => supermerInsert_lookup hP kmerSize getPrefix pred H order
    maps input r k, Finset.sum_add_distrib, ← Nat.cast_sum, sum_routedTuples]
  exact fun src t ht => hinv.rank_lt _ (hsort.mem_iff.mpr (hpre src t ht))

/-- With more than one rank and every prefix inside the histogram, a k-mer whose super-mers all
carry minimizers of prefix `m` is counted on `minimizer_rank[m]` only: every other rank keeps
its count. -/
theorem supermerInsert_lookup_of_ne_owner (hP : 1 < P) (kmerSize : ℕ) (getPrefix : M → ℕ)
    (pred : List ℕ × U → Bool) (H order : List ℕ) (maps : Fin P → MapState (List ℕ) U)
    {input : Fin P → List (M × List ℕ)} {k : List ℕ} {m : ℕ}
    (_hpre : ∀ src, ∀ t ∈ input src, getPrefix t.1 < H.length) (_hm : m < H.length)
    (hk : ∀ src, ∀ t ∈ input src, k ∈ extractKmers kmerSize t.2 → getPrefix t.1 = m)
    {r : Fin P} (hr : (greedyBinning H P order).minimizerRank.getD m 0 ≠ r) :
    ((supermerInsert kmerSize getPrefix pred H order maps input r).2.c.lookup k).getD 0 =
      ((maps r).c.lookup k).getD 0 := by
  rw [supermerInsert_lookup hP, List.sum_eq_zero, Nat.cast_zero, add_zero]
  intro n hn
  obtain ⟨t, ht, rfl⟩ := List.mem_map.mp hn
  obtain ⟨⟨src, htsrc⟩, hroute⟩ := mem_routedTuples.mp ht
  refine List.countP_eq_zero.mpr fun x hx hxk => hr ?_
  simp only [decide_eq_true_eq] at hxk
  rw [← hk src t htsrc (hxk.1 ▸ hx)]
  exact hroute

theorem supermerInsert_lookup_of_ne_owner_two :
    1 < 2 ∧
      (∀ src : Fin 2, ∀ t ∈ (if src = 0 then [(0, [0, 1, 2])] else [(0, [1, 2, 3])] :
          List (ℕ × List ℕ)), id t.1 < [1, 2].length) ∧ 0 < [1, 2].length ∧
      (∀ src : Fin 2, ∀ t ∈ (if src = 0 then [(0, [0, 1, 2])] else [(0, [1, 2, 3])] :
          List (ℕ × List ℕ)), [1, 2] ∈ extractKmers 2 t.2 → id t.1 = 0) ∧
      (greedyBinning [1, 2] 2 [1, 0]).minimizerRank.getD 0 0 ≠ (0 : Fin 2) ∧
      ((supermerInsert (U := ℕ) 2 id truePredicate [1, 2] [1, 0] (fun _ => ⟨∅, false⟩)
          (fun src : Fin 2 => if src = 0 then [(0, [0, 1, 2])] else [(0, [1, 2, 3])]) 0).2.c.lookup
          [1, 2]).getD 0 =
        (((fun _ : Fin 2 => (⟨∅, false⟩ : MapState (List ℕ) ℕ)) 0).c.lookup [1, 2]).getD 0 :=
  ⟨by decide, by decide, by decide, by decide, by decide,
    supermerInsert_lookup_of_ne_owner (m := 0) (by decide) 2 id truePredicate [1, 2] [1, 0] _
      (by decide) (by decide) (by decide) (by decide)⟩

/-! ## Runs of inserts -/

/-- The arguments of one `insert(input, minimizer_kmer_load_map, sorted_input, pred)` call on
every rank: the predicate, the reduced histogram, the order `std::sort` returns for it, and
each rank's tuples. -/
structure SupermerCall (M U : Type) (P : ℕ) where
  pred : List ℕ × U → Bool
  H : List ℕ
  order : List ℕ
  input : Fin P → List (M × List ℕ)

/-- What the binning loop of a call relies on: the histogram's total fits in a `size_t`, the
order sorts the minimizers by non-increasing load, and every tuple's prefix indexes the
histogram. -/
structure SupermerCall.Valid (getPrefix : M → ℕ) (c : SupermerCall M U P) : Prop where
  sum_lt : c.H.sum < 2 ^ 64
  sorted : SortedBy (loadGreater c.H) (iota c.H.length) c.order
  prefix_lt : ∀ src, ∀ t ∈ c.input src, getPrefix t.1 < c.H.length

def supermerRun (kmerSize : ℕ) (getPrefix : M → ℕ) (maps : Fin P → MapState (List ℕ) U)
    (calls : List (SupermerCall M U P)) : Fin P → MapState (List ℕ) U :=
  calls.foldl (fun maps c r => (supermerInsert kmerSize getPrefix c.pred c.H c.order maps c.input r).2)
    maps

def windowsOf (kmerSize : ℕ) (k : List ℕ) (c : SupermerCall M U P) : ℕ :=
  ∑ src, ((c.input src).map fun t =>
    (extractKmers kmerSize t.2).countP fun x => x = k ∧ c.pred (x, 1)).sum

/-- Over any sequence of valid inserts on more than one rank, the ranks' counts of `k` grow in
total by exactly the accepted windows equal to `k` in all calls: no occurrence is lost or
counted twice, even when a later histogram sends `k` to another rank. -/
theorem supermerRun_sum_lookup (hP : 1 < P) (kmerSize : ℕ) (getPrefix : M → ℕ)
    (maps : Fin P → MapState (List ℕ) U) (calls : List (SupermerCall M U P))
    (hcalls : ∀ c ∈ calls, c.Valid getPrefix) (k : List ℕ) :
    ∑ r, ((supermerRun kmerSize getPrefix maps calls r).c.lookup k).getD 0 =
      ∑ r, ((maps r).c.lookup k).getD 0 + (((calls.map (windowsOf kmerSize k)).sum : ℕ) : U) := by
  induction calls generalizing maps with
  | nil => rw [List.map_nil, List.sum_nil, Nat.cast_zero, add_zero]; rfl
  | cons c calls ih =>
    have hc := hcalls c (List.mem_cons_self c calls)
    have hstep : ∑ r, ((supermerInsert kmerSize getPrefix c.pred c.H c.order maps c.input r).2.c.lookup
        k).getD 0 = ∑ r, ((maps r).c.lookup k).getD 0 + ((windowsOf kmerSize k c : ℕ) : U) :=
      supermerInsert_sum_lookup hP kmerSize getPrefix c.pred hc.sum_lt hc.sorted maps hc.prefix_lt k
    calc ∑ r, ((supermerRun kmerSize getPrefix maps (c :: calls) r).c.lookup k).getD 0
        = ∑ r, ((supermerInsert kmerSize getPrefix c.pred c.H c.order maps c.input r).2.c.lookup
            k).getD 0 + (((calls.map (windowsOf kmerSize k)).sum : ℕ) : U) :=
          ih _ fun c' hc' => hcalls c' (List.mem_cons_of_mem c hc')
      _ = _ := by rw [hstep, List.map_cons, List.sum_cons, Nat.cast_add, add_assoc]

end Counting

theorem supermerRun_sum_lookup_two :
    (1 < 2 ∧ ∀ c ∈ [(⟨truePredicate, [1, 2], [1, 0], fun r => if r = 0 then [(0, [0, 1, 2])]
        else [(1, [0, 1])]⟩ : SupermerCall ℕ ℕ 2)], c.Valid id) ∧
      ∑ r, ((supermerRun 2 id (fun _ => ⟨∅, false⟩)
          [(⟨truePredicate, [1, 2], [1, 0], fun r => if r = 0 then [(0, [0, 1, 2])]
            else [(1, [0, 1])]⟩ : SupermerCall ℕ ℕ 2)] r).c.lookup [0, 1]).getD 0 =
        ∑ r, (((fun _ : Fin 2 => (⟨∅, false⟩ : MapState (List ℕ) ℕ)) r).c.lookup [0, 1]).getD 0 +
          ((([(⟨truePredicate, [1, 2], [1, 0], fun r => if r = 0 then [(0, [0, 1, 2])]
            else [(1, [0, 1])]⟩ : SupermerCall ℕ ℕ 2)].map (windowsOf 2 [0, 1])).sum : ℕ) : ℕ) := by
  have hvalid : ∀ c ∈ [(⟨truePredicate, [1, 2], [1, 0], fun r => if r = 0 then [(0, [0, 1, 2])]
      else [(1, [0, 1])]⟩ : SupermerCall ℕ ℕ 2)], c.Valid id :=
    List.forall_mem_singleton.mpr ⟨by decide, by decide, by decide⟩
  exact ⟨⟨by decide, hvalid⟩, supermerRun_sum_lookup (by decide) 2 id _ _ hvalid [0, 1]⟩

/-- Two ranks and the histogram `[1, 2]`: minimizer `1` goes to rank `0`, minimizer `0` to
rank `1`.  Rank `0` inserts one super-mer `k` whose minimizer is `hash k % 2`, the rank that
`KeyToRank` names for `k`; the super-mer lands on the other rank, which counts `k` once, and
`count([k])` from rank `0` asks the rank `KeyToRank` names and answers `0`. -/
theorem count_misses_supermer_owner (hash : List ℕ → ℕ) (k : List ℕ) :
    SortedBy (loadGreater [1, 2]) (iota 2) [1, 0] ∧
      ((supermerInsert (U := ℕ) k.length id truePredicate [1, 2] [1, 0] (fun _ => ⟨∅, false⟩)
        (fun r => if r = 0 then [(hash k % 2, k)] else [])
        ((1 - hash k % 2 : ℕ) : Fin 2)).2.c.lookup k).getD 0 = 1 ∧
      ∀ n, (k, n) ∈ count (P := 2) hash id none
          (fun r => (supermerInsert (U := ℕ) k.length id truePredicate [1, 2] [1, 0]
            (fun _ => ⟨∅, false⟩) (fun r => if r = 0 then [(hash k % 2, k)] else []) r).2.c)
          (fun r => if r = 0 then [k] else []) 0 ↔ n = 0 := by
  have hmr : (greedyBinning [1, 2] 2 [1, 0]).minimizerRank = [1, 0] := by decide
  have hm := Nat.mod_two_eq_zero_or_one (hash k)
  have howner : keyToRank hash 2 k = ((hash k % 2 : ℕ) : Fin 2) :=
    Fin.ext (by simp [keyToRank, Fin.val_natCast])
  generalize hash k % 2 = m at hm howner ⊢
  -- the tuple `(m, k)` is routed to rank `1 - m` only
  have hroute : ∀ r : Fin 2, routedTuples (tupleToRank2 id (greedyBinning [1, 2] 2 [1, 0]).minimizerRank)
      (fun r => if r = 0 then [(m, k)] else []) r =
        if r = ((1 - m : ℕ) : Fin 2) then [(m, k)] else [] := by
    intro r
    rw [hmr]
    fin_cases r <;> rcases hm with rfl | rfl <;> rfl
  have hne : ((m : ℕ) : Fin 2) ≠ ((1 - m : ℕ) : Fin 2) := by
    rcases hm with rfl | rfl <;> decide
  refine ⟨by decide, ?_, fun n => ?_⟩
  · rw [supermerInsert_lookup (by omega), hroute, if_pos rfl]
    simp [extractKmers_self, truePredicate]
  · rw [mem_count, howner, supermerInsert_of_routedTuples_eq_nil _ _ _ _ _ _ _ _
      (by rw [hroute, if_neg hne]), countIn_tableRange_none]
    simp [Table.count]

end KmerCount
