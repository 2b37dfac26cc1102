import KmerCount.GreedyBinning

/-!
# The binner against the spec's reference LPT

The spec's reference visits minimizers by decreasing load, ties by ascending index, onto the
lowest-numbered rank of least load.  `std::sort` may leave tied minimizers in any order, so
the binner's `minimizer_rank` can differ from the reference's.  Every order the comparator
allows visits the same sequence of loads, and the loop reads only loads, so on every such
order the binner ends with the reference's loads and ranks chosen in the same sequence, and
with its `minimizer_rank` when the loads are pairwise distinct.
-/

namespace KmerCount

/-- The reference's order between two minimizers: the higher load first, ties by ascending
index. -/
def referenceBefore (H : List ℕ) (a b : ℕ) : Prop :=
  H.getD b 0 < H.getD a 0 ∨ (H.getD a 0 = H.getD b 0 ∧ a ≤ b)

instance (H : List ℕ) : DecidableRel (referenceBefore H) := fun _ _ =>
  inferInstanceAs (Decidable (_ ∨ _))

def referenceOrder (H : List ℕ) : List ℕ :=
  (List.range H.length).insertionSort (referenceBefore H)

/-- The lowest-numbered rank of least current load. -/
def lowestLeastLoaded (P : ℕ) (load : List ℕ) : ℕ :=
  ((List.range P).find? fun r => (List.range P).all fun s => load.getD r 0 ≤ load.getD s 0).getD 0

/-- One step of the reference: the minimizer goes to the lowest-numbered least loaded rank,
whose load grows by the minimizer's load. -/
def referenceStep (H : List ℕ) (P : ℕ) (b : Binning) (m : ℕ) : Binning :=
  let r := lowestLeastLoaded P b.rankLoad
  ⟨b.rankLoad.set r (b.rankLoad.getD r 0 + H.getD m 0), b.minimizerRank.set m r⟩

def referenceLpt (H : List ℕ) (P : ℕ) : Binning :=
  (referenceOrder H).foldl (referenceStep H P) ⟨List.replicate P 0, List.replicate H.length 0⟩

/-- What one iteration of the binner does to `rank_load`, given the load it adds. -/
def loadStep (P : ℕ) (rankLoad : List ℕ) (x : ℕ) : List ℕ :=
  let minRank := (minLoadRank P rankLoad).2
  rankLoad.set minRank (sizeTAdd (rankLoad.getD minRank 0) x)

def rankSeq (P : ℕ) : List ℕ → List ℕ → List ℕ
  | _, [] => []
  | rankLoad, x :: xs => (minLoadRank P rankLoad).2 :: rankSeq P (loadStep P rankLoad x) xs

variable {H : List ℕ} {P : ℕ}

/-! ## The reference order -/

theorem referenceBefore_total (H : List ℕ) (a b : ℕ) :
    referenceBefore H a b ∨ referenceBefore H b a := by
  unfold referenceBefore; omega

theorem referenceBefore_trans (H : List ℕ) {a b c : ℕ} (hab : referenceBefore H a b)
    (hbc : referenceBefore H b c) : referenceBefore H a c := by
  unfold referenceBefore at *; omega

theorem referenceOrder_sortedBy : SortedBy (loadGreater H) (iota H.length) (referenceOrder H) :=
  haveI : IsTotal ℕ (referenceBefore H) := ⟨referenceBefore_total H⟩
  haveI : IsTrans ℕ (referenceBefore H) := ⟨fun _ _ _ => referenceBefore_trans H⟩
  ⟨List.perm_insertionSort _ _, (List.sorted_insertionSort _ _).imp fun h => by
    unfold referenceBefore at h; unfold loadGreater; omega⟩

theorem SortedBy.map_getD_eq {xs o₁ o₂ : List ℕ} (h₁ : SortedBy (loadGreater H) xs o₁)
    (h₂ : SortedBy (loadGreater H) xs o₂) : o₁.map (H.getD · 0) = o₂.map (H.getD · 0) :=
  List.eq_of_perm_of_sorted (r := (· ≥ ·)) ((h₁.perm.trans h₂.perm.symm).map _)
    (List.pairwise_map.mpr (h₁.sorted.imp fun h => not_lt.mp h))
    (List.pairwise_map.mpr (h₂.sorted.imp fun h => not_lt.mp h))

theorem eq_of_map_getD_eq (hH : H.Nodup) {l₁ l₂ : List ℕ} (h₁ : ∀ i ∈ l₁, i < H.length)
    (h₂ : ∀ i ∈ l₂, i < H.length) (h : l₁.map (H.getD · 0) = l₂.map (H.getD · 0)) :
    l₁ = l₂ := by
  induction l₁ generalizing l₂ with
  | nil => exact (List.map_eq_nil_iff.mp h.symm).symm
  | cons a l₁ ih =>
    cases l₂ with
    | nil => exact absurd h (List.cons_ne_nil _ _)
    | cons c l₂ =>
      simp only [List.map_cons, List.cons.injEq] at h
      have ha := h₁ a (List.mem_cons_self a l₁)
      have hc := h₂ c (List.mem_cons_self c l₂)
      rw [List.getD_eq_getElem _ 0 ha, List.getD_eq_getElem _ 0 hc, hH.getElem_inj_iff] at h
      rw [h.1, ih (fun i hi => h₁ i (List.mem_cons_of_mem a hi))
        (fun i hi => h₂ i (List.mem_cons_of_mem c hi)) h.2]

/-! ## The loop reads only the loads -/

theorem foldl_binStep_rankLoad (l : List ℕ) (b : Binning) :
    (l.foldl (binStep H P) b).rankLoad = (l.map (H.getD · 0)).foldl (loadStep P) b.rankLoad := by
  induction l generalizing b with
  | nil => rfl
  | cons m l ih => exact ih _

theorem foldl_binStep_minimizerRank_of_not_mem {l : List ℕ} {m : ℕ} (hm : m ∉ l) (b : Binning) :
    (l.foldl (binStep H P) b).minimizerRank.getD m 0 = b.minimizerRank.getD m 0 := by
  induction l generalizing b with
  | nil => rfl
  | cons a l ih =>
    rw [List.foldl_cons, ih (fun h => hm (List.mem_cons_of_mem a h))]
    exact getD_set_ne _ fun h => hm (h ▸ List.mem_cons_self a l)

theorem map_foldl_binStep_minimizerRank {l : List ℕ} (hnd : l.Nodup) (b : Binning)
    (hlt : ∀ i ∈ l, i < b.minimizerRank.length) :
    l.map (fun m => (l.foldl (binStep H P) b).minimizerRank.getD m 0) =
      rankSeq P b.rankLoad (l.map (H.getD · 0)) := by
  induction l generalizing b with
  | nil => rfl
  | cons m l ih =>
    have hm : m ∉ l := (List.nodup_cons.mp hnd).1
    simp only [List.map_cons, List.foldl_cons, rankSeq]
    rw [foldl_binStep_minimizerRank_of_not_mem hm,
      ih (List.nodup_cons.mp hnd).2 _ fun i hi => by
        simpa [binStep] using hlt i (List.mem_cons_of_mem m hi)]
    exact congrArg (· :: _) (getD_set_self _ (hlt m (List.mem_cons_self m l)))

/-! ## The reference is the binner on the reference order -/

theorem lowestLeastLoaded_eq (hP : 0 < P) (l : List ℕ) :
    lowestLeastLoaded P l = (minLoadRank P l).2 := by
  obtain ⟨hr0, -, hmin, hfirst⟩ := minLoadRank_spec hP l
  rw [lowestLeastLoaded, List.find?_range_eq_some.mpr ⟨?_, List.mem_range.mpr hr0, fun j hj => ?_⟩,
    Option.getD_some]
  · simpa using hmin
  · simp only [Bool.not_eq_true', List.all_eq_false, List.mem_range, decide_eq_true_eq, not_le]
    exact ⟨_, hr0, hfirst j hj⟩

theorem BinningInv.referenceStep_eq (hP : 0 < P) {done : List ℕ} {b : Binning}
    (hb : BinningInv H P done b) {m : ℕ}
    (hfit : (∑ i ∈ done.toFinset, H.getD i 0) + H.getD m 0 < 2 ^ 64) :
    referenceStep H P b m = binStep H P b m := by
  obtain ⟨hr0, -⟩ := minLoadRank_spec hP b.rankLoad
  simp only [referenceStep, binStep, lowestLeastLoaded_eq hP, hb.sizeTAdd_eq hr0 hfit]

theorem BinningInv.foldl_referenceStep (hP : 0 < P) {done l : List ℕ} {b : Binning}
    (hb : BinningInv H P done b) (hnd : (done ++ l).Nodup) (hlt : ∀ i ∈ l, i < H.length)
    (hfit : (∑ i ∈ (done ++ l).toFinset, H.getD i 0) < 2 ^ 64) :
    l.foldl (referenceStep H P) b = l.foldl (binStep H P) b := by
  induction l generalizing done b with
  | nil => rfl
  | cons m l ih =>
    obtain ⟨hm, hfit'⟩ := fit_of_cons hnd hfit
    rw [List.foldl_cons, List.foldl_cons, hb.referenceStep_eq hP hfit']
    rw [List.append_cons] at hnd hfit
    exact ih (hb.step hP hm (hlt m (List.mem_cons_self m l)) hfit') hnd
      (fun i hi => hlt i (List.mem_cons_of_mem m hi)) hfit

theorem referenceLpt_eq_greedyBinning (hP : 0 < P) (hsum : H.sum < 2 ^ 64) :
    referenceLpt H P = greedyBinning H P (referenceOrder H) := by
  have hsort := referenceOrder_sortedBy (H := H)
  exact (binningInv_initial H P).foldl_referenceStep hP (l := referenceOrder H)
    (by simpa using hsort.nodup) (fun i hi => hsort.mem_iff.mp hi)
    (by rw [List.nil_append, hsort.toFinset_eq, ← sum_eq_sum_range_getD]; exact hsum)

/-! ## Every admissible order against the reference -/

theorem greedyBinning_tie_order_counterexample :
    SortedBy (loadGreater [1, 1]) (iota 2) [1, 0] ∧
      (greedyBinning [1, 1] 2 [1, 0]).minimizerRank = [1, 0] ∧
      (referenceLpt [1, 1] 2).minimizerRank = [0, 1] := by
  decide

/-- On every order the comparator allows, the binner ends with the reference's rank loads
and picks the reference's ranks in the same sequence; when the loads are pairwise distinct,
its `minimizer_rank` is the reference's. -/
theorem greedyBinning_agrees_referenceLpt (hP : 1 ≤ P) (hsum : H.sum < 2 ^ 64)
    {order : List ℕ} (hsort : SortedBy (loadGreater H) (iota H.length) order) :
    (greedyBinning H P order).rankLoad = (referenceLpt H P).rankLoad ∧
      order.map (fun m => (greedyBinning H P order).minimizerRank.getD m 0) =
        (referenceOrder H).map (fun m => (referenceLpt H P).minimizerRank.getD m 0) ∧
      (H.Nodup → (greedyBinning H P order).minimizerRank = (referenceLpt H P).minimizerRank) := by
  have href := referenceLpt_eq_greedyBinning (show 0 < P by omega) hsum
  have hmap := hsort.map_getD_eq referenceOrder_sortedBy
  have hlt : ∀ {o : List ℕ}, SortedBy (loadGreater H) (iota H.length) o →
      ∀ i ∈ o, i < (List.replicate H.length 0).length := fun ho i hi => by
    simpa using ho.mem_iff.mp hi
  refine ⟨?_, ?_, fun hH => ?_⟩
  · simp only [href, greedyBinning, foldl_binStep_rankLoad, hmap]
  · simp only [href, greedyBinning]
    rw [map_foldl_binStep_minimizerRank hsort.nodup _ (hlt hsort),
      map_foldl_binStep_minimizerRank referenceOrder_sortedBy.nodup _ (hlt referenceOrder_sortedBy),
      hmap]
  · rw [href, eq_of_map_getD_eq hH (fun i hi => hsort.mem_iff.mp hi)
      (fun i hi => referenceOrder_sortedBy.mem_iff.mp hi) hmap]

theorem greedyBinning_agrees_referenceLpt_tied :
    (1 ≤ 2 ∧ [1, 1].sum < 2 ^ 64 ∧ SortedBy (loadGreater [1, 1]) (iota 2) [1, 0]) ∧
    ((greedyBinning [1, 1] 2 [1, 0]).rankLoad = (referenceLpt [1, 1] 2).rankLoad ∧
      [1, 0].map (fun m => (greedyBinning [1, 1] 2 [1, 0]).minimizerRank.getD m 0) =
        (referenceOrder [1, 1]).map (fun m => (referenceLpt [1, 1] 2).minimizerRank.getD m 0) ∧
      ([1, 1].Nodup → (greedyBinning [1, 1] 2 [1, 0]).minimizerRank =
        (referenceLpt [1, 1] 2).minimizerRank)) :=
  have hsort : SortedBy (loadGreater [1, 1]) (iota 2) [1, 0] := by decide
  ⟨⟨by decide, by decide, hsort⟩, greedyBinning_agrees_referenceLpt (by decide) (by decide) hsort⟩

end KmerCount
