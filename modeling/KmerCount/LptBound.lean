import KmerCount.GreedyBinning

/-!
# The binner meets Graham's LPT bound

The greedy loop is Longest Processing Time scheduling, so its largest rank load is at most
`4/3 - 1/(3P)` times the least makespan `OPT`; in whole numbers,
`3P · max_r rank_load[r] ≤ (4P - 1) · OPT`.  The proof follows the loop: a minimizer of load
`p` placed on a rank of load `L` has `3p ≤ T`, and averaging bounds `P·L + p`, or `3p > T`,
and a counting argument that weighs minimizers against `p` and `T` gives `L + p ≤ T`.
-/

namespace KmerCount

open Finset

/-- The load of rank `r` under a map `f` of the minimizers of `S` to ranks. -/
def assignedLoad (H : List ℕ) (f : ℕ → ℕ) (S : Finset ℕ) (r : ℕ) : ℕ :=
  ∑ i ∈ S.filter (fun i => f i = r), H.getD i 0

/-- The makespan of a map `f` from the minimizers `[0, n)` to the ranks `[0, P)`. -/
def makespan (H : List ℕ) (P : ℕ) (f : Fin H.length → Fin P) : ℕ :=
  univ.sup fun r : Fin P => ∑ i ∈ univ.filter (fun i => f i = r), H.getD i 0

/-- `OPT(H, P)`: the least makespan over all maps of `[0, n)` to `[0, P)`. -/
def optMakespan (H : List ℕ) (P : ℕ) : ℕ :=
  if h : 0 < P then univ.inf' ⟨fun _ => ⟨0, h⟩, mem_univ _⟩ (makespan H P) else 0

def maxLoad (rankLoad : List ℕ) : ℕ := rankLoad.foldr max 0

def extendAssign {n P : ℕ} (f : Fin n → Fin P) (i : ℕ) : ℕ :=
  if h : i < n then f ⟨i, h⟩ else 0

/-- The weight of a minimizer in the counting argument against a load `p` and a bound `T`:
`2` when it does not fit beside `p` within `T`. -/
def jobWeight (H : List ℕ) (T p i : ℕ) : ℕ := if T < H.getD i 0 + p then 2 else 1

variable {H : List ℕ} {P T p : ℕ}

/-! ## The optimum -/

theorem optMakespan_le (hP : 0 < P) (f : Fin H.length → Fin P) :
    optMakespan H P ≤ makespan H P f := by
  rw [optMakespan, dif_pos hP]
  exact inf'_le _ (mem_univ f)

theorem exists_makespan_eq_optMakespan (hP : 0 < P) :
    ∃ f : Fin H.length → Fin P, makespan H P f = optMakespan H P := by
  obtain ⟨f, -, hf⟩ := exists_mem_eq_inf' ⟨fun _ => ⟨0, hP⟩, mem_univ _⟩ (makespan H P)
  exact ⟨f, by rw [optMakespan, dif_pos hP, hf]⟩

theorem extendAssign_lt {n : ℕ} (f : Fin n → Fin P) {i : ℕ} (hi : i < n) :
    extendAssign f i < P := by
  rw [extendAssign, dif_pos hi]
  exact (f _).isLt

theorem assignedLoad_extendAssign_le (f : Fin H.length → Fin P) {r : ℕ} (hr : r < P) :
    assignedLoad H (extendAssign f) (range H.length) r ≤ makespan H P f := by
  have hload : assignedLoad H (extendAssign f) (range H.length) r =
      ∑ i ∈ univ.filter (fun i => f i = ⟨r, hr⟩), H.getD i 0 := by
    rw [assignedLoad, sum_filter, sum_filter, ← Fin.sum_univ_eq_sum_range]
    exact sum_congr rfl fun i _ => by simp [extendAssign, Fin.ext_iff]
  rw [hload, makespan]
  exact le_sup (f := fun r : Fin P => ∑ i ∈ univ.filter (fun i => f i = r), H.getD i 0)
    (mem_univ _)

/-! ## Two bounds every map within `T` gives -/

section Within

variable {f : ℕ → ℕ} (hf : ∀ i < H.length, f i < P)
  (hT : ∀ r < P, assignedLoad H f (range H.length) r ≤ T)
include hf hT

theorem sum_le_mul_of_within : ∑ i ∈ range H.length, H.getD i 0 ≤ P * T :=
  calc ∑ i ∈ range H.length, H.getD i 0
      = ∑ r ∈ range P, assignedLoad H f (range H.length) r :=
        (sum_fiberwise_of_maps_to (fun i hi => mem_range.mpr (hf i (mem_range.mp hi))) _).symm
    _ ≤ (range P).card • T := sum_le_card_nsmul _ _ _ fun r hr => hT r (mem_range.mp hr)
    _ = P * T := by simp [mul_comm]

theorem getD_le_of_within {m : ℕ} (hm : m < H.length) : H.getD m 0 ≤ T :=
  calc H.getD m 0 ≤ assignedLoad H f (range H.length) (f m) := by
        unfold assignedLoad
        exact single_le_sum (f := fun i => H.getD i 0) (fun _ _ => Nat.zero_le _)
          (mem_filter.mpr ⟨mem_range.mpr hm, rfl⟩)
    _ ≤ T := hT _ (hf m hm)

end Within

/-! ## The counting argument -/

theorem one_le_jobWeight (i : ℕ) : 1 ≤ jobWeight H T p i := by
  unfold jobWeight
  split_ifs <;> omega

theorem two_le_sum_jobWeight {R : Finset ℕ} (hp : p ≤ T)
    (hR : T < (∑ i ∈ R, H.getD i 0) + p) : 2 ≤ ∑ i ∈ R, jobWeight H T p i := by
  rcases R.eq_empty_or_nonempty with rfl | ⟨a, ha⟩
  · simp only [sum_empty] at hR
    omega
  by_contra hlt
  have hcard : R.card ≤ 1 := by
    have := card_nsmul_le_sum R (fun i => jobWeight H T p i) 1 fun i _ => one_le_jobWeight i
    simp only [smul_eq_mul, mul_one] at this
    omega
  have hRa : R = {a} :=
    eq_singleton_iff_unique_mem.mpr ⟨ha, fun c hc => card_le_one.mp hcard c hc a ha⟩
  rw [hRa, sum_singleton] at hR hlt
  rw [jobWeight, if_pos (by omega)] at hlt
  exact hlt le_rfl

theorem sum_jobWeight_le_two {R : Finset ℕ} (h3 : T < 3 * p) (hR : ∀ i ∈ R, p ≤ H.getD i 0)
    (hfit : ∑ i ∈ R, H.getD i 0 ≤ T) : ∑ i ∈ R, jobWeight H T p i ≤ 2 := by
  have hcard : R.card ≤ 2 := by
    have hsum := card_nsmul_le_sum R (fun i => H.getD i 0) p hR
    rw [smul_eq_mul] at hsum
    by_contra hc
    have : 3 * p ≤ R.card * p := Nat.mul_le_mul_right p (by omega)
    omega
  by_cases hbig : ∃ a ∈ R, T < H.getD a 0 + p
  · obtain ⟨a, ha, hTa⟩ := hbig
    have hRa : R = {a} := by
      refine eq_singleton_iff_unique_mem.mpr ⟨ha, fun c hc => by_contra fun hca => ?_⟩
      have hpair : H.getD c 0 + H.getD a 0 ≤ ∑ i ∈ R, H.getD i 0 :=
        calc H.getD c 0 + H.getD a 0 = ∑ i ∈ {c, a}, H.getD i 0 := (sum_pair (f := fun i => H.getD i 0) hca).symm
          _ ≤ _ := sum_le_sum_of_subset (insert_subset_iff.mpr ⟨hc, singleton_subset_iff.mpr ha⟩)
      have := hR c hc
      omega
    rw [hRa, sum_singleton, jobWeight, if_pos hTa]
  · push_neg at hbig
    calc ∑ i ∈ R, jobWeight H T p i = ∑ _i ∈ R, 1 :=
          sum_congr rfl fun i hi => by rw [jobWeight, if_neg (not_lt.mpr (hbig i hi))]
      _ = R.card := (card_eq_sum_ones R).symm
      _ ≤ 2 := hcard

theorem lpt_counting {S : Finset ℕ} {j : ℕ} {g f : ℕ → ℕ} (hp : p ≤ T) (h3 : T < 3 * p)
    (hS : ∀ i ∈ S, p ≤ H.getD i 0) (hj : j ∉ S) (hpj : H.getD j 0 = p)
    (hg : ∀ i ∈ S, g i < P) (hL : ∀ r < P, T < assignedLoad H g S r + p)
    (hf : ∀ i ∈ insert j S, f i < P) (hT : ∀ r < P, assignedLoad H f (insert j S) r ≤ T) :
    False := by
  have hS' : ∀ i ∈ insert j S, p ≤ H.getD i 0 := fun i hi => by
    rcases mem_insert.mp hi with rfl | hi
    · exact hpj.ge
    · exact hS i hi
  have hlow : P * 2 ≤ ∑ i ∈ S, jobWeight H T p i := by
    rw [← sum_fiberwise_of_maps_to fun i hi => mem_range.mpr (hg i hi)]
    calc P * 2 = (range P).card • 2 := by simp
      _ ≤ _ := card_nsmul_le_sum _ _ 2 fun r hr =>
        two_le_sum_jobWeight hp (hL r (mem_range.mp hr))
  have hhigh : ∑ i ∈ insert j S, jobWeight H T p i ≤ P * 2 := by
    rw [← sum_fiberwise_of_maps_to fun i hi => mem_range.mpr (hf i hi)]
    calc _ ≤ (range P).card • 2 := sum_le_card_nsmul _ _ 2 fun r hr =>
          sum_jobWeight_le_two h3 (fun i hi => hS' i (mem_of_mem_filter i hi))
            (hT r (mem_range.mp hr))
      _ = P * 2 := by simp
  rw [sum_insert hj] at hhigh
  have := one_le_jobWeight (H := H) (T := T) (p := p) j
  omega

/-! ## The loop stays within the bound -/

private theorem lpt_average_arith {L : ℕ} (hP : 0 < P) (h : P * L + p ≤ P * T)
    (h3 : 3 * p ≤ T) : 3 * P * (L + p) ≤ (4 * P - 1) * T := by
  obtain ⟨q, rfl⟩ : ∃ q, P = q + 1 := ⟨P - 1, by omega⟩
  calc 3 * (q + 1) * (L + p) = 3 * ((q + 1) * L + p) + q * (3 * p) := by ring
    _ ≤ 3 * ((q + 1) * T) + q * T :=
      Nat.add_le_add (Nat.mul_le_mul_left 3 h) (Nat.mul_le_mul_left q h3)
    _ = (4 * (q + 1) - 1) * T := by rw [show 4 * (q + 1) - 1 = 4 * q + 3 by omega]; ring

section Loop

variable {f : ℕ → ℕ} (hP : 0 < P) (hf : ∀ i < H.length, f i < P)
  (hT : ∀ r < P, assignedLoad H f (range H.length) r ≤ T)
include hP hf hT

theorem BinningInv.lpt_step {done : List ℕ} {b : Binning} (hb : BinningInv H P done b)
    (hdone : ∀ i ∈ done, i < H.length) {m : ℕ} (hm : m ∉ done) (hmH : m < H.length)
    (hheavy : ∀ i ∈ done, H.getD m 0 ≤ H.getD i 0) :
    3 * P * (b.rankLoad.getD (minLoadRank P b.rankLoad).2 0 + H.getD m 0) ≤
      (4 * P - 1) * T := by
  obtain ⟨hr0, -, hmin, -⟩ := minLoadRank_spec hP b.rankLoad
  generalize (minLoadRank P b.rankLoad).2 = r0 at hr0 hmin ⊢
  have hp := getD_le_of_within hf hT hmH
  have hnotin : m ∉ done.toFinset := fun h => hm (List.mem_toFinset.mp h)
  have hsub : insert m done.toFinset ⊆ range H.length := fun i hi => by
    rcases mem_insert.mp hi with rfl | hi
    · exact mem_range.mpr hmH
    · exact mem_range.mpr (hdone i (List.mem_toFinset.mp hi))
  by_cases h3 : 3 * H.getD m 0 ≤ T
  · -- a light minimizer: average over the ranks
    have hPL : P * b.rankLoad.getD r0 0 ≤ ∑ i ∈ done.toFinset, H.getD i 0 := by
      rw [← hb.sum_rankLoad]
      calc P * b.rankLoad.getD r0 0 = (range P).card • b.rankLoad.getD r0 0 := by simp
        _ ≤ _ := card_nsmul_le_sum _ _ _ fun r hr => hmin r (mem_range.mp hr)
    have htot : ∑ i ∈ done.toFinset, H.getD i 0 + H.getD m 0 ≤ P * T :=
      calc _ = ∑ i ∈ insert m done.toFinset, H.getD i 0 := by rw [sum_insert hnotin, add_comm]
        _ ≤ ∑ i ∈ range H.length, H.getD i 0 := sum_le_sum_of_subset hsub
        _ ≤ P * T := sum_le_mul_of_within hf hT
    exact lpt_average_arith hP (by omega) h3
  · -- a heavy minimizer: it fits on the least loaded rank
    have hfit : b.rankLoad.getD r0 0 + H.getD m 0 ≤ T := by
      by_contra hover
      refine lpt_counting hp (by omega) (fun i hi => hheavy i (List.mem_toFinset.mp hi)) hnotin
        rfl (fun i hi => hb.rank_lt i (List.mem_toFinset.mp hi)) (fun r hr => ?_)
        (fun i hi => hf i (mem_range.mp (hsub hi)))
        (fun r hr => (sum_le_sum_of_subset (filter_subset_filter _ hsub)).trans (hT r hr))
      rw [assignedLoad, ← hb.rankLoad_eq r hr]
      have := hmin r hr
      omega
    calc 3 * P * (b.rankLoad.getD r0 0 + H.getD m 0) ≤ 3 * P * T := Nat.mul_le_mul_left _ hfit
      _ ≤ (4 * P - 1) * T := Nat.mul_le_mul_right _ (by omega)

theorem BinningInv.lpt_foldl {done l : List ℕ} {b : Binning} (hb : BinningInv H P done b)
    (hbound : ∀ r < P, 3 * P * b.rankLoad.getD r 0 ≤ (4 * P - 1) * T)
    (hnd : (done ++ l).Nodup) (hlt : ∀ i ∈ done ++ l, i < H.length)
    (hfit : (∑ i ∈ (done ++ l).toFinset, H.getD i 0) < 2 ^ 64)
    (hsorted : (done ++ l).Pairwise fun a c => H.getD c 0 ≤ H.getD a 0) :
    ∀ r < P, 3 * P * (l.foldl (binStep H P) b).rankLoad.getD r 0 ≤ (4 * P - 1) * T := by
  induction l generalizing done b with
  | nil => exact hbound
  | cons m l ih =>
    obtain ⟨hm, hfit'⟩ := fit_of_cons hnd hfit
    have hmH : m < H.length := hlt m (List.mem_append_right _ (List.mem_cons_self m l))
    have hheavy : ∀ i ∈ done, H.getD m 0 ≤ H.getD i 0 := fun i hi =>
      (List.pairwise_append.mp hsorted).2.2 i hi m (List.mem_cons_self m l)
    have hbound' : ∀ r < P, 3 * P * (binStep H P b m).rankLoad.getD r 0 ≤ (4 * P - 1) * T := by
      intro r hr
      rw [hb.binStep_rankLoad hP hfit' r]
      split_ifs with hr0
      · subst hr0
        exact hb.lpt_step hP hf hT (fun i hi => hlt i (List.mem_append_left _ hi)) hm hmH hheavy
      · exact hbound r hr
    rw [List.append_cons] at hnd hlt hfit hsorted
    exact ih (hb.step hP hm hmH hfit') hbound' hnd hlt hfit hsorted

end Loop

theorem mul_maxLoad_le {c B : ℕ} {l : List ℕ} (h : ∀ x ∈ l, c * x ≤ B) : c * maxLoad l ≤ B := by
  induction l with
  | nil => simp [maxLoad]
  | cons x l ih =>
    rw [maxLoad, List.foldr_cons, ← Nat.mul_max_mul_left]
    exact max_le (h x (List.mem_cons_self x l)) (ih fun y hy => h y (List.mem_cons_of_mem x hy))

/-- Graham's bound for the binner, whatever order `std::sort` leaves tied minimizers in:
`3P · max_r rank_load[r] ≤ (4P - 1) · OPT(H, P)`. -/
theorem greedyBinning_lpt_bound (hP : 1 ≤ P) (hsum : H.sum < 2 ^ 64) {order : List ℕ}
    (hsort : SortedBy (loadGreater H) (iota H.length) order) :
    3 * P * maxLoad (greedyBinning H P order).rankLoad ≤ (4 * P - 1) * optMakespan H P := by
  have hP0 : 0 < P := by omega
  obtain ⟨f, hopt⟩ := exists_makespan_eq_optMakespan (H := H) hP0
  have hinv := greedyBinning_inv hP0 hsum hsort
  have hbound := (binningInv_initial H P).lpt_foldl hP0 (fun i hi => extendAssign_lt f hi)
    (fun r hr => hopt ▸ assignedLoad_extendAssign_le f hr) (l := order) (by simp)
    (by simpa using hsort.nodup) (fun i hi => hsort.mem_iff.mp (by simpa using hi))
    (by rw [List.nil_append, hsort.toFinset_eq, ← sum_eq_sum_range_getD]; exact hsum)
    (by simpa using hsort.sorted.imp fun h => not_lt.mp h)
  refine mul_maxLoad_le fun x hx => ?_
  obtain ⟨r, hr, rfl⟩ := List.mem_iff_getElem.mp hx
  rw [← List.getD_eq_getElem _ 0 hr]
  exact hbound r (hinv.length_rankLoad ▸ hr)

theorem greedyBinning_lpt_bound_scenario :
    (1 ≤ 2 ∧ [300, 100, 100, 100].sum < 2 ^ 64 ∧
      SortedBy (loadGreater [300, 100, 100, 100]) (iota 4) [0, 1, 2, 3]) ∧
    3 * 2 * maxLoad (greedyBinning [300, 100, 100, 100] 2 [0, 1, 2, 3]).rankLoad ≤
      (4 * 2 - 1) * optMakespan [300, 100, 100, 100] 2 :=
  have hsort : SortedBy (loadGreater [300, 100, 100, 100]) (iota 4) [0, 1, 2, 3] := by decide
  ⟨⟨by decide, by decide, hsort⟩, greedyBinning_lpt_bound (by decide) (by decide) hsort⟩

end KmerCount
