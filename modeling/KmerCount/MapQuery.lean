import KmerCount.FindOverlap

/-!
# The counted exchange and the base map's `find`

`count` and `find` of `unordered_map_base` answer the keys each rank received in one buffer
and return it with `mxx::all2allv(results, counts)`, which cuts the buffer by `counts`; the
cut is right when each count is the length of the answer it delimits.  On one rank `find`
runs `LocalFind` over the first `ceil(0.05 · |keys|)` keys and then over the rest, which does
not change the result, so on every number of ranks `find` and `find_overlap` agree.
-/

namespace KmerCount

section Exchange

variable {P : ℕ} {α : Type}

/-- Modelled from the spec: `mxx::all2allv(buffer, counts)`, which the repository does not
contain.  Rank `d` sends to rank `q` the `counts[q]` elements of its buffer that follow the
first `counts[0] + ... + counts[q - 1]`; rank `q` receives from every rank by ascending rank. -/
def all2allvCounts (buf : Fin P → List α) (counts : Fin P → Fin P → ℕ) (q : Fin P) : List α :=
  (List.finRange P).flatMap fun d =>
    ((buf d).drop (((List.finRange P).map (counts d)).take q).sum).take (counts d q)

theorem take_drop_flatten_window (L : List (List α)) {i : ℕ} (hi : i < L.length) :
    ((L.flatten.drop (displacement L i)).take L[i].length) = L[i] := by
  rw [flatten_eq_window L hi, ← length_flatten_take, List.drop_left, List.take_left]

theorem all2allvCounts_eq_all2allv (chunks : Fin P → Fin P → List α)
    {counts : Fin P → Fin P → ℕ} (hc : ∀ d q, counts d q = (chunks d q).length) :
    all2allvCounts (fun d => (List.finRange P).flatMap (chunks d)) counts = all2allv chunks := by
  funext q
  unfold all2allvCounts all2allv
  congr 1
  funext d
  dsimp only
  have hq : q.val < ((List.finRange P).map (chunks d)).length := by simp
  have hdispl : (((List.finRange P).map (counts d)).take q).sum =
      displacement ((List.finRange P).map (chunks d)) q := by
    rw [displacement, List.map_map]
    congr 2
    exact List.map_congr_left fun i _ => hc d i
  have hlen : counts d q = ((List.finRange P).map (chunks d))[q.val].length := by simp [hc]
  rw [hdispl, hlen, List.flatMap_def, take_drop_flatten_window _ hq]
  simp

end Exchange

section Count

variable {K T : Type} [DecidableEq K] {P : ℕ} [NeZero P]

end Count

namespace FindQuery

variable {K T : Type} [DecidableEq K] {P : ℕ} [NeZero P] (Q : FindQuery K T P)

/-- The number `QueryProcessor::process` returns for `LocalFind` over the segment of rank
`d`'s keys that came from rank `i`: `send_counts[i]` of `find` on rank `d`. -/
def findCounts (d i : Fin P) : ℕ :=
  (Query.process (Query.findElement Q.pred) (Q.c d) (Q.segment d i)).2.2

/-- `find(find_element, keys, sorted_input, pred)` on rank `q`.  With more than one rank,
`LocalFind` answers the segment from each source into one buffer, which
`mxx::all2allv(results, send_counts)` returns.  With one rank it runs over the first
`estimating` keys and then over the rest; `estimating` is `ceil(keys.size() * 0.05)`,
computed in floating point. -/
def find (estimating : ℕ) (q : Fin P) : List (K × T) :=
  if globalEmpty Q.c || globalEmpty Q.keys then []
  else if 1 < P then
    all2allvCounts (fun d => (List.finRange P).flatMap fun i => Q.messageTo d i) Q.findCounts q
  else
    (Query.process (Query.findElement Q.pred) (Q.c q) ((Q.uniqueKeys q).take estimating)).2.1 ++
      (Query.process (Query.findElement Q.pred) (Q.c q) ((Q.uniqueKeys q).drop estimating)).2.1

theorem findCounts_eq_length (d i : Fin P) : Q.findCounts d i = (Q.messageTo d i).length :=
  process_findElement_count _ _ _

theorem answers_single (hP : ¬ 1 < P) (q : Fin P) :
    Q.answers q = (Query.process (Query.findElement Q.pred) (Q.c q) (Q.uniqueKeys q)).2.1 := by
  obtain rfl : P = 1 := by have := q.isLt; omega
  have hseg : Q.segment q q = Q.uniqueKeys q :=
    List.filter_eq_self.mpr fun k _ => decide_eq_true (keyToRank_one _ _ _)
  rw [answers, finRange_eq_singleton hP q, List.flatMap_singleton, messageTo, hseg]

theorem find_eq_answers (estimating : ℕ) (q : Fin P) :
    Q.find estimating q = if globalEmpty Q.c || globalEmpty Q.keys then [] else Q.answers q := by
  unfold find
  split_ifs with hempty hP
  · rfl
  · rw [all2allvCounts_eq_all2allv _ Q.findCounts_eq_length]
    rfl
  · rw [answers_single Q hP, process_findElement_entries, process_findElement_entries,
      process_findElement_entries, ← List.flatMap_append, List.take_append_drop]

theorem findOverlap_eq (q : Fin P) :
    Q.findOverlap q =
      some ((if globalEmpty Q.c || globalEmpty Q.keys then [] else Q.answers q).map some) := by
  by_cases hempty : (globalEmpty Q.c || globalEmpty Q.keys) = true
  · simp [findOverlap, hempty]
  · rw [if_neg hempty]
    simp only [Bool.or_eq_true, not_or, Bool.not_eq_true] at hempty
    by_cases hP : 1 < P
    · exact Q.findOverlap_eq_answers hP hempty.1 hempty.2 q
    · simp [findOverlap, hempty, hP, answers_single Q hP]

/-- `find` and `find_overlap` return the same entries on every query. -/
theorem findOverlap_eq_find (estimating : ℕ) (q : Fin P) :
    Q.findOverlap q = some ((Q.find estimating q).map some) := by
  rw [findOverlap_eq, find_eq_answers]

theorem findOverlap_eq_find_two_ranks :
    (⟨id, id, none, fun r => if r = 0 then [(2, 7)] else [(1, 5), (1, 6)],
      fun r => if r = 0 then [2] else [1, 2]⟩ : FindQuery ℕ ℕ 2).findOverlap 1 =
      some [some (2, 7), some (1, 5), some (1, 6)] :=
  (FindQuery.findOverlap_eq_find _ 0 1).trans (by decide)

end FindQuery

end KmerCount
