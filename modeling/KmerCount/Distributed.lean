import KmerCount.Query

/-!
# Ranks, routing and the collectives

A value held by every rank of a communicator is a function `Fin P → α`, with at least one
rank (`NeZero P`), and the maps send a key to `KeyToRank(x) = proc_trans_hash(x) % p`.  The
collectives `dsc::empty`, `imxx::distribute` and `mxx::all2allv` come from libraries the
repository does not contain and are modelled from the spec; what a rank receives, and how
often, is fixed by the routing function.
-/

namespace KmerCount

variable {P : ℕ} {α : Type}

/-- `KeyToRank`: `proc_trans_hash(x) % p`, where `hash` is the hash of the transformed key. -/
def keyToRank {K : Type} (hash : K → ℕ) (P : ℕ) [NeZero P] (x : K) : Fin P :=
  ⟨hash x % P, Nat.mod_lt _ (Nat.pos_of_neZero P)⟩

/-- Modelled from the spec: `dsc::empty(v, comm)`, which the repository does not contain;
whether `v` is empty on every rank. -/
def globalEmpty (v : Fin P → List α) : Bool :=
  (List.finRange P).all fun r => (v r).isEmpty

/-- Modelled from the spec: the elements of `v` that `imxx::distribute`, which the repository
does not contain, ships to rank `d`, in order. -/
def sendSegment (toRank : α → Fin P) (v : List α) (d : Fin P) : List α :=
  v.filter fun x => toRank x = d

/-- Modelled from the spec: the buffer rank `d` holds after `imxx::distribute`, the segments
of all sources by ascending source rank. -/
def distribute (toRank : α → Fin P) (v : Fin P → List α) (d : Fin P) : List α :=
  (List.finRange P).flatMap fun src => sendSegment toRank (v src) d

/-- Modelled from the spec: `mxx::all2allv`, which the repository does not contain; rank `q`
receives, from every rank `d` by ascending rank, the chunk `d` addresses to `q`. -/
def all2allv (chunks : Fin P → Fin P → List α) (q : Fin P) : List α :=
  (List.finRange P).flatMap fun d => chunks d q

/-- What every rank computes in a step that may be undefined on some rank: undefined behaviour
on one rank leaves the whole collective undefined. -/
def allRanks (f : Fin P → Option α) : Option (Fin P → α) :=
  if h : ∀ r, (f r).isSome then some fun r => (f r).get (h r) else none

theorem keyToRank_one {K : Type} (hash : K → ℕ) (k : K) (q : Fin 1) : keyToRank hash 1 k = q :=
  Subsingleton.elim _ _

theorem flatMap_eq_of_nodup {ι β : Type} [DecidableEq ι] {l : List ι} (hl : l.Nodup)
    {f : ι → List β} {a : ι} (hf : ∀ b ∈ l, b ≠ a → f b = []) :
    l.flatMap f = if a ∈ l then f a else [] := by
  induction l with
  | nil => rfl
  | cons b l ih =>
    obtain ⟨hb, hl⟩ := List.nodup_cons.mp hl
    rw [List.flatMap_cons, ih hl fun c hc => hf c (List.mem_cons_of_mem b hc)]
    by_cases hba : b = a
    · subst hba
      simp [hb]
    · simp [hf b (List.mem_cons_self b l) hba, hba, Ne.symm hba]

theorem flatMap_finRange_ite {β : Type} (a : Fin P) (X : List β) :
    ((List.finRange P).flatMap fun r => if r = a then X else []) = X := by
  rw [flatMap_eq_of_nodup (List.nodup_finRange P) (a := a) fun b _ hb => if_neg hb,
    if_pos (List.mem_finRange a), if_pos rfl]

theorem flatMap_sendSegment_perm {β : Type} (toRank : α → Fin P) (v : List α)
    (f : Fin P → α → List β) :
    ((List.finRange P).flatMap fun d => (sendSegment toRank v d).flatMap (f d)).Perm
      (v.flatMap fun x => f (toRank x) x) := by
  induction v with
  | nil => simp [sendSegment]
  | cons x v ih =>
    have hsplit : ∀ d, (sendSegment toRank (x :: v) d).flatMap (f d) =
        (if d = toRank x then f (toRank x) x else []) ++ (sendSegment toRank v d).flatMap (f d) := by
      intro d
      by_cases hd : d = toRank x
      · subst hd
        simp [sendSegment]
      · simp [sendSegment, List.filter_cons, hd, Ne.symm hd]
    simp only [hsplit, List.flatMap_cons]
    refine (List.flatMap_append_perm _ _ _).symm.trans ?_
    rw [flatMap_finRange_ite]
    exact ih.append_left _

theorem finRange_eq_singleton (hP : ¬ 1 < P) (q : Fin P) : List.finRange P = [q] := by
  obtain rfl : P = 1 := by have := q.isLt; omega
  rw [List.finRange_succ, List.finRange_zero, Subsingleton.elim q 0]
  rfl

theorem allRanks_of_forall {f : Fin P → Option α} {g : Fin P → α} (h : ∀ r, f r = some (g r)) :
    allRanks f = some g := by
  obtain rfl : f = fun r => some (g r) := funext h
  exact dif_pos fun _ => rfl

theorem allRanks_of_none {f : Fin P → Option α} {r : Fin P} (h : f r = none) :
    allRanks f = none :=
  dif_neg fun hall => by simpa [h] using hall r

theorem globalEmpty_eq_true_iff {v : Fin P → List α} : globalEmpty v = true ↔ ∀ r, v r = [] := by
  simp [globalEmpty, List.mem_finRange]

theorem mem_sendSegment {toRank : α → Fin P} {v : List α} {d : Fin P} {x : α} :
    x ∈ sendSegment toRank v d ↔ x ∈ v ∧ toRank x = d := by
  simp [sendSegment]

theorem mem_distribute {toRank : α → Fin P} {v : Fin P → List α} {d : Fin P} {x : α} :
    x ∈ distribute toRank v d ↔ toRank x = d ∧ ∃ src, x ∈ v src := by
  simp only [distribute, List.mem_flatMap, List.mem_finRange, true_and, mem_sendSegment]
  exact ⟨fun ⟨src, hx, hd⟩ => ⟨hd, src, hx⟩, fun ⟨hd, src, hx⟩ => ⟨src, hx, hd⟩⟩

theorem mem_all2allv {chunks : Fin P → Fin P → List α} {q : Fin P} {x : α} :
    x ∈ all2allv chunks q ↔ ∃ d, x ∈ chunks d q := by
  simp [all2allv, List.mem_finRange]

theorem countP_flatMap_sendSegment {ι : Type} (toRank : α → Fin P) (p : α → Bool)
    (srcs : List ι) (v : ι → List α) (d : Fin P) :
    (srcs.flatMap fun s => sendSegment toRank (v s) d).countP p =
      (srcs.map fun s => (v s).countP fun x => p x && decide (toRank x = d)).sum := by
  induction srcs with
  | nil => rfl
  | cons s srcs ih =>
    rw [List.flatMap_cons, List.countP_append, ih, sendSegment, List.countP_filter]
    rfl

/-- Rank `d` receives every occurrence of an element routed to `d`, from all sources, and
nothing else. -/
theorem count_distribute {K : Type} [DecidableEq K] (toRank : K → Fin P) (v : Fin P → List K)
    (d : Fin P) (p : K → Bool) (k : K) :
    (distribute toRank v d).countP (fun x => x = k ∧ p x) =
      if toRank k = d then ((List.finRange P).map fun src => (v src).countP fun x => x = k ∧ p x).sum
      else 0 := by
  rw [distribute, countP_flatMap_sendSegment]
  split_ifs with hk
  · congr 1
    refine List.map_congr_left fun src _ => List.countP_congr fun x _ => ?_
    by_cases hx : x = k <;> simp [hx, hk]
  · refine List.sum_eq_zero fun n hn => ?_
    obtain ⟨src, -, rfl⟩ := List.mem_map.mp hn
    refine List.countP_eq_zero.mpr fun x _ hx => ?_
    simp only [Bool.and_eq_true, decide_eq_true_eq] at hx
    exact hk (hx.1.1 ▸ hx.2)

/-! ## Routing pairs by their keys -/

section Pairs

variable {K T : Type} [NeZero P]

/-- `transform_input` on a pair: the key transform applied to its key. -/
def transformPair (transform : K → K) (e : K × T) : K × T := (transform e.1, e.2)

/-- The pairs rank `r` passes to `local_insert`: its own transformed pairs on one rank,
otherwise what `imxx::distribute` delivers to it by the `KeyToRank` of their keys. -/
def insertRecv (hash : K → ℕ) (transform : K → K) (input : Fin P → List (K × T)) (r : Fin P) :
    List (K × T) :=
  if 1 < P then
    distribute (fun e => keyToRank hash P e.1) (fun q => (input q).map (transformPair transform)) r
  else (input r).map (transformPair transform)

def allPairs (transform : K → K) (input : Fin P → List (K × T)) : List (K × T) :=
  (List.finRange P).flatMap fun q => (input q).map (transformPair transform)

theorem insertRecv_eq_filter (hash : K → ℕ) (transform : K → K) (input : Fin P → List (K × T))
    (r : Fin P) :
    insertRecv hash transform input r =
      (allPairs transform input).filter fun e => keyToRank hash P e.1 = r := by
  unfold insertRecv allPairs
  split_ifs with hP
  · rw [List.filter_flatMap]
    rfl
  · rw [finRange_eq_singleton hP r, List.flatMap_singleton]
    obtain rfl : P = 1 := by have := r.isLt; omega
    exact (List.filter_eq_self.mpr fun e _ => decide_eq_true (keyToRank_one _ _ _)).symm

theorem keyToRank_of_mem_insertRecv {hash : K → ℕ} {transform : K → K}
    {input : Fin P → List (K × T)} {r : Fin P} {e : K × T}
    (he : e ∈ insertRecv hash transform input r) : keyToRank hash P e.1 = r := by
  rw [insertRecv_eq_filter] at he
  exact of_decide_eq_true (List.mem_filter.mp he).2

theorem insertRecv_of_globalEmpty (hash : K → ℕ) (transform : K → K)
    {input : Fin P → List (K × T)} (h : globalEmpty input = true) (r : Fin P) :
    insertRecv hash transform input r = [] := by
  simp [insertRecv_eq_filter, allPairs, globalEmpty_eq_true_iff.mp h]

end Pairs

end KmerCount
