import Mathlib

/-!
# The local table of a reduction map

Each rank stores its share in a local `unordered_map`, modelled as an `AList` whose order no
operation depends on.  `reduction_unordered_map::local_insert` walks its input once: a new
key is emplaced, a present one becomes `r(x, v)`, existing value first, with no assumption on
`r`.  Per key, a whole walk is a left fold of the key's values.
-/

namespace KmerCount

/-- The local `unordered_map` of a rank. -/
abbrev Table (K T : Type) := AList fun _ : K => T

namespace Table

variable {K T : Type}

/-- `c.size()`. -/
def size (c : Table K T) : ℕ := c.keys.length

/-- `c.count(v)` of `std::unordered_map`: the number of entries with key `v`, so `0` or `1`. -/
def count [DecidableEq K] (c : Table K T) (v : K) : ℕ := if v ∈ c then 1 else 0

theorem size_insert [DecidableEq K] (c : Table K T) (k : K) (v : T) :
    Table.size (c.insert k v) = if k ∈ c then c.size else c.size + 1 := by
  unfold size
  rw [AList.keys_insert, List.length_cons]
  split_ifs with hk
  · rw [List.length_erase_of_mem (AList.mem_keys.mp hk)]
    have := List.length_pos_of_mem (AList.mem_keys.mp hk)
    omega
  · rw [List.erase_of_not_mem (fun h => hk (AList.mem_keys.mpr h))]

theorem size_le_of_subset {c c' : Table K T} (h : ∀ k ∈ c, k ∈ c') : c.size ≤ c'.size :=
  (c.keys_nodup.subperm fun k hk => AList.mem_keys.mp (h k (AList.mem_keys.mpr hk))).length_le

end Table

/-- The part of `unordered_map_base` that a reduction map's insert touches: the local
container `c` and the flag `local_changed`. -/
structure MapState (K T : Type) where
  c : Table K T
  localChanged : Bool

/-- `bliss::filter::TruePredicate`, the default predicate: it accepts everything. -/
def truePredicate {α : Type} (_ : α) : Bool := true

variable {K T : Type} [DecidableEq K]

/-- One iteration of `reduction_unordered_map::local_insert`: `c.emplace(*it)` for a new
key, `c.at(k) = r(c.at(k), v)` for a present one. -/
def reduceInto (r : T → T → T) (c : Table K T) (kv : K × T) : Table K T :=
  match c.lookup kv.1 with
  | none => c.insert kv.1 kv.2
  | some old => c.insert kv.1 (r old kv.2)

/-- The loop of `local_insert(first, last, pred)`: pairs failing `pred` are skipped. -/
def reduceAll (r : T → T → T) (pred : K × T → Bool) (c : Table K T) (input : List (K × T)) :
    Table K T :=
  input.foldl (fun c kv => if pred kv then reduceInto r c kv else c) c

/-- `reduction_unordered_map::local_insert(first, last, pred)`.  The two-argument overload
is the same loop with `truePredicate`.  `local_reserve` does not change the contents. -/
def localInsert (r : T → T → T) (pred : K × T → Bool) (m : MapState K T)
    (input : List (K × T)) : ℕ × MapState K T :=
  let c := reduceAll r pred m.c input
  (c.size - m.c.size, { c := c, localChanged := m.localChanged || c.size != m.c.size })

/-- The values one key receives, combined left to right: the first value of an absent key
is stored as it is. -/
def foldValues (r : T → T → T) (acc : Option T) : List T → Option T
  | [] => acc
  | v :: vs => foldValues r (some (match acc with | none => v | some a => r a v)) vs

/-- The values of the pairs of `input` with key `k` that pass `pred`, in input order. -/
def valuesFor (pred : K × T → Bool) (k : K) (input : List (K × T)) : List T :=
  (input.filter fun kv => kv.1 = k ∧ pred kv).map Prod.snd

theorem foldValues_some (r : T → T → T) (x : T) (vs : List T) :
    foldValues r (some x) vs = some (vs.foldl r x) := by
  induction vs generalizing x with
  | nil => rfl
  | cons v vs ih => exact ih (r x v)

theorem lookup_reduceInto (r : T → T → T) (c : Table K T) (kv : K × T) (k : K) :
    (reduceInto r c kv).lookup k =
      if kv.1 = k then foldValues r (c.lookup k) [kv.2] else c.lookup k := by
  unfold reduceInto
  split_ifs with hk
  · subst hk
    cases h : c.lookup kv.1 <;> simp [foldValues, AList.lookup_insert]
  · cases c.lookup kv.1 <;> simp [AList.lookup_insert_ne (Ne.symm hk)]

theorem lookup_reduceAll (r : T → T → T) (pred : K × T → Bool) (c : Table K T)
    (input : List (K × T)) (k : K) :
    (reduceAll r pred c input).lookup k = foldValues r (c.lookup k) (valuesFor pred k input) := by
  induction input generalizing c with
  | nil => rfl
  | cons kv input ih =>
    rw [reduceAll, List.foldl_cons, ← reduceAll, ih]
    by_cases hp : pred kv = true
    · rw [if_pos hp, lookup_reduceInto]
      by_cases hk : kv.1 = k
      · cases h : c.lookup k <;> simp [hk, hp, valuesFor, foldValues, h]
      · simp [hk, valuesFor]
    · simp [hp, valuesFor]

theorem mem_reduceAll {r : T → T → T} {pred : K × T → Bool} {c : Table K T}
    {input : List (K × T)} {k : K} (hk : k ∈ c) : k ∈ reduceAll r pred c input := by
  induction input generalizing c with
  | nil => exact hk
  | cons kv input ih =>
    apply ih
    dsimp only
    split_ifs
    · unfold reduceInto
      cases c.lookup kv.1 <;> exact (AList.mem_insert _).mpr (Or.inr hk)
    · exact hk

theorem size_le_reduceAll (r : T → T → T) (pred : K × T → Bool) (c : Table K T)
    (input : List (K × T)) : c.size ≤ (reduceAll r pred c input).size :=
  Table.size_le_of_subset fun _ hk => mem_reduceAll hk

theorem localInsert_fst (r : T → T → T) (pred : K × T → Bool) (m : MapState K T)
    (input : List (K × T)) :
    (localInsert r pred m input).1 =
      ((localInsert r pred m input).2.c.keys.toFinset \ m.c.keys.toFinset).card := by
  have hsub : m.c.keys.toFinset ⊆ (reduceAll r pred m.c input).keys.toFinset := fun k hk => by
    simp only [List.mem_toFinset, ← AList.mem_keys] at hk ⊢
    exact mem_reduceAll hk
  simp only [localInsert]
  rw [Finset.card_sdiff hsub, List.toFinset_card_of_nodup (AList.keys_nodup _),
    List.toFinset_card_of_nodup (AList.keys_nodup _)]
  rfl

theorem localInsert_lookup (r : T → T → T) (pred : K × T → Bool) (m : MapState K T)
    (input : List (K × T)) (k : K) :
    (localInsert r pred m input).2.c.lookup k =
      foldValues r (m.c.lookup k) (valuesFor pred k input) :=
  lookup_reduceAll r pred m.c input k

@[simp] theorem localInsert_nil (r : T → T → T) (pred : K × T → Bool) (m : MapState K T) :
    localInsert r pred m [] = (0, m) := by
  simp [localInsert, reduceAll]

/-! ## The counting specialization -/

section Counting

variable {U : Type} [AddCommMonoidWithOne U]

theorem foldValues_ones (o : Option U) (j : ℕ) :
    (foldValues (· + ·) o (List.replicate j 1)).getD 0 = o.getD 0 + j := by
  induction j generalizing o with
  | zero => simp [foldValues]
  | succ j ih =>
    cases o with
    | none => simp [List.replicate_succ, foldValues, ih, add_comm (1 : U)]
    | some a => simp [List.replicate_succ, foldValues, ih, add_assoc, add_comm (1 : U)]

theorem valuesFor_ones (pred : K × U → Bool) (k : K) (keys : List K) :
    valuesFor pred k (keys.map fun x => (x, (1 : U))) =
      List.replicate (keys.countP fun x => x = k ∧ pred (x, 1)) 1 := by
  induction keys with
  | nil => rfl
  | cons x keys ih =>
    simp only [valuesFor, List.map_cons, List.filter_cons, List.countP_cons] at ih ⊢
    split_ifs with h <;> simp_all [List.replicate_succ]

theorem localInsert_count (pred : K × U → Bool) (m : MapState K U) (keys : List K) (k : K) :
    ((localInsert (· + ·) pred m (keys.map fun x => (x, (1 : U)))).2.c.lookup k).getD 0 =
      (m.c.lookup k).getD 0 + (keys.countP fun x => x = k ∧ pred (x, 1) : ℕ) := by
  rw [localInsert_lookup, valuesFor_ones, foldValues_ones]

end Counting

/-- `reduction_unordered_map::local_insert` folds each key's accepted values into its entry,
left to right and existing value first, and returns the number of keys it added; for the
counting map every accepted occurrence adds one. -/
theorem localInsert_foldsPerKey (r : T → T → T) (pred : K × T → Bool) (m : MapState K T)
    (input : List (K × T)) (k : K) :
    (valuesFor pred k input = [] →
        (localInsert r pred m input).2.c.lookup k = m.c.lookup k) ∧
      (∀ x, m.c.lookup k = some x →
        (localInsert r pred m input).2.c.lookup k = some ((valuesFor pred k input).foldl r x)) ∧
      (∀ v vs, valuesFor pred k input = v :: vs → m.c.lookup k = none →
        (localInsert r pred m input).2.c.lookup k = some (vs.foldl r v)) ∧
      (localInsert r pred m input).1 =
        ((localInsert r pred m input).2.c.keys.toFinset \ m.c.keys.toFinset).card ∧
      (∀ (U : Type) [AddCommMonoidWithOne U] (m' : MapState K U) (keys : List K)
          (pred' : K × U → Bool),
        ((localInsert (· + ·) pred' m' (keys.map fun x => (x, (1 : U)))).2.c.lookup k).getD 0 =
          (m'.c.lookup k).getD 0 + (keys.countP fun x => x = k ∧ pred' (x, 1) : ℕ)) := by
  refine ⟨fun hnil => ?_, fun x hx => ?_, fun v vs hvs hnone => ?_, localInsert_fst r pred m input,
    fun U _ m' keys pred' => localInsert_count pred' m' keys k⟩
  · rw [localInsert_lookup, hnil]; rfl
  · rw [localInsert_lookup, hx, foldValues_some]
  · rw [localInsert_lookup, hvs, hnone, foldValues, foldValues_some]

end KmerCount
