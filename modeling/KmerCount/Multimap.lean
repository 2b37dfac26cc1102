import KmerCount.Query

/-!
# The multimap's unique-key cache

`local_unique_size` of `unordered_multimap` answers from the cache `local_unique_count` and
recounts the distinct keys of `c` only when `local_changed` is set.  Insert and `erase(keys)`
set the flag whenever they change the size of `c`; `local_clear` and `local_reset` empty `c`
and leave it alone.  The cache is right whenever the flag is clear (`CacheValid`) along every
run that avoids those two, and clearing after a cached query leaves a stale answer.
-/

namespace KmerCount

/-- The local state of an `unordered_multimap` rank that `local_unique_size` reads. -/
structure MultimapState (K T : Type) where
  c : List (K × T)
  localChanged : Bool
  localUniqueCount : ℕ

namespace MultimapState

variable {K T : Type} [DecidableEq K]

/-- The constructed state: an empty container, `local_changed(false)`,
`local_unique_count(0)`. -/
def initial : MultimapState K T := ⟨[], false, 0⟩

/-- The number of distinct keys: the size of the `UniqueKeySetUtilityType` set. -/
def distinctKeys (c : List (K × T)) : ℕ := (c.map Prod.fst).dedup.length

/-- `local_insert` on the pairs this rank received: `c.emplace` of each pair `kept`.  The
standard leaves the order of an `unordered_multimap` open; libstdc++ puts a new entry before
the entries of its key, so a key's equal range runs newest first.  What is proved about that
order is proved up to permutation. -/
def localInsert (pred : Option (InsertPredicate (K × T))) (s : MultimapState K T)
    (input : List (K × T)) : ℕ × MultimapState K T :=
  let c := (InsertPredicate.kept pred input).reverse ++ s.c
  (c.length - s.c.length,
    { s with c := c, localChanged := s.localChanged || c.length != s.c.length })

/-- The local part of `erase(keys, sorted_input, pred)`: `erase_element` over the keys this
rank received, then `local_changed` if the size changed. -/
def eraseKeys (pred : Option (Predicate (K × T))) (s : MultimapState K T) (keys : List K) :
    ℕ × MultimapState K T :=
  let c := (Query.process (Query.eraseElement pred) s.c keys).1
  (s.c.length - c.length,
    { s with c := c, localChanged := s.localChanged || s.c.length != c.length })

def localClear (s : MultimapState K T) : MultimapState K T := { s with c := [] }

/-- `local_reset` swaps `c` with an empty container. -/
def localReset (s : MultimapState K T) : MultimapState K T := { s with c := [] }

/-- `local_unique_size`: recounts only when `local_changed` is set. -/
def localUniqueSize (s : MultimapState K T) : ℕ × MultimapState K T :=
  if s.localChanged then
    (distinctKeys s.c, { s with localChanged := false, localUniqueCount := distinctKeys s.c })
  else (s.localUniqueCount, s)

/-- The operations of a multimap rank, each as its local effect. -/
inductive Op (K T : Type)
  | insert (pred : Option (InsertPredicate (K × T))) (input : List (K × T))
  | eraseKeys (pred : Option (Predicate (K × T))) (keys : List K)
  | localClear
  | localReset
  | localUniqueSize

def step (s : MultimapState K T) : Op K T → MultimapState K T
  | .insert pred input => (s.localInsert pred input).2
  | .eraseKeys pred keys => (s.eraseKeys pred keys).2
  | .localClear => s.localClear
  | .localReset => s.localReset
  | .localUniqueSize => s.localUniqueSize.2

def run (s : MultimapState K T) (ops : List (Op K T)) : MultimapState K T := ops.foldl step s

/-- The operations that mutate `c` only through a path that maintains `local_changed`. -/
def Op.MaintainsFlag : Op K T → Prop
  | .localClear => False
  | .localReset => False
  | _ => True

/-- The cache is right whenever the flag is clear. -/
def CacheValid (s : MultimapState K T) : Prop :=
  s.localChanged = false → s.localUniqueCount = distinctKeys s.c

theorem initial_cacheValid : (initial : MultimapState K T).CacheValid := fun _ => rfl

theorem CacheValid.update {s : MultimapState K T} (h : s.CacheValid) (c : List (K × T))
    (b : Bool) (hb : b = false → c = s.c) :
    CacheValid { s with c := c, localChanged := s.localChanged || b } := by
  intro hflag
  simp only [Bool.or_eq_false_iff] at hflag
  rw [hb hflag.2]
  exact h hflag.1

theorem eraseIn_sublist (db : List (K × T)) (v : K) (pred : Option (Predicate (K × T))) :
    List.Sublist (Query.eraseIn db v pred) db := by
  cases pred with
  | none => exact List.filter_sublist _
  | some p =>
    simp only [Query.eraseIn]
    split_ifs
    · exact List.filter_sublist _
    · exact List.Sublist.refl _

theorem process_erase_sublist (pred : Option (Predicate (K × T))) (db : List (K × T))
    (keys : List K) : List.Sublist (Query.process (Query.eraseElement pred) db keys).1 db := by
  induction keys generalizing db with
  | nil => exact List.Sublist.refl _
  | cons k keys ih =>
    rw [Query.process_cons]
    exact (ih _).trans (eraseIn_sublist db k pred)

theorem localInsert_cacheValid {s : MultimapState K T} (h : s.CacheValid)
    (pred : Option (InsertPredicate (K × T))) (input : List (K × T)) :
    (s.localInsert pred input).2.CacheValid := by
  refine h.update _ _ fun hb => ?_
  simp only [bne_eq_false_iff_eq, List.length_append, List.length_reverse] at hb
  have h0 : (InsertPredicate.kept pred input).length = 0 := by omega
  rw [List.length_eq_zero.mp h0, List.reverse_nil, List.nil_append]

theorem eraseKeys_cacheValid {s : MultimapState K T} (h : s.CacheValid)
    (pred : Option (Predicate (K × T))) (keys : List K) :
    (s.eraseKeys pred keys).2.CacheValid := by
  refine h.update _ _ fun hb => ?_
  simp only [bne_eq_false_iff_eq] at hb
  exact (process_erase_sublist pred s.c keys).eq_of_length hb.symm

theorem localUniqueSize_cacheValid {s : MultimapState K T} (h : s.CacheValid) :
    s.localUniqueSize.2.CacheValid := by
  unfold localUniqueSize
  split_ifs
  · exact fun _ => rfl
  · exact h

/-- Every operation that maintains the flag keeps the cache valid. -/
theorem step_cacheValid {s : MultimapState K T} (h : s.CacheValid) {op : Op K T}
    (hop : op.MaintainsFlag) : (s.step op).CacheValid := by
  cases op with
  | insert pred input => exact localInsert_cacheValid h pred input
  | eraseKeys pred keys => exact eraseKeys_cacheValid h pred keys
  | localClear => exact hop.elim
  | localReset => exact hop.elim
  | localUniqueSize => exact localUniqueSize_cacheValid h

theorem run_cacheValid {s : MultimapState K T} (h : s.CacheValid) {ops : List (Op K T)}
    (hops : ∀ op ∈ ops, op.MaintainsFlag) : (s.run ops).CacheValid := by
  induction ops generalizing s with
  | nil => exact h
  | cons op ops ih =>
    exact ih (step_cacheValid h (hops op (List.mem_cons_self _ _)))
      fun op' hop' => hops op' (List.mem_cons_of_mem _ hop')

theorem localUniqueSize_fst {s : MultimapState K T} (h : s.CacheValid) :
    s.localUniqueSize.1 = distinctKeys s.c := by
  unfold localUniqueSize
  split_ifs with hflag
  · rfl
  · exact h (by simpa using hflag)

/-- Along every run from the constructed state that avoids `local_clear` and
`local_reset`, `local_unique_size` answers the number of distinct local keys. -/
theorem run_localUniqueSize {ops : List (Op K T)} (hops : ∀ op ∈ ops, op.MaintainsFlag) :
    ((initial : MultimapState K T).run ops).localUniqueSize.1 =
      distinctKeys ((initial : MultimapState K T).run ops).c :=
  localUniqueSize_fst (run_cacheValid initial_cacheValid hops)

theorem run_localUniqueSize_erase :
    (∀ op ∈ ([.insert none [(1, 5), (1, 6)], .localUniqueSize, .eraseKeys none [1],
        .insert none [(2, 3)]] : List (Op ℕ ℕ)), op.MaintainsFlag) ∧
      ((initial : MultimapState ℕ ℕ).run [.insert none [(1, 5), (1, 6)], .localUniqueSize,
          .eraseKeys none [1], .insert none [(2, 3)]]).localUniqueSize.1 =
        distinctKeys ((initial : MultimapState ℕ ℕ).run [.insert none [(1, 5), (1, 6)],
          .localUniqueSize, .eraseKeys none [1], .insert none [(2, 3)]]).c := by
  have hops : ∀ op ∈ ([.insert none [(1, 5), (1, 6)], .localUniqueSize, .eraseKeys none [1],
      .insert none [(2, 3)]] : List (Op ℕ ℕ)), op.MaintainsFlag := by
    simp [Op.MaintainsFlag]
  exact ⟨hops, run_localUniqueSize hops⟩

/-- Insert one pair, query, clear, query again: the second answer is the cached `1`
although the container is empty. -/
theorem localUniqueSize_stale_after_clear (k : K) (v : T) :
    ((initial : MultimapState K T).run
        [.insert none [(k, v)], .localUniqueSize, .localClear]).localUniqueSize.1 = 1 ∧
      distinctKeys ((initial : MultimapState K T).run
        [.insert none [(k, v)], .localUniqueSize, .localClear]).c = 0 := by
  simp [run, step, initial, localInsert, InsertPredicate.kept, localUniqueSize, localClear,
    distinctKeys]

end MultimapState

end KmerCount
