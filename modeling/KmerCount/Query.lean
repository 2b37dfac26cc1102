import KmerCount.LocalTable

/-!
# Local query operators

`unordered_map_base` answers every distributed query by running `LocalCount`, `LocalFind` or
`LocalErase` on each key a rank receives, driven by `QueryProcessor::process`.  A predicate
of `bliss::filter` is called on a key's whole range and on one element; `TruePredicate`
selects the unfiltered overloads and is `none` here.  The operators see a key only through
its equal range, so one definition serves the multimap and the unique-key table.
-/

namespace KmerCount

/-- A query predicate: `range` is `pred(first, last)`, `elem` is `pred(*it)`. -/
structure Predicate (α : Type) where
  range : List α → Bool
  elem : α → Bool

/-- A range predicate that does not read the order of the range.  The standard leaves the
order of an `unordered_multimap` equal range open, so the multimap's results need these. -/
def Predicate.OrderFree {α : Type} (p : Predicate α) : Prop :=
  ∀ xs ys : List α, xs.Perm ys → p.range xs = p.range ys

def orderFree {α : Type} : Option (Predicate α) → Prop
  | none => True
  | some p => p.OrderFree

/-- The contract of `std::partition(first, last, pred)`: a rearrangement of the range with
every element that passes `pred` in front.  The order inside each part is left open. -/
structure Partitioned {α : Type} (p : α → Bool) (xs out : List α) : Prop where
  perm : out.Perm xs
  front : out = out.filter p ++ out.filter fun x => !p x

/-- A predicate as `local_insert(first, last, pred)` uses it: `pred(*it)`, and the order in
which `std::partition` leaves a range, known only through its contract. -/
structure InsertPredicate (α : Type) where
  elem : α → Bool
  partition : List α → List α
  partitioned : ∀ xs, Partitioned elem xs (partition xs)

namespace InsertPredicate

variable {α : Type}

/-- One partition that meets the contract: the stable one. -/
def stable (p : α → Bool) : InsertPredicate α where
  elem := p
  partition xs := xs.filter p ++ xs.filter fun x => !p x
  partitioned xs := ⟨List.filter_append_perm p xs, by simp [List.filter_append, List.filter_filter]⟩

/-- The pairs an insert accepts; `none` is the `TruePredicate` overload. -/
def accepts : Option (InsertPredicate α) → α → Bool
  | none => fun _ => true
  | some p => p.elem

/-- The pairs `local_insert` emplaces: the whole range for `TruePredicate`, otherwise the
front part `[first, new_end)` that `std::partition` leaves. -/
def kept : Option (InsertPredicate α) → List α → List α
  | none, xs => xs
  | some p, xs => (p.partition xs).take (xs.countP p.elem)

theorem kept_perm (pred : Option (InsertPredicate α)) (xs : List α) :
    (kept pred xs).Perm (xs.filter (accepts pred)) := by
  cases pred with
  | none => simp [kept, accepts]
  | some p =>
    have h := p.partitioned xs
    have hlen : xs.countP p.elem = ((p.partition xs).filter p.elem).length := by
      rw [← List.countP_eq_length_filter, h.perm.countP_eq]
    have hfront : (p.partition xs).take ((p.partition xs).filter p.elem).length =
        (p.partition xs).filter p.elem :=
      (congrArg (List.take _) h.front).trans (List.take_left _ _)
    rw [kept, hlen, hfront]
    exact h.perm.filter p.elem

theorem mem_of_mem_kept {pred : Option (InsertPredicate α)} {xs : List α} {x : α}
    (hx : x ∈ kept pred xs) : x ∈ xs :=
  List.mem_of_mem_filter ((kept_perm pred xs).subset hx)

end InsertPredicate

namespace Query

variable {K T : Type}

/-- The number `LocalCount` reports for one key: `db.count(v)` unfiltered, otherwise
`count_if(range, pred)` when the range passes `pred(first, last)`. -/
def countIn (range : List (K × T)) : Option (Predicate (K × T)) → ℕ
  | none => range.length
  | some pred => if pred.range range then range.countP pred.elem else 0

/-- The entries `LocalFind` emits for one key. -/
def findIn (range : List (K × T)) : Option (Predicate (K × T)) → List (K × T)
  | none => range
  | some pred => if pred.range range then range.filter pred.elem else []

/-- `QueryProcessor::process`: runs `op` on the queries in order, threading the container
(only an erase changes it), appending what each query emits and adding up what `op`
returns. -/
def process {σ β : Type} (op : σ → K → σ × List β × ℕ) (db : σ) : List K → σ × List β × ℕ
  | [] => (db, [], 0)
  | q :: qs =>
    let r := op db q
    let rest := process op r.1 qs
    (rest.1, r.2.1 ++ rest.2.1, r.2.2 + rest.2.2)

@[simp] theorem findIn_nil (pred : Option (Predicate (K × T))) : findIn [] pred = [] := by
  cases pred with
  | none => rfl
  | some p => simp [findIn]

theorem countIn_eq_length_findIn (range : List (K × T)) (pred : Option (Predicate (K × T))) :
    countIn range pred = (findIn range pred).length := by
  cases pred with
  | none => rfl
  | some pred =>
    simp only [countIn, findIn]
    split_ifs
    · exact List.countP_eq_length_filter _ _
    · rfl

theorem findIn_sublist (range : List (K × T)) (pred : Option (Predicate (K × T))) :
    (findIn range pred).Sublist range := by
  cases pred with
  | none => exact List.Sublist.refl _
  | some p =>
    simp only [findIn]
    split_ifs
    · exact List.filter_sublist _
    · exact List.nil_sublist _

theorem mem_of_mem_findIn {range : List (K × T)} {pred : Option (Predicate (K × T))}
    {e : K × T} (h : e ∈ findIn range pred) : e ∈ range :=
  (findIn_sublist range pred).subset h

theorem findIn_perm {xs ys : List (K × T)} {pred : Option (Predicate (K × T))}
    (hpred : orderFree pred) (h : xs.Perm ys) : (findIn xs pred).Perm (findIn ys pred) := by
  cases pred with
  | none => exact h
  | some p =>
    simp only [findIn, show p.range xs = p.range ys from hpred xs ys h]
    split_ifs
    · exact h.filter _
    · exact List.Perm.refl _

@[simp] theorem process_nil {σ β : Type} (op : σ → K → σ × List β × ℕ) (db : σ) :
    process op db [] = (db, [], 0) := rfl

theorem process_cons {σ β : Type} (op : σ → K → σ × List β × ℕ) (db : σ) (q : K) (qs : List K) :
    process op db (q :: qs) =
      ((process op (op db q).1 qs).1, (op db q).2.1 ++ (process op (op db q).1 qs).2.1,
        (op db q).2.2 + (process op (op db q).1 qs).2.2) := rfl

theorem process_readOnly {σ β : Type} (op : σ → K → σ × List β × ℕ)
    (hop : ∀ db q, (op db q).1 = db) (db : σ) (qs : List K) :
    process op db qs = (db, qs.flatMap fun q => (op db q).2.1, (qs.map fun q => (op db q).2.2).sum) := by
  induction qs with
  | nil => rfl
  | cons q qs ih => rw [process_cons, hop, ih]; simp

/-- `QueryProcessor::process` over a local operator that is undefined on some queries: the run
is undefined as soon as one of its queries is. -/
def processOpt {σ β : Type} (op : σ → K → Option (σ × List β × ℕ)) (db : σ) :
    List K → Option (σ × List β × ℕ)
  | [] => some (db, [], 0)
  | q :: qs => (op db q).bind fun r =>
    (processOpt op r.1 qs).map fun rest => (rest.1, r.2.1 ++ rest.2.1, r.2.2 + rest.2.2)

theorem processOpt_readOnly {σ β : Type} (op : σ → K → Option (σ × List β × ℕ)) (db : σ)
    (defined : K → Bool) (out : K → List β × ℕ)
    (hop : ∀ q, op db q = if defined q then some (db, out q) else none) (qs : List K) :
    processOpt op db qs =
      if ∀ q ∈ qs, defined q then
        some (db, qs.flatMap fun q => (out q).1, (qs.map fun q => (out q).2).sum)
      else none := by
  induction qs with
  | nil => simp [processOpt]
  | cons q qs ih =>
    simp only [processOpt, hop, List.forall_mem_cons]
    by_cases hq : defined q <;> by_cases hqs : ∀ q ∈ qs, defined q <;> simp [hq, hqs, ih]

variable [DecidableEq K]

/-- `db.equal_range(v)` of a multimap. -/
def equalRange (db : List (K × T)) (v : K) : List (K × T) := db.filter fun e => e.1 = v

theorem fst_of_mem_equalRange {db : List (K × T)} {v : K} {e : K × T}
    (he : e ∈ equalRange db v) : e.1 = v :=
  of_decide_eq_true (List.mem_filter.mp he).2

/-- The equal range of `v` in a unique-key table: its entry, if any. -/
def tableRange (c : Table K T) (v : K) : List (K × T) :=
  match c.lookup v with
  | some x => [(v, x)]
  | none => []

/-- `LocalErase` on a multimap: `db.erase(v)` unfiltered; otherwise, when the range passes
`pred(first, last)`, every entry of `v` that passes `pred(*it)`. -/
def eraseIn (db : List (K × T)) (v : K) : Option (Predicate (K × T)) → List (K × T)
  | none => db.filter fun e => e.1 ≠ v
  | some pred =>
    if pred.range (equalRange db v) then db.filter fun e => ¬(e.1 = v ∧ pred.elem e) else db

/-- `LocalCount` on a multimap: emits `(v, n)` and returns `1`. -/
def countElement (pred : Option (Predicate (K × T))) (db : List (K × T)) (v : K) :
    List (K × T) × List (K × ℕ) × ℕ :=
  (db, [(v, countIn (equalRange db v) pred)], 1)

/-- `unordered_multimap::LocalFind`: emits the entries found and returns their number. -/
def findElement (pred : Option (Predicate (K × T))) (db : List (K × T)) (v : K) :
    List (K × T) × List (K × T) × ℕ :=
  (db, findIn (equalRange db v) pred, (findIn (equalRange db v) pred).length)

/-- `LocalErase` on a multimap: returns the number of entries removed. -/
def eraseElement (pred : Option (Predicate (K × T))) (db : List (K × T)) (v : K) :
    List (K × T) × List (K × T) × ℕ :=
  (eraseIn db v pred, [], db.length - (eraseIn db v pred).length)

/-- `LocalCount` on a unique-key table. -/
def tableCountElement (pred : Option (Predicate (K × T))) (c : Table K T) (v : K) :
    Table K T × List (K × ℕ) × ℕ :=
  (c, [(v, countIn (tableRange c v) pred)], 1)

/-- Whether `unordered_map::LocalFind` is defined on `v`: always unfiltered; the filtered
overload runs `++next` on `db.find(v)` before comparing it with `end()`, so only for a key the
table holds. -/
def tableFindDefined (pred : Option (Predicate (K × T))) (c : Table K T) (v : K) : Bool :=
  pred.isNone || v ∈ c

/-- `unordered_map::LocalFind`: emits the entry of `v` when the table holds it and, with a
predicate, when it passes `pred(iter, next)` and `pred(*iter)`; returns the number emitted.
Undefined (`none`) where `tableFindDefined` fails. -/
def tableFindElement (pred : Option (Predicate (K × T))) (c : Table K T) (v : K) :
    Option (Table K T × List (K × T) × ℕ) :=
  match c.lookup v, pred with
  | none, none => some (c, [], 0)
  | none, some _ => none
  | some x, none => some (c, [(v, x)], 1)
  | some x, some p =>
    some (if p.range [(v, x)] && p.elem (v, x) then (c, [(v, x)], 1) else (c, [], 0))

theorem tableFindElement_eq (pred : Option (Predicate (K × T))) (c : Table K T) (v : K) :
    tableFindElement pred c v =
      if tableFindDefined pred c v then
        some (c, findIn (tableRange c v) pred, (findIn (tableRange c v) pred).length)
      else none := by
  unfold tableFindElement tableFindDefined tableRange
  cases hv : c.lookup v with
  | none =>
    have hmem : v ∉ c := fun h => by simp [← AList.lookup_isSome, hv] at h
    cases pred <;> simp [hmem]
  | some x =>
    have hmem : v ∈ c := AList.lookup_isSome.mp (by rw [hv]; rfl)
    cases pred with
    | none => rfl
    | some p =>
      by_cases hr : p.range [(v, x)] <;> by_cases he : p.elem (v, x) <;> simp [findIn, hr, he, hmem]

/-- `LocalErase` on a unique-key table: `db.erase(v)` unfiltered, returning the size it lost;
with a predicate, the entry of `v` when its one-entry range passes `pred(first, last)` and the
entry passes `pred(*it)`, returning the number of entries removed. -/
def tableEraseElement (pred : Option (Predicate (K × T))) (c : Table K T) (v : K) :
    Table K T × List (K × T) × ℕ :=
  match pred, c.lookup v with
  | none, _ => (c.erase v, [], c.size - Table.size (c.erase v))
  | some _, none => (c, [], 0)
  | some p, some x => if p.range [(v, x)] && p.elem (v, x) then (c.erase v, [], 1) else (c, [], 0)

/-- The counts `LocalCount` reports over a segment add up to the number of entries
`LocalFind` emits over it. -/
theorem process_find_eq_count (pred : Option (Predicate (K × T))) (db : List (K × T))
    (qs : List K) :
    (process (findElement pred) db qs).2.2 =
      ((process (countElement pred) db qs).2.1.map Prod.snd).sum := by
  rw [process_readOnly _ (fun _ _ => rfl), process_readOnly _ (fun _ _ => rfl)]
  induction qs with
  | nil => rfl
  | cons q qs ih =>
    simp only [List.map_cons, List.sum_cons, List.flatMap_cons, List.map_append,
      List.sum_append] at ih ⊢
    rw [ih]
    simp [findElement, countElement, countIn_eq_length_findIn]

end Query

end KmerCount
