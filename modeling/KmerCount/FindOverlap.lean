import KmerCount.Distributed

/-!
# The exchange of `find_overlap`

With more than one rank, `find_overlap` sends the counts `LocalCount` reports with
`mxx::all2all`, posts one `MPI_Irecv` per source into `results`, and then, round by round,
runs `LocalFind` into half `i % 2` of a double buffer and sends what it found.  Because
`LocalFind` emits exactly what `LocalCount` counted, every receive matches its send and the
windows fill `results` with every source's answer in source order (`findOverlap_exchange`).
`MPI` and `mxx` are not in the repository and are modelled from their specifications.
-/

namespace KmerCount

/-! ## Receive windows -/

section Windows

variable {α ι : Type}

/-- Modelled from the spec: `MPI_Irecv(&buf[displ], count, ...)` into a buffer of `size`
slots, completed by `msg`.  The message lands in `[displ, displ + |msg|)` when it is no longer
than `count` and the posted window fits the buffer; otherwise the receive fails.  A zero-count
window at `displ = size`, like `&local_results[0]` on an empty buffer, forms its address with
`operator[]` one past the end, which the standard leaves undefined; the model reads it as the
address it is meant to be, where nothing is written. -/
def recvInto (size : ℕ) (buf : ℕ → Option α) (displ count : ℕ) (msg : List α) :
    Option (ℕ → Option α) :=
  if msg.length ≤ count ∧ displ + count ≤ size then
    some fun j => if displ ≤ j ∧ j < displ + msg.length then msg[j - displ]? else buf j
  else none

/-- Modelled from the spec: `mxx::impl::get_displacements`, which the repository does not
contain; where the part of the `i`-th list starts in the flattened list. -/
def displacement (L : List (List α)) (i : ℕ) : ℕ := ((L.map List.length).take i).sum

theorem length_flatten_take (L : List (List α)) (i : ℕ) :
    (L.take i).flatten.length = displacement L i := by
  simp [displacement, List.length_flatten, List.map_take]

theorem flatten_eq_window (L : List (List α)) {i : ℕ} (hi : i < L.length) :
    L.flatten = (L.take i).flatten ++ (L[i] ++ (L.drop (i + 1)).flatten) := by
  conv_lhs => rw [← List.take_append_drop i L, List.drop_eq_getElem_cons hi]
  simp only [List.flatten_append, List.flatten_cons]

theorem getElem?_flatten_window (L : List (List α)) {i : ℕ} (hi : i < L.length) {k : ℕ}
    (hk : k < L[i].length) : L.flatten[displacement L i + k]? = L[i][k]? := by
  rw [flatten_eq_window L hi, List.getElem?_append_right (by rw [length_flatten_take]; omega),
    length_flatten_take, Nat.add_sub_cancel_left, List.getElem?_append_left hk]

theorem displacement_add_le (L : List (List α)) {i : ℕ} (hi : i < L.length) :
    displacement L i + L[i].length ≤ L.flatten.length := by
  rw [flatten_eq_window L hi, List.length_append, List.length_append, length_flatten_take]
  omega

theorem exists_window (L : List (List α)) {j : ℕ} (hj : j < L.flatten.length) :
    ∃ i, ∃ hi : i < L.length, displacement L i ≤ j ∧ j < displacement L i + L[i].length := by
  induction L generalizing j with
  | nil => simp at hj
  | cons x L ih =>
    by_cases hx : j < x.length
    · exact ⟨0, Nat.succ_pos _, Nat.zero_le j, Nat.lt_of_lt_of_eq hx (Nat.zero_add _).symm⟩
    · obtain ⟨i, hi, h₁, h₂⟩ := ih (j := j - x.length) (by simp at hj ⊢; omega)
      have hd : displacement (x :: L) (i + 1) = x.length + displacement L i := by
        simp [displacement]
      refine ⟨i + 1, Nat.succ_lt_succ hi, ?_, ?_⟩
      · rw [hd]; omega
      · rw [hd, List.getElem_cons_succ]; omega

theorem foldlM_recvInto (flat : List α) (D cnt : ι → ℕ) (msg : ι → List α)
    (hlen : ∀ i, (msg i).length = cnt i) (hwin : ∀ i, D i + cnt i ≤ flat.length)
    (hcontent : ∀ i k, k < (msg i).length → flat[D i + k]? = (msg i)[k]?) :
    ∀ (rounds S : List ι) (buf : ℕ → Option α),
      (∀ j, (∃ i ∈ S, D i ≤ j ∧ j < D i + cnt i) → buf j = flat[j]?) →
      ∃ buf', rounds.foldlM (fun buf i => recvInto flat.length buf (D i) (cnt i) (msg i)) buf =
          some buf' ∧
        ∀ j, (∃ i ∈ S ++ rounds, D i ≤ j ∧ j < D i + cnt i) → buf' j = flat[j]? := by
  intro rounds
  induction rounds with
  | nil => exact fun S buf h => ⟨buf, rfl, by rwa [List.append_nil]⟩
  | cons i rounds ih =>
    intro S buf hbuf
    have hrecv : recvInto flat.length buf (D i) (cnt i) (msg i) = some fun j =>
        if D i ≤ j ∧ j < D i + (msg i).length then (msg i)[j - D i]? else buf j :=
      if_pos ⟨(hlen i).le, hwin i⟩
    obtain ⟨buf', hfold, hbuf'⟩ := ih (S ++ [i])
      (fun j => if D i ≤ j ∧ j < D i + (msg i).length then (msg i)[j - D i]? else buf j)
      fun j ⟨i', hi', hj⟩ => by
      dsimp only
      split_ifs with hji
      · rw [← hcontent i (j - D i) (by omega), Nat.add_sub_cancel' hji.1]
      · rcases List.mem_append.mp hi' with hS | hi'
        · exact hbuf j ⟨i', hS, hj⟩
        · obtain rfl := List.mem_singleton.mp hi'
          exact absurd ⟨hj.1, hlen i' ▸ hj.2⟩ hji
    refine ⟨buf', by rw [List.foldlM_cons, hrecv]; exact hfold, fun j hj => hbuf' j ?_⟩
    rwa [List.append_assoc, List.singleton_append]

end Windows

/-! ## Rounds -/

section Rounds

variable {P : ℕ} [NeZero P]

/-- `send_to = (rank + i) % size` in round `i`. -/
def sendTo (d i : Fin P) : Fin P := ⟨(d.val + i.val) % P, Nat.mod_lt _ (Nat.pos_of_neZero P)⟩

/-- `recv_from = (rank + (size - i)) % size` in round `i`. -/
def recvFrom (q i : Fin P) : Fin P :=
  ⟨(q.val + (P - i.val)) % P, Nat.mod_lt _ (Nat.pos_of_neZero P)⟩

theorem sendTo_eq_add (d i : Fin P) : sendTo d i = d + i := rfl

theorem recvFrom_eq_sub (q i : Fin P) : recvFrom q i = q - i :=
  Fin.ext (by rw [Fin.coe_sub, Nat.add_comm]; rfl)

theorem round_eq_of_recvFrom {q s i i' : Fin P} (hr : recvFrom q i = s) (hs : sendTo s i' = q) :
    i = i' := by
  rw [recvFrom_eq_sub] at hr
  rw [sendTo_eq_add, ← hr, sub_add_eq_add_sub, sub_eq_iff_eq_add, add_right_inj] at hs
  exact hs.symm

theorem recvFrom_sub (q s : Fin P) : recvFrom q (q - s) = s := by
  rw [recvFrom_eq_sub, sub_sub_cancel]

end Rounds

/-! ## One `find_overlap` call -/

/-- The arguments of one collective `find_overlap` call on a multimap: the routing hash, the
key transform, the predicate, and each rank's container and query keys. -/
structure FindQuery (K T : Type) (P : ℕ) where
  hash : K → ℕ
  transform : K → K
  pred : Option (Predicate (K × T))
  c : Fin P → List (K × T)
  keys : Fin P → List K

namespace FindQuery

variable {K T : Type} [DecidableEq K] {P : ℕ} [NeZero P] (Q : FindQuery K T P)

def uniqueKeys (r : Fin P) : List K := ((Q.keys r).map Q.transform).dedup

/-- The segment of rank `d`'s received keys that came from rank `i`: `recv_counts[i]` keys from
`recv_displs[i]` on. -/
def segment (d i : Fin P) : List K := sendSegment (keyToRank Q.hash P) (Q.uniqueKeys i) d

/-- `send_counts[i]` on rank `d`: the counts `LocalCount` reports over the segment from `i`,
added up by `std::accumulate`. -/
def sendCounts (d i : Fin P) : ℕ :=
  ((Query.process (Query.countElement Q.pred) (Q.c d) (Q.segment d i)).2.1.map Prod.snd).sum

/-- `max_send_count` on rank `d`: `std::max_element` over `send_counts`. -/
def maxSendCount (d : Fin P) : ℕ := ((List.finRange P).map (Q.sendCounts d)).foldr max 0

/-- Modelled from the spec: `resp_counts = mxx::all2all(send_counts)` on rank `q`, where
`mxx` is not in the repository; entry `s` is rank `s`'s `send_counts[q]`. -/
def respCounts (q s : Fin P) : ℕ := Q.sendCounts s q

/-- `resp_displs = get_displacements(resp_counts)` on rank `q`. -/
def respDispls (q s : Fin P) : ℕ := (((List.finRange P).map (Q.respCounts q)).take s).sum

/-- `resp_total = resp_displs[size - 1] + resp_counts[size - 1]`, the size of `results`. -/
def respTotal (q : Fin P) : ℕ :=
  Q.respDispls q ⟨P - 1, by have := Nat.pos_of_neZero P; omega⟩ +
    Q.respCounts q ⟨P - 1, by have := Nat.pos_of_neZero P; omega⟩

/-- `found` in round `i` of rank `d`: what `LocalFind` returns over the segment of `send_to`. -/
def found (d i : Fin P) : ℕ :=
  (Query.process (Query.findElement Q.pred) (Q.c d) (Q.segment d (sendTo d i))).2.2

/-- The entries rank `s` finds for rank `q`'s keys: its message to `q`. -/
def messageTo (s q : Fin P) : List (K × T) :=
  (Query.process (Query.findElement Q.pred) (Q.c s) (Q.segment s q)).2.1

def recvAll (q : Fin P) : Option (ℕ → Option (K × T)) :=
  (List.finRange P).foldlM (fun buf i =>
    recvInto (Q.respTotal q) buf (Q.respDispls q (recvFrom q i)) (Q.respCounts q (recvFrom q i))
      (Q.messageTo (recvFrom q i) q)) fun _ => none

def answers (q : Fin P) : List (K × T) := (List.finRange P).flatMap fun s => Q.messageTo s q

/-- `find_overlap(find_element, keys, sorted_input, pred)` on rank `q`: `results`, a slot
holding `none` when no receive wrote it; `none` altogether when a receive fails. -/
def findOverlap (q : Fin P) : Option (List (Option (K × T))) :=
  if globalEmpty Q.c || globalEmpty Q.keys then some []
  else if 1 < P then (Q.recvAll q).map fun buf => (List.range (Q.respTotal q)).map buf
  else some ((Query.process (Query.findElement Q.pred) (Q.c q) (Q.uniqueKeys q)).2.1.map some)

theorem process_findElement_count (pred : Option (Predicate (K × T))) (db : List (K × T))
    (qs : List K) :
    (Query.process (Query.findElement pred) db qs).2.2 =
      (Query.process (Query.findElement pred) db qs).2.1.length := by
  rw [Query.process_readOnly _ fun _ _ => rfl]
  simp [Query.findElement, List.length_flatMap, Function.comp_def]

theorem length_messageTo (s q : Fin P) : (Q.messageTo s q).length = Q.sendCounts s q := by
  rw [messageTo, ← process_findElement_count, sendCounts, Query.process_find_eq_count]

theorem sendCounts_le_maxSendCount (d i : Fin P) : Q.sendCounts d i ≤ Q.maxSendCount d :=
  List.le_max_of_le (l := (List.finRange P).map (Q.sendCounts d))
    (List.mem_map_of_mem _ (List.mem_finRange i)) le_rfl

/-! ### `results` is filled exactly -/

def messages (q : Fin P) : List (List (K × T)) := (List.finRange P).map fun s => Q.messageTo s q

theorem answers_eq_flatten (q : Fin P) : Q.answers q = (Q.messages q).flatten := rfl

theorem length_messages (q : Fin P) : (Q.messages q).length = P := by simp [messages]

theorem messages_getElem (q s : Fin P) (h : s.val < (Q.messages q).length) :
    (Q.messages q)[s.val] = Q.messageTo s q := by
  simp [messages]

theorem respDispls_eq_displacement (q s : Fin P) :
    Q.respDispls q s = displacement (Q.messages q) s := by
  simp only [respDispls, displacement, messages, List.map_map]
  congr 2
  exact List.map_congr_left fun s' _ => (Q.length_messageTo s' q).symm

theorem length_answers (q : Fin P) :
    (Q.answers q).length = ((List.finRange P).map (Q.respCounts q)).sum := by
  simp [answers, List.length_flatMap, Function.comp_def, length_messageTo]
  rfl

theorem respTotal_eq_length (q : Fin P) : Q.respTotal q = (Q.answers q).length := by
  have hP := Nat.pos_of_neZero P
  have hsucc := List.sum_take_succ ((List.finRange P).map (Q.respCounts q)) (P - 1) (by simp; omega)
  rw [Nat.sub_add_cancel hP, List.take_of_length_le (by simp)] at hsucc
  rw [length_answers, hsucc, respTotal, respDispls]
  simp

theorem recvAll_eq (q : Fin P) :
    ∃ buf, Q.recvAll q = some buf ∧
      (List.range (Q.respTotal q)).map buf = (Q.answers q).map some := by
  have hlt : ∀ s : Fin P, s.val < (Q.messages q).length := fun s => by simp [length_messages]
  obtain ⟨buf, hfold, hbuf⟩ := foldlM_recvInto (Q.answers q)
    (fun i => Q.respDispls q (recvFrom q i)) (fun i => Q.respCounts q (recvFrom q i))
    (fun i => Q.messageTo (recvFrom q i) q)
    (fun i => Q.length_messageTo _ q)
    (fun i => by
      have h := displacement_add_le (Q.messages q) (hlt (recvFrom q i))
      rwa [Q.messages_getElem, ← respDispls_eq_displacement, length_messageTo] at h)
    (fun i k hk => by
      have h := getElem?_flatten_window (Q.messages q) (hlt (recvFrom q i))
        (k := k) (by rwa [Q.messages_getElem])
      rwa [Q.messages_getElem, ← respDispls_eq_displacement, ← answers_eq_flatten] at h)
    (List.finRange P) [] (fun _ => none) (by simp)
  refine ⟨buf, ?_, ?_⟩
  · rw [recvAll, respTotal_eq_length]
    exact hfold
  · refine List.ext_getElem (by simp [respTotal_eq_length]) fun j hj _ => ?_
    rw [List.getElem_map, List.getElem_range, List.getElem_map]
    have hj' : j < (Q.messages q).flatten.length := by
      rw [← answers_eq_flatten, ← respTotal_eq_length]; simpa using hj
    obtain ⟨s, hs, h₁, h₂⟩ := exists_window (Q.messages q) hj'
    have hsP : s < P := by simpa [length_messages] using hs
    have hwin : Q.respDispls q ⟨s, hsP⟩ ≤ j ∧ j < Q.respDispls q ⟨s, hsP⟩ + Q.respCounts q ⟨s, hsP⟩ := by
      rw [respDispls_eq_displacement, respCounts, ← length_messageTo, ← Q.messages_getElem]
      exact ⟨h₁, h₂⟩
    rw [hbuf j ⟨q - ⟨s, hsP⟩, List.mem_append_right _ (List.mem_finRange _), by
      rw [recvFrom_sub]; exact hwin⟩]
    exact List.getElem?_eq_getElem hj'

/-- The exchange of `find_overlap` with more than one rank.  For every destination the entries
`LocalFind` emits over its segment are as many as `send_counts` holds; each send stays inside
its half of `local_results`; the receive a rank posts for a source carries the tag of that
source's send to it and a count equal to its length; and the receives fill `results`, of size
`resp_total`, with every source's answer in source order, leaving no slot unwritten. -/
theorem findOverlap_exchange :
    (∀ d e : Fin P,
      (Query.process (Query.findElement Q.pred) (Q.c d) (Q.segment d e)).2.2 = Q.sendCounts d e ∧
      (Query.process (Query.findElement Q.pred) (Q.c d) (Q.segment d e)).2.1.length =
        Q.sendCounts d e) ∧
    (∀ d i : Fin P, Q.found d i ≤ Q.maxSendCount d ∧
      i.val % 2 * Q.maxSendCount d + Q.found d i ≤ (i.val % 2 + 1) * Q.maxSendCount d) ∧
    (∀ q s i i' : Fin P, recvFrom q i = s → sendTo s i' = q → i = i') ∧
    (∀ q s : Fin P, Q.respCounts q s = (Q.messageTo s q).length) ∧
    ∀ q : Fin P, ∃ buf, Q.recvAll q = some buf ∧
      (List.range (Q.respTotal q)).map buf = (Q.answers q).map some := by
  refine ⟨fun d e => ⟨Query.process_find_eq_count _ _ _, ?_⟩, fun d i => ?_,
    fun q s i i' => round_eq_of_recvFrom, fun q s => (Q.length_messageTo s q).symm,
    Q.recvAll_eq⟩
  · exact (Q.length_messageTo d e)
  · have h := Q.sendCounts_le_maxSendCount d (sendTo d i)
    have hfound : Q.found d i = Q.sendCounts d (sendTo d i) := Query.process_find_eq_count _ _ _
    rw [hfound, Nat.succ_mul]
    exact ⟨h, by omega⟩

theorem findOverlap_exchange_two_ranks :
    let Q : FindQuery ℕ ℕ 2 := ⟨id, id, none, fun r => if r = 0 then [(1, 5), (1, 6)] else [(2, 7)],
      fun r => if r = 0 then [2] else [1, 2]⟩
    NeZero 2 ∧
    (∀ d e : Fin 2,
      (Query.process (Query.findElement Q.pred) (Q.c d) (Q.segment d e)).2.2 = Q.sendCounts d e ∧
      (Query.process (Query.findElement Q.pred) (Q.c d) (Q.segment d e)).2.1.length =
        Q.sendCounts d e) ∧
    (∀ d i : Fin 2, Q.found d i ≤ Q.maxSendCount d ∧
      i.val % 2 * Q.maxSendCount d + Q.found d i ≤ (i.val % 2 + 1) * Q.maxSendCount d) ∧
    (∀ q s i i' : Fin 2, recvFrom q i = s → sendTo s i' = q → i = i') ∧
    (∀ q s : Fin 2, Q.respCounts q s = (Q.messageTo s q).length) ∧
    ∀ q : Fin 2, ∃ buf, Q.recvAll q = some buf ∧
      (List.range (Q.respTotal q)).map buf = (Q.answers q).map some := by
  intro Q
  exact ⟨inferInstance, Q.findOverlap_exchange⟩

/-- With more than one rank and a query that is not globally empty, `find_overlap` returns
every source's answer in source order, with no slot unwritten. -/
theorem findOverlap_eq_answers (hP : 1 < P) (hc : globalEmpty Q.c = false)
    (hk : globalEmpty Q.keys = false) (q : Fin P) :
    Q.findOverlap q = some ((Q.answers q).map some) := by
  obtain ⟨buf, hrecv, hbuf⟩ := Q.recvAll_eq q
  simp [findOverlap, hc, hk, hP, hrecv, hbuf]

theorem process_findElement_entries (pred : Option (Predicate (K × T))) (db : List (K × T))
    (qs : List K) :
    (Query.process (Query.findElement pred) db qs).2.1 =
      qs.flatMap fun k => Query.findIn (Query.equalRange db k) pred := by
  rw [Query.process_readOnly _ fun _ _ => rfl]
  rfl

theorem fst_of_mem_findIn {db : List (K × T)} {k : K} {pred : Option (Predicate (K × T))}
    {e : K × T} (he : e ∈ Query.findIn (Query.equalRange db k) pred) : e.1 = k := by
  have hsub : e ∈ Query.equalRange db k := by
    cases pred with
    | none => exact he
    | some p =>
      simp only [Query.findIn] at he
      split_ifs at he
      · exact List.mem_of_mem_filter he
      · simp at he
  exact Query.fst_of_mem_equalRange hsub

/-- The answers rank `q` gets are the entries, held by the owner of each key it asked for,
that `LocalFind` accepts. -/
theorem mem_answers (q : Fin P) (e : K × T) :
    e ∈ Q.answers q ↔ e.1 ∈ Q.uniqueKeys q ∧
      e ∈ Query.findIn (Query.equalRange (Q.c (keyToRank Q.hash P e.1)) e.1) Q.pred := by
  simp only [answers, messageTo, process_findElement_entries, List.mem_flatMap,
    List.mem_finRange, true_and, segment, mem_sendSegment]
  constructor
  · rintro ⟨s, k, ⟨hk, hks⟩, he⟩
    obtain rfl := fst_of_mem_findIn he
    exact ⟨hk, hks ▸ he⟩
  · rintro ⟨hk, he⟩
    exact ⟨_, e.1, ⟨hk, rfl⟩, he⟩

theorem answers_perm (q : Fin P) :
    (Q.answers q).Perm ((Q.uniqueKeys q).flatMap fun k =>
      Query.findIn (Query.equalRange (Q.c (keyToRank Q.hash P k)) k) Q.pred) := by
  simp only [answers, messageTo, process_findElement_entries, segment]
  exact flatMap_sendSegment_perm _ _ fun s k => Query.findIn (Query.equalRange (Q.c s) k) Q.pred

end FindQuery

end KmerCount
