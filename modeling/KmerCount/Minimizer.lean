import Mathlib

/-!
# The rolling m-mer of `minimizer.cpp`

`Minimizer<valType>` packs the last `mmer_size` bases of a read two bits a base into a
`w`-bit word (`BitVec w`): `init` reads the first window, `next` shifts one base in and masks
the word.  `setMmerSize` computes the mask on a 32-bit `int`, whose left shift is undefined
from a count of 32 on, and returns `none` there.  With a defined mask and `2 * mmer_size ≤ w`
the word is the packing of the current window, and the comparisons order windows
lexicographically.
-/

namespace KmerCount

/-! ## The `int` arithmetic of `setMmerSize` -/

/-- Reads an integer modulo `2^32` back as a signed 32-bit `int`. -/
def toInt32 (x : ℤ) : ℤ :=
  if x % 2 ^ 32 < 2 ^ 31 then x % 2 ^ 32 else x % 2 ^ 32 - 2 ^ 32

/-- `a << s` on a 32-bit `int` (C++20): the value congruent to `a * 2^s` modulo `2^32`;
undefined for a shift count of 32 or more. -/
def intShiftLeft (a : ℤ) (s : ℕ) : Option ℤ :=
  if s < 32 then some (toInt32 (a * 2 ^ s)) else none

/-- `a - b` on a 32-bit `int`: undefined when the difference overflows. -/
def intSub (a b : ℤ) : Option ℤ :=
  if -2 ^ 31 ≤ a - b ∧ a - b < 2 ^ 31 then some (a - b) else none

theorem intShiftLeft_one {s : ℕ} (hs : s < 31) : intShiftLeft 1 s = some (2 ^ s) := by
  have hlt : (2 : ℤ) ^ s < 2 ^ 31 := pow_lt_pow_right₀ (by norm_num) hs
  have hpos : (0 : ℤ) < 2 ^ s := by positivity
  have hmod : (2 : ℤ) ^ s % 2 ^ 32 = 2 ^ s := Int.emod_eq_of_lt hpos.le (by omega)
  simp only [intShiftLeft, toInt32, if_pos (show s < 32 by omega), one_mul, hmod, if_pos hlt]

theorem intShiftLeft_of_le {a : ℤ} {s : ℕ} (hs : 32 ≤ s) : intShiftLeft a s = none := by
  simp [intShiftLeft, show ¬ s < 32 by omega]

/-! ## The class -/

/-- `Minimizer<valType>` for a `w`-bit unsigned `valType`. -/
structure Minimizer (w : ℕ) where
  val : BitVec w
  mmerSize : ℕ
  mask : BitVec w

namespace Minimizer

variable {w : ℕ}

/-- `setMmerSize`: stores the size and `mask = (1 << (2 * mmer_size)) - 1`, computed on
`int` and converted to `valType`. -/
def setMmerSize (m : Minimizer w) (mmerSize : ℕ) : Option (Minimizer w) := do
  let shifted ← intShiftLeft 1 (2 * mmerSize)
  let mask ← intSub shifted 1
  pure { m with mmerSize := mmerSize, mask := BitVec.ofInt w mask }

def getValue (m : Minimizer w) : BitVec w := m.val

/-- `init`: `val = 0`, then `mmer_size` times `val <<= 2; val |= *begin; ++begin`. -/
def init (m : Minimizer w) (bases : List ℕ) : Minimizer w :=
  { m with val := (bases.take m.mmerSize).foldl (fun v b => (v <<< 2) ||| BitVec.ofNat w b) 0 }

/-- `next`: `val <<= 2; val &= mask; val |= *begin`. -/
def next (m : Minimizer w) (base : ℕ) : Minimizer w :=
  { m with val := ((m.val <<< 2) &&& m.mask) ||| BitVec.ofNat w base }

def lt (a b : Minimizer w) : Bool := decide (a.val < b.val)

def gt (a b : Minimizer w) : Bool := decide (a.val > b.val)

def eq (a b : Minimizer w) : Bool := decide (a.val = b.val)

def ne (a b : Minimizer w) : Bool := decide (a.val ≠ b.val)

/-- `init(s.begin())` followed by `next(s.begin() + M)`, ..., `next(s.begin() + M + n - 1)`. -/
def roll (m : Minimizer w) (s : List ℕ) (n : ℕ) : Minimizer w :=
  ((s.drop m.mmerSize).take n).foldl next (m.init s)

@[simp] theorem init_mmerSize (m : Minimizer w) (s : List ℕ) : (m.init s).mmerSize = m.mmerSize :=
  rfl

@[simp] theorem init_mask (m : Minimizer w) (s : List ℕ) : (m.init s).mask = m.mask := rfl

@[simp] theorem next_mmerSize (m : Minimizer w) (b : ℕ) : (m.next b).mmerSize = m.mmerSize := rfl

@[simp] theorem next_mask (m : Minimizer w) (b : ℕ) : (m.next b).mask = m.mask := rfl

theorem setMmerSize_eq_none {m : Minimizer w} {M : ℕ} (hM : 16 ≤ M) : m.setMmerSize M = none := by
  simp [setMmerSize, intShiftLeft_of_le (show 32 ≤ 2 * M by omega)]

theorem setMmerSize_eq_some {m : Minimizer w} {M : ℕ} (hM : M ≤ 15) :
    m.setMmerSize M =
      some { m with mmerSize := M, mask := BitVec.ofInt w ((2 : ℤ) ^ (2 * M) - 1) } := by
  have hlt : (2 : ℤ) ^ (2 * M) < 2 ^ 31 := pow_lt_pow_right₀ (by norm_num) (by omega)
  have hpos : (0 : ℤ) < 2 ^ (2 * M) := by positivity
  have hsub : intSub (2 ^ (2 * M)) 1 = some (2 ^ (2 * M) - 1) := by
    simp only [intSub]
    rw [if_pos ⟨by omega, by omega⟩]
  simp [setMmerSize, intShiftLeft_one (show 2 * M < 31 by omega), hsub]

theorem setMmerSize_isSome_iff (m : Minimizer w) (M : ℕ) :
    (m.setMmerSize M).isSome ↔ M ≤ 15 := by
  by_cases hM : M ≤ 15
  · simp [setMmerSize_eq_some hM, hM]
  · simp [setMmerSize_eq_none (show 16 ≤ M by omega), hM]

theorem setMmerSize_fields {m mz : Minimizer w} {M : ℕ} (hset : m.setMmerSize M = some mz)
    (hw : 2 * M ≤ w) : mz.mmerSize = M ∧ mz.mask.toNat = 2 ^ (2 * M) - 1 := by
  have hM : M ≤ 15 := (setMmerSize_isSome_iff m M).mp (by simp [hset])
  rw [setMmerSize_eq_some hM, Option.some.injEq] at hset
  subst hset
  refine ⟨rfl, ?_⟩
  have hle : 2 ^ (2 * M) ≤ 2 ^ w := Nat.pow_le_pow_right (by norm_num) hw
  have hone : 1 ≤ 2 ^ (2 * M) := Nat.one_le_two_pow
  have hcast : (2 : ℤ) ^ (2 * M) - 1 = ((2 ^ (2 * M) - 1 : ℕ) : ℤ) := by
    push_cast [Nat.cast_sub hone]; ring
  rw [BitVec.toNat_ofInt, hcast, Int.emod_eq_of_lt (by positivity) (by omega), Int.toNat_natCast]

end Minimizer

/-! ## Packing -/

/-- Two bits a base, the first base in the most significant pair. -/
def pack (bases : List ℕ) : ℕ := bases.foldl (fun v b => 4 * v + b) 0

/-- The window `s[n, n + M)`. -/
def window (s : List ℕ) (n M : ℕ) : List ℕ := (s.drop n).take M

theorem foldl_pack (acc : ℕ) (l : List ℕ) :
    l.foldl (fun v b => 4 * v + b) acc = acc * 4 ^ l.length + pack l := by
  induction l generalizing acc with
  | nil => simp [pack]
  | cons a l ih =>
    simp only [List.foldl_cons, pack, List.length_cons] at ih ⊢
    rw [ih, ih (4 * 0 + a)]
    ring

theorem pack_cons (a : ℕ) (l : List ℕ) : pack (a :: l) = a * 4 ^ l.length + pack l := by
  simpa [pack] using foldl_pack a l

theorem pack_append_singleton (l : List ℕ) (b : ℕ) : pack (l ++ [b]) = 4 * pack l + b := by
  simp [pack, List.foldl_append]

theorem mul_pow_add_lt {a b x n : ℕ} (hab : a < b) (hx : x < 4 ^ n) : a * 4 ^ n + x < b * 4 ^ n := by
  have : (a + 1) * 4 ^ n ≤ b * 4 ^ n := Nat.mul_le_mul_right _ hab
  rw [Nat.succ_mul] at this
  omega

theorem pack_lt (l : List ℕ) (hl : ∀ b ∈ l, b < 4) : pack l < 4 ^ l.length := by
  induction l with
  | nil => simp [pack]
  | cons a l ih =>
    rw [pack_cons, List.length_cons, pow_succ']
    exact mul_pow_add_lt (hl a (by simp)) (ih fun b hb => hl b (by simp [hb]))

theorem pack_eq_sum (l : List ℕ) :
    pack l = ∑ j ∈ Finset.range l.length, l.getD j 0 * 4 ^ (l.length - 1 - j) := by
  induction l with
  | nil => simp [pack]
  | cons a l ih =>
    rw [pack_cons, ih, List.length_cons, Finset.sum_range_succ']
    simp only [List.getD_cons_succ, List.getD_cons_zero, Nat.add_sub_cancel, Nat.sub_zero]
    rw [add_comm]
    congr 1
    refine Finset.sum_congr rfl fun j hj => ?_
    rw [Finset.mem_range] at hj
    congr 2
    omega

theorem pack_lt_pack_iff {l₁ l₂ : List ℕ} (hlen : l₁.length = l₂.length)
    (h₁ : ∀ b ∈ l₁, b < 4) (h₂ : ∀ b ∈ l₂, b < 4) :
    pack l₁ < pack l₂ ↔ List.Lex (· < ·) l₁ l₂ := by
  induction l₁ generalizing l₂ with
  | nil =>
    cases l₂ with
    | nil => exact ⟨fun h => absurd h (lt_irrefl _), fun h => nomatch h⟩
    | cons => simp at hlen
  | cons a l₁ ih =>
    cases l₂ with
    | nil => simp at hlen
    | cons b l₂ =>
      simp only [List.length_cons, add_left_inj] at hlen
      have ih' := ih hlen (fun x hx => h₁ x (by simp [hx])) (fun x hx => h₂ x (by simp [hx]))
      have hp₁ := pack_lt l₁ fun x hx => h₁ x (by simp [hx])
      have hp₂ := hlen ▸ pack_lt l₂ fun x hx => h₂ x (by simp [hx])
      rw [pack_cons, pack_cons, ← hlen]
      rcases lt_trichotomy a b with hab | rfl | hab
      · refine ⟨fun _ => List.Lex.rel hab, fun _ => ?_⟩
        have := mul_pow_add_lt hab hp₁
        omega
      · rw [List.Lex.cons_iff, ← ih']
        omega
      · constructor
        · intro h
          have := mul_pow_add_lt hab hp₂
          omega
        · intro h
          cases h with
          | cons h => exact absurd rfl (ne_of_gt hab)
          | rel h => exact absurd h (lt_asymm hab)

theorem pack_inj {l₁ l₂ : List ℕ} (hlen : l₁.length = l₂.length)
    (h₁ : ∀ b ∈ l₁, b < 4) (h₂ : ∀ b ∈ l₂, b < 4) (h : pack l₁ = pack l₂) : l₁ = l₂ := by
  rcases trichotomous_of (List.Lex fun a b : ℕ => a < b) l₁ l₂ with hlt | heq | hgt
  · exact absurd h (ne_of_lt ((pack_lt_pack_iff hlen h₁ h₂).mpr hlt))
  · exact heq
  · exact absurd h (ne_of_gt ((pack_lt_pack_iff hlen.symm h₂ h₁).mpr hgt))

theorem length_window {s : List ℕ} {n M : ℕ} (h : n + M ≤ s.length) : (window s n M).length = M := by
  rw [window, List.length_take, List.length_drop]
  omega

theorem mem_of_mem_window {s : List ℕ} {n M b : ℕ} (h : b ∈ window s n M) : b ∈ s :=
  List.mem_of_mem_drop (List.mem_of_mem_take h)

theorem window_bases {s : List ℕ} {n M : ℕ} (hs : ∀ b ∈ s, b < 4) :
    ∀ b ∈ window s n M, b < 4 := fun b hb => hs b (mem_of_mem_window hb)

theorem getD_lt_four {s : List ℕ} {i : ℕ} (hs : ∀ b ∈ s, b < 4) (h : i < s.length) :
    s.getD i 0 < 4 := by
  rw [List.getD_eq_getElem?_getD, List.getElem?_eq_getElem h, Option.getD_some]
  exact hs _ (List.getElem_mem h)

theorem window_succ_right {s : List ℕ} {n M : ℕ} (h : n + M < s.length) :
    window s n (M + 1) = window s n M ++ [s.getD (n + M) 0] := by
  rw [window, List.take_succ, List.getElem?_drop, List.getD_eq_getElem?_getD,
    List.getElem?_eq_getElem h]
  rfl

theorem window_succ_left {s : List ℕ} {n M : ℕ} (h : n < s.length) :
    window s n (M + 1) = s.getD n 0 :: window s (n + 1) M := by
  rw [window, List.drop_eq_getElem_cons h, List.take_succ_cons, List.getD_eq_getElem?_getD,
    List.getElem?_eq_getElem h, Option.getD_some]
  rfl

theorem pack_window_succ {s : List ℕ} {n M : ℕ} (hs : ∀ b ∈ s, b < 4) (h : n + M < s.length) :
    pack (window s (n + 1) M) = (4 * pack (window s n M) + s.getD (n + M) 0) % 4 ^ M := by
  have hsplit := (window_succ_right h).symm.trans (window_succ_left (by omega))
  have hpack := congrArg pack hsplit
  rw [pack_append_singleton, pack_cons, length_window (by omega)] at hpack
  have hlt := pack_lt (window s (n + 1) M) (window_bases hs)
  rw [length_window (by omega)] at hlt
  rw [hpack, Nat.mul_add_mod', Nat.mod_eq_of_lt hlt]

namespace Minimizer

variable {w : ℕ}

theorem shiftLeft_or_toNat (v : BitVec w) {b : ℕ} (hb : b < 4) (hfit : 4 * v.toNat + b < 2 ^ w) :
    ((v <<< 2) ||| BitVec.ofNat w b).toNat = 4 * v.toNat + b := by
  rw [BitVec.toNat_or, BitVec.toNat_shiftLeft, Nat.shiftLeft_eq, BitVec.toNat_ofNat,
    Nat.mod_eq_of_lt (show b < 2 ^ w by omega), Nat.mod_eq_of_lt (by omega), mul_comm]
  exact (Nat.mul_add_lt_is_or (i := 2) hb _).symm

theorem foldl_shift_or_toNat (l : List ℕ) (acc : BitVec w) (hl : ∀ b ∈ l, b < 4)
    (hfit : acc.toNat * 4 ^ l.length + pack l < 2 ^ w) :
    (l.foldl (fun (v : BitVec w) (b : ℕ) => (v <<< 2) ||| BitVec.ofNat w b) acc).toNat =
      acc.toNat * 4 ^ l.length + pack l := by
  induction l generalizing acc with
  | nil => simp [pack]
  | cons a l ih =>
    have ha := hl a (by simp)
    rw [pack_cons, List.length_cons] at hfit ⊢
    have hpow : 1 ≤ 4 ^ l.length := Nat.one_le_pow _ _ (by norm_num)
    have hstep : 4 * acc.toNat + a < 2 ^ w :=
      calc 4 * acc.toNat + a ≤ (4 * acc.toNat + a) * 4 ^ l.length := Nat.le_mul_of_pos_right _ hpow
        _ = acc.toNat * 4 ^ (l.length + 1) + a * 4 ^ l.length := by ring
        _ < 2 ^ w := by omega
    have hacc := shiftLeft_or_toNat acc ha hstep
    rw [List.foldl_cons, ih _ (fun b hb => hl b (by simp [hb]))
      (by rw [hacc]; exact lt_of_eq_of_lt (by ring) hfit), hacc]
    ring

theorem init_val (m : Minimizer w) {s : List ℕ} (hs : ∀ b ∈ s, b < 4)
    (hw : 2 * m.mmerSize ≤ w) (hlen : m.mmerSize ≤ s.length) :
    (m.init s).val.toNat = pack (s.take m.mmerSize) := by
  have hlt := pack_lt (s.take m.mmerSize) fun b hb => hs b (List.mem_of_mem_take hb)
  have hle : 4 ^ m.mmerSize ≤ 2 ^ w := by
    rw [show 4 = 2 ^ 2 by rfl, ← pow_mul]; exact Nat.pow_le_pow_right (by norm_num) hw
  rw [List.length_take, min_eq_left hlen] at hlt
  simpa using foldl_shift_or_toNat (s.take m.mmerSize) (0 : BitVec w)
    (fun b hb => hs b (List.mem_of_mem_take hb)) (by simp; omega)

theorem next_val (m : Minimizer w) {M b : ℕ} (hmask : m.mask.toNat = 2 ^ (2 * M) - 1)
    (hw : 2 * M ≤ w) (hM : 1 ≤ M) (hb : b < 4) :
    (m.next b).val.toNat = (4 * m.val.toNat + b) % 4 ^ M := by
  have h4 : (4 : ℕ) ^ M = 2 ^ (2 * M) := by rw [pow_mul]; rfl
  have hle : 2 ^ (2 * M) ≤ 2 ^ w := Nat.pow_le_pow_right (by norm_num) hw
  have hdvd : 2 ^ (2 * M) ∣ 2 ^ w := pow_dvd_pow 2 hw
  have hdvd4 : 4 ∣ 4 ^ M := dvd_pow_self 4 (by omega)
  have hand : ((m.val <<< 2) &&& m.mask).toNat = 4 * m.val.toNat % 4 ^ M := by
    rw [BitVec.toNat_and, hmask, Nat.and_pow_two_sub_one_eq_mod, BitVec.toNat_shiftLeft,
      Nat.shiftLeft_eq, Nat.mod_mod_of_dvd _ hdvd, h4, mul_comm]
  have hlt : 4 * m.val.toNat % 4 ^ M < 4 ^ M := Nat.mod_lt _ (by positivity)
  have hmod4 : 4 * m.val.toNat % 4 ^ M % 4 = 0 := by
    rw [Nat.mod_mod_of_dvd _ hdvd4]; omega
  have hsum : 4 * m.val.toNat % 4 ^ M + b < 4 ^ M := by
    have := Nat.mod_eq_zero_of_dvd hdvd4
    omega
  have hor := BitVec.toNat_or ((m.val <<< 2) &&& m.mask) (BitVec.ofNat w b)
  rw [hand, BitVec.toNat_ofNat, Nat.mod_eq_of_lt (show b < 2 ^ w by omega)] at hor
  obtain ⟨a, ha⟩ : ∃ a, 4 * m.val.toNat % 4 ^ M = 4 * a := ⟨_, (Nat.mul_div_cancel' (Nat.dvd_of_mod_eq_zero hmod4)).symm⟩
  simp only [next]
  rw [hor, ha, ← Nat.mul_add_lt_is_or (i := 2) hb a, ← ha, Nat.add_mod,
    Nat.mod_eq_of_lt (show b < 4 ^ M by omega), Nat.mod_eq_of_lt hsum]

theorem roll_succ (m : Minimizer w) {s : List ℕ} {n : ℕ} (h : m.mmerSize + n < s.length) :
    m.roll s (n + 1) = (m.roll s n).next (s.getD (m.mmerSize + n) 0) := by
  rw [roll, roll, List.take_succ, List.getElem?_drop, List.foldl_append,
    List.getElem?_eq_getElem h, List.getD_eq_getElem?_getD, List.getElem?_eq_getElem h,
    Option.getD_some]
  rfl

@[simp] theorem roll_mmerSize (m : Minimizer w) (s : List ℕ) (n : ℕ) :
    (m.roll s n).mmerSize = m.mmerSize := by
  simp only [roll]
  induction ((s.drop m.mmerSize).take n) using List.reverseRecOn with
  | nil => rfl
  | append_singleton l b ih => simp [List.foldl_append, ih]

@[simp] theorem roll_mask (m : Minimizer w) (s : List ℕ) (n : ℕ) : (m.roll s n).mask = m.mask := by
  simp only [roll]
  induction ((s.drop m.mmerSize).take n) using List.reverseRecOn with
  | nil => rfl
  | append_singleton l b ih => simp [List.foldl_append, ih]

theorem roll_getValue {m mz : Minimizer w} {M n : ℕ} {s : List ℕ}
    (hset : m.setMmerSize M = some mz) (hM : 1 ≤ M) (hw : 2 * M ≤ w)
    (hs : ∀ b ∈ s, b < 4) (hn : M + n ≤ s.length) :
    (mz.roll s n).getValue.toNat = pack (window s n M) := by
  obtain ⟨hsize, hmask⟩ := setMmerSize_fields hset hw
  induction n with
  | zero =>
    rw [getValue, roll, List.take_zero, List.foldl_nil, init_val mz hs (hsize ▸ hw) (by omega),
      hsize]
    rfl
  | succ n ih =>
    have hstep := roll_succ mz (s := s) (n := n) (by omega)
    rw [getValue, hstep, next_val _ (by simpa using hmask) hw hM
      (getD_lt_four hs (by omega)), ← getValue, ih (by omega), hsize,
      pack_window_succ hs (by omega), Nat.add_comm n M]

theorem roll_compare {m₁ m₂ z₁ z₂ : Minimizer w} {M n₁ n₂ : ℕ} {s₁ s₂ : List ℕ}
    (hset₁ : m₁.setMmerSize M = some z₁) (hset₂ : m₂.setMmerSize M = some z₂)
    (hM : 1 ≤ M) (hw : 2 * M ≤ w) (hs₁ : ∀ b ∈ s₁, b < 4) (hs₂ : ∀ b ∈ s₂, b < 4)
    (hn₁ : M + n₁ ≤ s₁.length) (hn₂ : M + n₂ ≤ s₂.length) :
    (z₁.roll s₁ n₁).lt (z₂.roll s₂ n₂) =
        decide (List.Lex (· < ·) (window s₁ n₁ M) (window s₂ n₂ M)) ∧
      (z₁.roll s₁ n₁).gt (z₂.roll s₂ n₂) =
        decide (List.Lex (· < ·) (window s₂ n₂ M) (window s₁ n₁ M)) ∧
      (z₁.roll s₁ n₁).eq (z₂.roll s₂ n₂) = decide (window s₁ n₁ M = window s₂ n₂ M) ∧
      (z₁.roll s₁ n₁).ne (z₂.roll s₂ n₂) = decide (window s₁ n₁ M ≠ window s₂ n₂ M) := by
  have hv₁ := roll_getValue hset₁ hM hw hs₁ hn₁
  have hv₂ := roll_getValue hset₂ hM hw hs₂ hn₂
  have hlen : (window s₁ n₁ M).length = (window s₂ n₂ M).length := by
    rw [length_window (by omega), length_window (by omega)]
  have heq : (z₁.roll s₁ n₁).val = (z₂.roll s₂ n₂).val ↔ window s₁ n₁ M = window s₂ n₂ M := by
    rw [BitVec.toNat_eq]
    exact ⟨fun h => pack_inj hlen (window_bases hs₁) (window_bases hs₂) (hv₁ ▸ hv₂ ▸ h),
      fun h => by rw [getValue] at hv₁ hv₂; rw [hv₁, hv₂, h]⟩
  simp only [lt, gt, eq, ne, BitVec.lt_def, GT.gt]
  rw [getValue] at hv₁ hv₂
  refine ⟨?_, ?_, ?_, ?_⟩
  · rw [hv₁, hv₂]
    exact decide_eq_decide.mpr (pack_lt_pack_iff hlen (window_bases hs₁) (window_bases hs₂))
  · rw [hv₁, hv₂]
    exact decide_eq_decide.mpr (pack_lt_pack_iff hlen.symm (window_bases hs₂) (window_bases hs₁))
  · exact decide_eq_decide.mpr heq
  · exact decide_eq_decide.mpr (not_congr heq)

/-- With a 64-bit `valType`, `setMmerSize(16)` shifts the `int` literal `1` by 32: undefined. -/
theorem setMmerSize_sixteen_word64 (m : Minimizer 64) : m.setMmerSize 16 = none :=
  setMmerSize_eq_none le_rfl

end Minimizer

end KmerCount
