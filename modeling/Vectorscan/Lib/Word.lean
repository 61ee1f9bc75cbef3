import Mathlib.Data.Nat.Bitwise
import Mathlib.Data.Nat.Digits.Defs
import Mathlib.Tactic.Linarith

/-!
# Machine words as natural numbers

A `w`-bit machine word is a natural number below `2 ^ w`; its bit `i` is
`Nat.testBit x i`.  This module collects the word operations used by the
bit-set code of the development, each with the lemma that says what it does
bit by bit, so that later proofs rewrite with `testBit` and never unfold.

* `lowMask w`: the `w` low bits set (`(1 << w) - 1`);
* `compl w x`: complement within `w` bits (`~x`);
* `firstIn p lo hi`: the least `i ∈ [lo, hi)` with `p i`, if any; a scan that
  returns it or `hi` stops at or before every hit (`firstIn_getD_le`);
  `lastIn p lo hi`, the greatest one;
* `lowestBit w x`: the index of the least set bit (what `ctz` returns);
* the highest set bit is `Nat.log2` (core's `Nat.testBit_log2`), with
  `testBit_eq_false_of_log2_lt` and `log2_eq_of_testBit`;
* a little-endian word of bytes is `Nat.ofDigits 256` of its bytes:
  `ofDigits_map_land_eq_iff` says that a masked compare of two such words is
  the compare of every byte, and `and_or_eq_or_and_iff` splits a compare
  under a merged mask into its two compares.

Nothing here names the program; the lemmas are used at the word widths of
the multibit and of the bounded-repeat models.
-/

namespace Vectorscan
namespace Word

/-! ## Masks and complement -/

/-- The mask with the `w` low bits set. -/
def lowMask (w : Nat) : Nat := 2 ^ w - 1

@[simp] theorem testBit_lowMask (w i : Nat) :
    (lowMask w).testBit i = decide (i < w) := by
  simp [lowMask]

theorem lowMask_lt (w : Nat) : lowMask w < 2 ^ w := by
  have := Nat.two_pow_pos w
  unfold lowMask
  omega

theorem lowMask_lt_of_le {w v : Nat} (h : w ≤ v) : lowMask w < 2 ^ v :=
  lt_of_lt_of_le (lowMask_lt w) (Nat.pow_le_pow_right (by decide) h)

/-- Complement within `w` bits. -/
def compl (w x : Nat) : Nat := x ^^^ lowMask w

theorem testBit_compl {w x : Nat} (hx : x < 2 ^ w) (i : Nat) :
    (compl w x).testBit i = (decide (i < w) && !x.testBit i) := by
  unfold compl
  rw [Nat.testBit_xor, testBit_lowMask]
  by_cases hi : i < w
  · simp [hi]
  · have : x.testBit i = false :=
      Nat.testBit_lt_two_pow (lt_of_lt_of_le hx (Nat.pow_le_pow_right (by decide) (by omega)))
    simp [hi, this]

/-- Below the width, the complement flips every bit, whatever the high bits of `x`. -/
theorem testBit_compl_of_lt {w x i : Nat} (hi : i < w) : (compl w x).testBit i = !x.testBit i := by
  unfold compl
  rw [Nat.testBit_xor, testBit_lowMask, decide_eq_true hi, Bool.xor_true]

theorem testBit_eq_false_of_lt {x w i : Nat} (hx : x < 2 ^ w) (hi : w ≤ i) :
    x.testBit i = false :=
  Nat.testBit_lt_two_pow (lt_of_lt_of_le hx (Nat.pow_le_pow_right (by decide) hi))

theorem compl_lt (w x : Nat) (hx : x < 2 ^ w) : compl w x < 2 ^ w :=
  Nat.lt_pow_two_of_testBit _ fun i hi => by
    rw [testBit_compl hx]
    simp [Nat.not_lt.mpr hi]

/-- A word holds the `w` low bits of a mask exactly when it has each of them. -/
theorem and_lowMask_eq_iff {x w : Nat} :
    x &&& lowMask w = lowMask w ↔ ∀ j, j < w → x.testBit j = true := by
  constructor
  · intro h j hj
    have := congrArg (Nat.testBit · j) h
    simp only [Nat.testBit_and, testBit_lowMask, hj, decide_true, Bool.and_true] at this
    exact this
  · intro h
    apply Nat.eq_of_testBit_eq
    intro j
    rw [Nat.testBit_and, testBit_lowMask]
    by_cases hj : j < w
    · simp [hj, h j hj]
    · simp [hj]

/-! ## Least index with a property -/

/-- The least `i` with `lo ≤ i < hi` and `p i`, if there is one. -/
def firstIn (p : Nat → Bool) (lo hi : Nat) : Option Nat :=
  (List.range' lo (hi - lo)).find? p

theorem firstIn_eq_some_iff {p : Nat → Bool} {lo hi i : Nat} :
    firstIn p lo hi = some i ↔
      lo ≤ i ∧ i < hi ∧ p i = true ∧ ∀ j, lo ≤ j → j < i → p j = false := by
  unfold firstIn
  rw [List.find?_range'_eq_some, List.mem_range'_1]
  constructor
  · rintro ⟨hp, ⟨h1, h2⟩, hmin⟩
    exact ⟨h1, by omega, hp, fun j hj hji => by simpa using hmin j hj hji⟩
  · rintro ⟨h1, h2, hp, hmin⟩
    exact ⟨hp, ⟨h1, by omega⟩, fun j hj hji => by simpa using hmin j hj hji⟩

theorem firstIn_eq_none_iff {p : Nat → Bool} {lo hi : Nat} :
    firstIn p lo hi = none ↔ ∀ j, lo ≤ j → j < hi → p j = false := by
  unfold firstIn
  rw [List.find?_range'_eq_none]
  constructor
  · intro h j hj hjh
    simpa using h j hj (by omega)
  · intro h j hj hjh
    simpa using h j hj (by omega)

theorem firstIn_isSome_iff {p : Nat → Bool} {lo hi : Nat} :
    (firstIn p lo hi).isSome ↔ ∃ k, lo ≤ k ∧ k < hi ∧ p k = true := by
  unfold firstIn
  rw [List.find?_isSome]
  constructor
  · rintro ⟨k, hk, hp⟩
    rw [List.mem_range'_1] at hk
    exact ⟨k, hk.1, by omega, hp⟩
  · rintro ⟨k, h1, h2, hp⟩
    exact ⟨k, List.mem_range'_1.mpr ⟨h1, by omega⟩, hp⟩

/-- `firstIn` depends only on the values of `p` inside the range. -/
theorem firstIn_congr {p q : Nat → Bool} {lo hi : Nat}
    (h : ∀ j, lo ≤ j → j < hi → p j = q j) : firstIn p lo hi = firstIn q lo hi := by
  cases hq : firstIn q lo hi with
  | some i =>
      obtain ⟨h1, h2, h3, h4⟩ := firstIn_eq_some_iff.1 hq
      refine firstIn_eq_some_iff.2 ⟨h1, h2, by rw [h i h1 h2]; exact h3, fun j hj hji => ?_⟩
      rw [h j hj (by omega)]
      exact h4 j hj hji
  | none =>
      refine firstIn_eq_none_iff.2 fun j hj hjh => ?_
      rw [h j hj hjh]
      exact firstIn_eq_none_iff.1 hq j hj hjh

/-- Splitting the search range at `mid`: the first half is searched first. -/
theorem firstIn_split {p : Nat → Bool} {lo hi : Nat} (mid : Nat) (h1 : lo ≤ mid) (h2 : mid ≤ hi) :
    firstIn p lo hi = (firstIn p lo mid).or (firstIn p mid hi) := by
  cases hA : firstIn p lo mid with
  | some i =>
      rw [firstIn_eq_some_iff] at hA
      rw [Option.some_or, firstIn_eq_some_iff]
      obtain ⟨a1, a2, a3, a4⟩ := hA
      exact ⟨a1, by omega, a3, a4⟩
  | none =>
      rw [firstIn_eq_none_iff] at hA
      simp only [Option.none_or]
      cases hB : firstIn p mid hi with
      | some i =>
          rw [firstIn_eq_some_iff] at hB ⊢
          obtain ⟨b1, b2, b3, b4⟩ := hB
          refine ⟨by omega, b2, b3, fun j hj hji => ?_⟩
          by_cases hjm : j < mid
          · exact hA j hj hjm
          · exact b4 j (by omega) hji
      | none =>
          rw [firstIn_eq_none_iff] at hB ⊢
          intro j hj hjh
          by_cases hjm : j < mid
          · exact hA j hj hjm
          · exact hB j (by omega) hjh

/-- Searching with a window `[b, e)` folded into the predicate. -/
theorem firstIn_window (p : Nat → Bool) (b e lo hi : Nat) :
    firstIn (fun k => decide (b ≤ k ∧ k < e) && p k) lo hi = firstIn p (max lo b) (min hi e) := by
  cases h : firstIn p (max lo b) (min hi e) with
  | some i =>
      obtain ⟨h1, h2, h3, h4⟩ := firstIn_eq_some_iff.1 h
      refine firstIn_eq_some_iff.2 ⟨by omega, by omega, by simp [h3]; omega, fun j hj hji => ?_⟩
      by_cases hjb : b ≤ j
      · simp [h4 j (by omega) hji]
      · simp [hjb]
  | none =>
      refine firstIn_eq_none_iff.2 fun j hj hjh => ?_
      by_cases hw : b ≤ j ∧ j < e
      · simp [hw, firstIn_eq_none_iff.1 h j (by omega) (by omega)]
      · simp [hw]

/-- Extending the search range over indices where `p` fails changes nothing. -/
theorem firstIn_extend {p : Nat → Bool} {lo hi hi' : Nat} (hle : hi ≤ hi')
    (h : ∀ k, hi ≤ k → k < hi' → p k = false) : firstIn p lo hi' = firstIn p lo hi := by
  by_cases hlo : lo ≤ hi
  · have hnone : firstIn p hi hi' = none := firstIn_eq_none_iff.2 fun k h1 h2 => h k h1 h2
    rw [firstIn_split hi hlo hle, hnone]
    cases firstIn p lo hi <;> rfl
  · have hnone : firstIn p lo hi = none := firstIn_eq_none_iff.2 fun k h1 h2 => by omega
    rw [hnone]
    exact firstIn_eq_none_iff.2 fun k h1 h2 => h k (by omega) h2

/-- Two adjacent ranges without a hit make one. -/
theorem firstIn_none_trans {p : Nat → Bool} {a b c : Nat} (hab : a ≤ b) (hbc : b ≤ c)
    (h1 : firstIn p a b = none) (h2 : firstIn p b c = none) : firstIn p a c = none := by
  rw [firstIn_split b hab hbc, h1, h2]
  rfl

/-- No hit in a range means no hit in any shorter one. -/
theorem firstIn_none_of_le {p : Nat → Bool} {a b c : Nat} (hbc : b ≤ c) (h : firstIn p a c = none) :
    firstIn p a b = none :=
  firstIn_eq_none_iff.2 fun j h1 h2 => firstIn_eq_none_iff.1 h j h1 (by omega)

/-- No hit in a range means no hit in any range inside it. -/
theorem firstIn_none_of_sub {p : Nat → Bool} {a b a' b' : Nat} (ha : a' ≤ a) (hb : b ≤ b')
    (h : firstIn p a' b' = none) : firstIn p a b = none :=
  firstIn_eq_none_iff.2 fun j h1 h2 => firstIn_eq_none_iff.1 h j (by omega) (by omega)

/-- A range without a hit, continued by a range without a hit that starts
inside it, makes a longer range without a hit. -/
theorem firstIn_none_extend {p : Nat → Bool} {a b c d : Nat} (h1 : firstIn p a b = none)
    (hc : c ≤ b) (h2 : firstIn p c d = none) : firstIn p a (max b d) = none := by
  refine firstIn_eq_none_iff.2 fun j hj hjd => ?_
  by_cases hjb : j < b
  · exact firstIn_eq_none_iff.1 h1 j hj hjb
  · exact firstIn_eq_none_iff.1 h2 j (by omega) (by omega)

/-- A hit with no hit before it is the first one. -/
theorem firstIn_eq_some_of_none {p : Nat → Bool} {lo hi k : Nat} (h1 : lo ≤ k) (h2 : k < hi)
    (hk : p k = true) (h : firstIn p lo k = none) : firstIn p lo hi = some k :=
  firstIn_eq_some_iff.2 ⟨h1, h2, hk, fun j hj hjk => firstIn_eq_none_iff.1 h j hj hjk⟩

/-- A scan that returns the first hit, or `hi` when there is none, stops at
or before every hit. -/
theorem firstIn_getD_le {p : Nat → Bool} {lo hi k : Nat} (h1 : lo ≤ k) (h2 : k < hi) (hk : p k = true) :
    (firstIn p lo hi).getD hi ≤ k := by
  cases h : firstIn p lo hi with
  | none =>
    have := firstIn_eq_none_iff.1 h k h1 h2
    simp_all
  | some i =>
    obtain ⟨_, _, _, hmin⟩ := firstIn_eq_some_iff.1 h
    by_contra hlt
    have := hmin k h1 (by simp at hlt; omega)
    simp_all

/-- Below where such a scan stops there is no hit. -/
theorem firstIn_getD_miss {p : Nat → Bool} {lo hi k : Nat} (h1 : lo ≤ k) (h2 : k < (firstIn p lo hi).getD hi) :
    p k = false := by
  cases h : firstIn p lo hi with
  | none =>
    rw [h, Option.getD_none] at h2
    exact firstIn_eq_none_iff.1 h k h1 h2
  | some i =>
    rw [h, Option.getD_some] at h2
    exact (firstIn_eq_some_iff.1 h).2.2.2 k h1 h2

/-- Such a scan stops inside `[lo, hi]`. -/
theorem firstIn_getD_mem {p : Nat → Bool} {lo hi : Nat} (hlo : lo ≤ hi) :
    lo ≤ (firstIn p lo hi).getD hi ∧ (firstIn p lo hi).getD hi ≤ hi := by
  cases h : firstIn p lo hi with
  | none => exact ⟨hlo, Nat.le_refl hi⟩
  | some i =>
    obtain ⟨hi1, hi2, -⟩ := firstIn_eq_some_iff.1 h
    exact ⟨hi1, Nat.le_of_lt hi2⟩

/-- Past the first hit, "from `lo` on" and "from the first hit on" select the same hits. -/
theorem and_le_eq_of_firstIn {p : Nat → Bool} {lo hi r : Nat} (h : firstIn p lo hi = some r)
    (j : Nat) :
    (p j && decide (lo ≤ j)) = (p j && decide (r ≤ j)) := by
  obtain ⟨hlo, -, -, hmin⟩ := firstIn_eq_some_iff.1 h
  cases hp : p j with
  | false => rfl
  | true =>
    have hjr : lo ≤ j → r ≤ j := fun hj => by
      by_contra hlt
      rw [hmin j hj (by omega)] at hp
      cases hp
    simp only [Bool.true_and, decide_eq_decide]
    exact ⟨hjr, fun hrj => by omega⟩

/-- With no hit in `[lo, hi)`, the range has no hits to list. -/
theorem filter_range'_of_firstIn_none {p : Nat → Bool} {lo hi : Nat} (h : firstIn p lo hi = none) :
    (List.range' lo (hi - lo)).filter p = [] := by
  rw [List.filter_eq_nil_iff]
  intro i hmem
  rw [List.mem_range'_1] at hmem
  simp [firstIn_eq_none_iff.1 h i hmem.1 (by omega)]

/-- The hits of `[lo, hi)`, in order, are the first one and then the hits after it. -/
theorem filter_range'_of_firstIn_some {p : Nat → Bool} {lo hi k : Nat} (h : firstIn p lo hi = some k) :
    (List.range' lo (hi - lo)).filter p = k :: (List.range' (k + 1) (hi - (k + 1))).filter p := by
  obtain ⟨h1, h2, hk, hmin⟩ := firstIn_eq_some_iff.1 h
  -- the range is the part before the hit, the hit, and the part after it
  have hsplit : List.range' lo (hi - lo) =
      List.range' lo (k - lo) ++ List.range' k (hi - k) := by
    have happ := (List.range'_append_1 (s := lo) (m := k - lo) (n := hi - k)).symm
    rwa [show lo + (k - lo) = k by omega, show k - lo + (hi - k) = hi - lo by omega] at happ
  have hbefore : (List.range' lo (k - lo)).filter p = [] :=
    filter_range'_of_firstIn_none (firstIn_eq_none_iff.2 fun j hj hjk => hmin j hj hjk)
  rw [hsplit, List.filter_append, hbefore, List.nil_append,
    show hi - k = (hi - (k + 1)) + 1 by omega, List.range'_succ, List.filter_cons_of_pos hk]

theorem firstIn_of_le {p : Nat → Bool} {lo hi : Nat} (h : hi ≤ lo) : firstIn p lo hi = none :=
  firstIn_eq_none_iff.2 fun _ h1 h2 => absurd (Nat.lt_of_le_of_lt h1 h2) (Nat.not_lt.mpr h)

/-- The scan of a nonempty range looks at its lowest index first. -/
theorem firstIn_of_lt {p : Nat → Bool} {lo hi : Nat} (h : lo < hi) :
    firstIn p lo hi = if p lo then some lo else firstIn p (lo + 1) hi := by
  rw [firstIn, firstIn, show hi - lo = (hi - (lo + 1)) + 1 by omega, List.range'_succ, List.find?_cons]
  cases p lo <;> rfl

/-- Two overlapping ranges scanned in turn, the lower first: the first hit of
their union. -/
theorem firstIn_or_overlap {p : Nat → Bool} {a m m' b : Nat} (h1 : a ≤ m) (h2 : m ≤ m') :
    (firstIn p a m').or (firstIn p m b) = firstIn p a (max m' b) := by
  cases hA : firstIn p a m' with
  | some r => rw [Option.some_or, firstIn_split m' (Nat.le_trans h1 h2) (Nat.le_max_left _ _), hA, Option.some_or]
  | none =>
    have hm : firstIn p m m' = none := firstIn_none_of_sub h1 le_rfl hA
    rw [Option.none_or, firstIn_split m h1 (Nat.le_trans h2 (Nat.le_max_left _ _)), firstIn_none_of_le h2 hA,
      Option.none_or]
    rcases Nat.le_total b m' with hb | hb
    · rw [Nat.max_eq_left hb, hm, firstIn_none_of_le hb hm]
    · rw [Nat.max_eq_right hb]

/-- Cutting a scan's result at `mid` is the scan of `[lo, mid)`. -/
theorem firstIn_filter_lt {p : Nat → Bool} {lo mid hi : Nat} (h1 : lo ≤ mid) (h2 : mid ≤ hi) :
    (firstIn p lo hi).filter (fun r => decide (r < mid)) = firstIn p lo mid := by
  rw [firstIn_split mid h1 h2]
  cases hA : firstIn p lo mid with
  | some i =>
    have hi : i < mid := (firstIn_eq_some_iff.1 hA).2.1
    simp [Option.filter_some, hi]
  | none =>
    cases hB : firstIn p mid hi with
    | none => rfl
    | some i =>
      have hi : mid ≤ i := (firstIn_eq_some_iff.1 hB).1
      simp [Option.filter_some, Nat.not_lt.mpr hi]

/-- A scan of the `n` indices from `lo` is a search of `List.range n` shifted by `lo`. -/
theorem firstIn_eq_find?_range (p : Nat → Bool) (lo n : Nat) :
    firstIn p lo (lo + n) = ((List.range n).find? fun j => p (lo + j)).map (lo + ·) := by
  rw [firstIn, Nat.add_sub_cancel_left, List.range'_eq_map_range, List.find?_map]
  rfl

/-! ## Greatest index with a property -/

/-- The greatest `i` with `lo ≤ i < hi` and `p i`, if there is one. -/
def lastIn (p : Nat → Bool) (lo hi : Nat) : Option Nat :=
  (List.range' lo (hi - lo)).reverse.find? p

section LastIn

variable {p : Nat → Bool} {lo hi : Nat}

/-- The search looks at the top index first. -/
theorem lastIn_succ (h : lo ≤ hi) : lastIn p lo (hi + 1) = if p hi then some hi else lastIn p lo hi := by
  unfold lastIn
  rw [show hi + 1 - lo = hi - lo + 1 by omega, List.range'_1_concat, List.reverse_append,
    show lo + (hi - lo) = hi by omega, List.reverse_singleton, List.singleton_append, List.find?_cons]
  cases p hi <;> rfl

theorem lastIn_of_le (h : hi ≤ lo) : lastIn p lo hi = none := by
  rw [lastIn, Nat.sub_eq_zero_of_le h]
  rfl

theorem lastIn_eq_none_iff : lastIn p lo hi = none ↔ ∀ j, lo ≤ j → j < hi → p j = false := by
  unfold lastIn
  rw [List.find?_eq_none]
  constructor
  · intro h j hj hjh
    simpa using h j (List.mem_reverse.mpr (List.mem_range'_1.mpr ⟨hj, by omega⟩))
  · intro h j hj
    rw [List.mem_reverse, List.mem_range'_1] at hj
    simp [h j hj.1 (by omega)]

theorem lastIn_eq_some_iff {i : Nat} :
    lastIn p lo hi = some i ↔ lo ≤ i ∧ i < hi ∧ p i = true ∧ ∀ j, i < j → j < hi → p j = false := by
  -- induction on `hi`: the top index is looked at first
  induction hi with
  | zero => simp [lastIn_of_le (Nat.zero_le lo)]
  | succ hi ih =>
    by_cases hlo : lo ≤ hi
    · rw [lastIn_succ hlo]
      cases hp : p hi with
      | true =>
        simp only [if_true, Option.some.injEq]
        constructor
        · rintro rfl
          exact ⟨hlo, Nat.lt_succ_self hi, hp, fun j h1 h2 => absurd h2 (by omega)⟩
        · rintro ⟨-, h2, -, hmax⟩
          by_contra hne
          have := hmax hi (by omega) (Nat.lt_succ_self hi)
          simp_all
      | false =>
        rw [if_neg Bool.false_ne_true, ih]
        constructor
        · rintro ⟨h1, h2, h3, hmax⟩
          refine ⟨h1, by omega, h3, fun j hij hj => ?_⟩
          rcases Nat.lt_succ_iff_lt_or_eq.mp hj with hj | rfl
          · exact hmax j hij hj
          · exact hp
        · rintro ⟨h1, h2, h3, hmax⟩
          have hne : i ≠ hi := by rintro rfl; simp_all
          exact ⟨h1, by omega, h3, fun j hij hj => hmax j hij (by omega)⟩
    · rw [lastIn_of_le (by omega)]
      simp only [reduceCtorEq, false_iff]
      omega

/-- Splitting the search range at `mid`: the upper half is searched first. -/
theorem lastIn_split (mid : Nat) (h1 : lo ≤ mid) (h2 : mid ≤ hi) :
    lastIn p lo hi = (lastIn p mid hi).or (lastIn p lo mid) := by
  cases hB : lastIn p mid hi with
  | some i =>
    obtain ⟨b1, b2, b3, b4⟩ := lastIn_eq_some_iff.1 hB
    rw [Option.some_or, lastIn_eq_some_iff]
    exact ⟨by omega, b2, b3, b4⟩
  | none =>
    rw [Option.none_or]
    have hnone := lastIn_eq_none_iff.1 hB
    cases hA : lastIn p lo mid with
    | some i =>
      obtain ⟨a1, a2, a3, a4⟩ := lastIn_eq_some_iff.1 hA
      refine lastIn_eq_some_iff.2 ⟨a1, by omega, a3, fun j hij hj => ?_⟩
      by_cases hjm : j < mid
      · exact a4 j hij hjm
      · exact hnone j (by omega) hj
    | none =>
      refine lastIn_eq_none_iff.2 fun j hj hjh => ?_
      by_cases hjm : j < mid
      · exact lastIn_eq_none_iff.1 hA j hj hjm
      · exact hnone j (by omega) hjh

/-- No hit in a range means no hit in any range inside it. -/
theorem lastIn_none_of_sub {a b a' b' : Nat} (ha : a' ≤ a) (hb : b ≤ b') (h : lastIn p a' b' = none) :
    lastIn p a b = none :=
  lastIn_eq_none_iff.2 fun j h1 h2 => lastIn_eq_none_iff.1 h j (by omega) (by omega)

/-- Two overlapping ranges scanned in turn, the upper first: the last hit of
their union. -/
theorem lastIn_or_overlap {a m m' b : Nat} (h1 : m' ≤ m) (h2 : m ≤ b) :
    (lastIn p m' b).or (lastIn p a m) = lastIn p (min a m') b := by
  cases hB : lastIn p m' b with
  | some r => rw [Option.some_or, lastIn_split m' (Nat.min_le_right _ _) (Nat.le_trans h1 h2), hB, Option.some_or]
  | none =>
    have hm : lastIn p m' m = none := lastIn_none_of_sub le_rfl h2 hB
    rw [Option.none_or, lastIn_split m (Nat.le_trans (Nat.min_le_right _ _) h1) h2, lastIn_none_of_sub h1 le_rfl hB,
      Option.none_or]
    rcases Nat.le_total a m' with ha | ha
    · rw [Nat.min_eq_left ha]
    · rw [Nat.min_eq_right ha, hm, lastIn_none_of_sub ha le_rfl hm]

/-- `lastIn` depends only on the values of `p` inside the range. -/
theorem lastIn_congr {q : Nat → Bool} (h : ∀ j, lo ≤ j → j < hi → p j = q j) :
    lastIn p lo hi = lastIn q lo hi := by
  cases hq : lastIn q lo hi with
  | some i =>
    obtain ⟨h1, h2, h3, h4⟩ := lastIn_eq_some_iff.1 hq
    refine lastIn_eq_some_iff.2 ⟨h1, h2, by rw [h i h1 h2]; exact h3, fun j hij hj => ?_⟩
    rw [h j (by omega) hj]
    exact h4 j hij hj
  | none =>
    refine lastIn_eq_none_iff.2 fun j hj hjh => ?_
    rw [h j hj hjh]
    exact lastIn_eq_none_iff.1 hq j hj hjh

/-- Cutting a search's result below `mid` is the search of `[mid, hi)`. -/
theorem lastIn_filter_ge {mid : Nat} (h1 : lo ≤ mid) (h2 : mid ≤ hi) :
    (lastIn p lo hi).filter (fun r => decide (r ≥ mid)) = lastIn p mid hi := by
  rw [lastIn_split mid h1 h2]
  cases hB : lastIn p mid hi with
  | some i =>
    have hi : mid ≤ i := (lastIn_eq_some_iff.1 hB).1
    simp [Option.filter_some, hi]
  | none =>
    cases hA : lastIn p lo mid with
    | none => rfl
    | some i =>
      have hi : i < mid := (lastIn_eq_some_iff.1 hA).2.1
      simp [Option.filter_some, hi]

/-- A search's result lies below the top of its range. -/
theorem lastIn_filter_lt {e : Nat} (h : hi ≤ e) :
    (lastIn p lo hi).filter (fun r => decide (r < e)) = lastIn p lo hi := by
  cases hA : lastIn p lo hi with
  | none => rfl
  | some i =>
    have hi : i < e := Nat.lt_of_lt_of_le (lastIn_eq_some_iff.1 hA).2.1 h
    simp [Option.filter_some, hi]

/-- A search of the `n` indices from `lo` is a search of `List.range n`, top
first, shifted by `lo`. -/
theorem lastIn_eq_find?_range (p : Nat → Bool) (lo n : Nat) :
    lastIn p lo (lo + n) = ((List.range n).reverse.find? fun j => p (lo + j)).map (lo + ·) := by
  rw [lastIn, Nat.add_sub_cancel_left, List.range'_eq_map_range, ← List.map_reverse, List.find?_map]
  rfl

end LastIn

/-! ## Loops over blocks

A vector scanner's aligned loop looks at blocks of `S` indices in turn and
stops at the first block with a hit. -/

section BlockLoops

variable {p : Nat → Bool} {S : Nat}

/-- Upwards: `n` blocks from `d` find the first hit of the `n * S` indices. -/
theorem blockLoop_firstIn (loop : Nat → Nat → Option Nat) (h0 : ∀ d, loop 0 d = none)
    (hs : ∀ n d, loop (n + 1) d = (firstIn p d (d + S)).or (loop n (d + S))) :
    ∀ n d, loop n d = firstIn p d (d + n * S)
  | 0, d => by rw [h0, Nat.zero_mul, Nat.add_zero, firstIn_of_le le_rfl]
  | n + 1, d => by
    rw [hs, blockLoop_firstIn loop h0 hs n (d + S),
      show d + (n + 1) * S = d + S + n * S by rw [Nat.add_one_mul, Nat.add_comm (n * S), Nat.add_assoc],
      firstIn_split (d + S) (Nat.le_add_right d S) (Nat.le_add_right _ _)]

/-- Downwards: `n` blocks below `d` find the last hit of the `n * S` indices. -/
theorem blockLoop_lastIn (loop : Nat → Nat → Option Nat) (h0 : ∀ d, loop 0 d = none)
    (hs : ∀ n d, S ≤ d → loop (n + 1) d = (lastIn p (d - S) d).or (loop n (d - S))) :
    ∀ n d, n * S ≤ d → loop n d = lastIn p (d - n * S) d
  | 0, d, _ => by rw [h0, Nat.zero_mul, Nat.sub_zero, lastIn_of_le le_rfl]
  | n + 1, d, h => by
    rw [Nat.add_one_mul] at h ⊢
    rw [hs n d (by omega), blockLoop_lastIn loop h0 hs n (d - S) (by omega),
      show d - (n * S + S) = d - S - n * S by omega, ← lastIn_split (d - S) (Nat.sub_le _ _) (Nat.sub_le d S)]

end BlockLoops

/-! ## Lexicographic measures

A loop measure `a * c + b` with `b < c` decreases when `a` decreases, or when
`a` does not grow and `b` decreases. -/

theorem lex_lt_of_le_of_lt {a a' b b' c : Nat} (ha : a' ≤ a) (hb : b' < b) :
    a' * c + b' < a * c + b := by
  have := Nat.mul_le_mul_right c ha
  omega

theorem lex_lt_of_lt {a a' b b' c : Nat} (ha : a' < a) (hb' : b' < c) :
    a' * c + b' < a * c + b := by
  have := Nat.mul_le_mul_right c (Nat.succ_le_of_lt ha)
  rw [Nat.succ_mul] at this
  omega

/-! ## Least and greatest set bits -/

/-- The index of the least set bit among the `w` low bits of `x`, or `w`. -/
def lowestBit (w x : Nat) : Nat := (firstIn x.testBit 0 w).getD w

theorem lowestBit_spec {w x : Nat} (hx : x % 2 ^ w ≠ 0) :
    lowestBit w x < w ∧ x.testBit (lowestBit w x) = true ∧
      ∀ j, j < lowestBit w x → x.testBit j = false := by
  unfold lowestBit
  cases h : firstIn x.testBit 0 w with
  | some i =>
      obtain ⟨-, hi, hp, hmin⟩ := firstIn_eq_some_iff.1 h
      exact ⟨hi, hp, fun j hj => hmin j (Nat.zero_le j) hj⟩
  | none =>
      exfalso
      apply hx
      apply Nat.eq_of_testBit_eq
      intro i
      rw [Nat.testBit_mod_two_pow, Nat.zero_testBit]
      by_cases hi : i < w
      · simp [hi, (firstIn_eq_none_iff.1 h) i (Nat.zero_le i) hi]
      · simp [hi]

/-- The least set bit is the least index at which `x` has a bit. -/
theorem lowestBit_eq {w x i : Nat} (hi : i < w) (hx : x.testBit i = true)
    (hmin : ∀ j, j < i → x.testBit j = false) : lowestBit w x = i := by
  unfold lowestBit
  have : firstIn x.testBit 0 w = some i :=
    firstIn_eq_some_iff.2 ⟨Nat.zero_le i, hi, hx, fun j _ hj => hmin j hj⟩
  rw [this]
  rfl

/-- Clearing the least set bit (`x &= x - 1`) keeps the other bits of `x`. -/
theorem testBit_and_sub_one {w x : Nat} (hx : x % 2 ^ w ≠ 0) (j : Nat) :
    (x &&& (x - 1)).testBit j = (x.testBit j && decide (j ≠ lowestBit w x)) := by
  obtain ⟨-, hset, hmin⟩ := lowestBit_spec hx
  generalize lowestBit w x = c at hset hmin
  -- below bit `c + 1`, `x` is `2 ^ c`; so `x - 1` keeps the bits above and has `2 ^ c - 1` below
  have hmod : x % 2 ^ (c + 1) = 2 ^ c := by
    apply Nat.eq_of_testBit_eq
    intro i
    rw [Nat.testBit_mod_two_pow, Nat.testBit_two_pow]
    rcases Nat.lt_trichotomy i c with hi | rfl | hi
    · simp [show i < c + 1 by omega, hmin i hi, show c ≠ i by omega]
    · simp [hset]
    · simp [show ¬ i < c + 1 by omega, show c ≠ i by omega]
  have hpow : 0 < 2 ^ c := Nat.two_pow_pos c
  have hlt : 2 ^ c < 2 ^ (c + 1) := Nat.pow_lt_pow_right (by decide) (by omega)
  have hx_eq : x = 2 ^ (c + 1) * (x / 2 ^ (c + 1)) + 2 ^ c := by
    have := Nat.div_add_mod x (2 ^ (c + 1))
    omega
  have hsub_eq : x - 1 = 2 ^ (c + 1) * (x / 2 ^ (c + 1)) + (2 ^ c - 1) := by omega
  have hbit : x.testBit j = if j < c + 1 then (2 ^ c).testBit j
      else (x / 2 ^ (c + 1)).testBit (j - (c + 1)) := by
    conv_lhs => rw [hx_eq]
    exact Nat.testBit_two_pow_mul_add _ hlt j
  rw [Nat.testBit_and, hsub_eq, Nat.testBit_two_pow_mul_add _ (by omega), hbit]
  rcases Nat.lt_trichotomy j c with hj | rfl | hj
  · simp [show j < c + 1 by omega, show c ≠ j by omega]
  · simp
  · simp [show ¬ j < c + 1 by omega, show j ≠ c by omega]

/-- Searching a word whose bits are a window `[lo, hi)` of a predicate: the
least set bit of the word is the least index of the window where `p` holds. -/
theorem firstIn_eq_of_word {w x lo hi base : Nat} {p : Nat → Bool} (hhi : hi ≤ w)
    (hx : ∀ j, x.testBit j = (decide (lo ≤ j ∧ j < hi) && p (base + j))) :
    firstIn p (base + lo) (base + hi) = if x = 0 then none else some (base + lowestBit w x) := by
  by_cases h0 : x = 0
  · rw [if_pos h0, firstIn_eq_none_iff]
    intro j hj1 hj2
    have := hx (j - base)
    rw [h0, Nat.zero_testBit, show base + (j - base) = j by omega] at this
    simpa [show lo ≤ j - base by omega, show j - base < hi by omega] using this.symm
  · rw [if_neg h0]
    have hmod : x % 2 ^ w ≠ 0 := by
      have hlt : x < 2 ^ w := Nat.lt_pow_two_of_testBit x fun i hiw => by
        rw [hx i]
        simp [show ¬ i < hi by omega]
      rwa [Nat.mod_eq_of_lt hlt]
    obtain ⟨hlt, hset, hmin⟩ := lowestBit_spec hmod
    have hset' := hx (lowestBit w x)
    rw [hset] at hset'
    simp only [Bool.true_eq, Bool.and_eq_true, decide_eq_true_eq] at hset'
    rw [firstIn_eq_some_iff]
    refine ⟨by omega, by omega, hset'.2, fun j hj1 hj2 => ?_⟩
    have := hx (j - base)
    rw [hmin (j - base) (by omega), show base + (j - base) = j by omega] at this
    simpa [show lo ≤ j - base by omega, show j - base < hi by omega] using this.symm

theorem testBit_eq_false_of_log2_lt {x i : Nat} (hi : x.log2 < i) :
    x.testBit i = false :=
  testBit_eq_false_of_lt Nat.lt_log2_self hi

/-- The highest set bit is the greatest index at which `x` has a bit. -/
theorem log2_eq_of_testBit {x i : Nat} (hx : x.testBit i = true)
    (hmax : ∀ j, i < j → x.testBit j = false) : x.log2 = i := by
  have hx0 : x ≠ 0 := by
    rintro rfl
    simp at hx
  have h1 : i ≤ x.log2 := by
    by_contra h
    rw [testBit_eq_false_of_log2_lt (by omega)] at hx
    exact absurd hx (by simp)
  have h2 : x.log2 ≤ i := by
    by_contra h
    have hfalse := hmax x.log2 (by omega)
    rw [Nat.testBit_log2 hx0] at hfalse
    exact absurd hfalse (by simp)
  omega

/-! ## Sets of bits built by a fold -/

/-- Or-ing in bit `f x` for each `x` of a list sets exactly those bits. -/
theorem testBit_foldl_or_shiftLeft {α : Type*} (l : List α) (f : α → Nat) (a i : Nat) :
    (l.foldl (fun a x => a ||| 1 <<< f x) a).testBit i = (a.testBit i || l.any fun x => f x == i) := by
  induction l generalizing a with
  | nil => simp
  | cons x l ih =>
    rw [List.foldl_cons, ih, Nat.testBit_or, Nat.one_shiftLeft, Nat.testBit_two_pow, List.any_cons]
    by_cases hx : f x = i
    · simp [hx]
    · simp [hx, beq_eq_false_iff_ne.mpr hx]

/-! ## Words of bytes -/

/-- The `and` of two words, each a byte under a word above it, is the `and`
of the bytes under the `and` of the words above. -/
theorem land_byte_add {a b x y : Nat} (ha : a < 256) (hb : b < 256) :
    (a + 256 * x) &&& (b + 256 * y) = (a &&& b) + 256 * (x &&& y) := by
  have h256 : (256 : Nat) = 2 ^ 8 := rfl
  rw [h256] at ha hb ⊢
  have hab : a &&& b < 2 ^ 8 := Nat.and_lt_two_pow a hb
  apply Nat.eq_of_testBit_eq
  intro i
  rw [add_comm a, add_comm b, add_comm (a &&& b), Nat.testBit_and, Nat.testBit_two_pow_mul_add _ ha,
    Nat.testBit_two_pow_mul_add _ hb, Nat.testBit_two_pow_mul_add _ hab]
  split <;> simp

/-- The `and` of two words of bytes of one length is the word of the bytes' `and`s. -/
theorem ofDigits_land {xs ys : List Nat} (hxs : ∀ v ∈ xs, v < 256) (hys : ∀ v ∈ ys, v < 256)
    (hlen : xs.length = ys.length) :
    Nat.ofDigits 256 xs &&& Nat.ofDigits 256 ys = Nat.ofDigits 256 (List.zipWith (· &&& ·) xs ys) := by
  induction xs generalizing ys with
  | nil => simp [Nat.ofDigits]
  | cons x xs ih =>
    cases ys with
    | nil => simp at hlen
    | cons y ys =>
      have hx : x < 256 := hxs x List.mem_cons_self
      have hy : y < 256 := hys y List.mem_cons_self
      have htail := ih (fun v hv => hxs v (List.mem_cons_of_mem x hv))
        (fun v hv => hys v (List.mem_cons_of_mem y hv)) (by simpa using hlen)
      rw [List.zipWith_cons_cons, Nat.ofDigits_cons, Nat.ofDigits_cons, Nat.ofDigits_cons,
        land_byte_add hx hy, htail]

/-- **A masked compare of words of bytes is a compare of every byte.**  For
the words of the bytes `f j`, `g j`, `h j` (`j < L`), the word of `f` masked
by that of `g` is the word of `h` exactly when every byte of `f` masked by the
byte of `g` is the byte of `h`. -/
theorem ofDigits_map_land_eq_iff {L : Nat} {f g h : Nat → Nat} (hf : ∀ j < L, f j < 256)
    (hg : ∀ j < L, g j < 256) (hh : ∀ j < L, h j < 256) :
    Nat.ofDigits 256 ((List.range L).map f) &&& Nat.ofDigits 256 ((List.range L).map g) =
        Nat.ofDigits 256 ((List.range L).map h) ↔
      ∀ j < L, f j &&& g j = h j := by
  have hbytes : ∀ u : Nat → Nat, (∀ j < L, u j < 256) → ∀ v ∈ (List.range L).map u, v < 256 := by
    intro u hu v hv
    obtain ⟨j, hj, rfl⟩ := List.mem_map.mp hv
    exact hu j (List.mem_range.mp hj)
  have hfg : ∀ j < L, f j &&& g j < 256 := fun j hj => lt_of_le_of_lt Nat.and_le_left (hf j hj)
  rw [ofDigits_land (hbytes f hf) (hbytes g hg) (by simp), List.zipWith_map, List.zipWith_self]
  constructor
  · intro heq j hj
    have hmap := Nat.ofDigits_inj_of_len_eq (by decide : 1 < 256) (by simp)
      (hbytes (fun j => f j &&& g j) hfg) (hbytes h hh) heq
    exact List.map_inj_left.mp hmap j (List.mem_range.mpr hj)
  · intro hpt
    congr 1
    exact List.map_inj_left.mpr fun j hj => hpt j (List.mem_range.mp hj)

/-- **A compare under a merged mask is two compares.**  A value `b` compared
under the mask `m ||| d` with the comparand `v ||| (c &&& d)` passes exactly
when it agrees with `c` under `d` and passes the compare of `v` under `m`,
provided `c` itself passes the compare of `v` where both masks are set. -/
theorem and_or_eq_or_and_iff {b m v c d : Nat} (hcons : c &&& (m &&& d) = v &&& d) :
    b &&& (m ||| d) = v ||| (c &&& d) ↔ b &&& d = c &&& d ∧ b &&& m = v := by
  have key : ∀ bb mm vv cc dd : Bool, (cc && (mm && dd)) = (vv && dd) →
      ((bb && (mm || dd)) = (vv || (cc && dd)) ↔ (bb && dd) = (cc && dd) ∧ (bb && mm) = vv) := by
    decide
  rw [Nat.eq_iff_testBit_eq] at hcons
  simp only [Nat.eq_iff_testBit_eq, Nat.testBit_and, Nat.testBit_or] at hcons ⊢
  rw [← forall_and]
  exact forall_congr' fun i => key _ _ _ _ _ (hcons i)

/-! ## Bit fields -/

/-- A field put above `k` low bits is or-ed in by adding it. -/
theorem or_mul_two_pow {a b k : Nat} (hb : b < 2 ^ k) : b ||| a * 2 ^ k = b + a * 2 ^ k := by
  rw [Nat.add_comm, Nat.mul_comm, Nat.two_pow_add_eq_or_of_lt hb a, Nat.lor_comm]

/-- The low `k + n` bits of a field put above `k` low bits. -/
theorem add_mul_two_pow_mod {a y k : Nat} (ha : a < 2 ^ k) (n : Nat) :
    (a + y * 2 ^ k) % 2 ^ (k + n) = a + y % 2 ^ n * 2 ^ k := by
  have hsplit : y * 2 ^ k = y % 2 ^ n * 2 ^ k + y / 2 ^ n * 2 ^ (k + n) := by
    conv_lhs => rw [← Nat.mod_add_div y (2 ^ n)]
    rw [Nat.pow_add]
    ring
  have hlow : a + y % 2 ^ n * 2 ^ k < 2 ^ (k + n) := by
    have hy : y % 2 ^ n < 2 ^ n := Nat.mod_lt _ (Nat.two_pow_pos n)
    calc a + y % 2 ^ n * 2 ^ k < 2 ^ k + y % 2 ^ n * 2 ^ k := by omega
      _ = (y % 2 ^ n + 1) * 2 ^ k := by rw [Nat.add_mul, Nat.one_mul, Nat.add_comm]
      _ ≤ 2 ^ n * 2 ^ k := Nat.mul_le_mul_right _ hy
      _ = 2 ^ (k + n) := by rw [Nat.pow_add, Nat.mul_comm]
  rw [hsplit, ← Nat.add_assoc, Nat.add_mul_mod_self_right, Nat.mod_eq_of_lt hlow]

/-- The bits from `n` on of a field put above `k ≤ n` low bits. -/
theorem add_mul_two_pow_div {a x k n : Nat} (ha : a < 2 ^ k) (hkn : k ≤ n) :
    (a + x * 2 ^ k) / 2 ^ n = x / 2 ^ (n - k) := by
  have hn : 2 ^ n = 2 ^ k * 2 ^ (n - k) := by rw [← Nat.pow_add, Nat.add_sub_cancel' hkn]
  rw [hn, ← Nat.div_div_eq_div_mul, Nat.add_mul_div_right _ _ (Nat.two_pow_pos k),
    Nat.div_eq_of_lt ha, Nat.zero_add]

/-- The bits from `u ≤ n` on of a field put above `n` low bits. -/
theorem add_mul_two_pow_div_of_le {a y n u : Nat} (hun : u ≤ n) :
    (a + y * 2 ^ n) / 2 ^ u = a / 2 ^ u + y * 2 ^ (n - u) := by
  have hn : y * 2 ^ n = y * 2 ^ (n - u) * 2 ^ u := by
    rw [Nat.mul_assoc, ← Nat.pow_add, Nat.sub_add_cancel hun]
  rw [hn, Nat.add_mul_div_right _ _ (Nat.two_pow_pos u)]

/-! ## Words stored as bytes -/

/-- The `n` low bytes of `x`, little-endian: what a store of an `n`-byte word
writes. -/
def storeLE : Nat → Nat → List Nat
  | 0, _ => []
  | n + 1, x => x % 256 :: storeLE n (x / 256)

attribute [grind] storeLE

@[simp] theorem length_storeLE (n x : Nat) : (storeLE n x).length = n := by
  induction n generalizing x with
  | zero => rfl
  | succ n ih => rw [storeLE, List.length_cons, ih]

/-- The bytes of an `m + n`-byte store: the first `m`, then `n` bytes of what
is above them. -/
theorem storeLE_add (m n x : Nat) : storeLE (m + n) x = storeLE m x ++ storeLE n (x / 256 ^ m) := by
  induction m generalizing x with
  | zero => rw [Nat.zero_add, Nat.pow_zero, Nat.div_one]; rfl
  | succ m ih =>
    rw [Nat.add_right_comm, storeLE, storeLE, ih, List.cons_append, Nat.div_div_eq_div_mul,
      Nat.pow_succ, Nat.mul_comm (256 ^ m)]

/-- Only the `n` low bytes of `x` are stored. -/
theorem storeLE_mod_pow (n x : Nat) : storeLE n (x % 256 ^ n) = storeLE n x := by
  induction n generalizing x with
  | zero => rfl
  | succ n ih =>
    have hlow : x % 256 ^ (n + 1) % 256 = x % 256 :=
      Nat.mod_mod_of_dvd x (Dvd.intro_left (256 ^ n) (Nat.pow_succ 256 n).symm)
    have hhigh : x % 256 ^ (n + 1) / 256 = x / 256 % 256 ^ n := by
      rw [Nat.pow_succ, Nat.mul_comm, Nat.mod_mul_right_div_self]
    rw [storeLE, storeLE, hlow, hhigh, ih]

/-- `2 ^ n` in bytes, for `n` a whole number of bytes. -/
theorem two_pow_eq_256_pow {n : Nat} (h : 8 ∣ n) : 2 ^ n = 256 ^ (n / 8) := by
  obtain ⟨k, rfl⟩ := h
  rw [Nat.mul_div_cancel_left k (by decide), Nat.pow_mul]

theorem storeLE_congr {n x y : Nat} (h : x % 256 ^ n = y % 256 ^ n) : storeLE n x = storeLE n y := by
  rw [← storeLE_mod_pow n x, h, storeLE_mod_pow]

/-- Entry `i` of a table of `n` entries made by a function of the index. -/
theorem getD_map_range {α : Type*} {n i : Nat} (f : Nat → α) (d : α) (h : i < n) :
    ((List.range n).map f).getD i d = f i := by
  simp [List.getD_eq_getElem?_getD, h]

end Word
end Vectorscan
