import Mathlib

/-!
# A number system of period `m`

A table `t` with `t i = i + 1` for `i ≤ m` and `t i = t (i - 1) + t (i - m)`
above counts the sets of positions below `i` whose distances are at least
`m` (for `m = 2` these are the Fibonacci numbers and Zeckendorf's theorem).
A set of such positions, listed from the largest down (`Separated`), is coded
by the sum of its entries (`encode`).  `encode_lt`: the code of positions
below `j` is below `t j`, so the largest position is the highest entry the
code reaches, and a greedy walk down the table reads the positions back.

The table need only follow the recurrence up to some index `L`
(`IsPeriodTable`), as a table cut off before it overflows does.  A finite set
of positions is coded through its list from the largest down
(`separated_sort`, `encode_sort_filter`).

Nothing here names the program.
-/

namespace Vectorscan
namespace PeriodCode

/-- `t` follows the recurrence of period `m` up to index `L`. -/
structure IsPeriodTable (m : Nat) (t : Nat → Nat) (L : Nat) : Prop where
  base : ∀ i, i ≤ m → i ≤ L → t i = i + 1
  step : ∀ i, m < i → i ≤ L → t i = t (i - 1) + t (i - m)

/-- Positions from the largest down, each at least `m` below the ones before it. -/
def Separated (m : Nat) (l : List Nat) : Prop := l.Pairwise (fun a b => b + m ≤ a)

/-- The code of the positions `l`: the sum of their table entries. -/
def encode (t : Nat → Nat) (l : List Nat) : Nat := (l.map t).sum

@[simp] theorem encode_nil (t : Nat → Nat) : encode t [] = 0 := rfl

@[simp] theorem encode_cons (t : Nat → Nat) (q : Nat) (l : List Nat) :
    encode t (q :: l) = t q + encode t l := by
  simp [encode]

theorem encode_filter_add (t : Nat → Nat) (p : Nat → Bool) (l : List Nat) :
    encode t (l.filter p) + encode t (l.filter (fun x => !p x)) = encode t l := by
  induction l with
  | nil => rfl
  | cons x rest ih =>
    cases hp : p x <;> simp [hp, ← ih] <;> omega

section Table

variable {m L : Nat} {t : Nat → Nat}

/-- The recurrence depends only on the entries up to `L`. -/
theorem IsPeriodTable.congr (h : IsPeriodTable m t L) {t' : Nat → Nat} (ht : ∀ i ≤ L, t' i = t i) :
    IsPeriodTable m t' L where
  base i him hiL := (ht i hiL).trans (h.base i him hiL)
  step i hmi hiL := by
    rw [ht i hiL, ht (i - 1) (by omega), ht (i - m) (by omega)]
    exact h.step i hmi hiL

theorem IsPeriodTable.le_bound (h : IsPeriodTable m t L) {L' : Nat} (hL : L' ≤ L) :
    IsPeriodTable m t L' where
  base i him hiL := h.base i him (hiL.trans hL)
  step i hmi hiL := h.step i hmi (hiL.trans hL)

/-- One more entry by the recurrence. -/
theorem IsPeriodTable.extend (h : IsPeriodTable m t L) (hmL : m ≤ L)
    (hnext : t (L + 1) = t L + t (L + 1 - m)) : IsPeriodTable m t (L + 1) where
  base i him hiL := h.base i him (by omega)
  step i hmi hiL := by
    rcases Nat.lt_or_ge i (L + 1) with hi | hi
    · exact h.step i hmi (by omega)
    · obtain rfl : i = L + 1 := by omega
      exact hnext

theorem IsPeriodTable.pos (h : IsPeriodTable m t L) : ∀ i, i ≤ L → 0 < t i := by
  intro i
  induction i using Nat.strong_induction_on with
  | _ i ih =>
    intro hi
    by_cases him : i ≤ m
    · rw [h.base i him hi]
      exact Nat.succ_pos i
    · rw [h.step i (by omega) hi]
      exact Nat.add_pos_left (ih (i - 1) (by omega) (by omega)) _

theorem IsPeriodTable.lt_succ (h : IsPeriodTable m t L) (hm : 0 < m) {i : Nat} (hi : i + 1 ≤ L) :
    t i < t (i + 1) := by
  by_cases him : i + 1 ≤ m
  · rw [h.base i (by omega) (by omega), h.base (i + 1) him hi]
    exact Nat.lt_succ_self _
  · rw [h.step (i + 1) (by omega) hi, Nat.add_sub_cancel]
    exact Nat.lt_add_of_pos_right (h.pos _ (by omega))

theorem IsPeriodTable.mono (h : IsPeriodTable m t L) (hm : 0 < m) {i j : Nat} (hij : i ≤ j)
    (hj : j ≤ L) : t i ≤ t j := by
  induction j, hij using Nat.le_induction with
  | base => exact le_rfl
  | succ j hij ih => exact (ih (by omega)).trans (h.lt_succ hm hj).le

end Table

section Code

variable {m L : Nat} {t : Nat → Nat}

theorem Separated.of_cons {q : Nat} {l : List Nat} (hl : Separated m (q :: l)) : Separated m l :=
  List.Pairwise.of_cons hl

theorem Separated.le_head {q : Nat} {l : List Nat} (hl : Separated m (q :: l)) {b : Nat} (hb : b ∈ l) :
    b + m ≤ q :=
  List.rel_of_pairwise_cons hl hb

/-- **The code is below the next entry.**  Positions below `j`, at least `m`
apart, code to less than `t j`. -/
theorem encode_lt (h : IsPeriodTable m t L) (hm : 0 < m) :
    ∀ {l : List Nat}, Separated m l → ∀ {j : Nat}, j ≤ L → (∀ p ∈ l, p < j) → encode t l < t j
  | [], _, j, hj, _ => by
    rw [encode_nil]
    exact h.pos j hj
  | q :: l, hl, j, hj, hlt => by
    have hqj : q < j := hlt q List.mem_cons_self
    -- the code of `q :: l` is below `t (q + 1)`, which is at most `t j`
    have hnext : encode t (q :: l) < t (q + 1) := by
      rw [encode_cons]
      by_cases hqm : q < m
      · -- no position fits `m` below `q`
        have hnil : l = [] := List.eq_nil_iff_forall_not_mem.mpr
          (fun b hb => absurd (hl.le_head hb) (by omega))
        rw [hnil, encode_nil, h.base q (by omega) (by omega), h.base (q + 1) (by omega) (by omega)]
        omega
      · have hrest : encode t l < t (q + 1 - m) :=
          encode_lt h hm hl.of_cons (by omega) (fun b hb => by have := hl.le_head hb; omega)
        rw [h.step (q + 1) (by omega) (by omega), Nat.add_sub_cancel]
        omega
    exact lt_of_lt_of_le hnext (h.mono hm hqj hj)

/-- The code reaches the entry of its largest position. -/
theorem le_encode_cons (q : Nat) (l : List Nat) : t q ≤ encode t (q :: l) := by
  rw [encode_cons]
  exact Nat.le_add_right _ _

/-- **The largest position.**  The highest entry below `L` that the code
reaches is that of its first position; a code of no position reaches none. -/
theorem find?_range_reverse_encode (h : IsPeriodTable m t L) (hm : 0 < m) {l : List Nat}
    (hl : Separated m l) (hlt : ∀ p ∈ l, p < L) :
    ((List.range L).reverse).find? (fun i => decide (encode t l ≥ t i)) = l.head? := by
  induction L with
  | zero =>
    cases l with
    | nil => rfl
    | cons q _ => exact absurd (hlt q List.mem_cons_self) (Nat.not_lt_zero q)
  | succ L ih =>
    rw [List.range_succ, List.reverse_append, List.reverse_singleton, List.singleton_append]
    have hlow : IsPeriodTable m t L := h.le_bound (Nat.le_succ L)
    cases l with
    | nil =>
      -- every entry is positive
      have hpos := h.pos L (Nat.le_succ L)
      rw [List.find?_cons_of_neg (by simp; omega)]
      exact ih hlow (fun p hp => by cases hp)
    | cons q rest =>
      by_cases hqL : q = L
      · subst hqL
        exact List.find?_cons_of_pos (decide_eq_true (le_encode_cons q rest))
      · -- the code stays below `t L`: its positions are below `L`
        have hbound : ∀ p ∈ q :: rest, p < L := fun p hp => by
          have hq : q < L := by have := hlt q List.mem_cons_self; omega
          rcases List.mem_cons.mp hp with rfl | hp
          · exact hq
          · have := hl.le_head hp
            omega
        have hbelow : encode t (q :: rest) < t L := encode_lt h hm hl le_self_add hbound
        rw [List.find?_cons_of_neg (by simp only [decide_eq_true_eq]; omega)]
        exact ih hlow hbound

end Code

section Sets

/-- A finite set of positions at least `m` apart, listed from the largest down. -/
theorem separated_sort {m : Nat} {P : Finset Nat} (hsep : ∀ p ∈ P, ∀ q ∈ P, p < q → p + m ≤ q) :
    Separated m (P.sort (· ≥ ·)) := by
  have hdesc := (P.pairwise_sort (· ≥ ·)).and (P.sort_nodup (· ≥ ·))
  refine hdesc.imp_of_mem (fun {a b} ha hb hab => ?_)
  rw [Finset.mem_sort] at ha hb
  exact hsep b hb a ha (lt_of_le_of_ne hab.1 (Ne.symm hab.2))

/-- The code of a set, through its list, is the sum of its entries. -/
theorem encode_sort_filter (t : Nat → Nat) (P : Finset Nat) (p : Nat → Bool) :
    encode t ((P.sort (· ≥ ·)).filter p) = ∑ x ∈ P with p x, t x := by
  rw [encode, ← List.sum_toFinset t ((P.sort_nodup (· ≥ ·)).filter p), List.toFinset_filter,
    Finset.sort_toFinset]

end Sets

end PeriodCode
end Vectorscan
