import Mathlib.Data.List.Range
import Mathlib.Tactic.Linarith

/-!
# Scanning an interval block by block

A vectorised scanner looks at the positions of an interval `[lo, hi)` a block
of `S` bytes at a time.  The compare of the block at base `d` gives a mask `z`
of `S` bits; the positions it stands for are `d + j - back` for the set bits
`j` of `z`, lowest first (`back` bytes before the byte that bit `j` is about,
when the pattern is several bytes long).  Between an unaligned head and an
unaligned tail the blocks start at aligned addresses.

**Results.**  `testBit_foldr_or_shiftLeft`: the mask of a list of bit
indices.  `map_filter_range_testBit`: a mask whose bit `j` is set exactly
when `j` lies in `[a, b)` and the predicate holds at `d + j - back` stands for
the positions of `[d + a - back, d + b - back)` that satisfy it, in order.
`filter_range'_eq_of_outside`: a predicate that fails outside `[a, b)` keeps
the same positions of any interval around `[a, b)`.  For the alignment:
`le_roundUp`, `roundUp_lt`, `roundDown_le`, `lt_roundDown_add`, and
`roundUp_of_mod_eq_zero`, `roundDown_of_mod_eq_zero`,
`roundUp_add_blocks`: from an aligned address, whole blocks reach the last
aligned address of the interval; `aligned_split` puts these together for the
head, the aligned blocks and the tail of a scan.
`map_filter_range'_eq_filter_range`: the candidates of an interval that pass a
test, shifted to the positions they stand for, are the positions of a
predicate that the test decides there.

Nothing here names the program.
-/

namespace Vectorscan
namespace BlockScan

/-! ## The positions of a mask -/

/-- The mask that sets bit `j` for each `j` of a list has exactly those bits. -/
theorem testBit_foldr_or_shiftLeft (l : List Nat) (i : Nat) :
    (l.foldr (fun j z => z ||| 1 <<< j) 0).testBit i = decide (i ∈ l) := by
  induction l with
  | nil => simp
  | cons j l ih =>
    rw [List.foldr_cons, Nat.testBit_or, ih, Nat.one_shiftLeft, Nat.testBit_two_pow]
    by_cases h : i = j <;> simp [h, eq_comm]

/-- A predicate that fails outside `[a, b)` keeps the same positions of an
interval `[lo, lo + m)` that contains `[a, b)`. -/
theorem filter_range'_eq_of_outside {lo m a b : Nat} {p : Nat → Bool} (hlo : lo ≤ a) (hab : a ≤ b)
    (hm : b ≤ lo + m) (hp : ∀ x, lo ≤ x → x < lo + m → p x = true → a ≤ x ∧ x < b) :
    (List.range' lo m).filter p = (List.range' a (b - a)).filter p := by
  have hsplit : List.range' lo m = List.range' lo (a - lo) ++ (List.range' a (b - a) ++ List.range' b (lo + m - b)) := by
    have h1 := @List.range'_append_1 a (b - a) (lo + m - b)
    have h2 := @List.range'_append_1 lo (a - lo) (b - a + (lo + m - b))
    rw [show a + (b - a) = b by omega] at h1
    rw [show lo + (a - lo) = a by omega] at h2
    rw [h1, h2]
    congr 1
    omega
  have hlow : (List.range' lo (a - lo)).filter p = [] := by
    rw [List.filter_eq_nil_iff]
    intro x hx hpx
    rw [List.mem_range'_1] at hx
    have := hp x (by omega) (by omega) (by simpa using hpx)
    omega
  have hhigh : (List.range' b (lo + m - b)).filter p = [] := by
    rw [List.filter_eq_nil_iff]
    intro x hx hpx
    rw [List.mem_range'_1] at hx
    have := hp x (by omega) (by omega) (by simpa using hpx)
    omega
  rw [hsplit, List.filter_append, List.filter_append, hlow, hhigh, List.nil_append, List.append_nil]

/-- **The positions of a mask.**  If bit `j < S` of `z` is set exactly when
`a ≤ j < b` and `p` holds at `d + j - back`, then the positions `d + j - back`
of the set bits, lowest first, are the positions of `[d + a - back, d + b - back)`
where `p` holds. -/
theorem map_filter_range_testBit {S d a b back z : Nat} {p : Nat → Bool}
    (hab : a ≤ b) (hb : b ≤ S) (hback : back ≤ d + a)
    (hz : ∀ j < S, z.testBit j = (decide (a ≤ j ∧ j < b) && p (d + j - back))) :
    ((List.range S).filter z.testBit).map (fun j => d + j - back) =
      (List.range' (d + a - back) (b - a)).filter p := by
  have hbits : ∀ j, 0 ≤ j → j < 0 + S → z.testBit j = true → a ≤ j ∧ j < b := by
    intro j _ hj hzj
    rw [hz j (by omega)] at hzj
    simp only [Bool.and_eq_true, decide_eq_true_eq] at hzj
    exact hzj.1
  have hshift : (List.range' a (b - a)).map (fun j => d + j - back) = List.range' (d + a - back) (b - a) := by
    rw [List.range'_eq_map_range, List.range'_eq_map_range, List.map_map]
    apply List.map_congr_left
    intro i _
    simp only [Function.comp]
    omega
  rw [List.range_eq_range', filter_range'_eq_of_outside (Nat.zero_le a) hab (by omega) hbits, ← hshift,
    List.filter_map]
  congr 1
  apply List.filter_congr
  intro j hj
  rw [List.mem_range'_1] at hj
  rw [hz j (by omega)]
  simp [show a ≤ j ∧ j < b from ⟨hj.1, by omega⟩]

/-- Two adjacent intervals make one. -/
theorem range'_append_range' {a b c : Nat} (hab : a ≤ b) (hbc : b ≤ c) :
    List.range' a (b - a) ++ List.range' b (c - b) = List.range' a (c - a) := by
  have h := @List.range'_append_1 a (b - a) (c - b)
  rw [show a + (b - a) = b by omega, show b - a + (c - b) = c - a by omega] at h
  exact h

/-- **Candidates shifted to what they stand for.**  If the candidates `p` of
`[lo, lo + m)` that pass `hit` are exactly those where `q` holds at `f p = p + c`,
and `q` holds only in `[lo + c, lo + c + m)`, then the candidates that pass,
mapped by `f`, are the positions below any `len ≥ lo + c + m` where `q` holds,
in order. -/
theorem map_filter_range'_eq_filter_range {lo m c len : Nat} {f : Nat → Nat} {hit q : Nat → Bool}
    (hq : ∀ e, q e = true → lo + c ≤ e ∧ e < lo + c + m) (hlen : lo + c + m ≤ len)
    (hf : ∀ p, lo ≤ p → p < lo + m → f p = p + c) (hhit : ∀ p, lo ≤ p → p < lo + m → hit p = q (p + c)) :
    ((List.range' lo m).filter hit).map f = (List.range len).filter q := by
  have hout : ∀ e, 0 ≤ e → e < 0 + len → q e = true → lo + c ≤ e ∧ e < lo + c + m :=
    fun e _ _ he => hq e he
  have hshift : (List.range' lo m).map (· + c) = List.range' (lo + c) m := by
    rw [List.range'_eq_map_range, List.range'_eq_map_range, List.map_map]
    apply List.map_congr_left
    intro i _
    simp only [Function.comp]
    omega
  rw [List.range_eq_range', filter_range'_eq_of_outside (Nat.zero_le (lo + c)) (Nat.le_add_right (lo + c) m)
    (by omega) hout, Nat.add_sub_cancel_left, ← hshift, List.filter_map]
  have hhit' : (List.range' lo m).filter hit = (List.range' lo m).filter (q ∘ (· + c)) := by
    apply List.filter_congr
    intro p hp
    rw [List.mem_range'_1] at hp
    exact hhit p hp.1 hp.2
  rw [hhit']
  apply List.map_congr_left
  intro p hp
  rw [List.mem_filter, List.mem_range'_1] at hp
  exact hf p hp.1.1 hp.1.2

/-! ## Alignment -/

section Align

variable {S : Nat}

/-- The first multiple of `S` at or above `x` is at or above `x`. -/
theorem le_roundUp (hS : 0 < S) (x : Nat) : x ≤ (x + (S - 1)) / S * S := by
  have := @Nat.lt_div_mul_add (x + (S - 1)) S hS
  omega

/-- The first multiple of `S` at or above `x` is below `x + S`. -/
theorem roundUp_lt (hS : 0 < S) (x : Nat) : (x + (S - 1)) / S * S < x + S := by
  have := Nat.div_mul_le_self (x + (S - 1)) S
  omega

theorem roundDown_le (x : Nat) : x / S * S ≤ x := Nat.div_mul_le_self x S

theorem lt_roundDown_add (hS : 0 < S) (x : Nat) : x < x / S * S + S := Nat.lt_div_mul_add hS

/-- An aligned address is its own rounding up. -/
theorem roundUp_of_mod_eq_zero (hS : 0 < S) {x : Nat} (hx : x % S = 0) : (x + (S - 1)) / S * S = x := by
  obtain ⟨q, rfl⟩ : ∃ q, x = S * q := ⟨x / S, (Nat.mul_div_cancel' (Nat.dvd_of_mod_eq_zero hx)).symm⟩
  rw [Nat.add_comm, Nat.add_mul_div_left _ _ hS, Nat.div_eq_of_lt (by omega), Nat.zero_add, Nat.mul_comm]

/-- An aligned address is its own rounding down. -/
theorem roundDown_of_mod_eq_zero {x : Nat} (hx : x % S = 0) : x / S * S = x :=
  Nat.div_mul_cancel (Nat.dvd_of_mod_eq_zero hx)

/-- From a multiple `u` of `S` at or below `y`, whole blocks of `S` reach the
last multiple of `S` at or below `y`. -/
theorem roundUp_add_blocks (hS : 0 < S) {u y : Nat} (hu : u % S = 0) (huy : u ≤ y) :
    u + (y - u) / S * S = y / S * S := by
  obtain ⟨q, rfl⟩ : ∃ q, u = S * q := ⟨u / S, (Nat.mul_div_cancel' (Nat.dvd_of_mod_eq_zero hu)).symm⟩
  have hy : y = (y - S * q) + S * q := by omega
  conv_rhs => rw [hy, Nat.add_mul_div_left _ _ hS]
  rw [Nat.add_mul, Nat.mul_comm q S]
  omega

/-- **Aligned blocks tile an interval.**  For an interval `[lo, hi)` of at
least `S` positions of a buffer at address `addr`: the first aligned offset
`R` at or above `lo` is less than a block above it, whole blocks from `R` reach
the last aligned offset `s2End` at or below `hi`, and `hi` is less than a block
above `s2End`. -/
theorem aligned_split {addr lo hi R s2End : Nat} (hS : 0 < S) (hlen : S ≤ hi - lo)
    (hR : R = (addr + lo + (S - 1)) / S * S - addr) (hs : s2End = (addr + hi) / S * S - addr) :
    lo ≤ R ∧ R < lo + S ∧ R + (hi - R) / S * S = s2End ∧ s2End ≤ hi ∧ hi < s2End + S := by
  set U := (addr + lo + (S - 1)) / S * S with hU
  set D := (addr + hi) / S * S with hD
  have h1 : addr + lo ≤ U := le_roundUp hS (addr + lo)
  have h2 : U < addr + lo + S := roundUp_lt hS (addr + lo)
  have h3 : D ≤ addr + hi := roundDown_le (addr + hi)
  have h4 : addr + hi < D + S := lt_roundDown_add hS (addr + hi)
  have hUS : U % S = 0 := Nat.mul_mod_left _ _
  have h5 : U + (addr + hi - U) / S * S = D := roundUp_add_blocks hS hUS (by omega)
  have hhi : hi - R = addr + hi - U := by omega
  refine ⟨by omega, by omega, ?_, by omega, by omega⟩
  rw [hhi]
  omega

end Align

end BlockScan
end Vectorscan
