import Mathlib

/-!
# Multipath validation: the carry trick

`checkMultipath32` and `checkMultipath64` (`rose/validate_shufti.h`) end the
multipath shufti checks of Rose.  Each bit of `data` says whether one position
of a path failed, and a path is a run of bits `[l, h]`, marked by its low bit
in `lo_bits` and its top bit in `hi_bits`.  The check asks whether some path
has all its bits clear, with one addition: in `~(data | hi_bits) + lo_bits`
each path's low bit sends a carry up through its clear bits, which arrives at
the path's top bit exactly when every bit below it is clear.

**Model.**  The words are `BitVec w`, and the two functions are one definition
at `w = 32` and `w = 64`.  A family of paths is a list of bit intervals
`(l, h)` (`Paths`: in the word and pairwise disjoint); `pathBits` sets the
chosen end of each in a mask.

**Results.**  `carry_eq_false`: no carry leaves a path, so none enters a bit
outside the paths' interiors (`InPath`).  `carry_in_path`: inside a path the
carry into bit `l + k + 1` is set exactly when bits `l` to `l + k` are clear.
`getLsbD_sum_top`: the sum's bit at a path's top.  `checkMultipath_iff`: the
check holds exactly when some path is all clear.
-/

namespace Vectorscan
namespace Rose

/-- The multipath check at width `w`. -/
def checkMultipath {w : Nat} (data hiBits loBits : BitVec w) : Bool :=
  let t := ~~~(data ||| hiBits)
  let t := t + loBits
  let t := t &&& (~~~data &&& hiBits)
  t != 0

/-- `checkMultipath32`. -/
def checkMultipath32 (data hiBits loBits : BitVec 32) : Bool := checkMultipath data hiBits loBits

/-- `checkMultipath64`. -/
def checkMultipath64 (data hiBits loBits : BitVec 64) : Bool := checkMultipath data hiBits loBits

/-- The mask with bit `sel p` set for each path `p`. -/
def pathBits (w : Nat) (sel : Nat × Nat → Nat) : List (Nat × Nat) → BitVec w
  | [] => 0
  | p :: ps => BitVec.twoPow w (sel p) ||| pathBits w sel ps

/-- A family of paths of a `w`-bit word: intervals `[l, h]` inside the word,
pairwise disjoint. -/
structure Paths (w : Nat) (ps : List (Nat × Nat)) : Prop where
  le : ∀ p ∈ ps, p.1 ≤ p.2
  lt : ∀ p ∈ ps, p.2 < w
  disjoint : ∀ p ∈ ps, ∀ q ∈ ps, p ≠ q → p.2 < q.1 ∨ q.2 < p.1

/-- Bit `i` is inside a path, above its low bit: a carry may come into it. -/
def InPath (ps : List (Nat × Nat)) (i : Nat) : Prop := ∃ p ∈ ps, p.1 < i ∧ i ≤ p.2

theorem getLsbD_pathBits (w : Nat) (sel : Nat × Nat → Nat) (ps : List (Nat × Nat)) (i : Nat) :
    (pathBits w sel ps).getLsbD i = true ↔ ∃ p ∈ ps, sel p = i ∧ i < w := by
  induction ps with
  | nil => simp [pathBits]
  | cons p ps ih =>
    rw [pathBits, BitVec.getLsbD_or, Bool.or_eq_true, ih, BitVec.getLsbD_twoPow]
    simp only [Bool.and_eq_true, decide_eq_true_eq, List.mem_cons, exists_eq_or_imp]
    constructor
    · rintro (⟨hw, rfl⟩ | h)
      · exact Or.inl ⟨rfl, hw⟩
      · exact Or.inr h
    · rintro (⟨rfl, hw⟩ | h)
      · exact Or.inl ⟨hw, rfl⟩
      · exact Or.inr h

section Paths

variable {w : Nat} {ps : List (Nat × Nat)} (hps : Paths w ps) (data : BitVec w)
include hps

/-- Two paths that share a bit are the same path. -/
theorem Paths.eq_of_mem {p q : Nat × Nat} (hp : p ∈ ps) (hq : q ∈ ps) {i : Nat}
    (hpi : p.1 ≤ i ∧ i ≤ p.2) (hqi : q.1 ≤ i ∧ i ≤ q.2) : p = q := by
  by_contra hne
  have := hps.disjoint p hp q hq hne
  omega

/-- At a path's top the first operand is clear: `hi` has the bit. -/
theorem getLsbD_operand_top {p : Nat × Nat} (hp : p ∈ ps) :
    (~~~(data ||| pathBits w Prod.snd ps)).getLsbD p.2 = false := by
  have hhi : (pathBits w Prod.snd ps).getLsbD p.2 = true :=
    (getLsbD_pathBits w _ ps _).mpr ⟨p, hp, rfl, hps.lt p hp⟩
  rw [BitVec.getLsbD_not, BitVec.getLsbD_or, hhi, Bool.or_true, Bool.not_true, Bool.and_false]

/-- The top of a path longer than one bit is no path's low bit. -/
theorem getLsbD_lo_top {p : Nat × Nat} (hp : p ∈ ps) (hlt : p.1 < p.2) :
    (pathBits w Prod.fst ps).getLsbD p.2 = false := by
  rw [Bool.eq_false_iff, ne_eq, getLsbD_pathBits]
  rintro ⟨q, hq, hq1, -⟩
  have := hps.eq_of_mem hq hp ⟨hq1.le, by have := hps.le q hq; omega⟩ ⟨hps.le p hp, le_rfl⟩
  subst this
  omega

/-- Nothing is carried into a path's low bit. -/
theorem not_inPath_low {p : Nat × Nat} (hp : p ∈ ps) : ¬ InPath ps p.1 := by
  rintro ⟨q, hq, hq1, hq2⟩
  have := hps.eq_of_mem hq hp ⟨hq1.le, hq2⟩ ⟨le_rfl, hps.le p hp⟩
  subst this
  omega

/-- **No carry leaks out of a path.**  The carry of `~(data | hi) + lo` into a
bit that is not inside a path is clear. -/
theorem carry_eq_false (i : Nat) (hi : ¬ InPath ps i) :
    BitVec.carry i (~~~(data ||| pathBits w Prod.snd ps)) (pathBits w Prod.fst ps) false = false := by
  induction i with
  | zero => exact BitVec.carry_zero
  | succ i ih =>
    rw [BitVec.carry_succ]
    by_cases htop : ∃ p ∈ ps, p.2 = i
    · obtain ⟨p, hp, rfl⟩ := htop
      -- the top bit of a path is set in `hi`, so clear in the first operand
      rw [getLsbD_operand_top hps data hp, Bool.atLeastTwo_false_left]
      rcases Nat.lt_or_ge p.1 p.2 with hlt | hge
      · -- a longer path: its top bit is no path's low bit
        rw [getLsbD_lo_top hps hp hlt, Bool.false_and]
      · -- a one-bit path: nothing is carried into it
        have hin : ¬ InPath ps p.2 := by
          rw [show p.2 = p.1 by have := hps.le p hp; omega]
          exact not_inPath_low hps hp
        rw [ih hin, Bool.and_false]
    · -- below a path's top, a low bit or a carry would put bit `i + 1` inside the path
      have hlo : (pathBits w Prod.fst ps).getLsbD i = false := by
        rw [Bool.eq_false_iff, ne_eq, getLsbD_pathBits]
        rintro ⟨q, hq, rfl, -⟩
        have hlt : q.1 < q.2 := lt_of_le_of_ne (hps.le q hq) fun h => htop ⟨q, hq, h.symm⟩
        exact hi ⟨q, hq, by omega, by omega⟩
      have hin : ¬ InPath ps i := by
        rintro ⟨q, hq, hq1, hq2⟩
        have hlt : i < q.2 := lt_of_le_of_ne hq2 fun h => htop ⟨q, hq, h.symm⟩
        exact hi ⟨q, hq, by omega, by omega⟩
      rw [hlo, ih hin]
      simp [Bool.atLeastTwo]

/-- **The carry along a path.**  The carry into bit `l + k + 1` of a path
`[l, h]` is set exactly when the bits `l` to `l + k` of `data` are clear. -/
theorem carry_in_path {p : Nat × Nat} (hp : p ∈ ps) (k : Nat) (hk : p.1 + k < p.2) :
    BitVec.carry (p.1 + k + 1) (~~~(data ||| pathBits w Prod.snd ps)) (pathBits w Prod.fst ps) false =
      true ↔ ∀ j, p.1 ≤ j → j ≤ p.1 + k → data.getLsbD j = false := by
  have hw := hps.lt p hp
  -- below its top, a bit of the path is no path's top
  have hnotop : ∀ m, p.1 ≤ m → m < p.2 → (pathBits w Prod.snd ps).getLsbD m = false := by
    intro m hm1 hm2
    rw [Bool.eq_false_iff, ne_eq, getLsbD_pathBits]
    rintro ⟨q, hq, rfl, -⟩
    have := hps.eq_of_mem hq hp ⟨hps.le q hq, le_rfl⟩ ⟨hm1, hm2.le⟩
    subst this
    omega
  have hx : ∀ m, p.1 ≤ m → m < p.2 →
      (~~~(data ||| pathBits w Prod.snd ps)).getLsbD m = !data.getLsbD m := by
    intro m hm1 hm2
    rw [BitVec.getLsbD_not, BitVec.getLsbD_or, hnotop m hm1 hm2, Bool.or_false,
      decide_eq_true (show m < w by omega), Bool.true_and]
  induction k with
  | zero =>
    -- the low bit: its carry in is clear, and `lo` adds one there
    have hlo : (pathBits w Prod.fst ps).getLsbD p.1 = true :=
      (getLsbD_pathBits w _ ps _).mpr ⟨p, hp, rfl, by omega⟩
    rw [Nat.add_zero, BitVec.carry_succ, hx p.1 le_rfl (by omega), hlo, carry_eq_false hps data p.1 (not_inPath_low hps hp)]
    simp only [Bool.atLeastTwo, Bool.and_true, Bool.and_false, Bool.or_false, Bool.not_eq_true']
    constructor
    · intro hd j hj1 hj2
      rwa [show j = p.1 by omega]
    · intro h
      exact h p.1 le_rfl le_rfl
  | succ k ih =>
    -- inside the path: no low bit, so the carry goes on while the bits are clear
    have hlo : (pathBits w Prod.fst ps).getLsbD (p.1 + k + 1) = false := by
      rw [Bool.eq_false_iff, ne_eq, getLsbD_pathBits]
      rintro ⟨q, hq, hq1, -⟩
      have := hps.eq_of_mem hq hp ⟨hq1.le, by have := hps.le q hq; omega⟩ ⟨by omega, by omega⟩
      subst this
      omega
    rw [show p.1 + (k + 1) + 1 = p.1 + k + 1 + 1 by omega, BitVec.carry_succ,
      hx (p.1 + k + 1) (by omega) (by omega), hlo]
    have hmaj : ∀ a c : Bool, Bool.atLeastTwo a false c = (a && c) := by decide
    have ihk := ih (by omega)
    rw [hmaj, Bool.and_eq_true, Bool.not_eq_true']
    constructor
    · rintro ⟨hd, hc⟩ j hj1 hj2
      rcases Nat.lt_or_ge j (p.1 + k + 1) with hj | hj
      · exact ihk.mp hc j hj1 (by omega)
      · rwa [show j = p.1 + k + 1 by omega]
    · intro h
      exact ⟨h _ (by omega) (by omega), ihk.mpr fun j hj1 hj2 => h j hj1 (by omega)⟩

/-- **The sum at a path's top.**  Bit `h` of `~(data | hi) + lo` is set
exactly when the bits `l` to `h - 1` of `data` are clear. -/
theorem getLsbD_sum_top {p : Nat × Nat} (hp : p ∈ ps) :
    (~~~(data ||| pathBits w Prod.snd ps) + pathBits w Prod.fst ps).getLsbD p.2 = true ↔
      ∀ j, p.1 ≤ j → j < p.2 → data.getLsbD j = false := by
  rw [BitVec.getLsbD_add (hps.lt p hp), getLsbD_operand_top hps data hp, Bool.false_xor]
  rcases Nat.lt_or_ge p.1 p.2 with hlt | hge
  · -- a longer path: the carry from its low bit decides
    have hcarry := carry_in_path hps data hp (p.2 - p.1 - 1) (by omega)
    rw [show p.1 + (p.2 - p.1 - 1) + 1 = p.2 by omega] at hcarry
    rw [getLsbD_lo_top hps hp hlt, Bool.false_xor]
    constructor
    · intro hc j hj1 hj2
      exact hcarry.mp hc j hj1 (by omega)
    · intro h
      exact hcarry.mpr fun j hj1 hj2 => h j hj1 (by omega)
  · -- a one-bit path: `lo` sets the bit and nothing is carried in
    have hl : p.2 = p.1 := by have := hps.le p hp; omega
    have hlo : (pathBits w Prod.fst ps).getLsbD p.1 = true :=
      (getLsbD_pathBits w _ ps _).mpr ⟨p, hp, rfl, by have := hps.lt p hp; omega⟩
    rw [hl, hlo, carry_eq_false hps data p.1 (not_inPath_low hps hp)]
    simp only [Bool.xor_false, true_iff]
    intro j hj1 hj2
    omega

/-- **The multipath check.**  `checkMultipath` of the paths' top and low bits
holds exactly when some path has all its bits of `data` clear. -/
theorem checkMultipath_iff :
    checkMultipath data (pathBits w Prod.snd ps) (pathBits w Prod.fst ps) = true ↔
      ∃ p ∈ ps, ∀ j, p.1 ≤ j → j ≤ p.2 → data.getLsbD j = false := by
  unfold checkMultipath
  rw [bne_iff_ne, ne_eq]
  constructor
  · intro hne
    -- a set bit of the result is at some path's top
    obtain ⟨i, hi, hbit⟩ : ∃ i < w, ((~~~(data ||| pathBits w Prod.snd ps) + pathBits w Prod.fst ps) &&&
        (~~~data &&& pathBits w Prod.snd ps)).getLsbD i = true := by
      by_contra hnone
      apply hne
      apply BitVec.eq_of_getLsbD_eq
      intro i hi
      have h0 : (0 : BitVec w).getLsbD i = false := BitVec.getLsbD_zero
      rw [h0]
      exact Bool.eq_false_iff.mpr fun h => hnone ⟨i, hi, h⟩
    rw [BitVec.getLsbD_and, BitVec.getLsbD_and, Bool.and_eq_true, Bool.and_eq_true] at hbit
    obtain ⟨hsum, hd, hh⟩ := hbit
    obtain ⟨p, hp, rfl, -⟩ := (getLsbD_pathBits w _ ps _).mp hh
    refine ⟨p, hp, fun j hj1 hj2 => ?_⟩
    rcases Nat.lt_or_ge j p.2 with hj | hj
    · exact (getLsbD_sum_top hps data hp).mp hsum j hj1 hj
    · rw [show j = p.2 by omega]
      simpa [BitVec.getLsbD_not, hi] using hd
  · rintro ⟨p, hp, hclear⟩ heq
    -- the path's top bit of the result is set
    have hbit := congrArg (fun t : BitVec w => t.getLsbD p.2) heq
    have hsum := (getLsbD_sum_top hps data hp).mpr fun j hj1 hj2 => hclear j hj1 hj2.le
    have hhi : (pathBits w Prod.snd ps).getLsbD p.2 = true :=
      (getLsbD_pathBits w _ ps _).mpr ⟨p, hp, rfl, hps.lt p hp⟩
    have h0 : (0 : BitVec w).getLsbD p.2 = false := BitVec.getLsbD_zero
    rw [BitVec.getLsbD_and, BitVec.getLsbD_and, BitVec.getLsbD_not, hsum, hhi,
      hclear p.2 (hps.le p hp) le_rfl, h0, decide_eq_true (hps.lt p hp)] at hbit
    exact absurd hbit (by decide)

end Paths

/-- A path ending at the top bit: its carry leaves the word, but the top bit
itself is read before. -/
example : checkMultipath64 0 (pathBits 64 Prod.snd [(60, 63)]) (pathBits 64 Prod.fst [(60, 63)]) = true := by
  decide

/-- **The multipath checks of Rose.**  For 32-bit and 64-bit words alike, the
check of a family of disjoint paths, given their top bits and their low bits,
holds exactly when some path has all its bits clear. -/
theorem checkMultipath_iff_path_clear :
    (∀ (data : BitVec 32) (ps : List (Nat × Nat)), Paths 32 ps →
      (checkMultipath32 data (pathBits 32 Prod.snd ps) (pathBits 32 Prod.fst ps) = true ↔
        ∃ p ∈ ps, ∀ j, p.1 ≤ j → j ≤ p.2 → data.getLsbD j = false)) ∧
    (∀ (data : BitVec 64) (ps : List (Nat × Nat)), Paths 64 ps →
      (checkMultipath64 data (pathBits 64 Prod.snd ps) (pathBits 64 Prod.fst ps) = true ↔
        ∃ p ∈ ps, ∀ j, p.1 ≤ j → j ≤ p.2 → data.getLsbD j = false)) :=
  ⟨fun data _ hps => checkMultipath_iff hps data, fun data _ hps => checkMultipath_iff hps data⟩

/-- Three paths of a 32-bit word, a one-bit path among them. -/
theorem checkMultipath_iff_path_clear_three :
    Paths 32 [(0, 1), (2, 3), (5, 5)] ∧
      (checkMultipath32 4#32 (pathBits 32 Prod.snd [(0, 1), (2, 3), (5, 5)])
          (pathBits 32 Prod.fst [(0, 1), (2, 3), (5, 5)]) = true ↔
        ∃ p ∈ [(0, 1), (2, 3), (5, 5)], ∀ j, p.1 ≤ j → j ≤ p.2 → (4#32).getLsbD j = false) :=
  have hps : Paths 32 [(0, 1), (2, 3), (5, 5)] := ⟨by decide, by decide, by decide⟩
  ⟨hps, checkMultipath_iff_path_clear.1 _ _ hps⟩

end Rose
end Vectorscan
