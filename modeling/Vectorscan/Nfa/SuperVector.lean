import Mathlib
import Vectorscan.Nfa.Accel
import Vectorscan.Lib.BlockScan

/-!
# Vectors of bytes

The operations of `SuperVector<S>` (`util/supervector`) that the vector
scanners use, on the x86 build, and the match helpers of
`util/arch/x86/match.hpp`.

**Model.**  A vector is the list of its `S` bytes.  `pshufb` looks each byte
up in a table of 16 bytes: the scanners' masks are `m128` values broadcast to
every 128-bit lane, so every lane looks up the same table.  `vshr64Four`
shifts each 64-bit word right by four bits, byte by byte, `vshr128One` each
128-bit lane right by one byte, and `comparemask` is `movemask`.  The `ctz` and `clz` of the inverted mask in the match helpers are
the lowest and the highest bit below `S` that the mask does not have.  Memory
is a list of bytes indexed by address.

**Results.**  One lemma per operation gives one lane of its result
(`getD_pshufb`, `getD_vshr64Four`, `getD_eqZeroes`, `testBit_comparemask`).
`firstZeroMatchInverted_comparemask`, `lastZeroMatchInverted_comparemask`: on
a vector whose lanes are `0x00` where a test passes and `0xff` elsewhere, the
match helpers return the first and the last position that passes.
-/

namespace Vectorscan
namespace Nfa
namespace Accel

open Word BlockScan

/-! ## Operations -/

/-- `pshufb` with a table that is the same in every 128-bit lane: byte `j` of
the result is the table's byte at the low nibble of byte `j` of `idx`, or zero
when that byte has its top bit set. -/
def pshufb (table idx : List Nat) : List Nat :=
  idx.map fun b => if b &&& 0x80 = 0 then table.getD (b &&& 0xf) 0 else 0

/-- `vshr_64_imm<4>`: each 64-bit word shifted right by four bits.  Byte `j`
takes the high nibble of byte `j` and the low nibble of the next byte of its
word. -/
def vshr64Four (v : List Nat) : List Nat :=
  (List.range v.length).map fun j =>
    ((v.getD j 0 >>> 4) ||| (if j % 8 = 7 then 0 else v.getD (j + 1) 0 <<< 4)) &&& 0xff

/-- `eq(Zeroes())`: `0xff` in each byte that is zero, `0x00` in the others. -/
def eqZeroes (v : List Nat) : List Nat := v.map fun b => if b = 0 then 0xff else 0

/-- `vshr_128_imm<1>`: each 128-bit lane shifted right by one byte.  Byte `j`
takes the next byte of its lane, and the top byte of a lane is zero. -/
def vshr128One (v : List Nat) : List Nat :=
  (List.range v.length).map fun j => if j % 16 = 15 then 0 else v.getD (j + 1) 0

/-- `eq(Ones())`: `0xff` in each byte that is `0xff`, `0x00` in the others. -/
def eqOnes (v : List Nat) : List Nat := v.map fun b => if b = 0xff then 0xff else 0

/-- `comparemask` (`movemask`): bit `j` is the top bit of byte `j`. -/
def comparemask (v : List Nat) : Nat :=
  ((List.range v.length).filter fun j => v.getD j 0 &&& 0x80 != 0).foldr (fun j z => z ||| 1 <<< j) 0

/-- `first_zero_match_inverted<S>`: `buf` plus the lowest bit below `S` that
`z` does not have (the `ctz` of the inverted mask), or none (`NULL`) when it
has them all. -/
def firstZeroMatchInverted (S buf z : Nat) : Option Nat :=
  ((List.range S).find? fun j => !z.testBit j).map (buf + ·)

/-- `last_zero_match_inverted<S>`: `buf` plus the highest bit below `S` that
`z` does not have (`31 - clz32` of the inverted mask at `S = 16`), or none. -/
def lastZeroMatchInverted (S buf z : Nat) : Option Nat :=
  ((List.range S).reverse.find? fun j => !z.testBit j).map (buf + ·)

/-- `eq`: `0xff` in each byte where the two vectors agree, `0x00` elsewhere. -/
def vecEq (a b : List Nat) : List Nat := List.zipWith (fun x y => if x = y then 0xff else 0) a b

/-- `Ones()`: all bits set. -/
def ones (S : Nat) : List Nat := List.replicate S 0xff

/-- `operator>>(n)`: the whole vector shifted right by `n` bytes; byte `j`
takes byte `j + n`, and the top `n` bytes are zero. -/
def vshr (v : List Nat) (n : Nat) : List Nat := (List.range v.length).map fun j => v.getD (j + n) 0

/-- `operator<<(n)`: the whole vector shifted left by `n` bytes; byte `j`
takes byte `j - n`, and the bottom `n` bytes are zero. -/
def vshl (v : List Nat) (n : Nat) : List Nat := (List.range v.length).map fun j => if n ≤ j then v.getD (j - n) 0 else 0

/-- Whether the match helpers with a length look at lane `j`: every lane
below `S`, but at `S = 64` only the `len` low ones, where they mask the
compare mask with `(~0ULL) >> (64 - len)`. -/
def inLen (S len j : Nat) : Bool := S != 64 || decide (j < len)

/-- The lowest lane below `S` that the helpers look at where `t` holds, as an
address from `buf`. -/
def firstLane (S len buf : Nat) (t : Nat → Bool) : Option Nat :=
  ((List.range S).find? fun j => inLen S len j && t j).map (buf + ·)

/-- The highest such lane. -/
def lastLane (S len buf : Nat) (t : Nat → Bool) : Option Nat :=
  ((List.range S).reverse.find? fun j => inLen S len j && t j).map (buf + ·)

/-- `first_non_zero_match<S>(buf, z, len)`: the `ctz` of the compare mask. -/
def firstNonZeroMatch (S buf z len : Nat) : Option Nat := firstLane S len buf z.testBit

/-- `last_non_zero_match<S>(buf, z, len)`: the highest bit of the compare mask. -/
def lastNonZeroMatch (S buf z len : Nat) : Option Nat := lastLane S len buf z.testBit

/-- `first_zero_match_inverted<S>(buf, z, len)`: the `ctz` of the inverted mask. -/
def firstZeroMatchInvertedLen (S buf z len : Nat) : Option Nat := firstLane S len buf fun j => !z.testBit j

/-- `last_zero_match_inverted<S>(buf, z, len)`: the highest bit of the inverted mask. -/
def lastZeroMatchInvertedLen (S buf z len : Nat) : Option Nat := lastLane S len buf fun j => !z.testBit j

/-- The number of low lanes that the helpers with a length look at. -/
def laneCount (S len : Nat) : Nat := if S = 64 then len else S

/-- `load`/`loadu` of the `S` bytes at `p`. -/
def loadu (S : Nat) (mem : List Nat) (p : Nat) : List Nat := (List.range S).map fun j => mem.getD (p + j) 0

/-- `Zeroes()` with the `l` bytes at `p` copied over its first bytes (`memcpy`). -/
def loadPadded (S : Nat) (mem : List Nat) (p l : Nat) : List Nat :=
  (List.range S).map fun j => if j < l then mem.getD (p + j) 0 else 0

/-! ## One lane of an operation -/

section Lanes

@[simp] theorem length_pshufb (table idx : List Nat) : (pshufb table idx).length = idx.length := by
  simp [pshufb]

@[simp] theorem length_vshr64Four (v : List Nat) : (vshr64Four v).length = v.length := by
  simp [vshr64Four]

@[simp] theorem length_loadu (S : Nat) (mem : List Nat) (p : Nat) : (loadu S mem p).length = S := by
  simp [loadu]

@[simp] theorem length_loadPadded (S : Nat) (mem : List Nat) (p l : Nat) : (loadPadded S mem p l).length = S := by
  simp [loadPadded]

theorem getD_zipWith (f : Nat → Nat → Nat) {a b : List Nat} {j : Nat} (ha : j < a.length) (hb : j < b.length) :
    (List.zipWith f a b).getD j 0 = f (a.getD j 0) (b.getD j 0) := by
  simp [List.getD_eq_getElem?_getD, ha, hb]

theorem getD_pshufb (table : List Nat) {idx : List Nat} {j : Nat} (hj : j < idx.length) :
    (pshufb table idx).getD j 0 =
      if idx.getD j 0 &&& 0x80 = 0 then table.getD (idx.getD j 0 &&& 0xf) 0 else 0 := by
  simp [pshufb, List.getD_eq_getElem?_getD, hj]

theorem getD_vshr64Four {v : List Nat} {j : Nat} (hj : j < v.length) :
    (vshr64Four v).getD j 0 =
      ((v.getD j 0 >>> 4) ||| (if j % 8 = 7 then 0 else v.getD (j + 1) 0 <<< 4)) &&& 0xff :=
  getD_map_range _ 0 hj

theorem getD_eqZeroes {v : List Nat} {j : Nat} (hj : j < v.length) :
    (eqZeroes v).getD j 0 = if v.getD j 0 = 0 then 0xff else 0 := by
  simp [eqZeroes, List.getD_eq_getElem?_getD, hj]

@[simp] theorem length_vshr128One (v : List Nat) : (vshr128One v).length = v.length := by
  simp [vshr128One]

@[simp] theorem length_eqOnes (v : List Nat) : (eqOnes v).length = v.length := by
  simp [eqOnes]

theorem getD_vshr128One {v : List Nat} {j : Nat} (hj : j < v.length) :
    (vshr128One v).getD j 0 = if j % 16 = 15 then 0 else v.getD (j + 1) 0 :=
  getD_map_range _ 0 hj

theorem getD_eqOnes {v : List Nat} {j : Nat} (hj : j < v.length) :
    (eqOnes v).getD j 0 = if v.getD j 0 = 0xff then 0xff else 0 := by
  simp [eqOnes, List.getD_eq_getElem?_getD, hj]

/-- The top bit of a number, as a number. -/
theorem and_top (d : Nat) : d &&& 0x80 = d / 128 % 2 * 128 := by
  rw [show (0x80 : Nat) = 2 ^ 7 by norm_num, Nat.and_two_pow, Nat.toNat_testBit]

/-- The index of the third lookup: the byte shifted right by four within its
word, with the top bit cleared, has the byte's high nibble as its low nibble
and no top bit, whatever the next byte puts above it. -/
theorem shifted_index {b n : Nat} (hb : b < 256) (hn : n &&& 0xf = 0) :
    ((0x80 ^^^ 0xff) &&& (((b >>> 4) ||| n) &&& 0xff)) &&& 0x80 = 0 ∧
      ((0x80 ^^^ 0xff) &&& (((b >>> 4) ||| n) &&& 0xff)) &&& 0xf = b >>> 4 := by
  have h7f : (0x80 ^^^ 0xff : Nat) = 0x7f := by decide
  have hhi : b >>> 4 < 16 := by rw [shiftRight_four]; omega
  rw [h7f, Nat.and_comm 0x7f]
  constructor
  · rw [Nat.and_assoc, show (0x7f &&& 0x80 : Nat) = 0 by decide, Nat.and_zero]
  · rw [Nat.and_assoc, show (0x7f &&& 0xf : Nat) = 0xf by decide, Nat.and_assoc,
      show (0xff &&& 0xf : Nat) = 0xf by decide, Nat.and_or_distrib_right, hn, Nat.or_zero, and_fifteen,
      Nat.mod_eq_of_lt hhi]

/-- The next byte, shifted into the high nibble, leaves the low nibble clear. -/
theorem shiftLeft_four_and_fifteen (y : Nat) : (y <<< 4) &&& 0xf = 0 := by
  rw [and_fifteen, Nat.shiftLeft_eq]
  omega

@[simp] theorem length_vecEq (a b : List Nat) : (vecEq a b).length = min a.length b.length := by
  simp [vecEq]

theorem getD_vecEq {a b : List Nat} {j : Nat} (ha : j < a.length) (hb : j < b.length) :
    (vecEq a b).getD j 0 = if a.getD j 0 = b.getD j 0 then 0xff else 0 := by
  simp [vecEq, List.getD_eq_getElem?_getD, ha, hb]

@[simp] theorem length_ones (S : Nat) : (ones S).length = S := List.length_replicate

@[simp] theorem length_vshr (v : List Nat) (n : Nat) : (vshr v n).length = v.length := by
  simp [vshr]

@[simp] theorem length_vshl (v : List Nat) (n : Nat) : (vshl v n).length = v.length := by
  simp [vshl]

theorem getD_vshr {v : List Nat} (n : Nat) {j : Nat} (hj : j < v.length) : (vshr v n).getD j 0 = v.getD (j + n) 0 :=
  getD_map_range _ 0 hj

theorem getD_vshl {v : List Nat} (n : Nat) {j : Nat} (hj : j < v.length) :
    (vshl v n).getD j 0 = if n ≤ j then v.getD (j - n) 0 else 0 :=
  getD_map_range _ 0 hj

/-- `Ones() >> (S - 1)`: all ones in the bottom lane only. -/
theorem getD_ones_vshr {S j : Nat} (hj : j < S) : (vshr (ones S) (S - 1)).getD j 0 = if j = 0 then 0xff else 0 := by
  rw [getD_vshr _ (by simpa using hj)]
  by_cases h0 : j = 0
  · rw [if_pos h0, ones, List.getD_eq_getElem?_getD, List.getElem?_replicate, if_pos (by omega), Option.getD_some]
  · rw [if_neg h0, ones, List.getD_eq_default _ _ (by simp; omega)]

/-- `(Ones() >> (S - 1)) << (S - 1)`: all ones in the top lane only. -/
theorem getD_ones_top {S j : Nat} (hj : j < S) :
    (vshl (vshr (ones S) (S - 1)) (S - 1)).getD j 0 = if j = S - 1 then 0xff else 0 := by
  rw [getD_vshl _ (by simpa using hj)]
  by_cases htop : j = S - 1
  · rw [if_pos (by omega), if_pos htop, getD_ones_vshr (by omega), if_pos (by omega)]
  · rw [if_neg (by omega), if_neg htop]

/-- Lanes that are all ones or zero AND as their tests do. -/
theorem ite_and_ite (a b : Bool) :
    ((if a then 0xff else 0) &&& (if b then 0xff else 0) : Nat) = if (a && b) then 0xff else 0 := by
  cases a <;> cases b <;> rfl

@[simp] theorem laneCount_self (S : Nat) : laneCount S S = S := by
  unfold laneCount
  split_ifs with h <;> rfl

theorem laneCount_of_ne {S : Nat} (h : S ≠ 64) (len : Nat) : laneCount S len = S := by
  rw [laneCount, if_neg h]

theorem laneCount_le {S len : Nat} (hlen : len ≤ S) : laneCount S len ≤ S := by
  unfold laneCount
  split_ifs <;> omega

theorem le_laneCount {S len : Nat} (hlen : len ≤ S) : len ≤ laneCount S len := by
  unfold laneCount
  split_ifs <;> omega

theorem testBit_comparemask (v : List Nat) (j : Nat) :
    (comparemask v).testBit j = (decide (j < v.length) && (v.getD j 0 &&& 0x80 != 0)) := by
  rw [comparemask, testBit_foldr_or_shiftLeft]
  simp only [List.mem_filter, List.mem_range, Bool.decide_and, Bool.decide_eq_true]

end Lanes

/-! ## The match helpers -/

section Match

variable {v : List Nat} {q : Nat → Bool}

/-- Bit `j` of the compare mask of a vector whose lanes are `0x00` where `q`
holds and `0xff` elsewhere is set where `q` fails. -/
theorem testBit_comparemask_of_lanes (hv : ∀ j < v.length, v.getD j 0 = if q j then 0 else 0xff) {j : Nat}
    (hj : j < v.length) : (comparemask v).testBit j = !q j := by
  rw [testBit_comparemask, hv j hj]
  cases q j <;> simp [hj]

/-- **The first match of a vector.**  On such a vector loaded from `p`,
`first_zero_match_inverted` returns the first position where `q` holds. -/
theorem firstZeroMatchInverted_comparemask (hv : ∀ j < v.length, v.getD j 0 = if q j then 0 else 0xff) (p : Nat) :
    firstZeroMatchInverted v.length p (comparemask v) = firstIn (fun i => q (i - p)) p (p + v.length) := by
  rw [firstZeroMatchInverted, firstIn_eq_find?_range]
  congr 1
  apply List.find?_congr
  intro j hj
  rw [List.mem_range] at hj
  rw [testBit_comparemask_of_lanes hv hj, Bool.not_not, Nat.add_sub_cancel_left]

/-- **The last match of a vector.** -/
theorem lastZeroMatchInverted_comparemask (hv : ∀ j < v.length, v.getD j 0 = if q j then 0 else 0xff) (p : Nat) :
    lastZeroMatchInverted v.length p (comparemask v) = lastIn (fun i => q (i - p)) p (p + v.length) := by
  rw [lastZeroMatchInverted, lastIn_eq_find?_range]
  congr 1
  apply List.find?_congr
  intro j hj
  rw [List.mem_reverse, List.mem_range] at hj
  rw [testBit_comparemask_of_lanes hv hj, Bool.not_not, Nat.add_sub_cancel_left]

/-- Bit `j` of the compare mask of a vector whose lanes are `0xff` where `q`
holds and `0x00` elsewhere is set where `q` holds. -/
theorem testBit_comparemask_of_hits (hv : ∀ j < v.length, v.getD j 0 = if q j then 0xff else 0) {j : Nat}
    (hj : j < v.length) : (comparemask v).testBit j = q j := by
  rw [testBit_comparemask, hv j hj]
  cases q j <;> simp [hj]

/-- The lanes that a helper with a length looks at, as addresses from `p`:
the first `laneCount S len` of them. -/
theorem firstLane_eq_firstIn {S len : Nat} (hlen : len ≤ S) (p : Nat) (t : Nat → Bool) :
    firstLane S len p t = firstIn (fun i => t (i - p)) p (p + laneCount S len) := by
  have hfind : firstLane S len p t = firstIn (fun i => inLen S len (i - p) && t (i - p)) p (p + S) := by
    rw [firstLane, firstIn_eq_find?_range]
    simp only [Nat.add_sub_cancel_left]
  rw [hfind, laneCount]
  split_ifs with h64
  · -- the AVX-512 helpers: the lanes from `len` on are masked off
    have hmasked : firstIn (fun i => inLen S len (i - p) && t (i - p)) (p + len) (p + S) = none :=
      firstIn_eq_none_iff.2 fun i h1 _ => by simp [inLen, h64]; omega
    rw [firstIn_split (p + len) (Nat.le_add_right p len) (by omega), hmasked, Option.or_none]
    exact firstIn_congr fun i _ h2 => by simp [inLen, h64]; omega
  · exact firstIn_congr fun i _ _ => by simp [inLen, h64]

theorem lastLane_eq_lastIn {S len : Nat} (hlen : len ≤ S) (p : Nat) (t : Nat → Bool) :
    lastLane S len p t = lastIn (fun i => t (i - p)) p (p + laneCount S len) := by
  have hfind : lastLane S len p t = lastIn (fun i => inLen S len (i - p) && t (i - p)) p (p + S) := by
    rw [lastLane, lastIn_eq_find?_range]
    simp only [Nat.add_sub_cancel_left]
  rw [hfind, laneCount]
  split_ifs with h64
  · have hmasked : lastIn (fun i => inLen S len (i - p) && t (i - p)) (p + len) (p + S) = none :=
      lastIn_eq_none_iff.2 fun i h1 _ => by simp [inLen, h64]; omega
    rw [lastIn_split (p + len) (Nat.le_add_right p len) (by omega), hmasked, Option.none_or]
    exact lastIn_congr fun i _ h2 => by simp [inLen, h64]; omega
  · exact lastIn_congr fun i _ _ => by simp [inLen, h64]

end Match

/-! ## Loads -/

section Loads

theorem getD_loadu {S j : Nat} (hj : j < S) (mem : List Nat) (p : Nat) :
    (loadu S mem p).getD j 0 = mem.getD (p + j) 0 :=
  getD_map_range _ 0 hj

theorem getD_loadPadded {S j : Nat} (hj : j < S) (mem : List Nat) (p l : Nat) :
    (loadPadded S mem p l).getD j 0 = if j < l then mem.getD (p + j) 0 else 0 :=
  getD_map_range _ 0 hj

/-- Every address of a memory of bytes holds a byte. -/
theorem getD_lt_of_bytes {mem : List Nat} (hmem : ∀ b ∈ mem, b < 256) (i : Nat) : mem.getD i 0 < 256 := by
  rw [List.getD_eq_getElem?_getD]
  cases h : mem[i]? with
  | none => decide
  | some b => exact hmem b (List.mem_of_getElem? h)

variable {mem : List Nat}

/-- The bytes of a padded vector: the buffer's, then zeroes. -/
theorem getD_loadPadded_sub (S : Nat) {p l i : Nat} (h1 : p ≤ i) (h2 : i < p + S) :
    (loadPadded S mem p l).getD (i - p) 0 = if i < p + l then mem.getD i 0 else 0 := by
  rw [getD_loadPadded (by omega), Nat.add_sub_cancel' h1]
  by_cases hi : i < p + l
  · rw [if_pos (by omega), if_pos hi]
  · rw [if_neg (by omega), if_neg hi]

theorem padded_bytes (hmem : ∀ b ∈ mem, b < 256) (S p l : Nat) :
    ∀ j < (loadPadded S mem p l).length, (loadPadded S mem p l).getD j 0 < 256 := by
  intro j hj
  rw [getD_loadPadded (by simpa using hj)]
  split
  · exact getD_lt_of_bytes hmem _
  · decide

end Loads

end Accel
end Nfa
end Vectorscan
