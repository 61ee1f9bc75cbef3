import Vectorscan.Multibit.Layout

/-!
# Multibit: the flat model

The specialisations `mmbit_*_flat` of `src/util/multibit.h` for multibits of
at most `MMB_FLAT_MAX_BITS` keys, where key `k` is bit `k` of the buffer.

**Operations.**  Single-key updates and tests work on the byte `k / 8`; the
iterators read 64-bit blocks, the last (runt) block through a partial load of
the bytes it occupies, and mask them with `mmb_mask_zero_to` or
`get_flat_masks`.

**Results.**  Each operation has a specification lemma in terms of the bits
of the buffer: `mmbitSetFlat_bits`, `mmbitIssetFlat_eq`, `mmbitUnsetFlat_bits`,
`mmbitIterateFlat_eq` (the least key after `it_in`) and
`mmbitIterateBoundedFlat_eq` (the least key in `[begin, end)`).  The
iterators rely on `MmbitValid`: the padding bits of the runt byte, which the
partial loads read, are clear.
-/

namespace Vectorscan
namespace Multibit

open Word

/-! ## Word facts used by the flat scans -/

/-- A flat block of `n` keys read from byte `8 * start`: its bits are the keys
`64 * start + j`, the padding bits of its last byte being clear. -/
theorem testBit_flatBlock {bits : Mem} {totalBits start n : Nat}
    (hv : ∀ b, totalBits ≤ b → b < 8 * mmbitFlatSize totalBits → bits b = false)
    (hn : n = min 64 (totalBits - 64 * start)) (hs : 64 * start < totalBits) (j : Nat) :
    (mmbitGetFlatBlock bits (start * 8) n).testBit j =
      (decide (j < n) && bits (64 * start + j)) := by
  unfold mmbitGetFlatBlock
  rw [Mem.testBit_load, show 8 * (start * 8) + j = 64 * start + j by omega]
  have hr : n ≤ 8 * (roundupN n 8 / 8) ∧ 8 * (roundupN n 8 / 8) ≤ n + 7 := by
    unfold roundupN; omega
  have hf : 8 * mmbitFlatSize totalBits + 7 ≥ totalBits + 7 ∧
      totalBits ≤ 8 * mmbitFlatSize totalBits := by
    unfold mmbitFlatSize roundupN; omega
  by_cases hj : j < n
  · simp [hj, show j < 8 * (roundupN n 8 / 8) by omega]
  · by_cases hj8 : j < 8 * (roundupN n 8 / 8)
    · have hpad := hv (64 * start + j) (by omega)
        (by unfold mmbitFlatSize roundupN at *; omega)
      simp [hj, hj8, hpad]
    · simp [hj, hj8]

/-! ## Single keys -/

/-- `mmbit_flat_select_byte`. -/
def mmbitFlatSelectByte (key _totalBits : Nat) : Nat := key / 8

/-- `mmbit_set_flat`: set the key's bit; the result is whether it was already set. -/
def mmbitSetFlat (bits : Mem) (totalBits key : Nat) : Mem × Bool :=
  let p := mmbitFlatSelectByte key totalBits
  let mask := 1 <<< (key % 8)
  let byte := bits.load (8 * p) 8
  (bits.store (8 * p) 8 (byte ||| mask), byte &&& mask != 0)

/-- `mmbit_isset_flat`. -/
def mmbitIssetFlat (bits : Mem) (totalBits key : Nat) : Bool :=
  bits.load (8 * mmbitFlatSelectByte key totalBits) 8 &&& (1 <<< (key % 8)) != 0

/-- `mmbit_unset_flat` (the mask is complemented as a 32-bit value, then the
byte is stored). -/
def mmbitUnsetFlat (bits : Mem) (totalBits key : Nat) : Mem :=
  let p := mmbitFlatSelectByte key totalBits
  bits.store (8 * p) 8 (bits.load (8 * p) 8 &&& compl 32 (1 <<< (key % 8)))

/-- Testing one bit of a byte loaded from memory. -/
theorem load_and_single_ne_zero (bits : Mem) (key : Nat) :
    (bits.load (8 * (key / 8)) 8 &&& (1 <<< (key % 8)) != 0) = bits key := by
  rw [Mem.load_and_bit_ne_zero bits (Nat.mod_lt key (by decide : 8 > 0)),
    show 8 * (key / 8) + key % 8 = key by omega]

theorem mmbitIssetFlat_eq (bits : Mem) (totalBits key : Nat) :
    mmbitIssetFlat bits totalBits key = bits key :=
  load_and_single_ne_zero bits key

theorem mmbitSetFlat_bits (bits : Mem) (totalBits key : Nat) :
    (mmbitSetFlat bits totalBits key).1 = fun b => b = key || bits b := by
  simp only [mmbitSetFlat, mmbitFlatSelectByte]
  rw [Mem.store_or_bit bits (Nat.mod_lt key (by decide : 8 > 0)),
    show 8 * (key / 8) + key % 8 = key by omega]

theorem mmbitSetFlat_ret (bits : Mem) (totalBits key : Nat) :
    (mmbitSetFlat bits totalBits key).2 = bits key :=
  load_and_single_ne_zero bits key

theorem mmbitUnsetFlat_bits (bits : Mem) (totalBits key : Nat) :
    mmbitUnsetFlat bits totalBits key = fun b => b ≠ key && bits b := by
  simp only [mmbitUnsetFlat, mmbitFlatSelectByte]
  rw [Mem.store_and_compl_bit bits (Nat.mod_lt key (by decide : 8 > 0)) (by decide : 8 ≤ 32),
    show 8 * (key / 8) + key % 8 = key by omega]

/-! ## `mmbit_iterate_flat` -/

/-- The loop over the remaining full-sized blocks of `mmbit_iterate_flat`. -/
def mmbitIterateFlatBlocks (bits : Mem) (lastBlock start : Nat) : Option Nat :=
  if start < lastBlock then
    let block := mmbLoad bits (start * 8)
    if block ≠ 0 then some (start * mmbKeyBits + mmbCtz block)
    else mmbitIterateFlatBlocks bits lastBlock (start + 1)
  else none
termination_by lastBlock - start

/-- The part of `mmbit_iterate_flat` that continues an iteration: it searches
the block holding `it_in + 1` and returns either a result (`.inl`) or the
block the main loop starts from (`.inr`). -/
def mmbitIterateFlatFirst (bits : Mem) (totalBits itIn : Nat) : Nat ⊕ Nat :=
  if itIn ≠ mmbInvalid then
    let it := itIn + 1
    let start := roundupN it mmbKeyBits / mmbKeyBits - 1
    let startKey := start * mmbKeyBits
    let blockSize := min mmbKeyBits (totalBits - startKey)
    let block := mmbitGetFlatBlock bits (start * 8) blockSize &&&
      compl 64 (mmbMaskZeroTo (it - startKey))
    if block ≠ 0 then .inl (startKey + mmbCtz block)
    else if startKey + mmbKeyBits ≥ totalBits then .inl mmbInvalid -- the final block
    else .inr (start + 1)
  else .inr 0

/-- The final, smaller than full-sized, block of `mmbit_iterate_flat`. -/
def mmbitIterateFlatRunt (bits : Mem) (totalBits start : Nat) : Nat :=
  if totalBits % mmbKeyBits ≠ 0 then
    let startKey := start * mmbKeyBits
    let block := mmbitGetFlatBlock bits (start * 8) (min mmbKeyBits (totalBits - startKey))
    if block ≠ 0 then startKey + mmbCtz block else mmbInvalid
  else mmbInvalid

/-- `mmbit_iterate_flat`. -/
def mmbitIterateFlat (bits : Mem) (totalBits itIn : Nat) : Nat :=
  if totalBits ≤ mmbKeyBits then
    -- short cut for single-block cases
    let block := mmbitGetFlatBlock bits 0 totalBits
    let block := if itIn ≠ mmbInvalid then block &&& compl 64 (mmbMaskZeroTo (itIn + 1))
      else block
    if block ≠ 0 then mmbCtz block else mmbInvalid
  else
    let lastBlock := totalBits / mmbKeyBits
    match mmbitIterateFlatFirst bits totalBits itIn with
    | .inl r => r
    | .inr start =>
        -- the loop leaves `start` at `last_block`, where a runt block may remain
        (mmbitIterateFlatBlocks bits lastBlock start).getD
          (mmbitIterateFlatRunt bits totalBits (max start lastBlock))

section Iterate

variable {bits : Mem} {totalBits : Nat}

/-- The padding bits of the flat runt byte are clear. -/
abbrev FlatPadding (totalBits : Nat) (bits : Mem) : Prop :=
  ∀ b, totalBits ≤ b → b < 8 * mmbitFlatSize totalBits → bits b = false

/-- The full-block loop finds the least key of blocks `start ..< last_block`. -/
theorem mmbitIterateFlatBlocks_eq (bits : Mem) (lastBlock start : Nat) :
    mmbitIterateFlatBlocks bits lastBlock start =
      firstIn bits (64 * start) (64 * lastBlock) := by
  fun_induction mmbitIterateFlatBlocks bits lastBlock start with
  | case1 start hlt block hne =>
      have hw := @firstIn_eq_of_word 64 block 0 64 (64 * start) bits le_rfl fun j => by
          simp only [block, testBit_mmbLoad]
          rw [show 8 * (start * 8) + j = 64 * start + j by omega]
          simp
      rw [firstIn_split (64 * start + 64) (by omega) (by omega), ← Nat.add_zero (64 * start),
        hw, if_neg hne]
      simp [mmbKeyBits, mmbCtz, Nat.mul_comm]
  | case2 start hlt block hzero ih =>
      have hw := @firstIn_eq_of_word 64 block 0 64 (64 * start) bits le_rfl fun j => by
          simp only [block, testBit_mmbLoad]
          rw [show 8 * (start * 8) + j = 64 * start + j by omega]
          simp
      rw [firstIn_split (64 * start + 64) (by omega) (by omega), ih, ← Nat.add_zero (64 * start),
        hw, if_pos (by simpa using hzero)]
      simp [Nat.mul_add]
  | case3 start hge =>
      exact (firstIn_eq_none_iff.2 fun j h1 h2 => by omega).symm

/-- The runt block holds the keys from `64 * (total_bits / 64)` on. -/
theorem mmbitIterateFlatRunt_eq (hv : FlatPadding totalBits bits) :
    mmbitIterateFlatRunt bits totalBits (totalBits / 64) =
      (firstIn bits (64 * (totalBits / 64)) totalBits).getD mmbInvalid := by
  unfold mmbitIterateFlatRunt mmbKeyBits
  split
  · have hsize : min 64 (totalBits - totalBits / 64 * 64) = totalBits - 64 * (totalBits / 64) := by
      omega
    dsimp only
    rw [hsize, Nat.mul_comm (totalBits / 64) 64]
    have hw := @firstIn_eq_of_word 64
      (mmbitGetFlatBlock bits (totalBits / 64 * 8) (totalBits - 64 * (totalBits / 64)))
      0 (totalBits - 64 * (totalBits / 64)) (64 * (totalBits / 64)) bits (by omega) fun j => by
        rw [testBit_flatBlock hv (by omega) (by omega)]
        simp
    rw [Nat.add_zero, show 64 * (totalBits / 64) + (totalBits - 64 * (totalBits / 64)) =
      totalBits by omega] at hw
    rw [hw]
    split <;> simp_all [mmbCtz]
  · rw [firstIn_eq_none_iff.2 fun j h1 h2 => by omega]
    rfl

/-- After the full blocks from `s` on, the runt block finishes the scan. -/
theorem mmbitIterateFlat_tail (hv : FlatPadding totalBits bits) {s : Nat}
    (hs : 64 * s ≤ totalBits) :
    (mmbitIterateFlatBlocks bits (totalBits / 64) s).getD
        (mmbitIterateFlatRunt bits totalBits (max s (totalBits / 64))) =
      (firstIn bits (64 * s) totalBits).getD mmbInvalid := by
  have hsplit := @firstIn_split bits (64 * s) totalBits (64 * (totalBits / 64)) (by omega)
    (by omega)
  rw [mmbitIterateFlatBlocks_eq, hsplit]
  cases firstIn bits (64 * s) (64 * (totalBits / 64)) with
  | some k => rfl
  | none =>
      rw [show max s (totalBits / 64) = totalBits / 64 by omega, mmbitIterateFlatRunt_eq hv]
      rfl

/-- The first phase of a continued iteration: either the result, or the block
`s` where the main loop starts, with no key in `[it_in + 1, 64 * s)`. -/
theorem mmbitIterateFlatFirst_spec (hv : FlatPadding totalBits bits) {itIn : Nat}
    (hit : itIn ≠ mmbInvalid) (hlt : itIn + 1 < totalBits) :
    (∃ r, mmbitIterateFlatFirst bits totalBits itIn = .inl r ∧
        r = (firstIn bits (itIn + 1) totalBits).getD mmbInvalid) ∨
    (∃ s, mmbitIterateFlatFirst bits totalBits itIn = .inr s ∧ itIn + 1 ≤ 64 * s ∧
        64 * s ≤ totalBits ∧ firstIn bits (itIn + 1) (64 * s) = none) := by
  unfold mmbitIterateFlatFirst
  rw [if_pos hit]
  dsimp only
  unfold roundupN mmbKeyBits
  by_cases hm : (itIn + 1) % 64 = 0
  · -- `it_in + 1` starts a block: the masked block is empty, the loop starts there
    have hst : (itIn + 1 + 63) / 64 * 64 / 64 - 1 = (itIn + 1) / 64 - 1 := by omega
    rw [hst]
    have hblock : ∀ x, x &&& compl 64 (mmbMaskZeroTo (itIn + 1 - ((itIn + 1) / 64 - 1) * 64))
        = 0 := fun x => Nat.eq_of_testBit_eq fun j => by
      rw [testBit_and_compl_mask (by omega)]
      by_cases hj : j < 64
      · simp [show ¬ (itIn + 1 - ((itIn + 1) / 64 - 1) * 64 ≤ j) by omega]
      · simp [hj]
    rw [if_neg (by rw [hblock]; simp), if_neg (by omega)]
    refine .inr ⟨(itIn + 1) / 64 - 1 + 1, rfl, by omega, by omega, ?_⟩
    exact firstIn_eq_none_iff.2 fun j h1 h2 => by omega
  · -- `it_in + 1` lies inside block `(it_in + 1) / 64`
    have hst : (itIn + 1 + 63) / 64 * 64 / 64 - 1 = (itIn + 1) / 64 := by omega
    rw [hst]
    set b := (itIn + 1) / 64 with hb
    have hsize : min 64 (totalBits - b * 64) = min 64 (totalBits - 64 * b) := by
      rw [Nat.mul_comm]
    have hw := @firstIn_eq_of_word 64
      (mmbitGetFlatBlock bits (b * 8) (min 64 (totalBits - b * 64)) &&&
        compl 64 (mmbMaskZeroTo (itIn + 1 - b * 64)))
      (itIn + 1 - 64 * b) (min 64 (totalBits - 64 * b)) (64 * b) bits (by omega) fun j => by
        rw [testBit_and_compl_mask (by omega), hsize, testBit_flatBlock hv rfl (by omega)]
        rw [Nat.mul_comm b 64]
        by_cases h1 : j < min 64 (totalBits - 64 * b) <;>
          by_cases h2 : itIn + 1 - 64 * b ≤ j <;> simp [h1, h2]
        omega
    rw [show 64 * b + (itIn + 1 - 64 * b) = itIn + 1 by omega] at hw
    have hsplit := @firstIn_split bits (itIn + 1) totalBits (64 * b + min 64 (totalBits - 64 * b))
      (by omega) (by omega)
    split
    · rename_i hne
      rw [if_neg hne] at hw
      refine .inl ⟨_, rfl, ?_⟩
      rw [hsplit, hw]
      simp [mmbCtz, Nat.mul_comm]
    · rename_i hzero
      rw [if_pos (by simpa using hzero)] at hw
      split
      · refine .inl ⟨_, rfl, ?_⟩
        rw [show 64 * b + min 64 (totalBits - 64 * b) = totalBits by omega] at hw
        rw [hw]
        rfl
      · refine .inr ⟨b + 1, rfl, by omega, by omega, ?_⟩
        rw [show 64 * (b + 1) = 64 * b + min 64 (totalBits - 64 * b) by omega]
        exact hw

/-- **`mmbit_iterate_flat`** returns the least key after `it_in` (from the
start for `MMB_INVALID`), or `MMB_INVALID`. -/
theorem mmbitIterateFlat_eq (hv : FlatPadding totalBits bits) (hpos : 0 < totalBits)
    {itIn : Nat} (hit : itIn = mmbInvalid ∨ itIn + 1 < totalBits) :
    mmbitIterateFlat bits totalBits itIn =
      (firstIn bits (if itIn = mmbInvalid then 0 else itIn + 1) totalBits).getD mmbInvalid := by
  unfold mmbitIterateFlat mmbKeyBits
  split
  · -- one block holds every key
    rename_i hsmall
    have hw := @firstIn_eq_of_word 64
      (if itIn ≠ mmbInvalid then
          mmbitGetFlatBlock bits 0 totalBits &&& compl 64 (mmbMaskZeroTo (itIn + 1))
        else mmbitGetFlatBlock bits 0 totalBits)
      (if itIn = mmbInvalid then 0 else itIn + 1) totalBits 0 bits hsmall fun j => by
        have hb := @testBit_flatBlock bits totalBits 0 totalBits hv (by omega) (by omega) j
        simp only [Nat.mul_zero, Nat.zero_mul, Nat.zero_add] at hb
        by_cases hinv : itIn = mmbInvalid
        · simp [hinv, hb]
        · rw [if_pos hinv, testBit_and_compl_mask (by omega), hb]
          by_cases h1 : j < totalBits <;> by_cases h2 : itIn + 1 ≤ j <;> simp [hinv, h1, h2]
          omega
    simp only [Nat.zero_add] at hw
    dsimp only
    rw [hw]
    generalize (if itIn ≠ mmbInvalid then
      mmbitGetFlatBlock bits 0 totalBits &&& compl 64 (mmbMaskZeroTo (itIn + 1))
      else mmbitGetFlatBlock bits 0 totalBits) = x
    by_cases hx : x = 0 <;> simp [hx, mmbCtz]
  · rename_i hbig
    by_cases hinv : itIn = mmbInvalid
    · have : mmbitIterateFlatFirst bits totalBits itIn = .inr 0 := by
        unfold mmbitIterateFlatFirst; rw [if_neg (by simpa using hinv)]
      rw [this, if_pos hinv]
      exact mmbitIterateFlat_tail hv (by omega)
    · rw [if_neg hinv]
      rcases mmbitIterateFlatFirst_spec hv hinv (by omega) with ⟨r, hr, hres⟩ | ⟨s, hs, h1, h2, h3⟩
      · rw [hr]; exact hres
      · rw [hs]
        dsimp only
        rw [mmbitIterateFlat_tail hv h2, @firstIn_split bits _ _ (64 * s) h1 h2, h3]
        rfl

end Iterate

/-! ## Range masks -/

/-- `get_flat_masks`: the bits of the block at key `base` lying in `[it_start, it_end)`. -/
def getFlatMasks (base itStart itEnd : Nat) : Nat :=
  if itEnd ≤ base then 0
  else
    let udiff := itEnd - base
    let mask := if udiff < 64 then mmbMaskZeroToNocheck udiff else mmbAllOnes
    if itStart ≥ base then
      let ldiff := itStart - base
      let lmask := if ldiff < 64 then compl 64 (mmbMaskZeroToNocheck ldiff) else 0
      mask &&& lmask
    else mask

theorem testBit_getFlatMasks (base itStart itEnd j : Nat) :
    (getFlatMasks base itStart itEnd).testBit j =
      decide (j < 64 ∧ itStart ≤ base + j ∧ base + j < itEnd) := by
  unfold getFlatMasks
  split
  · simp only [Nat.zero_testBit]
    exact (decide_eq_false (by omega)).symm
  · have hmask : (if itEnd - base < 64 then mmbMaskZeroToNocheck (itEnd - base)
        else mmbAllOnes).testBit j = decide (j < 64 ∧ base + j < itEnd) := by
      split
      · rw [mmbMaskZeroToNocheck_eq, testBit_lowMask]
        exact decide_eq_decide.mpr (by omega)
      · unfold mmbAllOnes
        rw [testBit_lowMask]
        exact decide_eq_decide.mpr (by omega)
    dsimp only
    split
    · rw [Nat.testBit_and, hmask]
      split
      · rw [testBit_compl (by rw [mmbMaskZeroToNocheck_eq]; exact lowMask_lt_of_le (by omega)),
          mmbMaskZeroToNocheck_eq, testBit_lowMask]
        by_cases h1 : j < 64 <;> by_cases h2 : base + j < itEnd <;>
          by_cases h3 : j < itStart - base <;> simp [h1, h2, h3] <;> omega
      · simp only [Nat.zero_testBit, Bool.and_false]
        exact (decide_eq_false (by omega)).symm
    · rw [hmask]
      exact decide_eq_decide.mpr (by omega)

/-! ## `mmbit_iterate_bounded_flat` -/

/-- The full-sized-block loop of `mmbit_iterate_bounded_flat` (`i` is the key
of the block's first bit). -/
def mmbitIterateBoundedFlatBlocks (bits : Mem) (begin endKey e i : Nat) : Option Nat :=
  if i < e then
    let block := mmbLoad bits (i / 8) &&& getFlatMasks i begin endKey
    if block ≠ 0 then some (i + mmbCtz block)
    else mmbitIterateBoundedFlatBlocks bits begin endKey e (i + mmbKeyBits)
  else none
termination_by e - i
decreasing_by unfold mmbKeyBits; omega

/-- The final, smaller than full-sized, block of `mmbit_iterate_bounded_flat`. -/
def mmbitIterateBoundedFlatRunt (bits : Mem) (totalBits begin endKey lastBlock : Nat) : Nat :=
  if endKey > lastBlock then
    let block := mmbitGetFlatBlock bits (lastBlock / 8) (totalBits - lastBlock) &&&
      getFlatMasks lastBlock begin endKey
    if block ≠ 0 then lastBlock + mmbCtz block else mmbInvalid
  else mmbInvalid

/-- `mmbit_iterate_bounded_flat`. -/
def mmbitIterateBoundedFlat (bits : Mem) (totalBits begin endKey : Nat) : Nat :=
  if totalBits ≤ mmbKeyBits then
    -- short cut for single-block cases
    let block := mmbitGetFlatBlock bits 0 totalBits &&& getFlatMasks 0 begin endKey
    if block ≠ 0 then mmbCtz block else mmbInvalid
  else
    let lastBlock := rounddownN totalBits mmbKeyBits
    (mmbitIterateBoundedFlatBlocks bits begin endKey (min endKey lastBlock)
        (rounddownN begin mmbKeyBits)).getD
      (mmbitIterateBoundedFlatRunt bits totalBits begin endKey lastBlock)

section Bounded

variable {bits : Mem} {totalBits : Nat}

/-- The keys of the range `[begin, end)` that are set. -/
def inRange (bits : Mem) (begin endKey : Nat) : Nat → Bool :=
  fun k => decide (begin ≤ k ∧ k < endKey) && bits k

/-- A masked block at key `i` is the window `[i, i + 64)` of `inRange`. -/
theorem testBit_maskedBlock (bits : Mem) (begin endKey i j : Nat) (hi : i % 8 = 0) :
    (mmbLoad bits (i / 8) &&& getFlatMasks i begin endKey).testBit j =
      (decide (0 ≤ j ∧ j < 64) && inRange bits begin endKey (i + j)) := by
  rw [Nat.testBit_and, testBit_mmbLoad, testBit_getFlatMasks, show 8 * (i / 8) + j = i + j by omega]
  unfold inRange
  by_cases h1 : j < 64 <;> by_cases h2 : begin ≤ i + j ∧ i + j < endKey <;> simp [h1, h2]

/-- The block loop scans whole blocks from `i` up to the first block boundary at
or after `e`. -/
theorem mmbitIterateBoundedFlatBlocks_eq (bits : Mem) (begin endKey e i : Nat) (hi : i % 64 = 0) :
    mmbitIterateBoundedFlatBlocks bits begin endKey e i =
      firstIn (inRange bits begin endKey) i (max i (roundupN e 64)) := by
  fun_induction mmbitIterateBoundedFlatBlocks bits begin endKey e i with
  | case1 i hlt block hne =>
      have hw := @firstIn_eq_of_word 64 block 0 64 i (inRange bits begin endKey) le_rfl
        (testBit_maskedBlock bits begin endKey i · (by omega))
      unfold roundupN
      rw [firstIn_split (i + 64) (by omega) (by omega), ← Nat.add_zero i, hw, if_neg hne]
      simp [mmbCtz]
  | case2 i hlt block hzero ih =>
      have hw := @firstIn_eq_of_word 64 block 0 64 i (inRange bits begin endKey) le_rfl
        (testBit_maskedBlock bits begin endKey i · (by omega))
      have ih := ih (by unfold mmbKeyBits; omega)
      unfold roundupN at ih ⊢
      unfold mmbKeyBits at ih ⊢
      rw [firstIn_split (i + 64) (by omega) (by omega), ← Nat.add_zero i, hw,
        if_pos (by simpa using hzero), Nat.add_zero, ih,
        show max (i + 64) ((e + (64 - 1)) / 64 * 64) = max i ((e + (64 - 1)) / 64 * 64) by omega]
      rfl
  | case3 i hge =>
      exact (firstIn_eq_none_iff.2 fun j h1 h2 => by unfold roundupN at h2; omega).symm

/-- **`mmbit_iterate_bounded_flat`** returns the least key of `[begin, end)`, or
`MMB_INVALID`. -/
theorem mmbitIterateBoundedFlat_eq (hv : FlatPadding totalBits bits) {begin endKey : Nat}
    (hbe : begin < endKey) (hend : endKey ≤ totalBits) :
    mmbitIterateBoundedFlat bits totalBits begin endKey =
      (firstIn bits begin endKey).getD mmbInvalid := by
  have hwin := firstIn_window bits begin endKey
  unfold mmbitIterateBoundedFlat mmbKeyBits
  split
  · rename_i hsmall
    have hw := @firstIn_eq_of_word 64
      (mmbitGetFlatBlock bits 0 totalBits &&& getFlatMasks 0 begin endKey) 0 totalBits 0
      (inRange bits begin endKey) hsmall fun j => by
        have hb := @testBit_flatBlock bits totalBits 0 totalBits hv (by omega) (by omega) j
        simp only [Nat.mul_zero, Nat.zero_mul, Nat.zero_add] at hb
        rw [Nat.testBit_and, hb, testBit_getFlatMasks]
        unfold inRange
        by_cases h1 : j < totalBits <;> by_cases h2 : begin ≤ j ∧ j < endKey <;>
          simp [h1, h2]
        omega
    unfold inRange at hw
    rw [Nat.zero_add, Nat.zero_add, hwin, show max 0 begin = begin by omega,
      show min totalBits endKey = endKey by omega] at hw
    dsimp only
    rw [hw]
    generalize mmbitGetFlatBlock bits 0 totalBits &&& getFlatMasks 0 begin endKey = x
    by_cases hx : x = 0 <;> simp [hx, mmbCtz]
  · rename_i hbig
    unfold rounddownN
    have hloop := mmbitIterateBoundedFlatBlocks_eq bits begin endKey (min endKey (totalBits / 64 * 64))
      (begin / 64 * 64) (by omega)
    unfold inRange at hloop
    dsimp only
    rw [hloop]
    by_cases hlast : endKey ≤ totalBits / 64 * 64
    · -- no runt block is reached: the scan stops at the block holding `end`
      have hext := @firstIn_extend (fun k => decide (begin ≤ k ∧ k < endKey) && bits k)
        (begin / 64 * 64) endKey (roundupN endKey 64) (by unfold roundupN; omega)
        fun k h1 _ => by simp; omega
      rw [show min endKey (totalBits / 64 * 64) = endKey by omega,
        show max (begin / 64 * 64) (roundupN endKey 64) = roundupN endKey 64 by
          unfold roundupN; omega, hext, hwin,
        show max (begin / 64 * 64) begin = begin by omega, Nat.min_self]
      unfold mmbitIterateBoundedFlatRunt
      rw [if_neg (by omega)]
    · -- the full blocks up to `last_block`, then the runt block
      have hrunt : mmbitIterateBoundedFlatRunt bits totalBits begin endKey (totalBits / 64 * 64) =
          (firstIn (fun k => decide (begin ≤ k ∧ k < endKey) && bits k)
            (totalBits / 64 * 64) totalBits).getD mmbInvalid := by
        unfold mmbitIterateBoundedFlatRunt
        rw [if_pos (by omega)]
        have hw := @firstIn_eq_of_word 64
          (mmbitGetFlatBlock bits (totalBits / 64 * 64 / 8) (totalBits - totalBits / 64 * 64) &&&
            getFlatMasks (totalBits / 64 * 64) begin endKey)
          0 (totalBits - totalBits / 64 * 64) (totalBits / 64 * 64)
          (fun k => decide (begin ≤ k ∧ k < endKey) && bits k) (by omega) fun j => by
            rw [show totalBits / 64 * 64 / 8 = totalBits / 64 * 8 by omega, Nat.testBit_and,
              testBit_flatBlock hv (by omega) (by omega), testBit_getFlatMasks,
              show 64 * (totalBits / 64) + j = totalBits / 64 * 64 + j by omega]
            by_cases h1 : j < totalBits - totalBits / 64 * 64 <;>
              by_cases h2 : begin ≤ totalBits / 64 * 64 + j ∧ totalBits / 64 * 64 + j < endKey <;>
              simp [h1, h2]
            omega
        rw [Nat.add_zero, show totalBits / 64 * 64 + (totalBits - totalBits / 64 * 64) = totalBits by
          omega] at hw
        dsimp only
        rw [hw]
        generalize mmbitGetFlatBlock bits (totalBits / 64 * 64 / 8) (totalBits - totalBits / 64 * 64) &&&
          getFlatMasks (totalBits / 64 * 64) begin endKey = x
        by_cases hx : x = 0 <;> simp [hx, mmbCtz]
      rw [show min endKey (totalBits / 64 * 64) = totalBits / 64 * 64 by omega,
        show roundupN (totalBits / 64 * 64) 64 = totalBits / 64 * 64 by unfold roundupN; omega,
        show max (begin / 64 * 64) (totalBits / 64 * 64) = totalBits / 64 * 64 by omega, hrunt]
      have hsplit := @firstIn_split (fun k => decide (begin ≤ k ∧ k < endKey) && bits k)
        (begin / 64 * 64) totalBits (totalBits / 64 * 64) (by omega) (by omega)
      have hgoal : firstIn bits begin endKey =
          firstIn (fun k => decide (begin ≤ k ∧ k < endKey) && bits k) (begin / 64 * 64) totalBits := by
        rw [hwin, show max (begin / 64 * 64) begin = begin by omega,
          show min totalBits endKey = endKey by omega]
      rw [hgoal, hsplit]
      cases firstIn (fun k => decide (begin ≤ k ∧ k < endKey) && bits k) (begin / 64 * 64)
        (totalBits / 64 * 64) <;> rfl

end Bounded

end Multibit
end Vectorscan
