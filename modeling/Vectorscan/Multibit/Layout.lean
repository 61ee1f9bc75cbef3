import Vectorscan.Lib.BitMemory
import Mathlib.Tactic.IntervalCases

/-!
# Multibit: constants, block access and the tree geometry

A multibit of `total_bits` keys is stored in a byte buffer `bits`
(`src/util/multibit.h`, `multibit_internal.h`, `multibit.c`).

**Flat model** (`total_bits ≤ MMB_FLAT_MAX_BITS`): key `k` is bit `k` of the
buffer, read either byte by byte or in 64-bit blocks, the last of which (the
runt block) is loaded with a partial load.

**Tree model** (larger): a pyramid of 64-bit blocks.  Level `l` starts at
block `mmbit_root_offset_from_level[l]`; a summary bit on level `l` says that
the corresponding child block on level `l + 1` holds valid data.  Key `k`
sits at node `k >> ks(l)` of level `l`, with `ks(l) = 6 * (max_level - l)`.

In the model the buffer is a `Mem` (bit-addressed memory) and pointers are
byte offsets from `bits`.  Every level is a contiguous run of blocks, so node
`n` of level `l` is the single memory bit `64 * root(l) + n`; `levelBit`
names it, and `testBit_levelBlock` and `bytePtr_bit` say that the block and
byte accesses of the source read exactly these bits.

**Abstract content.**  `mmbitKeys` is the set of keys `k < total_bits` whose
bit is set on every level of their root-to-leaf path (the flat model: whose
bit is set).  `MmbitValid` is the invariant every operation keeps: no bit
for a key at or beyond `total_bits` is reachable (padding bits of the flat
runt byte are clear; a node whose whole path is set starts below
`total_bits`).
-/

namespace Vectorscan
namespace Multibit

open Word

/-! ## Constants (`multibit.h`, `multibit_internal.h`) -/

/-- `MMB_KEY_BITS`: number of bits in a block. -/
def mmbKeyBits : Nat := 64

/-- `MMB_KEY_SHIFT`. -/
def mmbKeyShift : Nat := 6

/-- `MMB_FLAT_MAX_BITS`: largest multibit stored flat. -/
def mmbFlatMaxBits : Nat := 256

/-- `MMB_MAX_BITS`: maximum number of keys. -/
def mmbMaxBits : Nat := 2 ^ 31

/-- `MMB_INVALID`: the sentinel "no key found". -/
def mmbInvalid : Nat := 0xffffffff

/-- `MMB_ALL_ONES`. -/
def mmbAllOnes : Nat := lowMask 64

/-- `ROUNDUP_N(a, n)` for a power of two `n`. -/
def roundupN (a n : Nat) : Nat := (a + (n - 1)) / n * n

/-- `ROUNDDOWN_N(a, n)` for a power of two `n`. -/
def rounddownN (a n : Nat) : Nat := a / n * n

/-! ## Block primitives -/

/-- `mmb_load`: the 64-bit block at byte offset `p`. -/
def mmbLoad (bits : Mem) (p : Nat) : Nat := bits.load (8 * p) 64

/-- `mmb_store`. -/
def mmbStore (bits : Mem) (p val : Nat) : Mem := bits.store (8 * p) 64 val

/-- `mmb_store_partial`: store the bytes that hold `block_bits` bits. -/
def mmbStorePartial (bits : Mem) (p val blockBits : Nat) : Mem :=
  bits.store (8 * p) (8 * (roundupN blockBits 8 / 8)) val

/-- `mmb_single_bit`. -/
def mmbSingleBit (bit : Nat) : Nat := 1 <<< bit

/-- `mmb_mask_zero_to`: the bits below `bit` (all 64 when `bit = 64`). -/
def mmbMaskZeroTo (bit : Nat) : Nat :=
  if bit = mmbKeyBits then mmbAllOnes else mmbSingleBit bit - 1

/-- `mmb_mask_zero_to_nocheck` (`bit < 64`). -/
def mmbMaskZeroToNocheck (bit : Nat) : Nat := mmbSingleBit bit - 1

/-- `mmb_test`. -/
def mmbTest (val bit : Nat) : Bool := (val >>> bit) &&& 1 = 1

/-- `mmb_ctz` (`ctz64`; only ever called on a non-zero block). -/
def mmbCtz (val : Nat) : Nat := lowestBit 64 val

/-- `mmbit_get_flat_block`: a partial load of the bytes holding `n_bits` bits
(the source reads through a shifted `memcpy` and asserts this equality). -/
def mmbitGetFlatBlock (bits : Mem) (p nBits : Nat) : Nat :=
  bits.load (8 * p) (8 * (roundupN nBits 8 / 8))

/-- `mmb_ctz` of a non-zero block: its least set bit. -/
theorem mmbCtz_spec {x : Nat} (hx : x ≠ 0) (hlt : x < 2 ^ 64) :
    mmbCtz x < 64 ∧ x.testBit (mmbCtz x) = true ∧ ∀ j, j < mmbCtz x → x.testBit j = false :=
  lowestBit_spec (by rwa [Nat.mod_eq_of_lt hlt])

theorem testBit_mmbLoad (bits : Mem) (p j : Nat) :
    (mmbLoad bits p).testBit j = (decide (j < 64) && bits (8 * p + j)) :=
  Mem.testBit_load bits _ _ _

theorem mmbLoad_lt (bits : Mem) (p : Nat) : mmbLoad bits p < 2 ^ 64 := Mem.load_lt _ _ _

@[simp] theorem testBit_mmbSingleBit (bit j : Nat) :
    (mmbSingleBit bit).testBit j = decide (bit = j) := by
  unfold mmbSingleBit
  rw [Nat.one_shiftLeft, Nat.testBit_two_pow]

theorem mmbMaskZeroToNocheck_eq (bit : Nat) : mmbMaskZeroToNocheck bit = lowMask bit := by
  unfold mmbMaskZeroToNocheck mmbSingleBit lowMask
  rw [Nat.one_shiftLeft]

theorem mmbMaskZeroTo_eq {bit : Nat} (h : bit ≤ 64) : mmbMaskZeroTo bit = lowMask bit := by
  unfold mmbMaskZeroTo mmbAllOnes mmbKeyBits
  split
  · subst bit; rfl
  · exact mmbMaskZeroToNocheck_eq bit

/-- Masking off the bits below `m`. -/
theorem testBit_and_compl_mask {x m : Nat} (hm : m ≤ 64) (j : Nat) :
    (x &&& compl 64 (mmbMaskZeroTo m)).testBit j =
      (x.testBit j && decide (m ≤ j ∧ j < 64)) := by
  rw [Nat.testBit_and, testBit_compl (by rw [mmbMaskZeroTo_eq hm]; exact lowMask_lt_of_le hm),
    mmbMaskZeroTo_eq hm, testBit_lowMask]
  by_cases h1 : j < 64 <;> by_cases h2 : j < m <;> simp [h1, h2]
  omega

theorem mmbTest_eq (val bit : Nat) : mmbTest val bit = val.testBit bit := by
  unfold mmbTest
  rw [Nat.testBit, Nat.shiftRight_eq_div_pow, Nat.one_and_eq_mod_two, Nat.and_comm,
    Nat.one_and_eq_mod_two]
  cases Nat.mod_two_eq_zero_or_one (val / 2 ^ bit) with
  | inl h => simp [h]
  | inr h => simp [h]

/-! ## Lookup tables (`multibit.c`) -/

/-- `mmbit_keyshift_lut`, indexed by `clz32(total_bits - 1)`. -/
def mmbitKeyshiftLut : List Nat :=
  [30, 30, 24, 24, 24, 24, 24, 24, 18, 18, 18, 18, 18, 18, 12, 12, 12, 12, 12, 12,
    6, 6, 6, 6, 6, 6, 0, 0, 0, 0, 0, 0]

/-- `mmbit_maxlevel_from_keyshift_lut`. -/
def mmbitMaxlevelFromKeyshiftLut : List Nat :=
  [0, 0, 0, 0, 0, 0, 1, 1, 1, 1, 1, 1, 2, 2, 2, 2, 2, 2, 3, 3, 3, 3, 3, 3,
    4, 4, 4, 4, 4, 4, 5, 5]

/-- `mmbit_maxlevel_direct_lut`. -/
def mmbitMaxlevelDirectLut : List Nat :=
  [5, 5, 4, 4, 4, 4, 4, 4, 3, 3, 3, 3, 3, 3, 2, 2, 2, 2, 2, 2, 1, 1, 1, 1, 1, 1,
    0, 0, 0, 0, 0, 0]

/-- `mmbit_root_offset_from_level`: first block of each level. -/
def mmbitRootOffsetFromLevel : List Nat :=
  [0, 1, 1 + 64, 1 + 64 + 64 ^ 2, 1 + 64 + 64 ^ 2 + 64 ^ 3,
    1 + 64 + 64 ^ 2 + 64 ^ 3 + 64 ^ 4, 1 + 64 + 64 ^ 2 + 64 ^ 3 + 64 ^ 4 + 64 ^ 5]

/-- `clz32` on a non-zero 32-bit value. -/
def clz32 (x : Nat) : Nat := 31 - Nat.log2 x

/-- `mmbit_keyshift`. -/
def mmbitKeyshift (totalBits : Nat) : Nat :=
  mmbitKeyshiftLut.getD (clz32 (totalBits - 1)) 0

/-- `mmbit_maxlevel`. -/
def mmbitMaxlevel (totalBits : Nat) : Nat :=
  mmbitMaxlevelDirectLut.getD (clz32 (totalBits - 1)) 0

/-- `mmbit_maxlevel_from_keyshift`. -/
def mmbitMaxlevelFromKeyshift (ks : Nat) : Nat :=
  mmbitMaxlevelFromKeyshiftLut.getD ks 0

/-! ## Level geometry -/

/-- `mmbit_get_ks`. -/
def mmbitGetKs (maxLevel level : Nat) : Nat := (maxLevel - level) * mmbKeyShift

/-- `mmbit_get_key_val`. -/
def mmbitGetKeyVal (maxLevel level key : Nat) : Nat :=
  (key >>> mmbitGetKs maxLevel level) &&& (mmbKeyBits - 1)

/-- `mmbit_get_level_root` (byte offset). -/
def mmbitGetLevelRoot (level : Nat) : Nat := mmbitRootOffsetFromLevel.getD level 0 * 8

/-- `mmbit_get_block_ptr`. -/
def mmbitGetBlockPtr (maxLevel level key : Nat) : Nat :=
  mmbitGetLevelRoot level + (key >>> (mmbitGetKs maxLevel level + mmbKeyShift)) * 8

/-- `mmbit_get_byte_ptr`. -/
def mmbitGetBytePtr (maxLevel level key : Nat) : Nat :=
  mmbitGetLevelRoot level + (key >>> (mmbitGetKs maxLevel level + mmbKeyShift - 3))

/-- `mmbit_get_key_val_byte`. -/
def mmbitGetKeyValByte (maxLevel level key : Nat) : Nat :=
  (key >>> mmbitGetKs maxLevel level) &&& 7

/-- `mmbit_is_flat_model`. -/
def mmbitIsFlatModel (totalBits : Nat) : Bool := totalBits ≤ mmbFlatMaxBits

/-- `mmbit_flat_size`. -/
def mmbitFlatSize (totalBits : Nat) : Nat := roundupN totalBits 8 / 8

/-- The summary-level loop of `mmbit_size`: `current_level` is `64 ^ i` blocks. -/
def mmbitSizeSummary (totalBits i total : Nat) : Nat :=
  if 64 ^ i * mmbKeyBits < totalBits then
    mmbitSizeSummary totalBits (i + 1) (total + 64 ^ i)
  else total
termination_by totalBits - 64 ^ i
decreasing_by
  have : 64 ^ i < 64 ^ (i + 1) := Nat.pow_lt_pow_right (by decide) (by omega)
  unfold mmbKeyBits at *
  rw [Nat.pow_succ] at this ⊢
  omega

/-- `mmbit_size` (`multibit_build.cpp`): bytes of a multibit of `total_bits` keys. -/
def mmbitSize (totalBits : Nat) : Nat :=
  if totalBits ≤ mmbFlatMaxBits then roundupN totalBits 8 / 8
  else (mmbitSizeSummary totalBits 0 0 + (totalBits + mmbKeyBits - 1) / mmbKeyBits) * 8

/-- The level count chosen by the lookup tables fits the key space. -/
theorem mmbitMaxlevel_spec {n : Nat} (h1 : 2 ≤ n) (h2 : n ≤ mmbMaxBits) :
    mmbitMaxlevel n ≤ 5 ∧ mmbitKeyshift n = 6 * mmbitMaxlevel n ∧
      mmbitMaxlevelFromKeyshift (mmbitKeyshift n) = mmbitMaxlevel n ∧
      n ≤ 2 ^ (6 * mmbitMaxlevel n + 6) := by
  have hv : Nat.log2 (n - 1) < 31 := (Nat.log2_lt (by omega)).mpr (by unfold mmbMaxBits at h2; omega)
  have hlt : n - 1 < 2 ^ (Nat.log2 (n - 1) + 1) := Nat.lt_log2_self
  unfold mmbitMaxlevel mmbitKeyshift clz32
  generalize Nat.log2 (n - 1) = v at hv hlt
  interval_cases v <;>
    simp [mmbitKeyshiftLut, mmbitMaxlevelDirectLut, mmbitMaxlevelFromKeyshift,
      mmbitMaxlevelFromKeyshiftLut] <;> omega

/-- A tree multibit has at least one summary level. -/
theorem mmbitMaxlevel_pos {n : Nat} (h1 : mmbFlatMaxBits < n) (h2 : n ≤ mmbMaxBits) :
    1 ≤ mmbitMaxlevel n := by
  have hv : Nat.log2 (n - 1) < 31 :=
    (Nat.log2_lt (by unfold mmbFlatMaxBits at h1; omega)).mpr (by unfold mmbMaxBits at h2; omega)
  have hge : 8 ≤ Nat.log2 (n - 1) := by
    have := (Nat.le_log2 (n := n - 1) (k := 8) (by unfold mmbFlatMaxBits at h1; omega)).mpr
      (by unfold mmbFlatMaxBits at h1; omega)
    exact this
  unfold mmbitMaxlevel clz32
  generalize Nat.log2 (n - 1) = v at hv hge
  interval_cases v <;> simp [mmbitMaxlevelDirectLut]

/-- Level `l` of the pyramid is followed directly by level `l + 1`. -/
theorem rootOffset_succ {l : Nat} (hl : l ≤ 5) :
    mmbitRootOffsetFromLevel.getD (l + 1) 0 = mmbitRootOffsetFromLevel.getD l 0 + 64 ^ l := by
  interval_cases l <;> simp [mmbitRootOffsetFromLevel]

/-- The memory bit holding node `n` of level `l` of a tree multibit. -/
def nodeAddr (l n : Nat) : Nat := 64 * mmbitRootOffsetFromLevel.getD l 0 + n

/-- Node `n` of level `l` of a tree multibit. -/
def levelBit (bits : Mem) (l n : Nat) : Bool := bits (nodeAddr l n)

/-- Bit `j` of block `b` of level `l` is node `64 * b + j`. -/
theorem testBit_levelBlock (bits : Mem) (l b j : Nat) :
    (mmbLoad bits (mmbitGetLevelRoot l + b * 8)).testBit j =
      (decide (j < 64) && levelBit bits l (64 * b + j)) := by
  unfold mmbLoad mmbitGetLevelRoot levelBit nodeAddr
  rw [Mem.testBit_load]
  congr 2
  omega

/-- The byte pointer and byte mask of `key` on `level` address node `key >> ks`. -/
theorem bytePtr_bit (maxLevel level key : Nat) :
    8 * mmbitGetBytePtr maxLevel level key + mmbitGetKeyValByte maxLevel level key =
      nodeAddr level (key >>> mmbitGetKs maxLevel level) := by
  unfold mmbitGetBytePtr mmbitGetKeyValByte mmbitGetLevelRoot mmbKeyShift nodeAddr
  have e : mmbitGetKs maxLevel level + 6 - 3 = mmbitGetKs maxLevel level + 3 := by omega
  rw [e, Nat.shiftRight_add, Nat.shiftRight_eq_div_pow _ 3,
    show (7 : Nat) = 2 ^ 3 - 1 from rfl, Nat.and_two_pow_sub_one_eq_mod]
  have := Nat.div_add_mod (key >>> mmbitGetKs maxLevel level) (2 ^ 3)
  simp only [Nat.reducePow] at this ⊢
  omega

/-- The block pointer of `key` on `level` is block `(key >> ks) / 64` of that level. -/
theorem blockPtr_eq (maxLevel level key : Nat) :
    mmbitGetBlockPtr maxLevel level key =
      mmbitGetLevelRoot level + ((key >>> mmbitGetKs maxLevel level) / 64) * 8 := by
  unfold mmbitGetBlockPtr mmbKeyShift
  rw [Nat.shiftRight_add, Nat.shiftRight_eq_div_pow _ 6]

theorem keyVal_eq (maxLevel level key : Nat) :
    mmbitGetKeyVal maxLevel level key = (key >>> mmbitGetKs maxLevel level) % 64 := by
  unfold mmbitGetKeyVal mmbKeyBits
  exact Nat.and_two_pow_sub_one_eq_mod _ 6

/-- The block and bit of `key` on `level` address node `key >> ks`. -/
theorem blockPtr_bit (maxLevel level key : Nat) :
    8 * mmbitGetBlockPtr maxLevel level key + mmbitGetKeyVal maxLevel level key =
      nodeAddr level (key >>> mmbitGetKs maxLevel level) := by
  rw [blockPtr_eq, keyVal_eq]
  unfold mmbitGetLevelRoot nodeAddr
  omega

/-! ## Abstract content and invariant -/

/-- All bits on the path from the root to node `n` of level `l` are set. -/
def PathSet (bits : Mem) (l n : Nat) : Prop :=
  ∀ l', l' ≤ l → levelBit bits l' (n >>> (6 * (l - l'))) = true

instance (bits : Mem) (l n : Nat) : Decidable (PathSet bits l n) :=
  inferInstanceAs (Decidable (∀ l', l' ≤ l → levelBit bits l' (n >>> (6 * (l - l'))) = true))

/-- Key `key` is in the multibit: below `total_bits`, with its bit set on every
level of its path (flat model: its bit set). -/
def MmbitMember (totalBits : Nat) (bits : Mem) (key : Nat) : Prop :=
  key < totalBits ∧
    if totalBits ≤ mmbFlatMaxBits then bits key = true
    else PathSet bits (mmbitMaxlevel totalBits) key

instance (totalBits : Nat) (bits : Mem) (key : Nat) : Decidable (MmbitMember totalBits bits key) :=
  inferInstanceAs (Decidable (key < totalBits ∧
    if totalBits ≤ mmbFlatMaxBits then bits key = true
    else PathSet bits (mmbitMaxlevel totalBits) key))

/-- The abstract set of a multibit. -/
def mmbitKeys (totalBits : Nat) (bits : Mem) : Set Nat := {k | MmbitMember totalBits bits k}

/-- The representation invariant: no key at or beyond `total_bits` is reachable. -/
def MmbitValid (totalBits : Nat) (bits : Mem) : Prop :=
  if totalBits ≤ mmbFlatMaxBits then
    ∀ b, totalBits ≤ b → b < 8 * mmbitFlatSize totalBits → bits b = false
  else
    ∀ l n, l ≤ mmbitMaxlevel totalBits → n < 64 ^ (l + 1) → PathSet bits l n →
      n <<< mmbitGetKs (mmbitMaxlevel totalBits) l < totalBits

end Multibit
end Vectorscan
