import Vectorscan.Lib.Loop
import Vectorscan.Multibit.Update
import Mathlib.Algebra.BigOperators.Group.Finset.Basic

/-!
# Multibit: sparse iterators and `mmbit_sparse_iter_unset`

A sparse iterator (`struct mmbit_sparse_iter`, built at compile time by
`mmbBuildSparseIterator`) is an array of records, one per block of the
multibit pyramid that holds one of its keys: the record's `mask` has the bits
of the block that lead to a key, and its `val` is the index of the record of the
first child block.  The record of the block under bit `bit` of a record `it` is
`it->val + mmbit_mask_index(bit, it->mask)`, where `mmbit_mask_index` counts
the bits of the mask below `bit`.

**Model.**  The iterator is a `List MmbitSparseIter`; a record past its end
reads as the empty record.  Its content is read the way the runtime reads it:
`sparseIterBlockRecord` follows the records from the root down to a block, and
`sparseIterNode` says whether a node of a level is in the iterator.  The keys of
the iterator (`mmbitSparseIterKeys`) are its nodes of the last level.

`mmbit_sparse_iter_unset_flat` masks off the iterator's keys block by block.
`mmbit_sparse_iter_unset_big` is a depth-first walk of the blocks that are both
set in the multibit and held by the iterator, with an explicit stack
`s[0..max_level]` of masked blocks; its `for (;;)` body is
`mmbitSparseIterUnsetBigStep`, run by `Loop.run` with a fuel above the measure
`sparseUnsetMeasure`, which every pass lowers.

**Results.**  The walk keeps `SparseUnsetInv`: memory bits are only ever
cleared, a key that the iterator does not hold keeps its whole path, and every
key of the iterator still in the multibit is `Pending` on the stack.  When the
walk returns, the stack is empty, so no key of the iterator is left
(`mmbitSparseIterUnsetBig_spec`).  With the flat model
(`mmbitSparseIterUnsetFlat_eq`), `mmbitKeys_mmbitSparseIterUnset` states that
`mmbit_sparse_iter_unset` removes exactly the iterator's keys, and
`mmbitValid_mmbitSparseIterUnset` that it keeps the invariant.
-/

namespace Vectorscan
namespace Multibit

open Word

/-! ## Iterator records -/

/-- `struct mmbit_sparse_iter`: one record of a sparse iterator.  `mask` is a
64-bit block of the iterator; `val` is the index of the record of the first
child block (summary levels) or the rank of the first key (last level). -/
structure MmbitSparseIter where
  mask : Nat
  val : Nat
  mask_lt : mask < 2 ^ 64

/-- `struct mmbit_sparse_state`: the masked block last read on a level and the
index of the iterator record of that block. -/
structure MmbitSparseState where
  mask : Nat
  itkey : Nat

/-- `it_root + i`: record `i` of the iterator; past the end, the empty record. -/
def mmbitSparseIterAt (itRoot : List MmbitSparseIter) (i : Nat) : MmbitSparseIter :=
  itRoot.getD i ⟨0, 0, Nat.two_pow_pos 64⟩

/-- `popcount64` (`__builtin_popcountll`): the number of set bits of a 64-bit word. -/
def popcount64 (x : Nat) : Nat := (List.range 64).countP fun i => x.testBit i

/-- `mmb_popcount`. -/
def mmbPopcount (val : Nat) : Nat := popcount64 val

/-- `mmbit_mask_index`: the dense index of `bit` among the bits of `mask`. -/
def mmbitMaskIndex (bit mask : Nat) : Nat :=
  let mask := mask &&& mmbMaskZeroTo bit
  if mask = 0 then 0 else mmbPopcount mask

/-- The record of the block below bit `bit` of record `r`:
`it->val + mmbit_mask_index(bit, it->mask)`. -/
def mmbitSparseIterChild (itRoot : List MmbitSparseIter) (r bit : Nat) : Nat :=
  (mmbitSparseIterAt itRoot r).val + mmbitMaskIndex bit (mmbitSparseIterAt itRoot r).mask

/-! ## What an iterator holds -/

/-- The record that the iterator has for block `b` of level `l`: the root record
on level 0; below, the child record of the parent node's bit, if the parent's
record has that bit. -/
def sparseIterBlockRecord (itRoot : List MmbitSparseIter) : Nat → Nat → Option Nat
  | 0, _ => some 0
  | l + 1, b =>
    (sparseIterBlockRecord itRoot l (b >>> 6)).bind fun r =>
      if (mmbitSparseIterAt itRoot r).mask.testBit (b % 64) then
        some (mmbitSparseIterChild itRoot r (b % 64))
      else none

attribute [grind] sparseIterBlockRecord

/-- Node `n` of level `l` is in the iterator: its block has a record, and the
record's mask has the node's bit. -/
def sparseIterNode (itRoot : List MmbitSparseIter) (l n : Nat) : Bool :=
  match sparseIterBlockRecord itRoot l (n >>> 6) with
  | some r => (mmbitSparseIterAt itRoot r).mask.testBit (n % 64)
  | none => false

/-- The keys of a sparse iterator over `total_bits` keys: its nodes of the last
level below `total_bits`. -/
def mmbitSparseIterKeys (itRoot : List MmbitSparseIter) (totalBits : Nat) : Set Nat :=
  {k | k < totalBits ∧ sparseIterNode itRoot (mmbitMaxlevel totalBits) k = true}

/-- The index that the runtime reports with key `k` of the last level:
`it->val + mmbit_mask_index(bit, it->mask)` for the record of the key's block. -/
def sparseIterRank (itRoot : List MmbitSparseIter) (maxLevel k : Nat) : Nat :=
  match sparseIterBlockRecord itRoot maxLevel (k >>> 6) with
  | some r => (mmbitSparseIterAt itRoot r).val + mmbitMaskIndex (k % 64) (mmbitSparseIterAt itRoot r).mask
  | none => 0

/-- An iterator fits `total_bits` keys: every node it holds has a key below
`total_bits` under it (what `mmbBuildSparseIterator` guarantees, its keys being
below `total_bits`). -/
def MmbitSparseIterValid (itRoot : List MmbitSparseIter) (totalBits : Nat) : Prop :=
  ∀ l n, l ≤ mmbitMaxlevel totalBits → n < 64 ^ (l + 1) → sparseIterNode itRoot l n = true →
    n <<< mmbitGetKs (mmbitMaxlevel totalBits) l < totalBits

section Records

variable {itRoot : List MmbitSparseIter}

theorem mmbitSparseIterAt_mask_lt (itRoot : List MmbitSparseIter) (i : Nat) :
    (mmbitSparseIterAt itRoot i).mask < 2 ^ 64 :=
  (mmbitSparseIterAt itRoot i).mask_lt

/-- The popcount of the bits of `mask` below `bit` counts them. -/
theorem popcount64_and_lowMask (mask : Nat) {bit : Nat} (hbit : bit ≤ 64) :
    popcount64 (mask &&& lowMask bit) = (List.range bit).countP fun i => mask.testBit i := by
  unfold popcount64
  rw [show (64 : Nat) = bit + (64 - bit) by omega, List.range_add, List.countP_append]
  have hlow : (List.range bit).countP (fun i => (mask &&& lowMask bit).testBit i) =
      (List.range bit).countP fun i => mask.testBit i :=
    List.countP_congr fun i hi => by
      rw [List.mem_range] at hi
      simp [Nat.testBit_and, hi]
  have hhigh : ((List.range (64 - bit)).map (bit + ·)).countP
      (fun i => (mask &&& lowMask bit).testBit i) = 0 :=
    List.countP_eq_zero.mpr fun i hi => by
      obtain ⟨j, -, rfl⟩ := List.mem_map.mp hi
      simp [Nat.testBit_and]
  rw [hlow, hhigh, Nat.add_zero]

/-- `mmbit_mask_index` counts the bits of the mask below `bit`. -/
theorem mmbitMaskIndex_eq (mask : Nat) {bit : Nat} (hbit : bit ≤ 64) :
    mmbitMaskIndex bit mask = (List.range bit).countP fun i => mask.testBit i := by
  unfold mmbitMaskIndex mmbPopcount
  rw [mmbMaskZeroTo_eq hbit]
  dsimp only
  split
  · rename_i hzero
    -- no bit below `bit`: the count is zero as well
    rw [← popcount64_and_lowMask mask hbit, hzero]
    rfl
  · exact popcount64_and_lowMask mask hbit

/-- The record of a block of level `l + 1`, one step down from its parent's record. -/
theorem sparseIterBlockRecord_succ {l b r : Nat} :
    sparseIterBlockRecord itRoot (l + 1) b = some r ↔
      ∃ r', sparseIterBlockRecord itRoot l (b >>> 6) = some r' ∧
        (mmbitSparseIterAt itRoot r').mask.testBit (b % 64) = true ∧
        r = mmbitSparseIterChild itRoot r' (b % 64) := by
  simp only [sparseIterBlockRecord, Option.bind_eq_some_iff]
  constructor
  · rintro ⟨r', h1, h2⟩
    split at h2
    · exact ⟨r', h1, by assumption, (Option.some.inj h2).symm⟩
    · cases h2
  · rintro ⟨r', h1, h2, rfl⟩
    exact ⟨r', h1, by rw [if_pos h2]⟩

theorem sparseIterNode_iff {l n : Nat} :
    sparseIterNode itRoot l n = true ↔
      ∃ r, sparseIterBlockRecord itRoot l (n >>> 6) = some r ∧
        (mmbitSparseIterAt itRoot r).mask.testBit (n % 64) = true := by
  unfold sparseIterNode
  split
  · rename_i r hr
    exact ⟨fun h => ⟨r, hr, h⟩, fun ⟨r', hr', h⟩ => by rw [hr] at hr'; cases hr'; exact h⟩
  · rename_i hr
    simp [hr]

/-- The parent of a node of the iterator is in the iterator. -/
theorem sparseIterNode_parent {l n : Nat} (h : sparseIterNode itRoot (l + 1) n = true) :
    sparseIterNode itRoot l (n >>> 6) = true := by
  obtain ⟨r, hr, -⟩ := sparseIterNode_iff.1 h
  obtain ⟨r', hr', hbit, -⟩ := sparseIterBlockRecord_succ.1 hr
  exact sparseIterNode_iff.2 ⟨r', hr', hbit⟩

/-- The path of a key of the iterator is in the iterator. -/
theorem sparseIterNode_keyNode {maxLevel k : Nat} (hk : sparseIterNode itRoot maxLevel k = true)
    {l : Nat} (hl : l ≤ maxLevel) :
    sparseIterNode itRoot l (k >>> mmbitGetKs maxLevel l) = true := by
  -- induction on the distance from the last level
  obtain ⟨d, hd⟩ : ∃ d, maxLevel = l + d := ⟨maxLevel - l, by omega⟩
  induction d generalizing l with
  | zero =>
      obtain rfl : maxLevel = l := by omega
      simpa using hk
  | succ d ih =>
      -- the node on level `l + 1` is in the iterator, hence its parent
      have hnext := ih (l := l + 1) (by omega) (by omega)
      rw [← keyNode_parent (show l < maxLevel by omega)]
      exact sparseIterNode_parent hnext

/-- Level 0: the root record holds the nodes of the root block. -/
theorem sparseIterNode_zero (n : Nat) :
    sparseIterNode itRoot 0 n = (mmbitSparseIterAt itRoot 0).mask.testBit (n % 64) := rfl

/-- Level 1: a node is in the iterator if the root record has its block's bit
and that block's record, the child with the rank of that bit, has the node. -/
theorem sparseIterNode_one {n : Nat} (hn : n < 64 * 64) :
    sparseIterNode itRoot 1 n =
      ((mmbitSparseIterAt itRoot 0).mask.testBit (n / 64) &&
        (mmbitSparseIterAt itRoot ((mmbitSparseIterAt itRoot 0).val +
          (List.range (n / 64)).countP fun i => (mmbitSparseIterAt itRoot 0).mask.testBit i)).mask.testBit
          (n % 64)) := by
  have hb : n >>> 6 % 64 = n / 64 := by
    rw [Nat.shiftRight_eq_div_pow]
    omega
  unfold sparseIterNode
  simp only [sparseIterBlockRecord, Option.bind_some, hb]
  by_cases hroot : (mmbitSparseIterAt itRoot 0).mask.testBit (n / 64) = true
  · rw [if_pos hroot, hroot, Bool.true_and]
    dsimp only
    rw [mmbitSparseIterChild, mmbitMaskIndex_eq _ (by omega)]
  · rw [if_neg hroot]
    simp [hroot]

end Records

/-! ## `mmbit_sparse_iter_unset_flat` -/

/-- The loop of `mmbit_sparse_iter_unset_flat` over the bits of the root
record: `root` holds the block bits not done yet, `bit_idx` counts those done. -/
def mmbitSparseIterUnsetFlatLoop (bits : Mem) (totalBits : Nat) (itRoot : List MmbitSparseIter)
    (root bitIdx : Nat) : Mem :=
  if root = 0 then bits
  else
    let bit := mmbCtz root
    let blockKeyMin := bit * mmbKeyBits
    let blockKeyMax := blockKeyMin + mmbKeyBits
    let blockPtr := bit * 8
    let iterKey := (mmbitSparseIterAt itRoot 0).val + bitIdx
    let it := mmbitSparseIterAt itRoot iterKey
    if blockKeyMax ≤ totalBits then
      -- full-sized block
      let block := mmbLoad bits blockPtr &&& compl 64 it.mask
      mmbitSparseIterUnsetFlatLoop (mmbStore bits blockPtr block) totalBits itRoot
        (root &&& (root - 1)) (bitIdx + 1)
    else
      -- runt (final) block: the loop `break`s, this is the last block
      let numBits := totalBits - blockKeyMin
      let block := mmbitGetFlatBlock bits blockPtr numBits &&& compl 64 it.mask
      mmbStorePartial bits blockPtr block numBits
termination_by root
decreasing_by
  have : root &&& (root - 1) ≤ root - 1 := Nat.and_le_right
  omega

/-- `mmbit_sparse_iter_unset_flat`. -/
def mmbitSparseIterUnsetFlat (bits : Mem) (totalBits : Nat) (itRoot : List MmbitSparseIter) : Mem :=
  if totalBits ≤ mmbKeyBits then
    -- everything is in the root mask
    let block := mmbitGetFlatBlock bits 0 totalBits &&& compl 64 (mmbitSparseIterAt itRoot 0).mask
    mmbStorePartial bits 0 block totalBits
  else mmbitSparseIterUnsetFlatLoop bits totalBits itRoot (mmbitSparseIterAt itRoot 0).mask 0

/-- A flat multibit of at most 64 keys has one level. -/
theorem mmbitMaxlevel_of_le_64 {n : Nat} (h : n ≤ 64) : mmbitMaxlevel n = 0 := by
  have hv : Nat.log2 (n - 1) < 6 := by
    by_cases h0 : n - 1 = 0
    · rw [h0, Nat.log2_zero]
      decide
    · exact (Nat.log2_lt h0).mpr (by omega)
  unfold mmbitMaxlevel clz32
  generalize Nat.log2 (n - 1) = v at hv
  interval_cases v <;> simp [mmbitMaxlevelDirectLut]

/-- The iterator of a flat multibit of more than 64 keys has two levels. -/
theorem mmbitMaxlevel_flat {n : Nat} (h1 : 64 < n) (h2 : n ≤ mmbFlatMaxBits) : mmbitMaxlevel n = 1 := by
  unfold mmbFlatMaxBits at h2
  have hv : Nat.log2 (n - 1) < 8 := (Nat.log2_lt (by omega)).mpr (by omega)
  have hge : 6 ≤ Nat.log2 (n - 1) := (Nat.le_log2 (by omega)).mpr (by omega)
  unfold mmbitMaxlevel clz32
  generalize Nat.log2 (n - 1) = v at hv hge
  interval_cases v <;> simp [mmbitMaxlevelDirectLut]

theorem countP_range_of_gap {p : Nat → Bool} {t c : Nat} (htc : t ≤ c)
    (hgap : ∀ j, t ≤ j → j < c → p j = false) :
    (List.range c).countP p = (List.range t).countP p := by
  rw [show c = t + (c - t) by omega, List.range_add, List.countP_append]
  have : ((List.range (c - t)).map (t + ·)).countP p = 0 :=
    List.countP_eq_zero.mpr fun i hi => by
      obtain ⟨j, hj, rfl⟩ := List.mem_map.mp hi
      rw [List.mem_range] at hj
      simp [hgap (t + j) (by omega) (by omega)]
  rw [this, Nat.add_zero]

theorem countP_range_succ_of_true {p : Nat → Bool} {c : Nat} (hc : p c = true) :
    (List.range (c + 1)).countP p = (List.range c).countP p + 1 := by
  rw [List.range_succ, List.countP_append]
  simp [hc]

/-- Masking an iterator record's bits off the full block `c` of a flat multibit. -/
theorem mmbStore_and_compl_block (bits : Mem) (c m b : Nat) :
    mmbStore bits (c * 8) (mmbLoad bits (c * 8) &&& compl 64 m) b =
      (bits b && !(decide (b / 64 = c) && m.testBit (b % 64))) := by
  unfold mmbStore mmbLoad
  rw [Mem.store_load_and_compl _ _ _ le_rfl]
  by_cases h : b / 64 = c
  · simp [h, show 8 * (c * 8) ≤ b ∧ b < 8 * (c * 8) + 64 by omega, show b - 8 * (c * 8) = b % 64 by omega]
  · simp [h, show ¬ (8 * (c * 8) ≤ b ∧ b < 8 * (c * 8) + 64) by omega]

/-- Masking an iterator record's bits off the partial block `c` of `n ≤ 64` keys. -/
theorem mmbStorePartial_and_compl_block (bits : Mem) (c n m b : Nat) (hn : n ≤ 64) :
    mmbStorePartial bits (c * 8) (mmbitGetFlatBlock bits (c * 8) n &&& compl 64 m) n b =
      (bits b && !(decide (64 * c ≤ b ∧ b < 64 * c + 8 * (roundupN n 8 / 8)) && m.testBit (b % 64))) := by
  unfold mmbStorePartial mmbitGetFlatBlock
  have hw : 8 * (roundupN n 8 / 8) ≤ 64 := by unfold roundupN; omega
  rw [Mem.store_load_and_compl _ _ _ hw]
  by_cases h : 64 * c ≤ b ∧ b < 64 * c + 8 * (roundupN n 8 / 8)
  · simp [h, show 8 * (c * 8) ≤ b ∧ b < 8 * (c * 8) + 8 * (roundupN n 8 / 8) by omega,
      show b - 8 * (c * 8) = b % 64 by omega]
  · simp [h, show ¬ (8 * (c * 8) ≤ b ∧ b < 8 * (c * 8) + 8 * (roundupN n 8 / 8)) by omega]

section UnsetFlat

variable {bits : Mem} {totalBits : Nat} {itRoot : List MmbitSparseIter}

/-- One pass of the loop of `mmbit_sparse_iter_unset_flat` on the root bits at
or above `t`: the bit it takes (`mmb_ctz`) is the least root bit at or above
`t`, `bit_idx` is its rank, and clearing it leaves the root bits above it. -/
theorem flatRoot_step {root bitIdx t : Nat} (h0 : ¬ root = 0)
    (hroot : ∀ j, root.testBit j = ((mmbitSparseIterAt itRoot 0).mask.testBit j && decide (t ≤ j)))
    (hidx : bitIdx = (List.range t).countP (fun i => (mmbitSparseIterAt itRoot 0).mask.testBit i)) :
    ((mmbitSparseIterAt itRoot 0).mask.testBit (mmbCtz root) = true ∧ t ≤ mmbCtz root) ∧
      (∀ j, t ≤ j → j < mmbCtz root → (mmbitSparseIterAt itRoot 0).mask.testBit j = false) ∧
      (List.range (mmbCtz root)).countP (fun i => (mmbitSparseIterAt itRoot 0).mask.testBit i) =
        bitIdx ∧
      (∀ j, (root &&& (root - 1)).testBit j =
        ((mmbitSparseIterAt itRoot 0).mask.testBit j && decide (mmbCtz root + 1 ≤ j))) := by
  have hrootlt : root < 2 ^ 64 := Nat.lt_pow_two_of_testBit root fun j hj => by
    rw [hroot, testBit_eq_false_of_lt (mmbitSparseIterAt_mask_lt itRoot 0) hj, Bool.false_and]
  obtain ⟨-, hcset, hcmin⟩ := mmbCtz_spec h0 hrootlt
  have hset : (mmbitSparseIterAt itRoot 0).mask.testBit (mmbCtz root) = true ∧ t ≤ mmbCtz root := by
    have := hroot (mmbCtz root)
    rw [hcset] at this
    simpa using this.symm
  have hgap : ∀ j, t ≤ j → j < mmbCtz root → (mmbitSparseIterAt itRoot 0).mask.testBit j = false := by
    intro j h1 h2
    have := hroot j
    rw [hcmin j h2, decide_eq_true h1, Bool.and_true] at this
    exact this.symm
  refine ⟨hset, hgap, by rw [countP_range_of_gap hset.2 hgap, hidx], fun j => ?_⟩
  rw [testBit_and_sub_one (by rwa [Nat.mod_eq_of_lt hrootlt]), hroot,
    show lowestBit 64 root = mmbCtz root from rfl]
  rcases Nat.lt_trichotomy j (mmbCtz root) with hj | rfl | hj
  · have := hcmin j hj
    rw [hroot] at this
    rw [this, Bool.false_and, decide_eq_false (show ¬ mmbCtz root + 1 ≤ j by omega), Bool.and_false]
  · simp
  · simp [show t ≤ j by omega, show mmbCtz root + 1 ≤ j by omega, show j ≠ mmbCtz root by omega]

/-- The loop of `mmbit_sparse_iter_unset_flat`, from the root bits at or above
`t` on, masks off the iterator's keys of the blocks from `t` on. -/
theorem mmbitSparseIterUnsetFlatLoop_eq (hflat : totalBits ≤ mmbFlatMaxBits)
    (hfit : ∀ j, (mmbitSparseIterAt itRoot 0).mask.testBit j = true → 64 * j < totalBits)
    {root bitIdx : Nat} :
    ∀ t, (∀ j, root.testBit j = ((mmbitSparseIterAt itRoot 0).mask.testBit j && decide (t ≤ j))) →
      bitIdx = (List.range t).countP (fun i => (mmbitSparseIterAt itRoot 0).mask.testBit i) →
      mmbitSparseIterUnsetFlatLoop bits totalBits itRoot root bitIdx = fun b =>
        bits b && !(decide (64 * t ≤ b ∧ b < 8 * mmbitFlatSize totalBits) &&
          sparseIterNode itRoot 1 b) := by
  have hfs : 8 * mmbitFlatSize totalBits ≤ 64 * 64 := by
    unfold mmbitFlatSize roundupN; unfold mmbFlatMaxBits at hflat; omega
  fun_induction mmbitSparseIterUnsetFlatLoop bits totalBits itRoot root bitIdx with
  | case1 bits bitIdx =>
      intro t hroot _
      funext b
      -- no root bit is left: no block from `t` on is touched
      by_cases hb : 64 * t ≤ b ∧ b < 8 * mmbitFlatSize totalBits
      · have hbit : (mmbitSparseIterAt itRoot 0).mask.testBit (b / 64) = false := by
          have := hroot (b / 64)
          rw [Nat.zero_testBit, decide_eq_true (show t ≤ b / 64 by omega), Bool.and_true] at this
          exact this.symm
        rw [sparseIterNode_one (by omega), hbit]
        simp
      · simp [hb]
  | case2 bits root bitIdx h0 bit blockKeyMin blockKeyMax blockPtr iterKey it hfull block ih =>
      intro t hroot hidx
      obtain ⟨hset, hgap, hrank, hnext⟩ := flatRoot_step h0 hroot hidx
      have hblk : 64 * bit + 64 ≤ totalBits := by
        have : blockKeyMax = bit * 64 + 64 := rfl
        omega
      rw [ih (bit + 1) hnext (by rw [countP_range_succ_of_true hset.1, hrank])]
      funext b
      rw [show block = mmbLoad bits (bit * 8) &&& compl 64 (mmbitSparseIterAt itRoot iterKey).mask from rfl,
        mmbStore_and_compl_block]
      have hfs' : totalBits ≤ 8 * mmbitFlatSize totalBits := by unfold mmbitFlatSize roundupN; omega
      -- the blocks before `bit`, the block `bit`, and the blocks after it
      rcases Nat.lt_or_ge b (64 * bit) with hb | hb
      · by_cases ht : 64 * t ≤ b
        · have hnode : sparseIterNode itRoot 1 b = false := by
            rw [sparseIterNode_one (by omega), hgap (b / 64) (by omega) (by omega), Bool.false_and]
          simp [hnode, show b / 64 ≠ bit by omega, show ¬ 64 * (bit + 1) ≤ b by omega]
        · simp [ht, show b / 64 ≠ bit by omega, show ¬ 64 * (bit + 1) ≤ b by omega]
      · rcases Nat.lt_or_ge b (64 * bit + 64) with hb' | hb'
        · have hnode : sparseIterNode itRoot 1 b =
              (mmbitSparseIterAt itRoot iterKey).mask.testBit (b % 64) := by
            rw [sparseIterNode_one (by omega), show b / 64 = bit by omega, hset.1, hrank, Bool.true_and]
          simp [hnode, show b / 64 = bit by omega, show ¬ 64 * (bit + 1) ≤ b by omega,
            show 64 * t ≤ b by omega, show b < 8 * mmbitFlatSize totalBits by omega]
        · simp [show b / 64 ≠ bit by omega, show 64 * (bit + 1) ≤ b by omega, show 64 * t ≤ b by omega]
  | case3 bits root bitIdx h0 bit blockKeyMin blockKeyMax blockPtr iterKey it hrunt numBits block =>
      intro t hroot hidx
      obtain ⟨hset, hgap, hrank, -⟩ := flatRoot_step h0 hroot hidx
      -- the runt block starts below `total_bits` and reaches the end of the flat multibit
      have hstart : 64 * bit < totalBits := hfit _ hset.1
      have hlast : totalBits < 64 * bit + 64 := by
        have : blockKeyMax = bit * 64 + 64 := rfl
        omega
      have hnum : numBits = totalBits - 64 * bit := by
        rw [show numBits = totalBits - bit * 64 from rfl]
        omega
      have hend : 64 * bit + 8 * (roundupN numBits 8 / 8) = 8 * mmbitFlatSize totalBits := by
        rw [hnum]
        unfold mmbitFlatSize roundupN
        omega
      funext b
      rw [show block = mmbitGetFlatBlock bits (bit * 8) numBits &&&
          compl 64 (mmbitSparseIterAt itRoot iterKey).mask from rfl,
        mmbStorePartial_and_compl_block _ _ _ _ _ (by omega), hend]
      rcases Nat.lt_or_ge b (64 * bit) with hb | hb
      · by_cases ht : 64 * t ≤ b
        · have hnode : sparseIterNode itRoot 1 b = false := by
            rw [sparseIterNode_one (by omega), hgap (b / 64) (by omega) (by omega), Bool.false_and]
          simp [hnode, show ¬ 64 * bit ≤ b by omega]
        · simp [ht, show ¬ 64 * bit ≤ b by omega]
      · by_cases hin : b < 8 * mmbitFlatSize totalBits
        · have hfs' : 8 * mmbitFlatSize totalBits ≤ 64 * bit + 64 := by
            unfold mmbitFlatSize roundupN; omega
          have hnode : sparseIterNode itRoot 1 b =
              (mmbitSparseIterAt itRoot iterKey).mask.testBit (b % 64) := by
            rw [sparseIterNode_one (by omega), show b / 64 = bit by omega, hset.1, hrank, Bool.true_and]
          simp [hnode, hb, hin, show 64 * t ≤ b by omega]
        · simp [hin]

/-- **`mmbit_sparse_iter_unset_flat`** masks off the iterator's keys: one root
record for at most 64 keys, a root record and one record per block above. -/
theorem mmbitSparseIterUnsetFlat_eq (hflat : totalBits ≤ mmbFlatMaxBits)
    (hit : MmbitSparseIterValid itRoot totalBits) :
    mmbitSparseIterUnsetFlat bits totalBits itRoot = fun b =>
      bits b && !(decide (b < 8 * mmbitFlatSize totalBits) &&
        sparseIterNode itRoot (mmbitMaxlevel totalBits) b) := by
  unfold mmbitSparseIterUnsetFlat mmbKeyBits
  split
  · rename_i hsmall
    funext b
    have hstore := mmbStorePartial_and_compl_block bits 0 totalBits
      (mmbitSparseIterAt itRoot 0).mask b hsmall
    simp only [Nat.zero_mul, Nat.mul_zero, Nat.zero_add, Nat.zero_le, true_and] at hstore
    rw [hstore, mmbitMaxlevel_of_le_64 hsmall, sparseIterNode_zero]
    rfl
  · rename_i hbig
    have hmax := mmbitMaxlevel_flat (by omega) hflat
    -- the root bits are the blocks, each below `total_bits`
    have hfit : ∀ j, (mmbitSparseIterAt itRoot 0).mask.testBit j = true → 64 * j < totalBits := by
      intro j hj
      have hj64 : j < 64 := by
        by_contra h
        rw [testBit_eq_false_of_lt (mmbitSparseIterAt_mask_lt itRoot 0) (by omega)] at hj
        cases hj
      have := hit 0 j (Nat.zero_le _) (by simpa using hj64)
        (by rw [sparseIterNode_zero, Nat.mod_eq_of_lt hj64]; exact hj)
      rw [hmax, Nat.shiftLeft_eq] at this
      simpa [mmbitGetKs, mmbKeyShift, Nat.mul_comm] using this
    have hloop : mmbitSparseIterUnsetFlatLoop bits totalBits itRoot
        (mmbitSparseIterAt itRoot 0).mask 0 = _ :=
      mmbitSparseIterUnsetFlatLoop_eq hflat hfit 0 (fun j => by simp) rfl
    rw [hloop, hmax]
    funext b
    simp

end UnsetFlat

/-! ## `mmbit_sparse_iter_unset_big` -/

/-- The variables of the loop of `mmbit_sparse_iter_unset_big`: the multibit, the
current block `key` of `level`, the index `it` of that block's iterator record and
the per-level state array `s`. -/
structure SparseUnsetState where
  bits : Mem
  key : Nat
  level : Nat
  it : Nat
  s : Nat → MmbitSparseState

/-- The descent of `mmbit_sparse_iter_unset_big` into the child block under the
lowest bit of the current state mask. -/
def mmbitSparseIterUnsetDescend (itRoot : List MmbitSparseIter) (st : SparseUnsetState) :
    SparseUnsetState :=
  let bit := mmbCtz (st.s st.level).mask
  let key := (st.key <<< mmbKeyShift) + bit
  let level := st.level + 1
  -- the record is the start of the level (`it->val`) plus the dense index of `bit`
  let iterKey := mmbitSparseIterChild itRoot st.it bit
  let nextblock := mmbLoad st.bits (mmbitGetLevelRoot level + key * 8)
  ⟨st.bits, key, level, iterKey,
    Function.update st.s level ⟨nextblock &&& (mmbitSparseIterAt itRoot iterKey).mask, iterKey⟩⟩

/-- The bottom-level store of `mmbit_sparse_iter_unset_big`: the iterator's bits
are masked out of the current leaf block. -/
def mmbitSparseIterUnsetLeaf (itRoot : List MmbitSparseIter) (st : SparseUnsetState) : Mem :=
  let blockPtr := mmbitGetLevelRoot st.level + st.key * 8
  mmbStore st.bits blockPtr (mmbLoad st.bits blockPtr &&& compl 64 (mmbitSparseIterAt itRoot st.it).mask)

/-- The `uplevel:` block of `mmbit_sparse_iter_unset_big` below the root: back to
the parent block, whose bit leading here is cleared if this block is zero, and
dropped from the parent's state mask. -/
def mmbitSparseIterUnsetUp (st : SparseUnsetState) : SparseUnsetState :=
  let realBlock := mmbLoad st.bits (mmbitGetLevelRoot st.level + st.key * 8)
  let key := st.key >>> mmbKeyShift
  let level := st.level - 1
  -- a block zeroed for real: clear the parent bit that led to it
  let bits :=
    if realBlock = 0 then
      let bit := mmbCtz (st.s level).mask
      let parentPtr := mmbitGetLevelRoot level + key * 8
      mmbStore st.bits parentPtr (mmbLoad st.bits parentPtr &&& compl 64 (mmbSingleBit bit))
    else st.bits
  let s := Function.update st.s level
    ⟨(st.s level).mask &&& ((st.s level).mask - 1), (st.s level).itkey⟩
  ⟨bits, key, level, (s level).itkey, s⟩

/-- `uplevel:` returns on the root level. -/
def mmbitSparseIterUnsetUplevel (st : SparseUnsetState) : Mem ⊕ SparseUnsetState :=
  if st.level = 0 then .inl st.bits -- we are done
  else .inr (mmbitSparseIterUnsetUp st)

/-- One pass of the `for (;;)` body of `mmbit_sparse_iter_unset_big`. -/
def mmbitSparseIterUnsetBigStep (itRoot : List MmbitSparseIter) (maxLevel : Nat)
    (st : SparseUnsetState) : Mem ⊕ SparseUnsetState :=
  if (st.s st.level).mask ≠ 0 then
    if st.level = maxLevel then
      -- bottom level block: mask out the iterator's bits, then `goto uplevel`
      mmbitSparseIterUnsetUplevel { st with bits := mmbitSparseIterUnsetLeaf itRoot st }
    else .inr (mmbitSparseIterUnsetDescend itRoot st)
  else mmbitSparseIterUnsetUplevel st

/-- A bound on the passes that the walk spends in a block `d` levels above the
last one: one for a leaf block; for a summary block, a descent and the passes of
the child for each of its at most `2 ^ 64` pending bits, and one to leave. -/
def sparseUnsetBlockCost : Nat → Nat
  | 0 => 1
  | d + 1 => 2 ^ 64 * (1 + sparseUnsetBlockCost d) + 1

/-- `mmbit_sparse_iter_unset_big`; `s` is the caller's state array. -/
def mmbitSparseIterUnsetBig (bits : Mem) (totalBits : Nat) (itRoot : List MmbitSparseIter)
    (s : Nat → MmbitSparseState) : Mem :=
  let block := mmbLoad bits 0 &&& (mmbitSparseIterAt itRoot 0).mask
  if block = 0 then bits
  else
    let maxLevel := mmbitMaxlevel totalBits
    -- load the first block into the top level state
    Loop.run (mmbitSparseIterUnsetBigStep itRoot maxLevel) SparseUnsetState.bits
      (sparseUnsetBlockCost maxLevel + 1) ⟨bits, 0, 0, 0, Function.update s 0 ⟨block, 0⟩⟩

/-- `mmbit_sparse_iter_unset`. -/
def mmbitSparseIterUnset (bits : Mem) (totalBits : Nat) (it : List MmbitSparseIter)
    (s : Nat → MmbitSparseState) : Mem :=
  if mmbitIsFlatModel totalBits then mmbitSparseIterUnsetFlat bits totalBits it
  else mmbitSparseIterUnsetBig bits totalBits it s

section WalkState

variable {itRoot : List MmbitSparseIter} {st : SparseUnsetState}

@[simp] theorem mmbitSparseIterUnsetDescend_bits : (mmbitSparseIterUnsetDescend itRoot st).bits = st.bits :=
  rfl

@[simp] theorem mmbitSparseIterUnsetDescend_level :
    (mmbitSparseIterUnsetDescend itRoot st).level = st.level + 1 := rfl

@[simp] theorem mmbitSparseIterUnsetDescend_key :
    (mmbitSparseIterUnsetDescend itRoot st).key = (st.key <<< 6) + mmbCtz (st.s st.level).mask := rfl

@[simp] theorem mmbitSparseIterUnsetDescend_it :
    (mmbitSparseIterUnsetDescend itRoot st).it =
      mmbitSparseIterChild itRoot st.it (mmbCtz (st.s st.level).mask) := rfl

theorem mmbitSparseIterUnsetDescend_s_of_ne {l : Nat} (h : l ≠ st.level + 1) :
    (mmbitSparseIterUnsetDescend itRoot st).s l = st.s l :=
  Function.update_of_ne h _ _

theorem mmbitSparseIterUnsetDescend_s_self :
    (mmbitSparseIterUnsetDescend itRoot st).s (st.level + 1) =
      ⟨mmbLoad st.bits (mmbitGetLevelRoot (st.level + 1) +
          (mmbitSparseIterUnsetDescend itRoot st).key * 8) &&&
        (mmbitSparseIterAt itRoot (mmbitSparseIterUnsetDescend itRoot st).it).mask,
        (mmbitSparseIterUnsetDescend itRoot st).it⟩ :=
  Function.update_self _ _ _

@[simp] theorem mmbitSparseIterUnsetUp_level : (mmbitSparseIterUnsetUp st).level = st.level - 1 := rfl

@[simp] theorem mmbitSparseIterUnsetUp_key : (mmbitSparseIterUnsetUp st).key = st.key >>> 6 := rfl

theorem mmbitSparseIterUnsetUp_s_of_ne {l : Nat} (h : l ≠ st.level - 1) :
    (mmbitSparseIterUnsetUp st).s l = st.s l :=
  Function.update_of_ne h _ _

theorem mmbitSparseIterUnsetUp_s_self :
    (mmbitSparseIterUnsetUp st).s (st.level - 1) =
      ⟨(st.s (st.level - 1)).mask &&& ((st.s (st.level - 1)).mask - 1), (st.s (st.level - 1)).itkey⟩ :=
  Function.update_self _ _ _

theorem mmbitSparseIterUnsetUp_it : (mmbitSparseIterUnsetUp st).it = (st.s (st.level - 1)).itkey := by
  simp [mmbitSparseIterUnsetUp]

end WalkState

/-! ### Memory effects of the walk -/

/-- A block store that masks bits off, seen on the levels. -/
theorem levelBit_store_and_compl {bits : Mem} {l l' b n m : Nat} (hl : l ≤ 5) (hl' : l' ≤ 5)
    (hn : n < 64 ^ (l + 1)) (hb : b < 64 ^ l') :
    levelBit (mmbStore bits (mmbitGetLevelRoot l' + b * 8)
        (mmbLoad bits (mmbitGetLevelRoot l' + b * 8) &&& compl 64 m)) l n =
      (levelBit bits l n && !(decide (l = l' ∧ n / 64 = b) && m.testBit (n % 64))) := by
  rw [levelBit_mmbStore hl hl' hn hb]
  split
  · rename_i h
    obtain ⟨rfl, rfl⟩ := h
    rw [Nat.testBit_and, testBit_compl_of_lt (Nat.mod_lt _ (by decide)), testBit_levelBlock,
      Nat.div_add_mod]
    simp [Nat.mod_lt]
  · rename_i h
    simp [h]

/-- A masked block store only clears memory bits. -/
theorem mmbStore_load_and_apply {bits : Mem} {p x a : Nat}
    (h : mmbStore bits p (mmbLoad bits p &&& x) a = true) : bits a = true := by
  unfold mmbStore mmbLoad at h
  rw [Mem.store_load_and] at h
  split at h
  · simp only [Bool.and_eq_true] at h
    exact h.1
  · exact h

theorem PathSet.mono {bits bits' : Mem} (h : ∀ a, bits' a = true → bits a = true) {l n : Nat}
    (hp : PathSet bits' l n) : PathSet bits l n :=
  fun l' hl' => h _ (hp l' hl')

/-- The path of a key, level by level. -/
theorem pathSet_key_iff {bits : Mem} {maxLevel k : Nat} :
    PathSet bits maxLevel k ↔ ∀ l, l ≤ maxLevel → levelBit bits l (k >>> mmbitGetKs maxLevel l) = true := by
  have := @pathSet_keyNode bits maxLevel k maxLevel le_rfl
  simpa using this

/-- The node of a key on level `l + 1` is its node on level `l` followed by its
bit there. -/
theorem keyNode_succ_eq {maxLevel k l : Nat} (h : l < maxLevel) :
    k >>> mmbitGetKs maxLevel (l + 1) = 64 * (k >>> mmbitGetKs maxLevel l) +
      k >>> mmbitGetKs maxLevel (l + 1) % 64 := by
  rw [← keyNode_parent h, Nat.shiftRight_eq_div_pow _ 6]
  exact (Nat.div_add_mod _ 64).symm

/-! ### The invariant of the walk -/

namespace SparseUnsetState

/-- The block of level `l` on the walk's current path (`l ≤ level`). -/
def pathBlock (st : SparseUnsetState) (l : Nat) : Nat := st.key >>> (6 * (st.level - l))

/-- The bits of level `l`'s state mask still to be walked: on the current level
all of them; above it all but the lowest, which leads down the current path. -/
def pendingMask (st : SparseUnsetState) (l : Nat) : Nat :=
  if l < st.level then (st.s l).mask &&& ((st.s l).mask - 1) else (st.s l).mask

/-- The node of key `k` on level `l` is still to be walked: it is in the path's
block of that level, among the pending bits. -/
def PendingAt (maxLevel : Nat) (st : SparseUnsetState) (l k : Nat) : Prop :=
  k >>> mmbitGetKs maxLevel l >>> 6 = st.pathBlock l ∧
    (st.pendingMask l).testBit (k >>> mmbitGetKs maxLevel l % 64) = true

theorem pathBlock_self (st : SparseUnsetState) : st.pathBlock st.level = st.key := by
  simp [pathBlock]

end SparseUnsetState

open SparseUnsetState

/-- The shape of the stack that the walks of `mmbit_sparse_iter_unset_big` and
`mmbit_sparse_iter_exec` keep: the current path, the iterator's record of each
of its blocks, and state masks within the records' masks. -/
structure SparseWalkShape (itRoot : List MmbitSparseIter) (maxLevel : Nat) (st : SparseUnsetState) : Prop where
  level_le : st.level ≤ maxLevel
  key_lt : st.key < 64 ^ st.level
  mask_lt : ∀ l, l ≤ st.level → (st.s l).mask < 2 ^ 64
  /-- above the current level, the lowest bit of a state mask is the path's -/
  lowest : ∀ l, l < st.level → (st.s l).mask ≠ 0 ∧ mmbCtz (st.s l).mask = st.pathBlock (l + 1) % 64
  /-- the record of each level is the iterator's record of the path's block -/
  record : ∀ l, l ≤ st.level → sparseIterBlockRecord itRoot l (st.pathBlock l) = some (st.s l).itkey
  it_eq : st.it = (st.s st.level).itkey
  mask_sub : ∀ l, l ≤ st.level → ∀ j, (st.s l).mask.testBit j = true →
    (mmbitSparseIterAt itRoot (st.s l).itkey).mask.testBit j = true

/-- The invariant of the walk of `mmbit_sparse_iter_unset_big` started on the
memory `bits0`. -/
structure SparseUnsetInv (itRoot : List MmbitSparseIter) (maxLevel : Nat) (bits0 : Mem)
    (st : SparseUnsetState) : Prop where
  level_le : st.level ≤ maxLevel
  key_lt : st.key < 64 ^ st.level
  mask_lt : ∀ l, l ≤ st.level → (st.s l).mask < 2 ^ 64
  /-- above the current level, the lowest bit of a state mask is the path's -/
  lowest : ∀ l, l < st.level → (st.s l).mask ≠ 0 ∧ mmbCtz (st.s l).mask = st.pathBlock (l + 1) % 64
  /-- the record of each level is the iterator's record of the path's block -/
  record : ∀ l, l ≤ st.level → sparseIterBlockRecord itRoot l (st.pathBlock l) = some (st.s l).itkey
  it_eq : st.it = (st.s st.level).itkey
  mask_sub : ∀ l, l ≤ st.level → ∀ j, (st.s l).mask.testBit j = true →
    (mmbitSparseIterAt itRoot (st.s l).itkey).mask.testBit j = true
  clears : ∀ a, st.bits a = true → bits0 a = true
  keep : ∀ k, k < 64 ^ (maxLevel + 1) → PathSet bits0 maxLevel k →
    sparseIterNode itRoot maxLevel k = false → PathSet st.bits maxLevel k
  pending : ∀ k, k < 64 ^ (maxLevel + 1) → sparseIterNode itRoot maxLevel k = true →
    PathSet st.bits maxLevel k → ∃ l, l ≤ st.level ∧ st.PendingAt maxLevel l k

/-- What the walk of `mmbit_sparse_iter_unset_big` does to the memory `bits0`:
it only clears bits, keeps every key the iterator does not hold and removes
every key it holds. -/
structure SparseUnsetPost (itRoot : List MmbitSparseIter) (maxLevel : Nat) (bits0 bits : Mem) :
    Prop where
  clears : ∀ a, bits a = true → bits0 a = true
  keep : ∀ k, k < 64 ^ (maxLevel + 1) → PathSet bits0 maxLevel k →
    sparseIterNode itRoot maxLevel k = false → PathSet bits maxLevel k
  removed : ∀ k, k < 64 ^ (maxLevel + 1) → sparseIterNode itRoot maxLevel k = true →
    ¬ PathSet bits maxLevel k

/-- The passes still to come on level `l`: each pending bit of a summary level
costs a descent and the passes of its child block, and one pass leaves. -/
def sparseUnsetLevelCost (maxLevel : Nat) (st : SparseUnsetState) (l : Nat) : Nat :=
  if l = maxLevel then 1
  else st.pendingMask l * (1 + sparseUnsetBlockCost (maxLevel - (l + 1))) + 1

/-- The measure of the walk: the passes still to come on the levels of the stack. -/
def sparseUnsetMeasure (maxLevel : Nat) (st : SparseUnsetState) : Nat :=
  ∑ l ∈ Finset.range (st.level + 1), sparseUnsetLevelCost maxLevel st l

/-- Clearing node `p` of level `l'` through its block, as `uplevel:` does. -/
theorem levelBit_store_clear_node {bits : Mem} {l l' p n : Nat} (hl : l ≤ 5) (hl' : l' ≤ 5)
    (hn : n < 64 ^ (l + 1)) (hp : p >>> 6 < 64 ^ l') :
    levelBit (mmbStore bits (mmbitGetLevelRoot l' + (p >>> 6) * 8)
        (mmbLoad bits (mmbitGetLevelRoot l' + (p >>> 6) * 8) &&& compl 64 (mmbSingleBit (p % 64)))) l n =
      (levelBit bits l n && !decide (l = l' ∧ n = p)) := by
  rw [levelBit_store_and_compl hl hl' hn hp, testBit_mmbSingleBit, Nat.shiftRight_eq_div_pow,
    show (2 : Nat) ^ 6 = 64 from rfl]
  by_cases h1 : l = l'
  · by_cases h2 : n = p
    · simp [h1, h2]
    · -- another node of the block differs from `p` in its bit
      simp [h1, h2]
      omega
  · simp [h1]

theorem shiftRight_six_add_mod (n : Nat) : 64 * (n >>> 6) + n % 64 = n := by
  rw [Nat.shiftRight_eq_div_pow, show (2 : Nat) ^ 6 = 64 from rfl]
  exact Nat.div_add_mod n 64

/-- The child `c < 64` of block `key`, shifted back, is `key`. -/
theorem child_shiftRight_six {key c : Nat} (hc : c < 64) : (64 * key + c) >>> 6 = key := by
  rw [Nat.shiftRight_eq_div_pow, show (2 : Nat) ^ 6 = 64 from rfl]
  omega

/-- A node is bit `j` of block `b` when it lies in that block at that bit. -/
theorem eq_block_add_iff {n b j : Nat} (hj : j < 64) : n = 64 * b + j ↔ n >>> 6 = b ∧ n % 64 = j := by
  constructor
  · rintro rfl
    exact ⟨child_shiftRight_six hj, by omega⟩
  · rintro ⟨rfl, rfl⟩
    exact (shiftRight_six_add_mod n).symm

section Walk

variable {itRoot : List MmbitSparseIter} {maxLevel : Nat} {bits0 : Mem} {st : SparseUnsetState}

/-! ### The path and the pending bits across a pass -/

theorem mmbitSparseIterUnsetDescend_key_eq :
    (mmbitSparseIterUnsetDescend itRoot st).key = 64 * st.key + mmbCtz (st.s st.level).mask := by
  rw [mmbitSparseIterUnsetDescend_key, Nat.shiftLeft_eq, show (2 : Nat) ^ 6 = 64 from rfl]
  omega

theorem pathBlock_descend (hc : mmbCtz (st.s st.level).mask < 64) {l : Nat} (hl : l ≤ st.level) :
    (mmbitSparseIterUnsetDescend itRoot st).pathBlock l = st.pathBlock l := by
  unfold SparseUnsetState.pathBlock
  rw [mmbitSparseIterUnsetDescend_key_eq, mmbitSparseIterUnsetDescend_level,
    show 6 * (st.level + 1 - l) = 6 + 6 * (st.level - l) by omega, Nat.shiftRight_add,
    child_shiftRight_six hc]

theorem pathBlock_descend_self :
    (mmbitSparseIterUnsetDescend itRoot st).pathBlock (st.level + 1) =
      64 * st.key + mmbCtz (st.s st.level).mask := by
  rw [← mmbitSparseIterUnsetDescend_key_eq]
  exact pathBlock_self _

theorem pathBlock_up (hL : st.level ≠ 0) {l : Nat} (hl : l ≤ st.level - 1) :
    (mmbitSparseIterUnsetUp st).pathBlock l = st.pathBlock l := by
  unfold SparseUnsetState.pathBlock
  rw [mmbitSparseIterUnsetUp_key, mmbitSparseIterUnsetUp_level, ← Nat.shiftRight_add]
  congr 1
  omega

theorem pendingMask_self (st : SparseUnsetState) : st.pendingMask st.level = (st.s st.level).mask := by
  unfold SparseUnsetState.pendingMask
  rw [if_neg (Nat.lt_irrefl _)]

theorem pendingMask_descend_of_lt {l : Nat} (hl : l < st.level) :
    (mmbitSparseIterUnsetDescend itRoot st).pendingMask l = st.pendingMask l := by
  unfold SparseUnsetState.pendingMask
  rw [mmbitSparseIterUnsetDescend_level, if_pos (by omega), if_pos hl,
    mmbitSparseIterUnsetDescend_s_of_ne (by omega)]

theorem pendingMask_descend_self :
    (mmbitSparseIterUnsetDescend itRoot st).pendingMask st.level =
      (st.s st.level).mask &&& ((st.s st.level).mask - 1) := by
  unfold SparseUnsetState.pendingMask
  rw [mmbitSparseIterUnsetDescend_level, if_pos (by omega),
    mmbitSparseIterUnsetDescend_s_of_ne (by omega)]

theorem pendingMask_descend_succ :
    (mmbitSparseIterUnsetDescend itRoot st).pendingMask (st.level + 1) =
      ((mmbitSparseIterUnsetDescend itRoot st).s (st.level + 1)).mask :=
  pendingMask_self _

theorem pendingMask_up (hL : st.level ≠ 0) {l : Nat} (hl : l ≤ st.level - 1) :
    (mmbitSparseIterUnsetUp st).pendingMask l = st.pendingMask l := by
  unfold SparseUnsetState.pendingMask
  rw [mmbitSparseIterUnsetUp_level]
  by_cases h : l = st.level - 1
  · subst h
    rw [if_neg (Nat.lt_irrefl _), if_pos (by omega), mmbitSparseIterUnsetUp_s_self]
  · rw [if_pos (by omega), if_pos (by omega), mmbitSparseIterUnsetUp_s_of_ne h]

/-! ### The measure -/

theorem sparseUnsetLevelCost_congr {st' : SparseUnsetState} {l : Nat}
    (h : st'.pendingMask l = st.pendingMask l) :
    sparseUnsetLevelCost maxLevel st' l = sparseUnsetLevelCost maxLevel st l := by
  unfold sparseUnsetLevelCost
  rw [h]

/-- A level whose pending mask is a 64-bit word costs at most a block of it. -/
theorem sparseUnsetLevelCost_le {l : Nat} (hl : l ≤ maxLevel) (hmask : st.pendingMask l < 2 ^ 64) :
    sparseUnsetLevelCost maxLevel st l ≤ sparseUnsetBlockCost (maxLevel - l) := by
  unfold sparseUnsetLevelCost
  split
  · rename_i h
    rw [h, Nat.sub_self]
    rfl
  · rename_i h
    rw [show maxLevel - l = maxLevel - (l + 1) + 1 by omega, sparseUnsetBlockCost]
    have := Nat.mul_le_mul_right (1 + sparseUnsetBlockCost (maxLevel - (l + 1))) hmask.le
    omega

theorem sparseUnsetMeasure_up (hL : st.level ≠ 0) :
    sparseUnsetMeasure maxLevel (mmbitSparseIterUnsetUp st) < sparseUnsetMeasure maxLevel st := by
  unfold sparseUnsetMeasure
  rw [mmbitSparseIterUnsetUp_level, show st.level - 1 + 1 = st.level by omega,
    Finset.sum_range_succ _ st.level]
  have hcongr : ∑ l ∈ Finset.range st.level, sparseUnsetLevelCost maxLevel (mmbitSparseIterUnsetUp st) l =
      ∑ l ∈ Finset.range st.level, sparseUnsetLevelCost maxLevel st l :=
    Finset.sum_congr rfl fun l hl =>
      sparseUnsetLevelCost_congr (pendingMask_up hL (by rw [Finset.mem_range] at hl; omega))
  have hpos : 0 < sparseUnsetLevelCost maxLevel st st.level := by
    unfold sparseUnsetLevelCost
    split <;> omega
  omega

/-- A descent trades one pending bit of the current level for the child block,
whose passes that bit was weighted with. -/
theorem sparseUnsetMeasure_descend (hne : (st.s st.level).mask ≠ 0) (hlt : st.level < maxLevel) :
    sparseUnsetMeasure maxLevel (mmbitSparseIterUnsetDescend itRoot st) <
      sparseUnsetMeasure maxLevel st := by
  unfold sparseUnsetMeasure
  rw [mmbitSparseIterUnsetDescend_level, Finset.sum_range_succ _ (st.level + 1),
    Finset.sum_range_succ _ st.level, Finset.sum_range_succ _ st.level]
  have hcongr : ∑ l ∈ Finset.range st.level,
      sparseUnsetLevelCost maxLevel (mmbitSparseIterUnsetDescend itRoot st) l =
      ∑ l ∈ Finset.range st.level, sparseUnsetLevelCost maxLevel st l :=
    Finset.sum_congr rfl fun l hl =>
      sparseUnsetLevelCost_congr (pendingMask_descend_of_lt (by rwa [Finset.mem_range] at hl))
  -- the child block: a 64-bit mask
  have hchild : sparseUnsetLevelCost maxLevel (mmbitSparseIterUnsetDescend itRoot st) (st.level + 1) ≤
      sparseUnsetBlockCost (maxLevel - (st.level + 1)) := by
    refine sparseUnsetLevelCost_le (by omega) ?_
    rw [pendingMask_descend_succ, mmbitSparseIterUnsetDescend_s_self]
    exact lt_of_le_of_lt Nat.and_le_left (mmbLoad_lt _ _)
  -- the current level loses its lowest pending bit
  have hcur : sparseUnsetLevelCost maxLevel (mmbitSparseIterUnsetDescend itRoot st) st.level =
      ((st.s st.level).mask &&& ((st.s st.level).mask - 1)) *
        (1 + sparseUnsetBlockCost (maxLevel - (st.level + 1))) + 1 := by
    unfold sparseUnsetLevelCost
    rw [if_neg (by omega), pendingMask_descend_self]
  have hold : sparseUnsetLevelCost maxLevel st st.level =
      (st.s st.level).mask * (1 + sparseUnsetBlockCost (maxLevel - (st.level + 1))) + 1 := by
    unfold sparseUnsetLevelCost
    rw [if_neg (by omega), pendingMask_self]
  have hle := Nat.mul_le_mul_right (1 + sparseUnsetBlockCost (maxLevel - (st.level + 1)))
    (Nat.and_le_right : (st.s st.level).mask &&& ((st.s st.level).mask - 1) ≤ (st.s st.level).mask - 1)
  have hsplit : ((st.s st.level).mask - 1) * (1 + sparseUnsetBlockCost (maxLevel - (st.level + 1))) +
      (1 + sparseUnsetBlockCost (maxLevel - (st.level + 1))) =
      (st.s st.level).mask * (1 + sparseUnsetBlockCost (maxLevel - (st.level + 1))) := by
    rw [← Nat.succ_mul, Nat.succ_eq_add_one, Nat.sub_add_cancel (Nat.pos_of_ne_zero hne)]
  rw [hcongr, hcur, hold]
  omega

/-! ### The shape of the stack across a pass -/

theorem SparseUnsetInv.shape (hinv : SparseUnsetInv itRoot maxLevel bits0 st) :
    SparseWalkShape itRoot maxLevel st :=
  ⟨hinv.level_le, hinv.key_lt, hinv.mask_lt, hinv.lowest, hinv.record, hinv.it_eq, hinv.mask_sub⟩

/-- The child block under the lowest bit of the current state mask has the
child record of that bit. -/
theorem SparseWalkShape.record_child (hs : SparseWalkShape itRoot maxLevel st)
    (hne : (st.s st.level).mask ≠ 0) :
    sparseIterBlockRecord itRoot (st.level + 1) (64 * st.key + mmbCtz (st.s st.level).mask) =
      some (mmbitSparseIterChild itRoot st.it (mmbCtz (st.s st.level).mask)) := by
  obtain ⟨hc, hcset, -⟩ := mmbCtz_spec hne (hs.mask_lt _ le_rfl)
  have hcur := hs.record _ le_rfl
  rw [pathBlock_self] at hcur
  have hmod : (64 * st.key + mmbCtz (st.s st.level).mask) % 64 = mmbCtz (st.s st.level).mask := by
    omega
  refine sparseIterBlockRecord_succ.2 ⟨(st.s st.level).itkey, ?_, ?_, ?_⟩
  · rwa [child_shiftRight_six hc]
  · rw [hmod]
    exact hs.mask_sub _ le_rfl _ hcset
  · rw [hmod, hs.it_eq]

/-- The descent keeps the shape: the bit it goes down through leads to the
iterator's record of the child block. -/
theorem SparseWalkShape.descend (hs : SparseWalkShape itRoot maxLevel st)
    (hne : (st.s st.level).mask ≠ 0) (hlt : st.level < maxLevel) :
    SparseWalkShape itRoot maxLevel (mmbitSparseIterUnsetDescend itRoot st) := by
  obtain ⟨hc, -, -⟩ := mmbCtz_spec hne (hs.mask_lt _ le_rfl)
  refine ⟨?_, ?_, ?_, ?_, ?_, ?_, ?_⟩
  · show st.level + 1 ≤ maxLevel
    omega
  · rw [mmbitSparseIterUnsetDescend_key_eq, mmbitSparseIterUnsetDescend_level, Nat.pow_succ]
    have := hs.key_lt
    omega
  · intro l hl
    by_cases h : l = st.level + 1
    · subst h
      rw [mmbitSparseIterUnsetDescend_s_self]
      exact lt_of_le_of_lt Nat.and_le_left (mmbLoad_lt _ _)
    · rw [mmbitSparseIterUnsetDescend_s_of_ne h]
      exact hs.mask_lt l (by simp at hl; omega)
  · intro l hl
    rw [mmbitSparseIterUnsetDescend_level] at hl
    rw [mmbitSparseIterUnsetDescend_s_of_ne (by omega)]
    by_cases h : l = st.level
    · -- the current level: its lowest bit is the one gone down through
      subst h
      rw [pathBlock_descend_self]
      exact ⟨hne, by omega⟩
    · rw [pathBlock_descend hc (by omega)]
      exact hs.lowest l (by omega)
  · intro l hl
    by_cases h : l = st.level + 1
    · subst h
      rw [mmbitSparseIterUnsetDescend_s_self, pathBlock_descend_self, hs.record_child hne]
      rfl
    · rw [mmbitSparseIterUnsetDescend_s_of_ne h, pathBlock_descend hc (by simp at hl; omega)]
      exact hs.record l (by simp at hl; omega)
  · rw [mmbitSparseIterUnsetDescend_level, mmbitSparseIterUnsetDescend_s_self]
  · intro l hl j hj
    by_cases h : l = st.level + 1
    · subst h
      rw [mmbitSparseIterUnsetDescend_s_self] at hj ⊢
      rw [Nat.testBit_and, Bool.and_eq_true] at hj
      exact hj.2
    · rw [mmbitSparseIterUnsetDescend_s_of_ne h] at hj ⊢
      exact hs.mask_sub l (by simp at hl; omega) j hj

/-- Going back to the parent block keeps the shape: the parent's lowest bit
goes, its record stays.  The memory plays no part in the shape. -/
theorem SparseWalkShape.up (hs : SparseWalkShape itRoot maxLevel st) (hL : st.level ≠ 0) :
    SparseWalkShape itRoot maxLevel (mmbitSparseIterUnsetUp st) := by
  have hlev := hs.level_le
  refine ⟨?_, ?_, ?_, ?_, ?_, ?_, ?_⟩
  · show st.level - 1 ≤ maxLevel
    omega
  · show st.key >>> 6 < 64 ^ (st.level - 1)
    exact shiftRight_six_lt (by rw [show st.level - 1 + 1 = st.level by omega]; exact hs.key_lt)
  · intro l hl
    by_cases h : l = st.level - 1
    · subst h
      rw [mmbitSparseIterUnsetUp_s_self]
      exact lt_of_le_of_lt Nat.and_le_left (hs.mask_lt _ (by omega))
    · rw [mmbitSparseIterUnsetUp_s_of_ne h]
      exact hs.mask_lt l (by simp at hl; omega)
  · intro l hl
    rw [mmbitSparseIterUnsetUp_level] at hl
    rw [mmbitSparseIterUnsetUp_s_of_ne (by omega), pathBlock_up hL (by omega)]
    exact hs.lowest l (by omega)
  · intro l hl
    rw [mmbitSparseIterUnsetUp_level] at hl
    have hkey : ((mmbitSparseIterUnsetUp st).s l).itkey = (st.s l).itkey := by
      by_cases h : l = st.level - 1
      · subst h
        rw [mmbitSparseIterUnsetUp_s_self]
      · rw [mmbitSparseIterUnsetUp_s_of_ne h]
    rw [hkey, pathBlock_up hL hl]
    exact hs.record l (by omega)
  · rw [mmbitSparseIterUnsetUp_it, mmbitSparseIterUnsetUp_level, mmbitSparseIterUnsetUp_s_self]
  · intro l hl j hj
    rw [mmbitSparseIterUnsetUp_level] at hl
    by_cases h : l = st.level - 1
    · subst h
      rw [mmbitSparseIterUnsetUp_s_self] at hj ⊢
      rw [Nat.testBit_and, Bool.and_eq_true] at hj
      exact hs.mask_sub _ (by omega) j hj.1
    · rw [mmbitSparseIterUnsetUp_s_of_ne h] at hj ⊢
      exact hs.mask_sub l (by omega) j hj

/-- **The pending keys across a descent.**  A key of the iterator whose path is
set is pending after the descent exactly when it was pending before: a key
under the bit gone down through is now pending in the child block. -/
theorem SparseWalkShape.pending_descend (hs : SparseWalkShape itRoot maxLevel st)
    (hne : (st.s st.level).mask ≠ 0) (hlt : st.level < maxLevel) {k : Nat}
    (hiter : sparseIterNode itRoot maxLevel k = true) (hpath : PathSet st.bits maxLevel k) :
    (∃ l, l ≤ st.level + 1 ∧ (mmbitSparseIterUnsetDescend itRoot st).PendingAt maxLevel l k) ↔
      ∃ l, l ≤ st.level ∧ st.PendingAt maxLevel l k := by
  obtain ⟨hc, hcset, -⟩ := mmbCtz_spec hne (hs.mask_lt _ le_rfl)
  have hmod : (st.s st.level).mask % 2 ^ 64 ≠ 0 := by
    rwa [Nat.mod_eq_of_lt (hs.mask_lt _ le_rfl)]
  -- a node of the child block is the node of the bit gone down through
  have hchild_iff : k >>> mmbitGetKs maxLevel (st.level + 1) >>> 6 =
      64 * st.key + mmbCtz (st.s st.level).mask ↔
        k >>> mmbitGetKs maxLevel st.level >>> 6 = st.key ∧
          k >>> mmbitGetKs maxLevel st.level % 64 = mmbCtz (st.s st.level).mask := by
    rw [keyNode_parent hlt]
    exact eq_block_add_iff hc
  constructor
  · rintro ⟨l, hl, hpa⟩
    rcases Nat.lt_or_ge l st.level with hl' | hl'
    · refine ⟨l, hl'.le, ?_, ?_⟩
      · rw [← pathBlock_descend hc hl'.le]
        exact hpa.1
      · rw [← pendingMask_descend_of_lt hl']
        exact hpa.2
    · by_cases hcur : l = st.level
      · -- a bit of the current level above the one gone down through
        subst hcur
        refine ⟨st.level, le_rfl, by rw [← pathBlock_descend hc le_rfl]; exact hpa.1, ?_⟩
        have hbit := hpa.2
        rw [pendingMask_descend_self, testBit_and_sub_one hmod, Bool.and_eq_true] at hbit
        rw [pendingMask_self]
        exact hbit.1
      · -- the child block: the key lies under the bit gone down through
        obtain rfl : l = st.level + 1 := by omega
        have hblock := hpa.1
        rw [pathBlock_descend_self] at hblock
        obtain ⟨hb, hj⟩ := hchild_iff.mp hblock
        refine ⟨st.level, le_rfl, by rw [pathBlock_self]; exact hb, ?_⟩
        rw [pendingMask_self, hj]
        exact hcset
  · rintro ⟨l, hl, hpa⟩
    rcases Nat.lt_or_ge l st.level with hl' | hl'
    · -- pending above the current level: still pending there
      refine ⟨l, by omega, ?_, ?_⟩
      · rw [pathBlock_descend hc hl'.le]
        exact hpa.1
      · rw [pendingMask_descend_of_lt hl']
        exact hpa.2
    · obtain rfl : l = st.level := by omega
      have hb : k >>> mmbitGetKs maxLevel st.level >>> 6 = st.key := by
        rw [hpa.1, pathBlock_self]
      by_cases hj : k >>> mmbitGetKs maxLevel st.level % 64 = mmbCtz (st.s st.level).mask
      · -- the key lies under the bit gone down through: pending in the child block
        have hchild := hchild_iff.mpr ⟨hb, hj⟩
        refine ⟨st.level + 1, le_rfl, by rw [pathBlock_descend_self]; exact hchild, ?_⟩
        rw [pendingMask_descend_succ, mmbitSparseIterUnsetDescend_s_self]
        dsimp only
        have hset : levelBit st.bits (st.level + 1) (k >>> mmbitGetKs maxLevel (st.level + 1)) = true :=
          (pathSet_key_iff.1 hpath) (st.level + 1) (by omega)
        rw [Nat.testBit_and, mmbitSparseIterUnsetDescend_key_eq, testBit_levelBlock, ← hchild,
          shiftRight_six_add_mod, hset]
        obtain ⟨r, hr, hbit⟩ :=
          sparseIterNode_iff.1 (sparseIterNode_keyNode hiter (l := st.level + 1) (by omega))
        rw [hchild, hs.record_child hne] at hr
        cases hr
        simp [Nat.mod_lt, hbit]
      · -- another pending bit of the current level
        refine ⟨st.level, by omega, by rw [pathBlock_descend hc le_rfl]; exact hpa.1, ?_⟩
        have hbit := hpa.2
        rw [pendingMask_self] at hbit
        rw [pendingMask_descend_self, testBit_and_sub_one hmod, hbit]
        simpa [mmbCtz] using hj

/-- **The pending keys on going back up.**  Once a key is not pending on the
current level, it is pending after `uplevel:` exactly when it was before. -/
theorem pendingAt_up_iff (hL : st.level ≠ 0) {k : Nat} (hnone : ¬ st.PendingAt maxLevel st.level k) :
    (∃ l, l ≤ st.level - 1 ∧ (mmbitSparseIterUnsetUp st).PendingAt maxLevel l k) ↔
      ∃ l, l ≤ st.level ∧ st.PendingAt maxLevel l k := by
  constructor
  · rintro ⟨l, hl, hpa⟩
    refine ⟨l, by omega, ?_, ?_⟩
    · rw [← pathBlock_up hL hl]
      exact hpa.1
    · rw [← pendingMask_up hL hl]
      exact hpa.2
  · rintro ⟨l, hl, hpa⟩
    have hlL : l ≠ st.level := fun h => hnone (h ▸ hpa)
    refine ⟨l, by omega, ?_, ?_⟩
    · rw [pathBlock_up hL (by omega)]
      exact hpa.1
    · rw [pendingMask_up hL (by omega)]
      exact hpa.2

/-! ### The invariant across a pass -/

/-- The descent keeps the invariant: it keeps the shape and every pending key. -/
theorem sparseUnsetInv_descend (hinv : SparseUnsetInv itRoot maxLevel bits0 st)
    (hne : (st.s st.level).mask ≠ 0) (hlt : st.level < maxLevel) :
    SparseUnsetInv itRoot maxLevel bits0 (mmbitSparseIterUnsetDescend itRoot st) := by
  have hs := hinv.shape.descend hne hlt
  refine ⟨hs.level_le, hs.key_lt, hs.mask_lt, hs.lowest, hs.record, hs.it_eq, hs.mask_sub,
    hinv.clears, hinv.keep, fun k hk hiter hpath => ?_⟩
  exact (hinv.shape.pending_descend hne hlt hiter hpath).mpr (hinv.pending k hk hiter hpath)

theorem mmbitSparseIterUnsetUp_bits :
    (mmbitSparseIterUnsetUp st).bits =
      if mmbLoad st.bits (mmbitGetLevelRoot st.level + st.key * 8) = 0 then
        mmbStore st.bits (mmbitGetLevelRoot (st.level - 1) + (st.key >>> 6) * 8)
          (mmbLoad st.bits (mmbitGetLevelRoot (st.level - 1) + (st.key >>> 6) * 8) &&&
            compl 64 (mmbSingleBit (mmbCtz (st.s (st.level - 1)).mask)))
      else st.bits := by
  simp only [mmbitSparseIterUnsetUp, mmbKeyShift]

theorem mmbitSparseIterUnsetUp_clears {a : Nat} (h : (mmbitSparseIterUnsetUp st).bits a = true) :
    st.bits a = true := by
  rw [mmbitSparseIterUnsetUp_bits] at h
  split at h
  · exact mmbStore_load_and_apply h
  · exact h

/-- On the last level the iterator's record of the current block says which
of its keys the iterator holds. -/
theorem sparseIterNode_leaf (hinv : SparseUnsetInv itRoot maxLevel bits0 st)
    (hlev : st.level = maxLevel) {n : Nat} (hn : n >>> 6 = st.key) :
    sparseIterNode itRoot maxLevel n = (mmbitSparseIterAt itRoot st.it).mask.testBit (n % 64) := by
  have hrec := hinv.record _ le_rfl
  rw [pathBlock_self, ← hinv.it_eq, ← hn, hlev] at hrec
  unfold sparseIterNode
  rw [hrec]

variable (hM : maxLevel ≤ 5)
include hM

/-- Leaving a block clears at most the parent bit of a zero block, so no key
loses its path. -/
theorem pathSet_mmbitSparseIterUnsetUp (hinv : SparseUnsetInv itRoot maxLevel bits0 st)
    (hL : st.level ≠ 0) {k : Nat} (hk : k < 64 ^ (maxLevel + 1)) :
    PathSet (mmbitSparseIterUnsetUp st).bits maxLevel k ↔ PathSet st.bits maxLevel k := by
  rw [mmbitSparseIterUnsetUp_bits]
  split
  · rename_i hzero
    -- the bit cleared is the path's node `key` of the parent level
    have hlow := (hinv.lowest (st.level - 1) (by omega)).2
    rw [show st.level - 1 + 1 = st.level by omega, pathBlock_self] at hlow
    have hparent : st.key >>> 6 < 64 ^ (st.level - 1) :=
      shiftRight_six_lt (by rw [show st.level - 1 + 1 = st.level by omega]; exact hinv.key_lt)
    have hlev := hinv.level_le
    rw [hlow, pathSet_key_iff, pathSet_key_iff]
    constructor
    · intro h l hl
      have := h l hl
      rw [levelBit_store_clear_node (by omega) (by omega) (keyNode_lt hk hl) hparent,
        Bool.and_eq_true] at this
      exact this.1
    · intro h l hl
      rw [levelBit_store_clear_node (by omega) (by omega) (keyNode_lt hk hl) hparent, h l hl]
      -- the key's node on the parent level is not `key`: its child would lie in a zero block
      have hne : ¬ (l = st.level - 1 ∧ k >>> mmbitGetKs maxLevel l = st.key) := by
        rintro ⟨rfl, hn⟩
        have hchild := keyNode_succ_eq (k := k) (show st.level - 1 < maxLevel by omega)
        rw [show st.level - 1 + 1 = st.level by omega, hn] at hchild
        have hz := congrArg (Nat.testBit · (k >>> mmbitGetKs maxLevel st.level % 64)) hzero
        simp only [testBit_levelBlock, Nat.zero_testBit] at hz
        rw [← hchild, h st.level hlev] at hz
        simp [Nat.mod_lt] at hz
      simp [hne]
  · exact Iff.rfl

/-- Leaving a block keeps the invariant once no key of the iterator is pending
in it any more. -/
theorem sparseUnsetInv_up (hinv : SparseUnsetInv itRoot maxLevel bits0 st) (hL : st.level ≠ 0)
    (hnone : ∀ k, k < 64 ^ (maxLevel + 1) → sparseIterNode itRoot maxLevel k = true →
      PathSet st.bits maxLevel k → ¬ st.PendingAt maxLevel st.level k) :
    SparseUnsetInv itRoot maxLevel bits0 (mmbitSparseIterUnsetUp st) := by
  have hs := hinv.shape.up hL
  refine ⟨hs.level_le, hs.key_lt, hs.mask_lt, hs.lowest, hs.record, hs.it_eq, hs.mask_sub,
    fun a h => hinv.clears a (mmbitSparseIterUnsetUp_clears h), ?_, ?_⟩
  · intro k hk hpath hiter
    exact (pathSet_mmbitSparseIterUnsetUp hM hinv hL hk).mpr (hinv.keep k hk hpath hiter)
  · intro k hk hiter hpath
    -- the memory keeps the key's path, so it was pending, and not on this level
    have hpath' := (pathSet_mmbitSparseIterUnsetUp hM hinv hL hk).mp hpath
    exact (pendingAt_up_iff hL (hnone k hk hiter hpath')).mpr (hinv.pending k hk hiter hpath')

/-- `uplevel:` ends the walk with its postcondition on the root level, and
otherwise goes on in the invariant with a smaller measure. -/
theorem sparseUnset_uplevel (hinv : SparseUnsetInv itRoot maxLevel bits0 st)
    (hnone : ∀ k, k < 64 ^ (maxLevel + 1) → sparseIterNode itRoot maxLevel k = true →
      PathSet st.bits maxLevel k → ¬ st.PendingAt maxLevel st.level k) :
    (∀ a, mmbitSparseIterUnsetUplevel st = .inl a → SparseUnsetPost itRoot maxLevel bits0 a) ∧
    (∀ st', mmbitSparseIterUnsetUplevel st = .inr st' →
      SparseUnsetInv itRoot maxLevel bits0 st' ∧
        sparseUnsetMeasure maxLevel st' < sparseUnsetMeasure maxLevel st) := by
  unfold mmbitSparseIterUnsetUplevel
  split
  · rename_i hL
    -- the root level: nothing is pending below it any more
    refine ⟨fun a h => ?_, fun st' h => nomatch h⟩
    obtain rfl := Sum.inl.inj h
    refine ⟨hinv.clears, hinv.keep, fun k hk hiter hpath => ?_⟩
    obtain ⟨l, hl, hpa⟩ := hinv.pending k hk hiter hpath
    obtain rfl : l = st.level := by omega
    exact hnone k hk hiter hpath hpa
  · rename_i hL
    refine ⟨fun a h => (nomatch h), fun st' h => ?_⟩
    obtain rfl := Sum.inr.inj h
    exact ⟨sparseUnsetInv_up hM hinv hL hnone, sparseUnsetMeasure_up hL⟩

theorem levelBit_mmbitSparseIterUnsetLeaf (hinv : SparseUnsetInv itRoot maxLevel bits0 st)
    {l n : Nat} (hl : l ≤ maxLevel) (hn : n < 64 ^ (l + 1)) :
    levelBit (mmbitSparseIterUnsetLeaf itRoot st) l n =
      (levelBit st.bits l n && !(decide (l = st.level ∧ n / 64 = st.key) &&
        (mmbitSparseIterAt itRoot st.it).mask.testBit (n % 64))) :=
  levelBit_store_and_compl (by omega) (by have := hinv.level_le; omega) hn hinv.key_lt

/-- The bottom-level store keeps the invariant, and leaves no key of the
iterator pending in the leaf block. -/
theorem sparseUnsetInv_leaf (hinv : SparseUnsetInv itRoot maxLevel bits0 st)
    (hlev : st.level = maxLevel) :
    SparseUnsetInv itRoot maxLevel bits0 { st with bits := mmbitSparseIterUnsetLeaf itRoot st } ∧
      ∀ k, k < 64 ^ (maxLevel + 1) → sparseIterNode itRoot maxLevel k = true →
        PathSet (mmbitSparseIterUnsetLeaf itRoot st) maxLevel k → ¬ st.PendingAt maxLevel st.level k := by
  have hclears : ∀ a, mmbitSparseIterUnsetLeaf itRoot st a = true → st.bits a = true :=
    fun a h => mmbStore_load_and_apply h
  -- on the last level, a key's node is the key itself
  have hleafNode : ∀ k, k >>> mmbitGetKs maxLevel st.level = k := by
    intro k
    rw [hlev, mmbitGetKs_self, Nat.shiftRight_zero]
  refine ⟨⟨hinv.level_le, hinv.key_lt, hinv.mask_lt, hinv.lowest, hinv.record, hinv.it_eq,
    hinv.mask_sub, fun a h => hinv.clears a (hclears a h), ?_, ?_⟩, ?_⟩
  · intro k hk hpath hiter
    have hold := pathSet_key_iff.1 (hinv.keep k hk hpath hiter)
    refine pathSet_key_iff.2 fun l hl => ?_
    rw [levelBit_mmbitSparseIterUnsetLeaf hM hinv hl (keyNode_lt hk hl), hold l hl]
    -- a cleared bit of the leaf block is a key of the iterator
    by_cases hcl : l = st.level ∧ k >>> mmbitGetKs maxLevel l / 64 = st.key
    · obtain ⟨rfl, hblk⟩ := hcl
      rw [hleafNode] at hblk ⊢
      rw [← sparseIterNode_leaf hinv hlev (by rw [Nat.shiftRight_eq_div_pow]; exact hblk), hiter]
      simp
    · simp [hcl]
  · intro k hk hiter hpath
    exact hinv.pending k hk hiter (PathSet.mono hclears hpath)
  · intro k hk hiter hpath hpa
    have hblk := hpa.1
    rw [hleafNode, pathBlock_self] at hblk
    have hbit := (pathSet_key_iff.1 hpath) maxLevel le_rfl
    rw [levelBit_mmbitSparseIterUnsetLeaf hM hinv le_rfl (keyNode_lt hk le_rfl), mmbitGetKs_self,
      Nat.shiftRight_zero, ← sparseIterNode_leaf hinv hlev hblk, hiter] at hbit
    have : k / 64 = st.key := by rwa [Nat.shiftRight_eq_div_pow] at hblk
    simp [hlev, this] at hbit

/-- A pass of the walk that goes on keeps the invariant and lowers the measure. -/
theorem sparseUnsetStep_next (hinv : SparseUnsetInv itRoot maxLevel bits0 st) {st' : SparseUnsetState}
    (h : mmbitSparseIterUnsetBigStep itRoot maxLevel st = .inr st') :
    SparseUnsetInv itRoot maxLevel bits0 st' ∧
      sparseUnsetMeasure maxLevel st' < sparseUnsetMeasure maxLevel st := by
  unfold mmbitSparseIterUnsetBigStep at h
  split at h
  · rename_i hne
    split at h
    · -- the leaf block, then `uplevel:`
      rename_i hlev
      obtain ⟨hinv', hnone⟩ := sparseUnsetInv_leaf hM hinv hlev
      exact (sparseUnset_uplevel hM hinv' hnone).2 st' h
    · rename_i hlev
      obtain rfl := Sum.inr.inj h
      have hlt : st.level < maxLevel := lt_of_le_of_ne hinv.level_le hlev
      exact ⟨sparseUnsetInv_descend hinv hne hlt, sparseUnsetMeasure_descend hne hlt⟩
  · -- a zero state mask: nothing is pending on this level
    rename_i hzero
    refine (sparseUnset_uplevel hM hinv fun k _ _ _ hpa => ?_).2 st' h
    have hbit := hpa.2
    rw [pendingMask_self, show (st.s st.level).mask = 0 by simpa using hzero, Nat.zero_testBit] at hbit
    cases hbit

/-- A pass of the walk that returns returns the postcondition. -/
theorem sparseUnsetStep_done (hinv : SparseUnsetInv itRoot maxLevel bits0 st) {a : Mem}
    (h : mmbitSparseIterUnsetBigStep itRoot maxLevel st = .inl a) :
    SparseUnsetPost itRoot maxLevel bits0 a := by
  unfold mmbitSparseIterUnsetBigStep at h
  split at h
  · split at h
    · rename_i hne hlev
      obtain ⟨hinv', hnone⟩ := sparseUnsetInv_leaf hM hinv hlev
      exact (sparseUnset_uplevel hM hinv' hnone).1 a h
    · cases h
  · rename_i hzero
    refine (sparseUnset_uplevel hM hinv fun k _ _ _ hpa => ?_).1 a h
    have hbit := hpa.2
    rw [pendingMask_self, show (st.s st.level).mask = 0 by simpa using hzero, Nat.zero_testBit] at hbit
    cases hbit

end Walk

/-! ### The whole walk -/

section UnsetBig

variable {bits : Mem} {totalBits : Nat} {itRoot : List MmbitSparseIter} {s : Nat → MmbitSparseState}

/-- The masked root block that starts the walk has the root node of every key of
the iterator that is in the multibit. -/
theorem rootBlock_testBit {maxLevel k : Nat} (hk : k < 64 ^ (maxLevel + 1))
    (hiter : sparseIterNode itRoot maxLevel k = true) (hpath : PathSet bits maxLevel k) :
    (mmbLoad bits 0 &&& (mmbitSparseIterAt itRoot 0).mask).testBit
      (k >>> mmbitGetKs maxLevel 0 % 64) = true := by
  have hroot : k >>> mmbitGetKs maxLevel 0 < 64 := by simpa using keyNode_lt hk (Nat.zero_le maxLevel)
  have hset := (pathSet_key_iff.1 hpath) 0 (Nat.zero_le _)
  have hnode := sparseIterNode_keyNode hiter (Nat.zero_le maxLevel)
  rw [sparseIterNode_zero] at hnode
  rw [Nat.testBit_and, hnode, show mmbLoad bits 0 = mmbLoad bits (mmbitGetLevelRoot 0 + 0 * 8) from rfl,
    testBit_levelBlock, Nat.mod_eq_of_lt hroot]
  simp [hroot, hset]

/-- The state the loop starts from: the masked root block on level 0. -/
theorem sparseUnsetInv_init (maxLevel : Nat) (bits : Mem) (s : Nat → MmbitSparseState) :
    SparseUnsetInv itRoot maxLevel bits
      ⟨bits, 0, 0, 0, Function.update s 0 ⟨mmbLoad bits 0 &&& (mmbitSparseIterAt itRoot 0).mask, 0⟩⟩ := by
  refine ⟨Nat.zero_le _, by simp, ?_, fun l hl => absurd hl (Nat.not_lt_zero l), ?_, by simp, ?_,
    fun a h => h, fun k _ h _ => h, ?_⟩
  · intro l hl
    obtain rfl : l = 0 := Nat.le_zero.mp hl
    simpa using lt_of_le_of_lt Nat.and_le_left (mmbLoad_lt bits 0)
  · intro l hl
    obtain rfl : l = 0 := Nat.le_zero.mp hl
    simp [sparseIterBlockRecord]
  · intro l hl j hj
    obtain rfl : l = 0 := Nat.le_zero.mp hl
    simp only [Function.update_self] at hj ⊢
    rw [Nat.testBit_and, Bool.and_eq_true] at hj
    exact hj.2
  · intro k hk hiter hpath
    refine ⟨0, le_rfl, ?_, ?_⟩
    · have hroot : k >>> mmbitGetKs maxLevel 0 < 64 := by simpa using keyNode_lt hk (Nat.zero_le maxLevel)
      simpa [pathBlock, Nat.shiftRight_eq_div_pow] using hroot
    · rw [pendingMask_self]
      simpa using rootBlock_testBit hk hiter hpath

theorem sparseUnsetMeasure_init (maxLevel : Nat) (bits : Mem) (s : Nat → MmbitSparseState) :
    sparseUnsetMeasure maxLevel
        ⟨bits, 0, 0, 0, Function.update s 0 ⟨mmbLoad bits 0 &&& (mmbitSparseIterAt itRoot 0).mask, 0⟩⟩ <
      sparseUnsetBlockCost maxLevel + 1 := by
  have hmask : SparseUnsetState.pendingMask
      ⟨bits, 0, 0, 0, Function.update s 0 ⟨mmbLoad bits 0 &&& (mmbitSparseIterAt itRoot 0).mask, 0⟩⟩ 0 <
      2 ^ 64 := by
    rw [pendingMask_self]
    simpa using lt_of_le_of_lt Nat.and_le_left (mmbLoad_lt bits 0)
  have hle := sparseUnsetLevelCost_le (Nat.zero_le maxLevel) hmask
  rw [Nat.sub_zero] at hle
  unfold sparseUnsetMeasure
  rw [Finset.sum_range_one]
  omega

/-- **`mmbit_sparse_iter_unset_big`** clears the keys of the iterator, keeps the
others and only ever clears bits. -/
theorem mmbitSparseIterUnsetBig_spec (hM : mmbitMaxlevel totalBits ≤ 5) :
    SparseUnsetPost itRoot (mmbitMaxlevel totalBits) bits (mmbitSparseIterUnsetBig bits totalBits itRoot s) := by
  unfold mmbitSparseIterUnsetBig
  dsimp only
  split
  · -- no root bit of the iterator is set: none of its keys is in the multibit
    rename_i hzero
    refine ⟨fun _ h => h, fun _ _ h _ => h, fun k hk hiter hpath => ?_⟩
    have := rootBlock_testBit hk hiter hpath
    rw [hzero, Nat.zero_testBit] at this
    cases this
  · exact Loop.run_spec (SparseUnsetInv itRoot _ bits) (SparseUnsetPost itRoot _ bits)
      (sparseUnsetMeasure _) (fun _ _ hst h => sparseUnsetStep_next hM hst h)
      (fun _ _ hst h => sparseUnsetStep_done hM hst h) _ _ (sparseUnsetInv_init _ bits s)
      (sparseUnsetMeasure_init _ bits s)

end UnsetBig

/-! ## `mmbit_sparse_iter_unset` -/

section SparseIterUnset

variable {bits : Mem} {totalBits : Nat} {itRoot : List MmbitSparseIter} {s : Nat → MmbitSparseState}
  (hmax : totalBits ≤ mmbMaxBits) (hit : MmbitSparseIterValid itRoot totalBits)
include hmax hit

/-- **`mmbit_sparse_iter_unset`** switches off exactly the iterator's keys. -/
theorem mmbitKeys_mmbitSparseIterUnset :
    mmbitKeys totalBits (mmbitSparseIterUnset bits totalBits itRoot s) =
      mmbitKeys totalBits bits \ mmbitSparseIterKeys itRoot totalBits := by
  unfold mmbitSparseIterUnset mmbitIsFlatModel
  ext k
  simp only [mmbitKeys, mmbitSparseIterKeys, Set.mem_ofPred_eq, Set.mem_sdiff]
  split
  · rename_i hflat
    have hflat : totalBits ≤ mmbFlatMaxBits := by simpa using hflat
    rw [mmbitSparseIterUnsetFlat_eq hflat hit, mmbitMember_flat_iff hflat, mmbitMember_flat_iff hflat]
    have hfs : totalBits ≤ 8 * mmbitFlatSize totalBits := by unfold mmbitFlatSize roundupN; omega
    by_cases hk : k < totalBits
    · simp [hk, show k < 8 * mmbitFlatSize totalBits by omega]
    · simp [hk]
  · rename_i htree
    have htree : mmbFlatMaxBits < totalBits := by simpa using htree
    obtain ⟨-, hM, hcap⟩ := treeGeometry htree hmax
    have hpost : SparseUnsetPost itRoot (mmbitMaxlevel totalBits) bits
        (mmbitSparseIterUnsetBig bits totalBits itRoot s) := mmbitSparseIterUnsetBig_spec hM
    rw [mmbitMember_tree_iff htree, mmbitMember_tree_iff htree]
    constructor
    · rintro ⟨hk, hpath⟩
      exact ⟨⟨hk, PathSet.mono hpost.clears hpath⟩,
        fun hiter => hpost.removed k (by omega) hiter.2 hpath⟩
    · rintro ⟨⟨hk, hpath⟩, hnot⟩
      have hiter : sparseIterNode itRoot (mmbitMaxlevel totalBits) k = false := by
        cases h : sparseIterNode itRoot (mmbitMaxlevel totalBits) k with
        | false => rfl
        | true => exact absurd ⟨hk, h⟩ hnot
      exact ⟨hk, hpost.keep k (by omega) hpath hiter⟩

/-- `mmbit_sparse_iter_unset` keeps the multibit's invariant. -/
theorem mmbitValid_mmbitSparseIterUnset (hv : MmbitValid totalBits bits) :
    MmbitValid totalBits (mmbitSparseIterUnset bits totalBits itRoot s) := by
  unfold mmbitSparseIterUnset mmbitIsFlatModel
  split
  · rename_i hflat
    have hflat : totalBits ≤ mmbFlatMaxBits := by simpa using hflat
    rw [mmbitValid_flat_iff hflat] at hv ⊢
    intro b h1 h2
    rw [mmbitSparseIterUnsetFlat_eq hflat hit]
    simp [hv b h1 h2]
  · rename_i htree
    have htree : mmbFlatMaxBits < totalBits := by simpa using htree
    obtain ⟨-, hM, -⟩ := treeGeometry htree hmax
    have hpost : SparseUnsetPost itRoot (mmbitMaxlevel totalBits) bits
        (mmbitSparseIterUnsetBig bits totalBits itRoot s) := mmbitSparseIterUnsetBig_spec hM
    rw [mmbitValid_tree_iff htree] at hv ⊢
    intro l n hl hn hp
    exact hv l n hl hn (PathSet.mono hpost.clears hp)

end SparseIterUnset

end Multibit
end Vectorscan
