import Vectorscan.Multibit.Query

/-!
# Multibit: the updates

The operations of `src/util/multibit.h` that change a multibit:
`mmbit_clear`, `mmbit_set`, `mmbit_unset`, `mmbit_unset_range` and
`mmbit_init_range`, each a dispatch between its flat and its tree
specialisation.

**Model.**  `mmbit_unset_range_big` is a loop of the bounded iterator and
`mmbit_unset_big`, modelled with a fuel argument that the wrapper sets above
the number of passes.  `mmbit_init_range_big` rewrites, level by level, the
blocks holding the nodes of the range; the blocks of a level that hold none of
them are not written, and stay unreachable because their parents are off.

**Results.**  Each update is stated against the abstract content `mmbitKeys`
and keeps `MmbitValid`: `mmbitKeys_mmbitClear` (empty), `mmbitKeys_mmbitSet`
and `mmbitSet_ret`, `mmbitKeys_mmbitUnset`, `mmbitKeys_mmbitUnsetRange` (the
range is removed) and `mmbitKeys_mmbitInitRange` (exactly the range, from
any memory).
-/

namespace Vectorscan
namespace Multibit

open Word

/-! ## `mmbit_clear` -/

/-- `mmbit_clear`: the flat model is zeroed, the tree model only in its root block. -/
def mmbitClear (bits : Mem) (totalBits : Nat) : Mem :=
  if totalBits = 0 then bits
  else if mmbitIsFlatModel totalBits then bits.store 0 (8 * mmbitFlatSize totalBits) 0 -- `memset`
  else mmbStore bits 0 0

section Clear

variable {bits : Mem} {totalBits : Nat}

/-- A tree multibit whose root block is clear has no path-set node. -/
theorem not_pathSet_of_root_clear (h : ∀ m, m < 64 → levelBit bits 0 m = false) {l n : Nat}
    (hn : n < 64 ^ (l + 1)) : ¬ PathSet bits l n := by
  intro hp
  have hroot := hp 0 (Nat.zero_le l)
  rw [h _ (by simpa using node_shiftRight_lt hn (Nat.zero_le l))] at hroot
  exact Bool.false_ne_true hroot

/-- The root block of a tree multibit after `mmb_store(bits, 0)`. -/
theorem levelBit_root_store_zero {m : Nat} (hm : m < 64) : levelBit (mmbStore bits 0 0) 0 m = false := by
  have h := @levelBit_mmbStore bits 0 0 0 m 0 (by omega) (by omega) (by simpa using hm) (by simp)
  have hroot : mmbitGetLevelRoot 0 + 0 * 8 = 0 := rfl
  rw [hroot] at h
  rw [h, if_pos ⟨rfl, by omega⟩, Nat.zero_testBit]

theorem mmbitKeys_mmbitClear (hmax : totalBits ≤ mmbMaxBits) :
    mmbitKeys totalBits (mmbitClear bits totalBits) = ∅ := by
  ext k
  simp only [mmbitKeys, Set.mem_ofPred_eq, Set.mem_empty_iff_false, iff_false]
  intro hk
  have hkt := MmbitMember.lt hk
  unfold mmbitClear mmbitIsFlatModel at hk
  rw [if_neg (by omega)] at hk
  split at hk
  · rename_i hflat
    have hflat : totalBits ≤ mmbFlatMaxBits := by simpa using hflat
    have hb := ((mmbitMember_flat_iff hflat).mp hk).2
    rw [Mem.store_apply_of_mem (Nat.zero_le k) (by unfold mmbitFlatSize roundupN; omega),
      Nat.zero_testBit] at hb
    exact Bool.false_ne_true hb
  · rename_i htree
    have htree : mmbFlatMaxBits < totalBits := by simpa using htree
    obtain ⟨-, -, hcap⟩ := treeGeometry htree hmax
    exact not_pathSet_of_root_clear (fun m hm => levelBit_root_store_zero hm) (by omega)
      ((mmbitMember_tree_iff htree).mp hk).2

theorem mmbitValid_mmbitClear : MmbitValid totalBits (mmbitClear bits totalBits) := by
  unfold mmbitClear mmbitIsFlatModel
  split
  · -- no keys: the flat invariant is about no bit
    rename_i h0
    subst h0
    unfold MmbitValid
    rw [if_pos (by unfold mmbFlatMaxBits; omega)]
    intro b _ hb
    simp [mmbitFlatSize, roundupN] at hb
  · split
    · rename_i _ hflat
      have hflat : totalBits ≤ mmbFlatMaxBits := by simpa using hflat
      rw [mmbitValid_flat_iff hflat]
      intro b _ hb
      rw [Mem.store_apply_of_mem (Nat.zero_le b) (by omega), Nat.zero_testBit]
    · rename_i _ htree
      have htree : mmbFlatMaxBits < totalBits := by simpa using htree
      rw [mmbitValid_tree_iff htree]
      intro l n _ hn hp
      exact absurd hp (not_pathSet_of_root_clear (fun m hm => levelBit_root_store_zero hm) hn)

end Clear

/-! ## `mmbit_set` and `mmbit_unset` -/

/-- `mmbit_set` (through `mmbit_set_i`): the result is whether the key was on. -/
def mmbitSet (bits : Mem) (totalBits key : Nat) : Mem × Bool :=
  if mmbitIsFlatModel totalBits then mmbitSetFlat bits totalBits key
  else mmbitSetBig bits totalBits key

/-- `mmbit_unset`. -/
def mmbitUnset (bits : Mem) (totalBits key : Nat) : Mem :=
  if mmbitIsFlatModel totalBits then mmbitUnsetFlat bits totalBits key
  else mmbitUnsetBig bits totalBits key

section SetUnset

variable {bits : Mem} {totalBits key : Nat} (hmax : totalBits ≤ mmbMaxBits) (hk : key < totalBits)
include hmax hk

theorem mmbitKeys_mmbitSet : mmbitKeys totalBits (mmbitSet bits totalBits key).1 =
    insert key (mmbitKeys totalBits bits) := by
  unfold mmbitSet mmbitIsFlatModel
  split
  · rename_i hflat
    have hflat : totalBits ≤ mmbFlatMaxBits := by simpa using hflat
    ext k
    simp only [mmbitKeys, Set.mem_ofPred_eq, Set.mem_insert_iff, mmbitMember_flat_iff hflat,
      mmbitSetFlat_bits, Bool.or_eq_true, decide_eq_true_eq]
    constructor
    · rintro ⟨hkt, rfl | hb⟩
      · exact .inl rfl
      · exact .inr ⟨hkt, hb⟩
    · rintro (rfl | ⟨hkt, hb⟩)
      · exact ⟨hk, .inl rfl⟩
      · exact ⟨hkt, .inr hb⟩
  · rename_i htree
    exact mmbitKeys_mmbitSetBig (by simpa using htree) hmax hk

theorem mmbitSet_ret : (mmbitSet bits totalBits key).2 = decide (MmbitMember totalBits bits key) := by
  unfold mmbitSet mmbitIsFlatModel
  split
  · rename_i hflat
    have hflat : totalBits ≤ mmbFlatMaxBits := by simpa using hflat
    rw [mmbitSetFlat_ret]
    simp [mmbitMember_flat_iff hflat, hk]
  · rename_i htree
    exact mmbitSetBig_ret (by simpa using htree) hmax hk

theorem mmbitValid_mmbitSet (hv : MmbitValid totalBits bits) :
    MmbitValid totalBits (mmbitSet bits totalBits key).1 := by
  unfold mmbitSet mmbitIsFlatModel
  split
  · rename_i hflat
    have hflat : totalBits ≤ mmbFlatMaxBits := by simpa using hflat
    rw [mmbitValid_flat_iff hflat] at hv ⊢
    intro b h1 h2
    rw [mmbitSetFlat_bits]
    simp only [hv b h1 h2, Bool.or_false, decide_eq_false_iff_not]
    omega
  · rename_i htree
    exact mmbitValid_mmbitSetBig (by simpa using htree) hmax hk hv

theorem mmbitKeys_mmbitUnset : mmbitKeys totalBits (mmbitUnset bits totalBits key) =
    mmbitKeys totalBits bits \ {key} := by
  unfold mmbitUnset mmbitIsFlatModel
  split
  · rename_i hflat
    have hflat : totalBits ≤ mmbFlatMaxBits := by simpa using hflat
    ext k
    simp only [mmbitKeys, Set.mem_ofPred_eq, Set.mem_sdiff, Set.mem_singleton_iff,
      mmbitMember_flat_iff hflat, mmbitUnsetFlat_bits, Bool.and_eq_true, decide_eq_true_eq]
    constructor
    · rintro ⟨hkt, hne, hb⟩
      exact ⟨⟨hkt, hb⟩, hne⟩
    · rintro ⟨⟨hkt, hb⟩, hne⟩
      exact ⟨hkt, hne, hb⟩
  · rename_i htree
    exact mmbitKeys_mmbitUnsetBig (by simpa using htree) hmax hk

theorem mmbitValid_mmbitUnset (hv : MmbitValid totalBits bits) :
    MmbitValid totalBits (mmbitUnset bits totalBits key) := by
  unfold mmbitUnset mmbitIsFlatModel
  split
  · rename_i hflat
    have hflat : totalBits ≤ mmbFlatMaxBits := by simpa using hflat
    rw [mmbitValid_flat_iff hflat] at hv ⊢
    intro b h1 h2
    rw [mmbitUnsetFlat_bits]
    simp only [hv b h1 h2, Bool.and_false]
  · rename_i htree
    exact mmbitValid_mmbitUnsetBig (by simpa using htree) hmax hk hv

end SetUnset

/-! ## `mmbit_unset_range_flat` and `mmbit_init_range_flat` -/

/-- The full-sized-block loop of `mmbit_unset_range_flat` (`i` is the key of
the block's first bit). -/
def mmbitUnsetRangeFlatBlocks (bits : Mem) (begin endKey e i : Nat) : Mem :=
  if i < e then
    let blockPtr := i / 8
    let block := mmbLoad bits blockPtr
    let mask := getFlatMasks i begin endKey
    mmbitUnsetRangeFlatBlocks (mmbStore bits blockPtr (block &&& compl 64 mask)) begin endKey e
      (i + mmbKeyBits)
  else bits
termination_by e - i
decreasing_by unfold mmbKeyBits; omega

/-- `mmbit_unset_range_flat`. -/
def mmbitUnsetRangeFlat (bits : Mem) (totalBits begin endKey : Nat) : Mem :=
  let lastBlock := rounddownN totalBits mmbKeyBits
  let bits := mmbitUnsetRangeFlatBlocks bits begin endKey (min endKey lastBlock)
    (rounddownN begin mmbKeyBits)
  -- the final block, which is less than full-sized
  if endKey > lastBlock then
    let blockPtr := lastBlock / 8
    let numBits := totalBits - lastBlock
    let block := mmbitGetFlatBlock bits blockPtr numBits
    let mask := getFlatMasks lastBlock begin endKey
    mmbStorePartial bits blockPtr (block &&& compl 64 mask) numBits
  else bits

/-- The full-sized-block loop of `mmbit_init_range_flat`. -/
def mmbitInitRangeFlatBlocks (bits : Mem) (begin endKey lastBlock i : Nat) : Mem :=
  if i < lastBlock then
    mmbitInitRangeFlatBlocks (mmbStore bits (i / 8) (getFlatMasks i begin endKey)) begin endKey
      lastBlock (i + mmbKeyBits)
  else bits
termination_by lastBlock - i
decreasing_by unfold mmbKeyBits; omega

/-- `mmbit_init_range_flat`. -/
def mmbitInitRangeFlat (bits : Mem) (totalBits begin endKey : Nat) : Mem :=
  let lastBlock := rounddownN totalBits mmbKeyBits
  let bits := mmbitInitRangeFlatBlocks bits begin endKey lastBlock 0
  -- the final block, which is less than full-sized
  if totalBits % mmbKeyBits ≠ 0 then
    let numBits := totalBits - lastBlock
    mmbStorePartial bits (lastBlock / 8) (getFlatMasks lastBlock begin endKey) numBits
  else bits

section FlatRange

/-- A masked block store clears the keys of the range inside the block. -/
theorem store_and_compl_getFlatMasks (bits : Mem) {i w begin endKey : Nat} (hi : i % 8 = 0)
    (hw : w ≤ 64) (b : Nat) :
    bits.store (8 * (i / 8)) w (bits.load (8 * (i / 8)) w &&& compl 64 (getFlatMasks i begin endKey)) b =
      (bits b && !decide (i ≤ b ∧ b < i + w ∧ begin ≤ b ∧ b < endKey)) := by
  have hmask : getFlatMasks i begin endKey < 2 ^ 64 :=
    Nat.lt_pow_two_of_testBit _ fun j hj => by
      rw [testBit_getFlatMasks]
      exact decide_eq_false (by omega)
  rw [show 8 * (i / 8) = i by omega, Mem.store_load_and]
  by_cases hin : i ≤ b ∧ b < i + w
  · rw [if_pos hin, testBit_compl hmask, testBit_getFlatMasks, show i + (b - i) = b by omega]
    by_cases h : begin ≤ b ∧ b < endKey
    · simp [h, hin, show b - i < 64 by omega]
    · have h' : ¬ (b - i < 64 ∧ begin ≤ b ∧ b < endKey) := fun h' => h h'.2
      have h'' : ¬ (i ≤ b ∧ b < i + w ∧ begin ≤ b ∧ b < endKey) := fun h'' => h h''.2.2
      rw [decide_eq_false h', decide_eq_false h'']
      simp [show b - i < 64 by omega]
  · have h'' : ¬ (i ≤ b ∧ b < i + w ∧ begin ≤ b ∧ b < endKey) := fun h'' => hin ⟨h''.1, h''.2.1⟩
    rw [if_neg hin]
    simp [h'']

theorem mmbitUnsetRangeFlatBlocks_eq (bits : Mem) (begin endKey e i : Nat) (hi : i % 64 = 0) :
    mmbitUnsetRangeFlatBlocks bits begin endKey e i =
      fun b => bits b && !decide (i ≤ b ∧ b < roundupN e 64 ∧ begin ≤ b ∧ b < endKey) := by
  fun_induction mmbitUnsetRangeFlatBlocks bits begin endKey e i with
  | case1 bits i hlt blockPtr block mask ih =>
      rw [ih (by unfold mmbKeyBits; omega)]
      funext b
      unfold mmbStore
      rw [show block = bits.load (8 * (i / 8)) 64 from rfl, show blockPtr = i / 8 from rfl,
        show mask = getFlatMasks i begin endKey from rfl,
        store_and_compl_getFlatMasks bits (by omega) le_rfl]
      unfold mmbKeyBits roundupN
      -- the block covers `[i, i + 64)`, the rest of the loop `[i + 64, roundup(e))`
      by_cases hA : i ≤ b ∧ b < i + 64 ∧ begin ≤ b ∧ b < endKey <;>
        by_cases hB : i + 64 ≤ b ∧ b < (e + (64 - 1)) / 64 * 64 ∧ begin ≤ b ∧ b < endKey <;>
        by_cases hC : i ≤ b ∧ b < (e + (64 - 1)) / 64 * 64 ∧ begin ≤ b ∧ b < endKey <;>
        simp [hA, hB, hC] <;> omega
  | case2 bits i hge =>
      funext b
      unfold roundupN
      have : ¬ (i ≤ b ∧ b < (e + (64 - 1)) / 64 * 64 ∧ begin ≤ b ∧ b < endKey) := by omega
      simp [this]

/-- **`mmbit_unset_range_flat`** switches off the keys of `[begin, end)`. -/
theorem mmbitUnsetRangeFlat_eq (bits : Mem) {totalBits begin endKey : Nat} (hend : endKey ≤ totalBits) :
    mmbitUnsetRangeFlat bits totalBits begin endKey =
      fun b => bits b && !decide (begin ≤ b ∧ b < endKey) := by
  unfold mmbitUnsetRangeFlat rounddownN
  dsimp only
  rw [mmbitUnsetRangeFlatBlocks_eq bits begin endKey _ _ (by unfold mmbKeyBits; omega)]
  unfold mmbKeyBits roundupN
  split
  · -- the runt block covers the keys from `last_block` to `total_bits`
    rename_i hrunt
    funext b
    unfold mmbStorePartial mmbitGetFlatBlock
    rw [store_and_compl_getFlatMasks _ (by omega) (by unfold roundupN; omega)]
    unfold roundupN
    by_cases h : begin ≤ b ∧ b < endKey
    · have : b < totalBits / 64 * 64 ∨ totalBits / 64 * 64 ≤ b := by omega
      rcases this with hb | hb
      · simp [h]
        omega
      · simp [h]
        omega
    · simp [h]
  · rename_i hnorunt
    funext b
    by_cases h : begin ≤ b ∧ b < endKey
    · simp [h]
      omega
    · simp [h]

theorem mmbitInitRangeFlatBlocks_eq (bits : Mem) (begin endKey lastBlock i : Nat) (hi : i % 64 = 0) :
    mmbitInitRangeFlatBlocks bits begin endKey lastBlock i =
      fun b => if i ≤ b ∧ b < roundupN lastBlock 64 then decide (begin ≤ b ∧ b < endKey) else bits b := by
  fun_induction mmbitInitRangeFlatBlocks bits begin endKey lastBlock i with
  | case1 bits i hlt ih =>
      rw [ih (by unfold mmbKeyBits; omega)]
      funext b
      unfold mmbStore roundupN mmbKeyBits
      by_cases h1 : i ≤ b ∧ b < i + 64
      · rw [if_neg (by omega), Mem.store_apply_of_mem (by omega) (by omega), testBit_getFlatMasks,
          if_pos (by omega)]
        exact decide_eq_decide.mpr (by omega)
      · rw [Mem.store_apply_of_not_mem (by omega)]
        by_cases h2 : i + 64 ≤ b ∧ b < (lastBlock + (64 - 1)) / 64 * 64
        · rw [if_pos h2, if_pos (by omega)]
        · rw [if_neg h2, if_neg (by omega)]
  | case2 bits i hge =>
      funext b
      unfold roundupN
      rw [if_neg (by omega)]

/-- **`mmbit_init_range_flat`** writes every bit of the buffer: on in
`[begin, end)`, off elsewhere. -/
theorem mmbitInitRangeFlat_apply (bits : Mem) {totalBits begin endKey : Nat} (b : Nat) :
    mmbitInitRangeFlat bits totalBits begin endKey b =
      if b < 8 * mmbitFlatSize totalBits then decide (begin ≤ b ∧ b < endKey) else bits b := by
  unfold mmbitInitRangeFlat rounddownN
  dsimp only
  rw [mmbitInitRangeFlatBlocks_eq bits begin endKey _ 0 (by omega)]
  unfold mmbKeyBits mmbitFlatSize roundupN
  split
  · -- the runt block
    rename_i hrunt
    unfold mmbStorePartial roundupN
    by_cases h1 : totalBits / 64 * 64 ≤ b ∧ b < totalBits / 64 * 64 +
        8 * ((totalBits - totalBits / 64 * 64 + (8 - 1)) / 8 * 8 / 8)
    · rw [Mem.store_apply_of_mem (by omega) (by omega), testBit_getFlatMasks, if_pos (by omega)]
      exact decide_eq_decide.mpr (by omega)
    · rw [Mem.store_apply_of_not_mem (by omega)]
      by_cases h2 : b < totalBits / 64 * 64
      · rw [if_pos (by omega), if_pos (by omega)]
      · rw [if_neg (by omega), if_neg (by omega)]
  · rename_i hnorunt
    beta_reduce
    by_cases h2 : b < totalBits / 64 * 64
    · rw [if_pos (by omega), if_pos (by omega)]
    · rw [if_neg (by omega), if_neg (by omega)]

end FlatRange

/-! ## `mmbit_unset_range_big` -/

/-- The loop of `mmbit_unset_range_big`: the bounded iterator finds the next
key from `i` on, which is switched off; `fuel` bounds the passes of the
source's `for (;;)`. -/
def mmbitUnsetRangeBigLoop (totalBits endKey : Nat) : Nat → Mem → Nat → Mem
  | 0, bits, _ => bits
  | fuel + 1, bits, i =>
      let i := mmbitIterateBounded bits totalBits i endKey
      if i = mmbInvalid then bits
      else
        let bits := mmbitUnsetBig bits totalBits i
        if i + 1 = endKey then bits
        else mmbitUnsetRangeBigLoop totalBits endKey fuel bits (i + 1)

/-- `mmbit_unset_range_big`: every pass but the last switches off a key of
the range, so `end - begin + 1` passes are enough. -/
def mmbitUnsetRangeBig (bits : Mem) (totalBits begin endKey : Nat) : Mem :=
  mmbitUnsetRangeBigLoop totalBits endKey (endKey - begin + 1) bits begin

/-- Removing the least element `j` of `S` in `[i, e)`, then `[j + 1, e)`,
removes `[i, e)`. -/
theorem diff_first_diff_Ico {S : Set Nat} {i j e : Nat} (hij : i ≤ j) (hje : j < e)
    (hmin : ∀ k, i ≤ k → k < j → k ∉ S) : (S \ {j}) \ Set.Ico (j + 1) e = S \ Set.Ico i e := by
  ext k
  simp only [Set.mem_sdiff, Set.mem_singleton_iff, Set.mem_Ico]
  constructor
  · rintro ⟨⟨hk, hkj⟩, hout⟩
    refine ⟨hk, fun ⟨h1, h2⟩ => ?_⟩
    rcases Nat.lt_trichotomy k j with hlt | rfl | hgt
    · exact hmin k h1 hlt hk
    · exact hkj rfl
    · exact hout ⟨hgt, h2⟩
  · rintro ⟨hk, hout⟩
    exact ⟨⟨hk, fun hkj => hout ⟨by omega, by omega⟩⟩, fun ⟨h1, h2⟩ => hout ⟨by omega, h2⟩⟩

section UnsetRangeBig

variable {totalBits endKey : Nat} (htree : mmbFlatMaxBits < totalBits) (hmax : totalBits ≤ mmbMaxBits)
  (hend : endKey ≤ totalBits)
include htree hmax hend

/-- The run of the loop of `mmbit_unset_range_big`: with more fuel than keys
left in the range, it removes the keys of `[i, end)` and keeps the invariant. -/
theorem mmbitUnsetRangeBigLoop_spec (fuel : Nat) :
    ∀ bits i, MmbitValid totalBits bits → i ≤ endKey → endKey - i < fuel →
      mmbitKeys totalBits (mmbitUnsetRangeBigLoop totalBits endKey fuel bits i) =
          mmbitKeys totalBits bits \ Set.Ico i endKey ∧
        MmbitValid totalBits (mmbitUnsetRangeBigLoop totalBits endKey fuel bits i) := by
  induction fuel with
  | zero =>
      intro bits i _ _ hμ
      exact absurd hμ (Nat.not_lt_zero _)
  | succ fuel ih =>
      intro bits i hv hi hμ
      simp only [mmbitUnsetRangeBigLoop]
      rw [mmbitIterateBounded_eq hv hmax hi hend]
      cases hfirst : firstIn (fun k => decide (MmbitMember totalBits bits k)) i endKey with
      | none =>
          -- no key left in the range
          rw [Option.getD_none, if_pos rfl]
          refine ⟨?_, hv⟩
          ext k
          simp only [Set.mem_sdiff, Set.mem_Ico]
          refine ⟨fun hk => ⟨hk, fun ⟨h1, h2⟩ => ?_⟩, And.left⟩
          have := firstIn_eq_none_iff.1 hfirst k h1 h2
          exact absurd (decide_eq_true (show MmbitMember totalBits bits k from hk)) (by simp [this])
      | some j =>
          obtain ⟨hj1, hj2, -, hmin⟩ := firstIn_eq_some_iff.1 hfirst
          have hjt : j < totalBits := by omega
          have hjne : j ≠ mmbInvalid := by
            unfold mmbMaxBits at hmax
            unfold mmbInvalid
            omega
          have hmin' : ∀ k, i ≤ k → k < j → k ∉ mmbitKeys totalBits bits := fun k h1 h2 hk => by
            have := hmin k h1 h2
            exact absurd (decide_eq_true (show MmbitMember totalBits bits k from hk)) (by simp [this])
          have hkeys : mmbitKeys totalBits (mmbitUnsetBig bits totalBits j) =
              mmbitKeys totalBits bits \ {j} := mmbitKeys_mmbitUnsetBig htree hmax hjt
          have hv1 := mmbitValid_mmbitUnsetBig htree hmax hjt hv
          rw [Option.getD_some, if_neg hjne]
          split
          · -- `j` was the last key of the range
            rename_i hlast
            refine ⟨?_, hv1⟩
            rw [hkeys, ← diff_first_diff_Ico hj1 hj2 hmin', show j + 1 = endKey from hlast,
              Set.Ico_self, Set.sdiff_empty]
          · obtain ⟨h1, h2⟩ := ih _ (j + 1) hv1 (by omega) (by omega)
            refine ⟨?_, h2⟩
            rw [h1, hkeys, diff_first_diff_Ico hj1 hj2 hmin']

/-- **`mmbit_unset_range_big`** removes the keys of `[begin, end)`. -/
theorem mmbitUnsetRangeBig_spec {bits : Mem} {begin : Nat} (hv : MmbitValid totalBits bits)
    (hbe : begin ≤ endKey) :
    mmbitKeys totalBits (mmbitUnsetRangeBig bits totalBits begin endKey) =
        mmbitKeys totalBits bits \ Set.Ico begin endKey ∧
      MmbitValid totalBits (mmbitUnsetRangeBig bits totalBits begin endKey) :=
  mmbitUnsetRangeBigLoop_spec htree hmax hend _ bits begin hv hbe (by omega)

end UnsetRangeBig

/-! ## `mmbit_init_range_big` -/

/-- The loop of one level of `mmbit_init_range_big` that fills whole blocks
with ones, from node `k1` (a block boundary) to the block boundary below `k2`
(`k2 & ~MMB_KEY_MASK`); `block` is the byte offset of the block of `k1`. -/
def mmbitInitRangeBigOnes (bits : Mem) (block k1 k2 : Nat) : Mem × Nat × Nat :=
  if k1 < rounddownN k2 mmbKeyBits then
    mmbitInitRangeBigOnes (mmbStore bits block mmbAllOnes) (block + 8) (k1 + mmbKeyBits) k2
  else (bits, block, k1)
termination_by rounddownN k2 mmbKeyBits - k1
decreasing_by all_goals (unfold rounddownN mmbKeyBits at *; omega)

/-- The whole blocks, then the final block, of one level of `mmbit_init_range_big`. -/
def mmbitInitRangeBigTail (bits : Mem) (block k1 k2 : Nat) : Mem :=
  let (bits, block, k1) := mmbitInitRangeBigOnes bits block k1 k2
  -- the final block: `k2` is not a block boundary here
  if k1 < k2 then mmbStore bits block (mmbMaskZeroToNocheck (k2 % mmbKeyBits)) else bits

/-- One level of `mmbit_init_range_big`: the nodes `[k1, k2)` of the level
whose first block is at byte offset `root` are switched on, the other nodes of
their blocks off.  `MMB_ALL_ONES << (k1 % MMB_KEY_BITS)` is a 64-bit value,
of which the store keeps the 64 low bits. -/
def mmbitInitRangeBigLevel (bits : Mem) (root k1 k2 : Nat) : Mem :=
  let block := root + (k1 / mmbKeyBits) * 8
  if k1 % mmbKeyBits ≠ 0 then
    -- the partial block at the beginning
    let idx := k1 / mmbKeyBits
    let blockEnd := (idx + 1) * mmbKeyBits
    let mask := mmbAllOnes <<< (k1 % mmbKeyBits)
    if k2 < blockEnd then mmbStore bits block (mask &&& mmbMaskZeroToNocheck (k2 % mmbKeyBits))
    else mmbitInitRangeBigTail (mmbStore bits block mask) (block + 8) blockEnd k2
  else mmbitInitRangeBigTail bits block k1 k2

/-- The level loop of `mmbit_init_range_big`, on `level` with key shift `ks`. -/
def mmbitInitRangeBigLoop (bits : Mem) (begin endKey ks level : Nat) : Mem :=
  let k1 := begin >>> ks
  let k2 := endKey >>> ks
  -- summary blocks need to account for the runt block on the end
  let k2 := if k2 <<< ks ≠ endKey then k2 + 1 else k2
  let bits := mmbitInitRangeBigLevel bits (mmbitGetLevelRoot level) k1 k2
  if ks = 0 then bits
  else mmbitInitRangeBigLoop bits begin endKey (ks - mmbKeyShift) (level + 1)
termination_by ks
decreasing_by unfold mmbKeyShift; omega

/-- `mmbit_init_range_big`. -/
def mmbitInitRangeBig (bits : Mem) (totalBits begin endKey : Nat) : Mem :=
  mmbitInitRangeBigLoop bits begin endKey (mmbitKeyshift totalBits) 0

/-- The first node of the range on the level with key shift `ks` (`k1`). -/
def initRangeLo (begin ks : Nat) : Nat := begin >>> ks

/-- The end of the nodes of the range on the level with key shift `ks` (`k2`,
one more when the range ends inside a node). -/
def initRangeHi (endKey ks : Nat) : Nat :=
  if (endKey >>> ks) <<< ks ≠ endKey then (endKey >>> ks) + 1 else endKey >>> ks

theorem mmbitInitRangeBigLoop_eq (bits : Mem) (begin endKey ks level : Nat) :
    mmbitInitRangeBigLoop bits begin endKey ks level =
      if ks = 0 then
        mmbitInitRangeBigLevel bits (mmbitGetLevelRoot level) (initRangeLo begin ks) (initRangeHi endKey ks)
      else
        mmbitInitRangeBigLoop
          (mmbitInitRangeBigLevel bits (mmbitGetLevelRoot level) (initRangeLo begin ks)
            (initRangeHi endKey ks))
          begin endKey (ks - mmbKeyShift) (level + 1) := by
  rw [mmbitInitRangeBigLoop]
  rfl

/-- `k2` is the number of nodes of the level meeting `[0, end)`. -/
theorem initRangeHi_eq (endKey ks : Nat) : initRangeHi endKey ks = (endKey + 2 ^ ks - 1) / 2 ^ ks := by
  have hP := Nat.two_pow_pos ks
  have hdm := Nat.div_add_mod endKey (2 ^ ks)
  have hmod := Nat.mod_lt endKey hP
  unfold initRangeHi
  rw [Nat.shiftRight_eq_div_pow, Nat.shiftLeft_eq]
  generalize endKey / 2 ^ ks = q at *
  generalize endKey % 2 ^ ks = r at *
  generalize 2 ^ ks = P at *
  rw [Nat.mul_comm] at hdm
  split
  · -- the range ends inside node `q`
    refine (Nat.div_eq_of_lt_le ?_ ?_).symm
    · rw [Nat.add_mul, Nat.one_mul]
      omega
    · rw [Nat.add_mul, Nat.add_mul, Nat.one_mul]
      omega
  · refine (Nat.div_eq_of_lt_le ?_ ?_).symm
    · omega
    · rw [Nat.add_mul, Nat.one_mul]
      omega

/-- A level's `k2` is the number of blocks of the level below holding nodes of the range. -/
theorem ceilDiv_ceilDiv (e P : Nat) (hP : 0 < P) :
    ((e + P - 1) / P + 64 - 1) / 64 = (e + 64 * P - 1) / (64 * P) := by
  apply eq_of_forall_lt_iff
  intro c
  rw [lt_ceilDiv_iff (by decide), lt_ceilDiv_iff hP, lt_ceilDiv_iff (by omega), Nat.mul_assoc]

theorem testBit_allOnes_shiftLeft (s : Nat) {j : Nat} (hj : j < 64) :
    (mmbAllOnes <<< s).testBit j = decide (s ≤ j) := by
  unfold mmbAllOnes
  rw [Nat.testBit_shiftLeft, testBit_lowMask]
  by_cases h : s ≤ j
  · simp [h]
    omega
  · simp [h]

section InitRangeBig

variable {level : Nat} (hlevel : level ≤ 5) (bits : Mem)
include hlevel

/-- The loop of whole blocks switches on the nodes `[k1, k2 & ~63)` of its level. -/
theorem mmbitInitRangeBigOnes_spec (block k1 k2 : Nat)
    (hblock : block = mmbitGetLevelRoot level + k1 / 64 * 8) (hk1 : k1 % 64 = 0)
    (hk2 : k2 / 64 ≤ 64 ^ level) :
    ∃ mem, mmbitInitRangeBigOnes bits block k1 k2 =
        (mem, mmbitGetLevelRoot level + max k1 (k2 / 64 * 64) / 64 * 8, max k1 (k2 / 64 * 64)) ∧
      ∀ l n, l ≤ 5 → n < 64 ^ (l + 1) →
        levelBit mem l n = if l = level ∧ k1 ≤ n ∧ n < k2 / 64 * 64 then true else levelBit bits l n := by
  fun_induction mmbitInitRangeBigOnes bits block k1 k2 with
  | case1 bits block k1 hlt ih =>
      subst hblock
      unfold rounddownN at hlt
      unfold mmbKeyBits at hlt ih ⊢
      obtain ⟨mem, heq, hmem⟩ := ih (by omega) (by omega)
      refine ⟨mem, by rw [heq, show max (k1 + 64) (k2 / 64 * 64) = max k1 (k2 / 64 * 64) by omega],
        fun l n hl hn => ?_⟩
      rw [hmem l n hl hn, levelBit_mmbStore hl hlevel hn (by omega)]
      by_cases h1 : l = level ∧ k1 + 64 ≤ n ∧ n < k2 / 64 * 64
      · rw [if_pos h1, if_pos (by omega)]
      · rw [if_neg h1]
        by_cases h2 : l = level ∧ n / 64 = k1 / 64
        · -- the block just filled
          rw [if_pos h2, if_pos (by omega)]
          unfold mmbAllOnes
          rw [testBit_lowMask]
          exact decide_eq_true (Nat.mod_lt _ (by decide))
        · rw [if_neg h2, if_neg (by omega)]
  | case2 bits block k1 hge =>
      subst hblock
      unfold rounddownN mmbKeyBits at hge
      refine ⟨bits, by rw [max_eq_left (by omega)], fun l n _ _ => ?_⟩
      rw [if_neg (by omega)]

/-- From a block boundary `k1`, the tail of a level switches on `[k1, k2)` and
off the rest of the last block. -/
theorem levelBit_mmbitInitRangeBigTail {block k1 k2 : Nat}
    (hblock : block = mmbitGetLevelRoot level + k1 / 64 * 8) (hk1 : k1 % 64 = 0) (hk12 : k1 ≤ k2)
    (hk2 : (k2 + 63) / 64 ≤ 64 ^ level) {l n : Nat} (hl : l ≤ 5) (hn : n < 64 ^ (l + 1)) :
    levelBit (mmbitInitRangeBigTail bits block k1 k2) l n =
      if l = level ∧ k1 ≤ n ∧ n < (k2 + 63) / 64 * 64 then decide (n < k2) else levelBit bits l n := by
  obtain ⟨mem, heq, hmem⟩ := mmbitInitRangeBigOnes_spec hlevel bits block k1 k2 hblock hk1 (by omega)
  unfold mmbitInitRangeBigTail
  rw [heq]
  dsimp only
  split
  · -- a runt block on the end
    rename_i hrunt
    rw [levelBit_mmbStore hl hlevel hn (by omega), hmem l n hl hn, mmbMaskZeroToNocheck_eq,
      testBit_lowMask]
    unfold mmbKeyBits
    by_cases h1 : l = level ∧ n / 64 = max k1 (k2 / 64 * 64) / 64
    · rw [if_pos h1, if_pos (by omega)]
      exact decide_eq_decide.mpr (by omega)
    · rw [if_neg h1]
      by_cases h2 : l = level ∧ k1 ≤ n ∧ n < k2 / 64 * 64
      · rw [if_pos h2, if_pos (by omega)]
        exact (decide_eq_true (by omega)).symm
      · rw [if_neg h2, if_neg (by omega)]
  · rename_i hnorunt
    rw [hmem l n hl hn]
    by_cases h2 : l = level ∧ k1 ≤ n ∧ n < k2 / 64 * 64
    · rw [if_pos h2, if_pos (by omega)]
      exact (decide_eq_true (by omega)).symm
    · rw [if_neg h2, if_neg (by omega)]

/-- **One level of `mmbit_init_range_big`**: the blocks meeting `[k1, k2)`
are rewritten, with the nodes of `[k1, k2)` on and the others off. -/
theorem levelBit_mmbitInitRangeBigLevel {k1 k2 : Nat} (hk12 : k1 < k2)
    (hk2 : (k2 + 63) / 64 ≤ 64 ^ level) {l n : Nat} (hl : l ≤ 5) (hn : n < 64 ^ (l + 1)) :
    levelBit (mmbitInitRangeBigLevel bits (mmbitGetLevelRoot level) k1 k2) l n =
      if l = level ∧ k1 / 64 ≤ n / 64 ∧ n / 64 < (k2 + 63) / 64 then decide (k1 ≤ n ∧ n < k2)
      else levelBit bits l n := by
  unfold mmbitInitRangeBigLevel mmbKeyBits
  dsimp only
  split
  · -- `k1` inside a block: the partial block first
    rename_i hpart
    split
    · -- the whole range lies in that block
      rename_i hone
      rw [levelBit_mmbStore hl hlevel hn (by omega), Nat.testBit_and,
        testBit_allOnes_shiftLeft _ (Nat.mod_lt _ (by decide)), mmbMaskZeroToNocheck_eq,
        testBit_lowMask]
      by_cases h1 : l = level ∧ n / 64 = k1 / 64
      · rw [if_pos h1, if_pos (by omega), ← Bool.decide_and]
        exact decide_eq_decide.mpr (by omega)
      · rw [if_neg h1, if_neg (by omega)]
    · rename_i hmore
      rw [levelBit_mmbitInitRangeBigTail hlevel _ (by omega) (by omega) (by omega) hk2 hl hn,
        levelBit_mmbStore hl hlevel hn (by omega), testBit_allOnes_shiftLeft _ (Nat.mod_lt _ (by decide))]
      by_cases h1 : l = level ∧ (k1 / 64 + 1) * 64 ≤ n ∧ n < (k2 + 63) / 64 * 64
      · rw [if_pos h1, if_pos (by omega)]
        exact decide_eq_decide.mpr (by omega)
      · rw [if_neg h1]
        by_cases h2 : l = level ∧ n / 64 = k1 / 64
        · rw [if_pos h2, if_pos (by omega)]
          exact decide_eq_decide.mpr (by omega)
        · rw [if_neg h2, if_neg (by omega)]
  · -- `k1` starts a block
    rename_i hstart
    rw [levelBit_mmbitInitRangeBigTail hlevel bits rfl (by omega) (by omega) hk2 hl hn]
    by_cases h1 : l = level ∧ k1 ≤ n ∧ n < (k2 + 63) / 64 * 64
    · rw [if_pos h1, if_pos (by omega)]
      exact decide_eq_decide.mpr (by omega)
    · rw [if_neg h1, if_neg (by omega)]

end InitRangeBig

section InitRangeLevels

variable {maxLevel begin endKey : Nat} (hM : maxLevel ≤ 5) (hbe : begin < endKey)
  (hcap : endKey ≤ 64 ^ (maxLevel + 1))

include hbe in
/-- The range meets each level: `k1 < k2`. -/
theorem initRangeLo_lt_hi (ks : Nat) : initRangeLo begin ks < initRangeHi endKey ks := by
  rw [initRangeHi_eq, lt_ceilDiv_iff (Nat.two_pow_pos ks), initRangeLo, Nat.shiftRight_eq_div_pow]
  exact lt_of_le_of_lt (Nat.div_mul_le_self begin _) hbe

include hcap in
/-- The nodes of the range on level `l` are nodes of that level. -/
theorem initRangeHi_le {l : Nat} (hl : l ≤ maxLevel) :
    initRangeHi endKey (mmbitGetKs maxLevel l) ≤ 64 ^ (l + 1) := by
  rw [initRangeHi_eq]
  by_contra h
  have := (lt_ceilDiv_iff (Nat.two_pow_pos (mmbitGetKs maxLevel l))).mp (Nat.lt_of_not_le h)
  rw [pow_level_mul_ks hl] at this
  omega

theorem initRangeLo_succ {l : Nat} (hl : l < maxLevel) :
    initRangeLo begin (mmbitGetKs maxLevel l) = initRangeLo begin (mmbitGetKs maxLevel (l + 1)) / 64 := by
  unfold initRangeLo
  rw [mmbitGetKs_succ hl, Nat.shiftRight_add, Nat.shiftRight_eq_div_pow _ 6]

theorem initRangeHi_succ {l : Nat} (hl : l < maxLevel) :
    initRangeHi endKey (mmbitGetKs maxLevel l) =
      (initRangeHi endKey (mmbitGetKs maxLevel (l + 1)) + 64 - 1) / 64 := by
  rw [initRangeHi_eq, initRangeHi_eq, ceilDiv_ceilDiv _ _ (Nat.two_pow_pos _), mmbitGetKs_succ hl,
    Nat.pow_add]
  simp only [Nat.reducePow, Nat.mul_comm]

include hM hbe hcap in
/-- The level loop of `mmbit_init_range_big` from `level` on: each level below
is rewritten as one level says, the levels above are left alone. -/
theorem levelBit_mmbitInitRangeBigLoop (d : Nat) :
    ∀ level (bits : Mem), level + d = maxLevel → ∀ l n, l ≤ 5 → n < 64 ^ (l + 1) →
      levelBit (mmbitInitRangeBigLoop bits begin endKey (mmbitGetKs maxLevel level) level) l n =
        if level ≤ l ∧ l ≤ maxLevel ∧
            initRangeLo begin (mmbitGetKs maxLevel l) / 64 ≤ n / 64 ∧
            n / 64 < (initRangeHi endKey (mmbitGetKs maxLevel l) + 63) / 64
        then decide (initRangeLo begin (mmbitGetKs maxLevel l) ≤ n ∧
          n < initRangeHi endKey (mmbitGetKs maxLevel l))
        else levelBit bits l n := by
  -- induction on the number of levels below `level`
  induction d with
  | zero =>
      intro level bits hl l n hl5 hn
      obtain rfl : level = maxLevel := by omega
      have hcap' := initRangeHi_le hcap (le_refl level)
      rw [mmbitInitRangeBigLoop_eq, if_pos (mmbitGetKs_self level),
        levelBit_mmbitInitRangeBigLevel hM bits (initRangeLo_lt_hi hbe _) (by rw [Nat.pow_succ] at hcap'; omega)
          hl5 hn]
      by_cases hll : l = level
      · subst hll
        simp
      · rw [if_neg (by omega), if_neg (by omega)]
  | succ d ih =>
      intro level bits hl l n hl5 hn
      have hlt : level < maxLevel := by omega
      have hks := mmbitGetKs_succ hlt
      have hcap' := initRangeHi_le hcap (le_of_lt hlt)
      rw [mmbitInitRangeBigLoop_eq, if_neg (by omega),
        show mmbitGetKs maxLevel level - mmbKeyShift = mmbitGetKs maxLevel (level + 1) by
          unfold mmbKeyShift; omega,
        ih (level + 1) _ (by omega) l n hl5 hn,
        levelBit_mmbitInitRangeBigLevel (by omega) bits (initRangeLo_lt_hi hbe _)
          (by rw [Nat.pow_succ] at hcap'; omega) hl5 hn]
      by_cases hll : l = level
      · subst hll
        rw [if_neg (by omega)]
        simp [show l ≤ maxLevel by omega]
      · by_cases hlow : level + 1 ≤ l ∧ l ≤ maxLevel ∧
            initRangeLo begin (mmbitGetKs maxLevel l) / 64 ≤ n / 64 ∧
            n / 64 < (initRangeHi endKey (mmbitGetKs maxLevel l) + 63) / 64
        · rw [if_pos hlow, if_pos (by omega)]
        · rw [if_neg hlow, if_neg (fun h => hll h.1), if_neg (by omega)]

end InitRangeLevels

section InitRangeKeys

variable {bits : Mem} {totalBits begin endKey : Nat} (htree : mmbFlatMaxBits < totalBits)
  (hmax : totalBits ≤ mmbMaxBits) (hbe : begin < endKey) (hend : endKey ≤ totalBits)
include htree hmax hbe hend

/-- **`mmbit_init_range_big`**: the path-set nodes of each level are exactly
the nodes meeting `[begin, end)`, whatever the memory held before. -/
theorem pathSet_mmbitInitRangeBig {l : Nat} (hl : l ≤ mmbitMaxlevel totalBits) :
    ∀ n, n < 64 ^ (l + 1) →
      (PathSet (mmbitInitRangeBig bits totalBits begin endKey) l n ↔
        initRangeLo begin (mmbitGetKs (mmbitMaxlevel totalBits) l) ≤ n ∧
          n < initRangeHi endKey (mmbitGetKs (mmbitMaxlevel totalBits) l)) := by
  obtain ⟨-, hM, hcap⟩ := treeGeometry htree hmax
  obtain ⟨-, hks, -, -⟩ := mmbitMaxlevel_spec (by unfold mmbFlatMaxBits at htree; omega) hmax
  have hks0 : mmbitKeyshift totalBits = mmbitGetKs (mmbitMaxlevel totalBits) 0 := by
    rw [hks]
    unfold mmbitGetKs mmbKeyShift
    omega
  -- every level of the result, as the level loop leaves it
  have hlevel : ∀ l n, l ≤ mmbitMaxlevel totalBits → n < 64 ^ (l + 1) →
      levelBit (mmbitInitRangeBig bits totalBits begin endKey) l n =
        if initRangeLo begin (mmbitGetKs (mmbitMaxlevel totalBits) l) / 64 ≤ n / 64 ∧
            n / 64 < (initRangeHi endKey (mmbitGetKs (mmbitMaxlevel totalBits) l) + 63) / 64
        then decide (initRangeLo begin (mmbitGetKs (mmbitMaxlevel totalBits) l) ≤ n ∧
          n < initRangeHi endKey (mmbitGetKs (mmbitMaxlevel totalBits) l))
        else levelBit bits l n := fun l n hl hn => by
    unfold mmbitInitRangeBig
    rw [hks0, levelBit_mmbitInitRangeBigLoop hM hbe (by omega) (mmbitMaxlevel totalBits) 0 bits
      (Nat.zero_add _) l n (by omega) hn]
    simp only [Nat.zero_le, hl, true_and]
  induction l with
  | zero =>
      intro n hn
      have hlo := initRangeLo_lt_hi hbe (mmbitGetKs (mmbitMaxlevel totalBits) 0)
      have hhi := initRangeHi_le (by omega : endKey ≤ 64 ^ (mmbitMaxlevel totalBits + 1)) (Nat.zero_le _)
      rw [pathSet_zero, hlevel 0 n hl hn, if_pos (by simp at hhi; omega)]
      simp
  | succ l ih =>
      intro n hn
      have hlt : l < mmbitMaxlevel totalBits := by omega
      rw [pathSet_succ, ih (by omega) (n >>> 6) (shiftRight_six_lt hn), hlevel (l + 1) n hl hn,
        initRangeLo_succ hlt, initRangeHi_succ hlt, Nat.shiftRight_eq_div_pow]
      simp only [Nat.reducePow]
      constructor
      · rintro ⟨⟨h1, h2⟩, h3⟩
        rw [if_pos ⟨h1, by omega⟩] at h3
        exact of_decide_eq_true h3
      · rintro ⟨h1, h2⟩
        refine ⟨⟨by omega, by omega⟩, ?_⟩
        rw [if_pos ⟨by omega, by omega⟩]
        exact decide_eq_true ⟨h1, h2⟩

theorem mmbitKeys_mmbitInitRangeBig :
    mmbitKeys totalBits (mmbitInitRangeBig bits totalBits begin endKey) = Set.Ico begin endKey := by
  obtain ⟨-, -, hcap⟩ := treeGeometry htree hmax
  ext k
  simp only [mmbitKeys, Set.mem_ofPred_eq, Set.mem_Ico, mmbitMember_tree_iff htree]
  have hhi := initRangeHi_eq endKey (mmbitGetKs (mmbitMaxlevel totalBits) (mmbitMaxlevel totalBits))
  simp only [mmbitGetKs_self, Nat.pow_zero, Nat.add_sub_cancel, Nat.div_one] at hhi
  constructor
  · rintro ⟨hk, hp⟩
    have := (pathSet_mmbitInitRangeBig htree hmax hbe hend le_rfl k (by omega)).mp hp
    rw [mmbitGetKs_self, hhi] at this
    simpa [initRangeLo] using this
  · rintro ⟨h1, h2⟩
    refine ⟨by omega, (pathSet_mmbitInitRangeBig htree hmax hbe hend le_rfl k (by omega)).mpr ?_⟩
    rw [mmbitGetKs_self, hhi]
    simpa [initRangeLo] using ⟨h1, h2⟩

theorem mmbitValid_mmbitInitRangeBig :
    MmbitValid totalBits (mmbitInitRangeBig bits totalBits begin endKey) := by
  rw [mmbitValid_tree_iff htree]
  intro l n hl hn hp
  have hnode := ((pathSet_mmbitInitRangeBig htree hmax hbe hend hl n hn).mp hp).2
  rw [initRangeHi_eq, lt_ceilDiv_iff (Nat.two_pow_pos _)] at hnode
  rw [Nat.shiftLeft_eq]
  omega

end InitRangeKeys

/-! ## `mmbit_unset_range` and `mmbit_init_range` -/

/-- `mmbit_unset_range`. -/
def mmbitUnsetRange (bits : Mem) (totalBits begin endKey : Nat) : Mem :=
  if mmbitIsFlatModel totalBits then mmbitUnsetRangeFlat bits totalBits begin endKey
  else mmbitUnsetRangeBig bits totalBits begin endKey

/-- `mmbit_init_range`. -/
def mmbitInitRange (bits : Mem) (totalBits begin endKey : Nat) : Mem :=
  if totalBits = 0 then bits
  else if begin = endKey then mmbitClear bits totalBits -- no key to set: just clear
  else if mmbitIsFlatModel totalBits then mmbitInitRangeFlat bits totalBits begin endKey
  else mmbitInitRangeBig bits totalBits begin endKey

section Ranges

variable {bits : Mem} {totalBits begin endKey : Nat} (hmax : totalBits ≤ mmbMaxBits)
  (hbe : begin ≤ endKey) (hend : endKey ≤ totalBits)
include hmax hbe hend

/-- **`mmbit_unset_range`** removes the keys of `[begin, end)` and keeps the invariant. -/
theorem mmbitUnsetRange_spec (hv : MmbitValid totalBits bits) :
    mmbitKeys totalBits (mmbitUnsetRange bits totalBits begin endKey) =
        mmbitKeys totalBits bits \ Set.Ico begin endKey ∧
      MmbitValid totalBits (mmbitUnsetRange bits totalBits begin endKey) := by
  unfold mmbitUnsetRange mmbitIsFlatModel
  split
  · rename_i hflat
    have hflat : totalBits ≤ mmbFlatMaxBits := by simpa using hflat
    rw [mmbitUnsetRangeFlat_eq bits hend]
    refine ⟨?_, ?_⟩
    · ext k
      simp only [mmbitKeys, Set.mem_ofPred_eq, Set.mem_sdiff, Set.mem_Ico, mmbitMember_flat_iff hflat,
        Bool.and_eq_true, Bool.not_eq_true', decide_eq_false_iff_not]
      tauto
    · rw [mmbitValid_flat_iff hflat] at hv ⊢
      intro b h1 h2
      simp [hv b h1 h2]
  · rename_i htree
    exact mmbitUnsetRangeBig_spec (by simpa using htree) hmax hend hv hbe

/-- **`mmbit_init_range`** leaves exactly the keys of `[begin, end)`, from any
memory, and establishes the invariant. -/
theorem mmbitInitRange_spec :
    mmbitKeys totalBits (mmbitInitRange bits totalBits begin endKey) = Set.Ico begin endKey ∧
      MmbitValid totalBits (mmbitInitRange bits totalBits begin endKey) := by
  unfold mmbitInitRange
  split
  · -- no keys at all
    rename_i h0
    subst h0
    refine ⟨?_, ?_⟩
    · ext k
      simp only [mmbitKeys, Set.mem_ofPred_eq, Set.mem_Ico]
      exact ⟨fun hk => absurd (MmbitMember.lt hk) (Nat.not_lt_zero k), fun h => by omega⟩
    · unfold MmbitValid
      rw [if_pos (by unfold mmbFlatMaxBits; omega)]
      intro b _ hb
      simp [mmbitFlatSize, roundupN] at hb
  · split
    · rename_i _ hempty
      subst hempty
      rw [mmbitKeys_mmbitClear hmax, Set.Ico_self]
      exact ⟨rfl, mmbitValid_mmbitClear⟩
    · rename_i _ hne
      unfold mmbitIsFlatModel
      split
      · rename_i hflat
        have hflat : totalBits ≤ mmbFlatMaxBits := by simpa using hflat
        have hsize : totalBits ≤ 8 * mmbitFlatSize totalBits := by
          unfold mmbitFlatSize roundupN
          omega
        refine ⟨?_, ?_⟩
        · ext k
          simp only [mmbitKeys, Set.mem_ofPred_eq, Set.mem_Ico, mmbitMember_flat_iff hflat,
            mmbitInitRangeFlat_apply]
          constructor
          · rintro ⟨hk, hb⟩
            rw [if_pos (by omega)] at hb
            exact of_decide_eq_true hb
          · rintro ⟨h1, h2⟩
            refine ⟨by omega, ?_⟩
            rw [if_pos (by omega)]
            exact decide_eq_true ⟨h1, h2⟩
        · rw [mmbitValid_flat_iff hflat]
          intro b h1 h2
          rw [mmbitInitRangeFlat_apply, if_pos h2]
          exact decide_eq_false (by omega)
      · rename_i htree
        have htree : mmbFlatMaxBits < totalBits := by simpa using htree
        exact ⟨mmbitKeys_mmbitInitRangeBig htree hmax (by omega) hend,
          mmbitValid_mmbitInitRangeBig htree hmax (by omega) hend⟩

end Ranges



end Multibit
end Vectorscan
