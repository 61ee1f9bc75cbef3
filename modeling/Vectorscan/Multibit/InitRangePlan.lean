import Vectorscan.Multibit.Update

/-!
# Multibit: the init-range scatter plan

`mmbBuildInitRangePlan` (`src/util/multibit_build.cpp`) computes at compile
time the stores that `mmbit_init_range` makes at run time, as a scatter plan:
lists of `(offset, value)` units of 64, 32, 16 and 8 bits that `scatter`
(`src/util/scatter_runtime.h`) writes into the stream state.

**Model.**  A plan is `scatter_plan_raw`, its four lists of units;
`add_scatter` appends a unit, with the value converted to the unit's type.
`scatter` runs the lists in the order `u64a`, `u32`, `u16`, `u8`, each from
its first unit; the bytecode layout of a plan (`scatter_full_plan` and the
offsets of its sub-plans) is not modelled.

**Results.**  `scatter_mmbBuildInitRangePlan`: the plan scattered over any
memory writes exactly what `mmbit_init_range` writes.  In the flat model the
runt block, split into units of 32, 16 and 8 bits, covers the bytes that
`mmb_store_partial` covers (`scatter_initRangePlanRunt`); in the tree model
the plan's level loop makes the stores of `mmbit_init_range_big` one for one
(`initRangePlanLevels_sim`).  `mmbBuildInitRangePlan_keys`: hence the
abstract set after the scatter is `[begin, end)`, the set that
`mmbit_init_range` leaves.
-/

namespace Vectorscan
namespace Multibit

open Word

/-- The unit types of a scatter plan. -/
inductive ScatterWidth
  | u64a
  | u32
  | u16
  | u8
  deriving DecidableEq, Repr

/-- The width of a unit in bits. -/
def ScatterWidth.bits : ScatterWidth → Nat
  | .u64a => 64
  | .u32 => 32
  | .u16 => 16
  | .u8 => 8

/-- The place of a unit type in the order in which `scatter` runs them. -/
def ScatterWidth.rank : ScatterWidth → Nat
  | .u64a => 0
  | .u32 => 1
  | .u16 => 2
  | .u8 => 3

/-- `struct scatter_unit_*`: a value stored at a byte offset. -/
structure ScatterUnit where
  offset : Nat
  val : Nat
  deriving DecidableEq, Repr

/-- `struct scatter_plan_raw`. -/
structure ScatterPlanRaw where
  pU64a : List ScatterUnit
  pU32 : List ScatterUnit
  pU16 : List ScatterUnit
  pU8 : List ScatterUnit
  deriving DecidableEq, Repr

/-- A plan without units, as the callers of `mmbBuildInitRangePlan` pass it. -/
def ScatterPlanRaw.empty : ScatterPlanRaw := ⟨[], [], [], []⟩

/-- The units of one type. -/
def ScatterPlanRaw.units (p : ScatterPlanRaw) : ScatterWidth → List ScatterUnit
  | .u64a => p.pU64a
  | .u32 => p.pU32
  | .u16 => p.pU16
  | .u8 => p.pU8

/-- `add_scatter<T>`: a unit at `offset` holding `mask` converted to `T`. -/
def addScatter (out : ScatterPlanRaw) (t : ScatterWidth) (offset mask : Nat) : ScatterPlanRaw :=
  let su : ScatterUnit := ⟨offset, mask % 2 ^ t.bits⟩
  match t with
  | .u64a => { out with pU64a := out.pU64a ++ [su] }
  | .u32 => { out with pU32 := out.pU32 ++ [su] }
  | .u16 => { out with pU16 := out.pU16 ++ [su] }
  | .u8 => { out with pU8 := out.pU8 ++ [su] }

/-- `scatter_u64a` and its siblings: each unit stored at its offset in turn. -/
def scatterUnits (out : Mem) (w : Nat) (plan : List ScatterUnit) : Mem :=
  plan.foldl (fun m item => m.store (8 * item.offset) w item.val) out

/-- `scatter`: the `u64a` units, then the `u32`, the `u16` and the `u8` ones. -/
def scatter (out : Mem) (p : ScatterPlanRaw) : Mem :=
  scatterUnits (scatterUnits (scatterUnits (scatterUnits out 64 p.pU64a) 32 p.pU32) 16 p.pU16) 8 p.pU8

/-! ## `mmbBuildInitRangePlan` -/

/-- `mmbit_get_level_root_offset`: the byte offset of a level's first block. -/
def mmbitGetLevelRootOffset (level : Nat) : Nat := mmbitRootOffsetFromLevel.getD level 0 * 8

/-- The full-sized blocks of the flat case,
`for (; bits > 64; bits -= 64, base += 64, dest += 8)`: the plan, `dest`,
`bits` and `base` after the loop. -/
def initRangePlanFlatBlocks (begin endKey : Nat) (out : ScatterPlanRaw) (dest bits base : Nat) :
    ScatterPlanRaw × Nat × Nat × Nat :=
  if bits > 64 then
    initRangePlanFlatBlocks begin endKey (addScatter out .u64a dest (getFlatMasks base begin endKey)) (dest + 8)
      (bits - 64) (base + 64)
  else (out, dest, bits, base)
termination_by bits
decreasing_by omega

/-- The last chunk of the flat case: the bytes that hold `bits` bits of
`mask`, as units of 8 to 64 bits. -/
def initRangePlanRunt (out : ScatterPlanRaw) (dest bits mask : Nat) : ScatterPlanRaw :=
  if bits ≤ 8 then addScatter out .u8 dest mask
  else if bits ≤ 16 then addScatter out .u16 dest mask
  else if bits ≤ 24 then addScatter (addScatter out .u16 dest mask) .u8 (dest + 2) (mask >>> 16)
  else if bits ≤ 32 then addScatter out .u32 dest mask
  else if bits ≤ 40 then addScatter (addScatter out .u32 dest mask) .u8 (dest + 4) (mask >>> 32)
  else if bits ≤ 48 then addScatter (addScatter out .u32 dest mask) .u16 (dest + 4) (mask >>> 32)
  else if bits ≤ 56 then
    addScatter (addScatter (addScatter out .u32 dest mask) .u16 (dest + 4) (mask >>> 32)) .u8 (dest + 6)
      (mask >>> 48)
  else addScatter out .u64a dest mask

/-- The loop of one level of the tree case that fills whole blocks with ones,
up to the block boundary below `k2`: the plan, the block offset and `k1`
after it. -/
def initRangePlanOnes (out : ScatterPlanRaw) (blockOffset k1 k2 : Nat) : ScatterPlanRaw × Nat × Nat :=
  if k1 < rounddownN k2 mmbKeyBits then
    initRangePlanOnes (addScatter out .u64a blockOffset mmbAllOnes) (blockOffset + 8) (k1 + mmbKeyBits) k2
  else (out, blockOffset, k1)
termination_by rounddownN k2 mmbKeyBits - k1
decreasing_by all_goals (unfold rounddownN mmbKeyBits at *; omega)

/-- The whole blocks, then the final block, of one level of the tree case. -/
def initRangePlanTail (out : ScatterPlanRaw) (blockOffset k1 k2 : Nat) : ScatterPlanRaw :=
  let ones := initRangePlanOnes out blockOffset k1 k2
  if ones.2.2 < k2 then addScatter ones.1 .u64a ones.2.1 (mmbMaskZeroToNocheck (k2 % mmbKeyBits))
  else ones.1

/-- One level of the tree case, the nodes `[k1, k2)` of the level whose first
block is at byte offset `root`.  `(-MMB_ONE) << (k1 % MMB_KEY_BITS)` is a
64-bit value; the unit keeps its 64 low bits. -/
def initRangePlanLevel (out : ScatterPlanRaw) (root k1 k2 : Nat) : ScatterPlanRaw :=
  let blockOffset := root + (k1 / mmbKeyBits) * 8
  if k1 % mmbKeyBits ≠ 0 then
    -- the partial block at the beginning
    let idx := k1 / mmbKeyBits
    let blockEnd := (idx + 1) * mmbKeyBits
    let mask := mmbAllOnes <<< (k1 % mmbKeyBits)
    if k2 < blockEnd then addScatter out .u64a blockOffset (mask &&& mmbMaskZeroToNocheck (k2 % mmbKeyBits))
    else initRangePlanTail (addScatter out .u64a blockOffset mask) (blockOffset + 8) blockEnd k2
  else initRangePlanTail out blockOffset k1 k2

/-- The level loop of the tree case, on `level` with key shift `ks`. -/
def initRangePlanLevels (out : ScatterPlanRaw) (begin endKey ks level : Nat) : ScatterPlanRaw :=
  let k1 := begin >>> ks
  let k2 := endKey >>> ks
  -- summary blocks need to account for the runt block on the end
  let k2 := if k2 <<< ks ≠ endKey then k2 + 1 else k2
  let out := initRangePlanLevel out (mmbitGetLevelRootOffset level) k1 k2
  if ks = 0 then out
  else initRangePlanLevels out begin endKey (ks - mmbKeyShift) (level + 1)
termination_by ks
decreasing_by unfold mmbKeyShift; omega

/-- `mmbBuildInitRangePlan`: the units of `mmbit_init_range` are added to `out`. -/
def mmbBuildInitRangePlan (totalBits begin endKey : Nat) (out : ScatterPlanRaw) : ScatterPlanRaw :=
  if totalBits = 0 then out
  else if totalBits ≤ mmbFlatMaxBits then
    -- full-sized blocks, then a single runt block at the end
    let blocks := initRangePlanFlatBlocks begin endKey out 0 totalBits 0
    initRangePlanRunt blocks.1 blocks.2.1 blocks.2.2.1 (getFlatMasks blocks.2.2.2 begin endKey)
  else if begin = endKey then addScatter out .u64a 0 0
  else initRangePlanLevels out begin endKey (mmbitKeyshift totalBits) 0

/-! ## What a plan writes -/

/-- No unit of a type that `scatter` runs after `t`. -/
def ScatterPlanRaw.EmptyAfter (p : ScatterPlanRaw) (t : ScatterWidth) : Prop :=
  ∀ t', t.rank < t'.rank → p.units t' = []

section Scatter

variable {p : ScatterPlanRaw} {t : ScatterWidth}

@[simp] theorem scatterUnits_nil (m : Mem) (w : Nat) : scatterUnits m w [] = m := rfl

theorem scatterUnits_append_singleton (m : Mem) (w : Nat) (l : List ScatterUnit) (u : ScatterUnit) :
    scatterUnits m w (l ++ [u]) = (scatterUnits m w l).store (8 * u.offset) w u.val := by
  unfold scatterUnits
  rw [List.foldl_append]
  rfl

@[simp] theorem scatter_empty (m : Mem) : scatter m .empty = m := rfl

theorem ScatterPlanRaw.emptyAfter_empty (t : ScatterWidth) : ScatterPlanRaw.empty.EmptyAfter t := by
  intro t' _
  cases t' <;> rfl

theorem ScatterPlanRaw.emptyAfter_u8 (p : ScatterPlanRaw) : p.EmptyAfter .u8 := by
  intro t' ht'
  cases t' <;> simp [ScatterWidth.rank] at ht'

theorem ScatterPlanRaw.EmptyAfter.mono {t' : ScatterWidth} (h : p.EmptyAfter t) (ht : t.rank ≤ t'.rank) :
    p.EmptyAfter t' :=
  fun t'' ht'' => h t'' (by omega)

theorem units_addScatter_of_ne {t' : ScatterWidth} (offset mask : Nat) (h : t' ≠ t) :
    (addScatter p t offset mask).units t' = p.units t' := by
  cases t <;> cases t' <;> first | exact absurd rfl h | rfl

theorem ScatterPlanRaw.EmptyAfter.addScatter (h : p.EmptyAfter t) (offset mask : Nat) :
    (Multibit.addScatter p t offset mask).EmptyAfter t := by
  intro t' ht'
  have hne : t' ≠ t := by
    rintro rfl
    omega
  rw [units_addScatter_of_ne offset mask hne]
  exact h t' ht'

/-- **A unit added last** is stored last, when the plan has no unit of a type
that `scatter` runs after it. -/
theorem scatter_addScatter (h : p.EmptyAfter t) (m : Mem) (offset mask : Nat) :
    scatter m (addScatter p t offset mask) = (scatter m p).store (8 * offset) t.bits mask := by
  have h32 : t.rank < 1 → p.pU32 = [] := h .u32
  have h16 : t.rank < 2 → p.pU16 = [] := h .u16
  have h8 : t.rank < 3 → p.pU8 = [] := h .u8
  cases t <;> simp only [ScatterWidth.rank] at h32 h16 h8 <;>
    simp [scatter, addScatter, ScatterWidth.bits, scatterUnits_append_singleton, h32, h16, h8] <;>
    exact Mem.store_mod_two_pow _ _ _ _

theorem scatter_addScatter_u64a (h : p.EmptyAfter .u64a) (m : Mem) (offset mask : Nat) :
    scatter m (addScatter p .u64a offset mask) = mmbStore (scatter m p) offset mask :=
  scatter_addScatter h m offset mask

end Scatter

/-! ## The flat case -/

section Flat

variable {begin endKey : Nat}

/-- **The full-sized blocks.**  The loop ends with between `1` and `64` bits
left, at a byte-aligned `base`, and writes the keys of `[begin, end)` in the
blocks it passes. -/
theorem initRangePlanFlatBlocks_spec {out : ScatterPlanRaw} (hout : out.EmptyAfter .u64a) (m : Mem)
    {dest bits base : Nat} (hbase : base = 8 * dest) (hbits : 0 < bits) :
    (initRangePlanFlatBlocks begin endKey out dest bits base).1.EmptyAfter .u64a ∧
      (initRangePlanFlatBlocks begin endKey out dest bits base).2.2.2 =
        8 * (initRangePlanFlatBlocks begin endKey out dest bits base).2.1 ∧
      0 < (initRangePlanFlatBlocks begin endKey out dest bits base).2.2.1 ∧
      (initRangePlanFlatBlocks begin endKey out dest bits base).2.2.1 ≤ 64 ∧
      (initRangePlanFlatBlocks begin endKey out dest bits base).2.2.2 +
        (initRangePlanFlatBlocks begin endKey out dest bits base).2.2.1 = base + bits ∧
      base ≤ (initRangePlanFlatBlocks begin endKey out dest bits base).2.2.2 ∧
      ∀ b, scatter m (initRangePlanFlatBlocks begin endKey out dest bits base).1 b =
        if base ≤ b ∧ b < (initRangePlanFlatBlocks begin endKey out dest bits base).2.2.2 then
          decide (begin ≤ b ∧ b < endKey)
        else scatter m out b := by
  fun_induction initRangePlanFlatBlocks begin endKey out dest bits base with
  | case1 out dest bits base hmore ih =>
    -- one more block: `get_flat_masks(base)` over the 64 bits from `base`
    obtain ⟨hE, hdest, hpos, hle, hsum, hge, happly⟩ := ih (hout.addScatter _ _) (by omega) (by omega)
    generalize initRangePlanFlatBlocks begin endKey (addScatter out .u64a dest (getFlatMasks base begin endKey))
      (dest + 8) (bits - 64) (base + 64) = r at hE hdest hpos hle hsum hge happly ⊢
    refine ⟨hE, hdest, hpos, hle, by omega, by omega, fun b => ?_⟩
    rw [happly, scatter_addScatter_u64a hout]
    unfold mmbStore
    by_cases hblock : base ≤ b ∧ b < base + 64
    · rw [if_neg (show ¬(base + 64 ≤ b ∧ b < r.2.2.2) by omega), if_pos (show base ≤ b ∧ b < r.2.2.2 by omega),
        Mem.store_apply_of_mem (by omega) (by omega), testBit_getFlatMasks]
      exact decide_eq_decide.mpr (by omega)
    · rw [Mem.store_apply_of_not_mem (by omega)]
      by_cases hrest : base + 64 ≤ b ∧ b < r.2.2.2
      · rw [if_pos hrest, if_pos (show base ≤ b ∧ b < r.2.2.2 by omega)]
      · rw [if_neg hrest, if_neg (show ¬(base ≤ b ∧ b < r.2.2.2) by omega)]
  | case2 out dest bits base hlast =>
    refine ⟨hout, hbase, hbits, by dsimp only; omega, rfl, le_refl _, fun b => ?_⟩
    dsimp only
    rw [if_neg (by omega)]

/-- **The runt block.**  Its units, scattered in the order `u64a`, `u32`,
`u16`, `u8`, store the bytes that hold `bits` bits of `mask`. -/
theorem scatter_initRangePlanRunt {out : ScatterPlanRaw} (hout : out.EmptyAfter .u64a) (m : Mem) (dest : Nat)
    {bits : Nat} (hpos : 0 < bits) (hle : bits ≤ 64) (mask : Nat) :
    scatter m (initRangePlanRunt out dest bits mask) = (scatter m out).store (8 * dest) (8 * ((bits + 7) / 8)) mask := by
  have h32 : out.EmptyAfter .u32 := hout.mono (by decide)
  have h16 : out.EmptyAfter .u16 := hout.mono (by decide)
  have h16' : (addScatter out .u32 dest mask).EmptyAfter .u16 := (h32.addScatter dest mask).mono (by decide)
  unfold initRangePlanRunt
  split_ifs with h8 h16b h24 h32b h40 h48 h56
  · rw [scatter_addScatter out.emptyAfter_u8, show 8 * ((bits + 7) / 8) = 8 by omega]
    rfl
  · rw [scatter_addScatter h16, show 8 * ((bits + 7) / 8) = 16 by omega]
    rfl
  · -- `u16` at `dest`, `u8` at `dest + 2`
    rw [scatter_addScatter (ScatterPlanRaw.emptyAfter_u8 _), scatter_addScatter h16]
    simp only [ScatterWidth.bits]
    rw [show 8 * (dest + 2) = 8 * dest + 16 by omega, Mem.store_store_shiftRight,
      show 8 * ((bits + 7) / 8) = 16 + 8 by omega]
  · rw [scatter_addScatter h32, show 8 * ((bits + 7) / 8) = 32 by omega]
    rfl
  · -- `u32` at `dest`, `u8` at `dest + 4`
    rw [scatter_addScatter (ScatterPlanRaw.emptyAfter_u8 _), scatter_addScatter h32]
    simp only [ScatterWidth.bits]
    rw [show 8 * (dest + 4) = 8 * dest + 32 by omega, Mem.store_store_shiftRight,
      show 8 * ((bits + 7) / 8) = 32 + 8 by omega]
  · -- `u32` at `dest`, `u16` at `dest + 4`
    rw [scatter_addScatter ((h32.addScatter dest mask).mono (by decide)), scatter_addScatter h32]
    simp only [ScatterWidth.bits]
    rw [show 8 * (dest + 4) = 8 * dest + 32 by omega, Mem.store_store_shiftRight,
      show 8 * ((bits + 7) / 8) = 32 + 16 by omega]
  · -- `u32` at `dest`, `u16` at `dest + 4`, `u8` at `dest + 6`
    rw [scatter_addScatter (ScatterPlanRaw.emptyAfter_u8 _), scatter_addScatter h16', scatter_addScatter h32]
    simp only [ScatterWidth.bits]
    rw [show 8 * (dest + 4) = 8 * dest + 32 by omega, Mem.store_store_shiftRight,
      show 8 * (dest + 6) = 8 * dest + (32 + 16) by omega, show mask >>> 48 = mask >>> (32 + 16) from rfl,
      Mem.store_store_shiftRight, show 8 * ((bits + 7) / 8) = 32 + 16 + 8 by omega]
  · rw [scatter_addScatter hout, show 8 * ((bits + 7) / 8) = 64 by omega]
    rfl

/-- **The flat plan** writes every bit of the buffer: on in `[begin, end)`,
off elsewhere, as `mmbit_init_range_flat` does. -/
theorem scatter_mmbBuildInitRangePlan_flat (m : Mem) {totalBits : Nat} (hpos : 0 < totalBits)
    (hflat : totalBits ≤ mmbFlatMaxBits) (b : Nat) :
    scatter m (mmbBuildInitRangePlan totalBits begin endKey .empty) b =
      if b < 8 * mmbitFlatSize totalBits then decide (begin ≤ b ∧ b < endKey) else m b := by
  unfold mmbBuildInitRangePlan
  rw [if_neg (by omega), if_pos hflat]
  dsimp only
  obtain ⟨hE, hdest, hbits, hle, hsum, -, happly⟩ :=
    @initRangePlanFlatBlocks_spec begin endKey ScatterPlanRaw.empty (ScatterPlanRaw.emptyAfter_empty .u64a) m 0
      totalBits 0 rfl hpos
  generalize initRangePlanFlatBlocks begin endKey ScatterPlanRaw.empty 0 totalBits 0 = r at hE hdest hbits hle hsum happly
  obtain ⟨plan, dest, bits, base⟩ := r
  dsimp only at hE hdest hbits hle hsum happly ⊢
  rw [scatter_initRangePlanRunt hE m dest hbits hle]
  unfold mmbitFlatSize roundupN
  by_cases hrunt : base ≤ b ∧ b < base + 8 * ((bits + 7) / 8)
  · -- the runt block: `get_flat_masks(base)`
    rw [← hdest, Mem.store_apply_of_mem hrunt.1 hrunt.2, testBit_getFlatMasks, if_pos (by omega : b < _)]
    exact decide_eq_decide.mpr (by omega)
  · rw [← hdest, Mem.store_apply_of_not_mem (by omega), happly]
    by_cases hblocks : b < base
    · rw [if_pos ⟨Nat.zero_le b, hblocks⟩, if_pos (by omega)]
    · rw [if_neg (by omega), if_neg (by omega)]
      rfl

end Flat

/-! ## The tree case -/

section Tree

variable (m : Mem)

/-- The whole blocks: the plan's loop stores what the runtime's loop stores,
and both end at the same block and node. -/
theorem initRangePlanOnes_sim {out : ScatterPlanRaw} (hout : out.EmptyAfter .u64a) (blockOffset k1 k2 : Nat) :
    (initRangePlanOnes out blockOffset k1 k2).1.EmptyAfter .u64a ∧
      scatter m (initRangePlanOnes out blockOffset k1 k2).1 =
        (mmbitInitRangeBigOnes (scatter m out) blockOffset k1 k2).1 ∧
      (initRangePlanOnes out blockOffset k1 k2).2 = (mmbitInitRangeBigOnes (scatter m out) blockOffset k1 k2).2 := by
  fun_induction initRangePlanOnes out blockOffset k1 k2 with
  | case1 out blockOffset k1 hlt ih =>
    rw [mmbitInitRangeBigOnes, if_pos hlt, ← scatter_addScatter_u64a hout]
    exact ih (hout.addScatter _ _)
  | case2 out blockOffset k1 hge =>
    rw [mmbitInitRangeBigOnes, if_neg hge]
    exact ⟨hout, rfl, rfl⟩

theorem initRangePlanTail_sim {out : ScatterPlanRaw} (hout : out.EmptyAfter .u64a) (blockOffset k1 k2 : Nat) :
    (initRangePlanTail out blockOffset k1 k2).EmptyAfter .u64a ∧
      scatter m (initRangePlanTail out blockOffset k1 k2) = mmbitInitRangeBigTail (scatter m out) blockOffset k1 k2 := by
  obtain ⟨hE, hS, hR⟩ := initRangePlanOnes_sim m hout blockOffset k1 k2
  unfold initRangePlanTail mmbitInitRangeBigTail
  generalize initRangePlanOnes out blockOffset k1 k2 = plan at hE hS hR
  generalize mmbitInitRangeBigOnes (scatter m out) blockOffset k1 k2 = run at hS hR
  obtain ⟨P, blk, k⟩ := plan
  obtain ⟨M, blk', k'⟩ := run
  simp only [Prod.mk.injEq] at hS hR
  obtain ⟨rfl, rfl⟩ := hR
  dsimp only at hE ⊢
  split
  · -- the final block
    exact ⟨hE.addScatter _ _, by rw [scatter_addScatter_u64a hE, hS]⟩
  · exact ⟨hE, hS⟩

theorem initRangePlanLevel_sim {out : ScatterPlanRaw} (hout : out.EmptyAfter .u64a) (root k1 k2 : Nat) :
    (initRangePlanLevel out root k1 k2).EmptyAfter .u64a ∧
      scatter m (initRangePlanLevel out root k1 k2) = mmbitInitRangeBigLevel (scatter m out) root k1 k2 := by
  unfold initRangePlanLevel mmbitInitRangeBigLevel
  dsimp only
  split
  · split
    · -- the range ends in its first block
      exact ⟨hout.addScatter _ _, scatter_addScatter_u64a hout m _ _⟩
    · rw [← scatter_addScatter_u64a hout]
      exact initRangePlanTail_sim m (hout.addScatter _ _) _ _ _
  · exact initRangePlanTail_sim m hout _ _ _

/-- **The level loop.**  The plan's loop, scattered, is `mmbit_init_range_big`'s
loop, level by level; by induction on the key shift. -/
theorem initRangePlanLevels_sim {out : ScatterPlanRaw} (hout : out.EmptyAfter .u64a) (begin endKey ks level : Nat) :
    (initRangePlanLevels out begin endKey ks level).EmptyAfter .u64a ∧
      scatter m (initRangePlanLevels out begin endKey ks level) =
        mmbitInitRangeBigLoop (scatter m out) begin endKey ks level := by
  induction ks using Nat.strong_induction_on generalizing out level with
  | _ ks ih =>
    obtain ⟨hE, hS⟩ := initRangePlanLevel_sim m hout (mmbitGetLevelRootOffset level) (initRangeLo begin ks)
      (initRangeHi endKey ks)
    rw [initRangePlanLevels, mmbitInitRangeBigLoop_eq]
    by_cases hks : ks = 0
    · rw [if_pos hks, if_pos hks]
      exact ⟨hE, hS⟩
    · -- the next level, from the stores of this one
      rw [if_neg hks, if_neg hks]
      obtain ⟨hE', hS'⟩ := ih (ks - mmbKeyShift) (by unfold mmbKeyShift; omega) hE (level + 1)
      exact ⟨hE', hS'.trans (by rw [hS]; rfl)⟩

end Tree

/-! ## The plan and `mmbit_init_range` -/

/-- **The plan is the runtime init.**  The plan built for `[begin, end)`,
scattered over any memory, writes what `mmbit_init_range` writes. -/
theorem scatter_mmbBuildInitRangePlan (bits : Mem) (totalBits begin endKey : Nat) :
    scatter bits (mmbBuildInitRangePlan totalBits begin endKey .empty) = mmbitInitRange bits totalBits begin endKey := by
  by_cases h0 : totalBits = 0
  · unfold mmbBuildInitRangePlan mmbitInitRange
    rw [if_pos h0, if_pos h0]
    rfl
  by_cases hflat : totalBits ≤ mmbFlatMaxBits
  · -- the flat model: bit by bit
    funext b
    rw [scatter_mmbBuildInitRangePlan_flat bits (Nat.pos_of_ne_zero h0) hflat]
    have hisflat : mmbitIsFlatModel totalBits = true := decide_eq_true hflat
    unfold mmbitInitRange
    rw [if_neg h0]
    by_cases hbe : begin = endKey
    · -- nothing to set: `mmbit_clear` zeroes the flat buffer
      unfold mmbitClear
      rw [if_pos hbe, if_neg h0, if_pos hisflat]
      by_cases hb : b < 8 * mmbitFlatSize totalBits
      · rw [if_pos hb, Mem.store_apply_of_mem (Nat.zero_le b) (by omega), Nat.zero_testBit]
        exact decide_eq_false (by omega)
      · rw [if_neg hb, Mem.store_apply_of_not_mem (by omega)]
    · rw [if_neg hbe, if_pos hisflat, mmbitInitRangeFlat_apply]
  · have hisflat : mmbitIsFlatModel totalBits = false := decide_eq_false hflat
    unfold mmbBuildInitRangePlan mmbitInitRange
    rw [if_neg h0, if_neg h0, if_neg hflat]
    split
    · -- nothing to set: the root block is cleared
      unfold mmbitClear
      rw [if_neg h0, if_neg (by simp [hisflat]), scatter_addScatter_u64a (ScatterPlanRaw.emptyAfter_empty _)]
      rfl
    · rw [if_neg (by simp [hisflat])]
      exact (initRangePlanLevels_sim bits (ScatterPlanRaw.emptyAfter_empty _) _ _ _ _).2

/-- **The init-range plan.**  For every multibit of at most `MMB_MAX_BITS`
bits and every `begin ≤ end ≤ total_bits`, the scatter plan of
`mmbBuildInitRangePlan`, applied to a buffer of any contents, leaves a valid
multibit of abstract set `[begin, end)`, the set that `mmbit_init_range`
leaves. -/
theorem mmbBuildInitRangePlan_keys (bits : Mem) {totalBits begin endKey : Nat} (hmax : totalBits ≤ mmbMaxBits)
    (hbe : begin ≤ endKey) (hend : endKey ≤ totalBits) :
    mmbitKeys totalBits (scatter bits (mmbBuildInitRangePlan totalBits begin endKey .empty)) = Set.Ico begin endKey ∧
      mmbitKeys totalBits (scatter bits (mmbBuildInitRangePlan totalBits begin endKey .empty)) =
        mmbitKeys totalBits (mmbitInitRange bits totalBits begin endKey) ∧
      MmbitValid totalBits (scatter bits (mmbBuildInitRangePlan totalBits begin endKey .empty)) := by
  rw [scatter_mmbBuildInitRangePlan]
  obtain ⟨hkeys, hvalid⟩ := mmbitInitRange_spec hmax hbe hend
  exact ⟨hkeys, rfl, hvalid⟩

theorem mmbBuildInitRangePlan_keys_300 :
    mmbitKeys 300 (scatter (fun _ => true) (mmbBuildInitRangePlan 300 5 200 .empty)) = Set.Ico 5 200 ∧
      mmbitKeys 300 (scatter (fun _ => true) (mmbBuildInitRangePlan 300 5 200 .empty)) =
        mmbitKeys 300 (mmbitInitRange (fun _ => true) 300 5 200) ∧
      MmbitValid 300 (scatter (fun _ => true) (mmbBuildInitRangePlan 300 5 200 .empty)) :=
  mmbBuildInitRangePlan_keys (fun _ => true) (by decide) (by decide) (by decide)

end Multibit
end Vectorscan
