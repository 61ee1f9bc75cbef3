import Vectorscan.Multibit.Layout

/-!
# Bounded repeats: the repeat descriptor and its control block

The bounded-repeat API of `src/nfa/repeat.h` keeps, for a repeat `{N,M}` of
a character class, the tops (trigger offsets) it still needs in a small
control block and, for some models, a block of stream state.  This module
holds what every model shares: the model enumeration, the descriptor
`RepeatInfo` that the compiler fills in (`repeatcompile.cpp`), the control
block and the three answers of `repeatHasMatch`.

**Model.**  Stream offsets (`u64a`) are natural numbers: they count the bytes
of a stream and never approach `2^64`.  Fields whose width the code relies on
are cut to it where the code assigns them (`u16` ring indices, `u64a`
bitmaps, the `uint64_t` table of the sparse model).  The union
`RepeatControl` is one record with the fields of all its members; each model
reads and writes only its own, and all members begin with the same `offset`.
The descriptor is built as `fillNfa` in `ng_lbr.cpp` builds it, from
`RepeatStateInfo`.

-/

namespace Vectorscan
namespace Repeat

/-- `enum RepeatType`. -/
inductive RepeatType
  | repeatRing
  | repeatFirst
  | repeatLast
  | repeatRange
  | repeatBitmap
  | repeatSparseOptimalP
  | repeatTrailer
  | repeatAlways
  deriving DecidableEq, Repr

/-- `REPEAT_INF`: the `repeatMax` of an unbounded repeat. -/
def repeatInf : Nat := 65535

/-- `REPEAT_RANGE_MAX_SLOTS`. -/
def repeatRangeMaxSlots : Nat := 16

/-- `enum RepeatMatch`, the answer of `repeatHasMatch`. -/
inductive RepeatMatch
  | repeatNomatch
  | repeatMatch
  -- no greater offset will match either, unless another top is stored
  | repeatStale
  deriving DecidableEq, Repr

/-- `struct RepeatInfo`, with the table of the sparse model that follows it
in the engine's bytecode (`getImplTable`). -/
structure RepeatInfo where
  type : RepeatType
  repeatMin : Nat
  repeatMax : Nat
  horizon : Nat
  packedCtrlSize : Nat
  minPeriod : Nat
  packedFieldSizes : Nat × Nat
  patchCount : Nat
  patchSize : Nat
  encodingSize : Nat
  patchesOffset : Nat
  table : List Nat
  deriving Repr

/-- `union RepeatControl`: `first` and `last` are the `u16` ring indices of
`RepeatRingControl`, `num` the `u8` count of `RepeatRangeControl`, `bitmap`
the `u64a` bitmap of `RepeatBitmapControl` and `RepeatTrailerControl`. -/
structure RepeatControl where
  offset : Nat
  first : Nat
  last : Nat
  num : Nat
  bitmap : Nat
  deriving DecidableEq, Repr

/-- A `u16` assignment. -/
def u16 (x : Nat) : Nat := x % 2 ^ 16

/-- A `u64a` result. -/
def u64 (x : Nat) : Nat := x % 2 ^ 64

/-! ## Compile time: `RepeatStateInfo` -/

/-- `class depth` for the reachable depths: a count or infinity. -/
inductive Depth
  | finite (n : Nat)
  | infinity
  deriving DecidableEq, Repr

namespace Depth

def isFinite : Depth → Bool
  | finite _ => true
  | infinity => false

/-- `depth_to_u32`. -/
def depthToU32 : Depth → Nat
  | finite n => n
  | infinity => repeatInf

/-- `d < depth(n)`: infinity is above every count. -/
def ltNat : Depth → Nat → Bool
  | finite m, n => decide (m < n)
  | infinity, _ => false

end Depth

/-- `lg2_64`: the index of the highest set bit, `0` for `0`. -/
def lg2U64 (x : Nat) : Nat := if x = 0 then 0 else Nat.log2 x

/-- `calcPackedBits`: the bits needed for the values below `val`. -/
def calcPackedBits (val : Nat) : Nat :=
  if val ≤ 1 then 1 else lg2U64 (val - 1) + 1

/-- `calcPackedBytes`. -/
def calcPackedBytes (val : Nat) : Nat := (calcPackedBits val + 7) / 8

/-- `numRangeSlots`. -/
def numRangeSlots (repeatMin repeatMax : Nat) : Nat :=
  2 * (repeatMax / (repeatMax - repeatMin) + 1)

/-- The second loop of `repeatRecurTable`, over the indices `is`: each entry
is the sum of the entries `1` and `minPeriod` before it as a `uint64_t`, and
the loop returns `i - 1` at the first sum `i` that wraps. -/
def repeatRecurTableLoop (minPeriod : Nat) : List Nat → List Nat → List Nat × Nat
  | [], table => (table, 0)
  | i :: is, table =>
      let table := table ++ [u64 (table.getD (i - 1) 0 + table.getD (i - minPeriod) 0)]
      if table.getD i 0 < table.getD (i - 1) 0 then (table, i - 1)
      else repeatRecurTableLoop minPeriod is table

/-- `repeatRecurTable`, run from the constructor while `patchCount` is still
`0`: the table of the sparse encoding and the last patch size it can encode
(`0` when every size up to `repeatMax` can). -/
def repeatRecurTable (repeatMax minPeriod : Nat) : List Nat × Nat :=
  let repeatTmp := repeatMax
  let repeatIndex := if repeatTmp < minPeriod then repeatTmp else minPeriod
  repeatRecurTableLoop minPeriod (List.range' (minPeriod + 1) (repeatTmp - minPeriod))
    ((List.range (repeatIndex + 1)).map (· + 1))

/-- One pass of the loop of `findOptimalPatchSize`, for the patch size `i`,
on the best `(min, patch_len, patchCount)` so far. -/
def findOptimalPatchSizeStep (table : List Nat) (repeatMax : Nat) (best : Nat × Nat × Nat) (i : Nat) :
    Nat × Nat × Nat :=
  let cnt := (repeatMax + (i - 1)) / i + 1
  let patchBits := calcPackedBits (table.getD i 0)
  let totalSize := (patchBits + 7) / 8 * cnt
  if totalSize < best.1 then (totalSize, i, cnt) else best

/-- `findOptimalPatchSize`: the patch size and the patch count that give the
least stream state. -/
def findOptimalPatchSize (table : List Nat) (repeatMax minPeriod rv : Nat) : Nat × Nat :=
  let rv := if rv = 0 then repeatMax else rv
  let best := (List.range' minPeriod (rv + 1 - minPeriod)).foldl
    (findOptimalPatchSizeStep table repeatMax) (2 ^ 32 - 1, 0, 0)
  (best.2.1, best.2.2)

/-- `struct RepeatStateInfo`. -/
structure RepeatStateInfo where
  stateSize : Nat
  packedCtrlSize : Nat
  horizon : Nat
  patchCount : Nat
  patchSize : Nat
  encodingSize : Nat
  patchesOffset : Nat
  packedFieldSizes : Nat × Nat
  table : List Nat
  deriving Repr

/-- The constructor `RepeatStateInfo::RepeatStateInfo`. -/
def repeatStateInfo (type : RepeatType) (repeatMin repeatMax : Depth) (minPeriod : Nat) :
    RepeatStateInfo :=
  let zero : RepeatStateInfo := ⟨0, 0, 0, 0, 0, 0, 0, (0, 0), []⟩
  let rMin := repeatMin.depthToU32
  let rMax := repeatMax.depthToU32
  match type with
  | .repeatFirst =>
      { zero with horizon := rMin, packedCtrlSize := calcPackedBytes (rMin + 1) }
  | .repeatLast =>
      { zero with horizon := rMax + 1, packedCtrlSize := calcPackedBytes (rMax + 1 + 1) }
  | .repeatRing =>
      let horizon := rMax * 2 + 1
      let ringIndicesLen := if rMax < 254 then 2 else 4
      { zero with stateSize := Multibit.mmbitSize (rMax + 1), horizon := horizon,
                  packedCtrlSize := calcPackedBytes (horizon + 1) + ringIndicesLen }
  | .repeatRange =>
      let horizon := rMax * 2 + 1
      { zero with stateSize := numRangeSlots rMin rMax * 2, horizon := horizon,
                  packedCtrlSize := calcPackedBytes (horizon + 1) + 1 }
  | .repeatBitmap =>
      { zero with packedCtrlSize := Multibit.roundupN (rMax + 1) 8 / 8 }
  | .repeatSparseOptimalP =>
      let (table, rv) := repeatRecurTable rMax minPeriod
      -- a repeat shorter than the period is one patch of its own length
      let (repeatTmp, patchCount) :=
        if rMax < minPeriod then (rMax, 1) else findOptimalPatchSize table rMax minPeriod rv
      let encodingSize := calcPackedBytes (table.getD repeatTmp 0)
      let patchesOffset := Multibit.mmbitSize patchCount
      let horizon := repeatTmp * patchCount * 2 + 1
      let ringIndicesLen := if patchCount < 254 then 2 else 4
      { zero with stateSize := patchesOffset + encodingSize * patchCount,
                  packedCtrlSize := calcPackedBytes (horizon + 1) + ringIndicesLen, horizon := horizon,
                  patchCount := patchCount, patchSize := repeatTmp, encodingSize := encodingSize,
                  patchesOffset := patchesOffset, table := table }
  | .repeatTrailer =>
      let horizon := rMax + 1
      let sizes := (calcPackedBits (horizon + 1), rMin)
      { zero with horizon := horizon, packedFieldSizes := sizes,
                  packedCtrlSize := (sizes.1 + sizes.2 + 7) / 8 }
  | .repeatAlways => zero

/-- The part of `fillNfa` (`ng_lbr.cpp`) that fills the `RepeatInfo`. -/
def fillRepeatInfo (type : RepeatType) (repeatMin repeatMax : Depth) (minPeriod : Nat) : RepeatInfo :=
  let rsi := repeatStateInfo type repeatMin repeatMax minPeriod
  { type := type, repeatMin := repeatMin.depthToU32, repeatMax := repeatMax.depthToU32,
    horizon := rsi.horizon, packedCtrlSize := rsi.packedCtrlSize, minPeriod := minPeriod,
    packedFieldSizes := rsi.packedFieldSizes, patchCount := rsi.patchCount,
    patchSize := rsi.patchSize, encodingSize := rsi.encodingSize,
    patchesOffset := rsi.patchesOffset, table := rsi.table }

/-- `chooseRepeatType`; `packedSize` and `streamStateSize` are the sizes of
`RepeatStateInfo`. -/
def chooseRepeatType (repeatMin repeatMax : Depth) (minPeriod : Nat) (isReset hasExternalGuard : Bool) :
    RepeatType :=
  if !repeatMax.isFinite then
    if hasExternalGuard && repeatMin = .finite 0 then .repeatAlways else .repeatFirst
  else if repeatMin = .finite 0 || isReset then .repeatLast
  else if repeatMax.ltNat 64 then
    -- BITMAP and TRAILER can both hold it: the smaller packed state wins
    let bitmapLen := (repeatStateInfo .repeatBitmap repeatMin repeatMax minPeriod).packedCtrlSize
    let trailerLen := (repeatStateInfo .repeatTrailer repeatMin repeatMax minPeriod).packedCtrlSize
    if bitmapLen ≤ trailerLen then .repeatBitmap else .repeatTrailer
  else if !repeatMin.ltNat 65 then
    let rMin := repeatMin.depthToU32
    let rMax := repeatMax.depthToU32
    let rangeLen :=
      if rMin < rMax ∧ numRangeSlots rMin rMax ≤ repeatRangeMaxSlots then
        (repeatStateInfo .repeatRange repeatMin repeatMax minPeriod).stateSize
      else 2 ^ 32 - 1
    let sparseLen :=
      if 6 < minPeriod then (repeatStateInfo .repeatSparseOptimalP repeatMin repeatMax minPeriod).stateSize
      else 2 ^ 32 - 1
    if rangeLen ≠ 2 ^ 32 - 1 ∨ sparseLen ≠ 2 ^ 32 - 1 then
      if rangeLen < sparseLen then .repeatRange else .repeatSparseOptimalP
    else .repeatRing
  else .repeatTrailer

end Repeat
end Vectorscan
