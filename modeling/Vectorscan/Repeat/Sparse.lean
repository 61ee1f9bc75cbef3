import Vectorscan.Repeat.Ring

/-!
# Bounded repeats: the SPARSE_OPTIMAL_P model

`REPEAT_SPARSE_OPTIMAL_P` is the ring of the RING model cut into patches of
`patchSize` offsets.  A top can come at most once every `minPeriod` offsets,
so the tops of a patch are one of the bit patterns with gaps of at least
`minPeriod`; the table of `RepeatStateInfo` numbers them, and the patch holds
the number in `encodingSize` bytes.  A multibit over the patches (`active`)
says which patches hold a top.

**Model.**  The state memory holds the multibit from byte `0` and the
patches from byte `patchesOffset`.  The loops that walk the active patches
with `mmbit_iterate_bounded` are recursions on the patch index.
-/

namespace Vectorscan
namespace Repeat

open Multibit

/-- `partial_load_u64a`: the low `numBytes` bytes, little-endian; nothing for
more than eight. -/
def partialLoadU64a (m : Mem) (ptr numBytes : Nat) : Nat :=
  if numBytes ≤ 8 then m.load (8 * ptr) (8 * numBytes) else 0

/-- `partial_store_u64a`: each case of its switch stores the low `numBytes`
bytes of `value`; nothing is stored for more than eight. -/
def partialStoreU64a (m : Mem) (ptr value numBytes : Nat) : Mem :=
  if numBytes ≤ 8 then m.store (8 * ptr) (8 * numBytes) value else m

/-- Entry `i` of the table after the `RepeatInfo` (`getImplTable`). -/
def repeatTable (info : RepeatInfo) (i : Nat) : Nat := info.table.getD i 0

/-- The encoded patch `p` of the ring. -/
def sparsePatch (info : RepeatInfo) (state : Mem) (p : Nat) : Nat :=
  partialLoadU64a state (info.patchesOffset + info.encodingSize * p) info.encodingSize

/-- `storeInitialRingTopPatch`: one active patch, holding the top at its start. -/
def storeInitialRingTopPatch (info : RepeatInfo) (xs : RepeatControl) (state : Mem) (offset : Nat) :
    RepeatControl × Mem :=
  let active := (mmbitSet (mmbitClear state info.patchCount) info.patchCount 0).1
  ({ xs with offset := offset, first := 0, last := 1 },
    partialStoreU64a active info.patchesOffset 1 info.encodingSize)

/-- The loop of `getSparseOptimalTargetValue` from `i`, with `fuel` passes
left: the table entries from the top of the patch down are taken off `val`
while they fit, skipping `minPeriod - 1` positions after each. -/
def getSparseOptimalTargetValueLoop (info : RepeatInfo) (tval : Nat) :
    Nat → Nat → Nat → Nat → Nat × Nat
  | 0, _, loc, val => (loc, val)
  | fuel + 1, i, loc, val =>
      if i ≤ info.patchSize - tval then
        let tmp := repeatTable info (info.patchSize - i)
        if val ≥ tmp then
          getSparseOptimalTargetValueLoop info tval fuel (i + 1 + (info.minPeriod - 1)) i (val - tmp)
        else getSparseOptimalTargetValueLoop info tval fuel (i + 1) loc val
      else (loc, val)

/-- `getSparseOptimalTargetValue`: the position of the top, counted back
from the end of the patch, that the loop finds last, and what is left of
`val`.  The loop runs at most `patchSize` times. -/
def getSparseOptimalTargetValue (info : RepeatInfo) (tval val : Nat) : Nat × Nat :=
  getSparseOptimalTargetValueLoop info tval (info.patchSize + 1) 1 0 val

/-- `sparseLastTop`: the last top is the highest table entry that fits the
last patch. -/
def sparseLastTop (info : RepeatInfo) (xs : RepeatControl) (state : Mem) : Nat :=
  let occ := ringOccupancy xs info.patchCount
  let patch := ringIndex xs.first (occ - 1) info.patchCount
  let val := sparsePatch info state patch
  match ((List.range info.patchSize).reverse).find? (fun i => decide (val ≥ repeatTable info i)) with
  | some i => xs.offset + i + (occ - 1) * info.patchSize
  | none => 0

/-- `repeatLastTopSparseOptimalP`. -/
def repeatLastTopSparseOptimalP (info : RepeatInfo) (xs : RepeatControl) (state : Mem) : Nat :=
  sparseLastTop info xs state

/-- The first loop of `repeatNextMatchSparseOptimalP`: the active patches
from `p` to `endIdx`, with `fuel` passes left; `low` is the starting
threshold in the first patch only. -/
def sparseNextMatchScan (info : RepeatInfo) (xs : RepeatControl) (state : Mem)
    (nextOffset begin endIdx : Nat) : Nat → Nat → Nat → Nat
  | 0, _, _ => 0
  | fuel + 1, p, low =>
      let p := mmbitIterateBounded state info.patchCount p endIdx
      if p = mmbInvalid then 0
      else
        let low := if p ≠ begin then 0 else low
        let val := sparsePatch info state p
        let p1 := if p ≥ xs.first then p - xs.first else p + info.patchCount - xs.first
        let loc := if val ≠ 0 then (getSparseOptimalTargetValue info low val).1 else 0
        if loc ≠ 0 then
          let diff := (p1 + 1) * info.patchSize - loc
          max nextOffset (xs.offset + info.repeatMin + diff)
        else sparseNextMatchScan info xs state nextOffset begin endIdx fuel (p + 1) 0

/-- The second loop of `repeatNextMatchSparseOptimalP`, past the wrap: the
active patches from `p` to `last`, each counted after the `endIdx - first`
patches of the first loop. -/
def sparseNextMatchScanWrap (info : RepeatInfo) (xs : RepeatControl) (state : Mem)
    (nextOffset endIdx : Nat) : Nat → Nat → Nat
  | 0, _ => 0
  | fuel + 1, p =>
      let p := mmbitIterateBounded state info.patchCount p xs.last
      if p = mmbInvalid then 0
      else
        let val := sparsePatch info state p
        let loc := if val ≠ 0 then (getSparseOptimalTargetValue info 0 val).1 else 0
        if loc ≠ 0 then
          let diff := (p + 1) * info.patchSize - loc
          max nextOffset (xs.offset + info.repeatMin + diff + (endIdx - xs.first) * info.patchSize)
        else sparseNextMatchScanWrap info xs state nextOffset endIdx fuel (p + 1)

/-- `repeatNextMatchSparseOptimalP`. -/
def repeatNextMatchSparseOptimalP (info : RepeatInfo) (xs : RepeatControl) (state : Mem)
    (offset : Nat) : Nat :=
  let nextOffset := offset + 1
  let start : Option (Nat × Nat) :=
    if nextOffset ≤ xs.offset + info.repeatMin then some (xs.first, 0)
    else if nextOffset > sparseLastTop info xs state + info.repeatMax then none -- stale
    else
      let delta := nextOffset - xs.offset
      let lower := if delta > info.repeatMax then delta - info.repeatMax else 0
      some (lower / info.patchSize, lower - lower / info.patchSize * info.patchSize)
  match start with
  | none => 0
  | some (patch, tval) =>
      if patch ≥ info.patchCount then 0
      else
        let begin := ringIndex xs.first patch info.patchCount
        let endIdx := if begin ≥ xs.last then info.patchCount else xs.last
        let r := sparseNextMatchScan info xs state nextOffset begin endIdx (info.patchCount + 1) begin tval
        if r ≠ 0 then r
        else if begin ≥ xs.last then
          sparseNextMatchScanWrap info xs state nextOffset endIdx (info.patchCount + 1) 0
        else 0

/-- The patch index and ring of `repeatStoreSparseOptimalP` for a top in
patch `patch` past the last active one: the patches in between are cleared,
`last` moves past the new patch. -/
def sparseAdvance (info : RepeatInfo) (xs : RepeatControl) (active : Mem) (patch occ : Nat) :
    Nat × Nat × Mem :=
  let idx := xs.last + patch - occ
  let active := mmbitUnsetRange active info.patchCount xs.last (min idx info.patchCount)
  let (idx, active) :=
    if idx ≥ info.patchCount then
      (idx - info.patchCount, mmbitUnsetRange active info.patchCount 0 (idx - info.patchCount + 1))
    else (idx, active)
  let last := u16 (idx + 1)
  (idx, if last = info.patchCount then 0 else last, active)

/-- `repeatStoreSparseOptimalP`. -/
def repeatStoreSparseOptimalP (info : RepeatInfo) (xs : RepeatControl) (state : Mem) (offset : Nat)
    (isAlive : Bool) : RepeatControl × Mem :=
  if !isAlive || decide (offset > sparseLastTop info xs state + info.repeatMax) then
    storeInitialRingTopPatch info xs state offset -- the first top, or a stale ring
  else
    let delta := offset - xs.offset
    let patch := delta / info.patchSize
    let occ := ringOccupancy xs info.patchCount
    -- the new control block, the patch to write, its old value and the multibit
    let (xs, idx, val, active) : RepeatControl × Nat × Nat × Mem :=
      if patch ≥ info.patchCount then
        -- the ring moves on by whole patches
        let patchShiftCount := patch - info.patchCount + 1
        let first := u16 (xs.first + patchShiftCount)
        let first := if first ≥ info.patchCount then first - info.patchCount else first
        let (idx, last, active) := sparseAdvance info xs state patch occ
        ({ xs with offset := xs.offset + info.patchSize * patchShiftCount, first := first, last := last },
          idx, 0, active)
      else if patch < occ then
        -- the top falls in the last active patch
        let idx := if xs.last = 0 then info.patchCount - 1 else xs.last - 1
        (xs, idx, sparsePatch info state idx, state)
      else
        let (idx, last, active) := sparseAdvance info xs state patch occ
        ({ xs with last := last }, idx, 0, active)
    let diff := delta - patch * info.patchSize
    let val := val + repeatTable info diff
    let state := partialStoreU64a active (info.patchesOffset + info.encodingSize * idx) val info.encodingSize
    (xs, (mmbitSet state info.patchCount idx).1)

/-- `sparseHasMatch`: is there a top at a ring position in `[lower, upper]`
of the patches? -/
def sparseHasMatch (info : RepeatInfo) (state : Mem) (lower upper : Nat) : Bool :=
  let patchLower := lower / info.patchSize
  let patchUpper := upper / info.patchSize
  let diff := lower - patchLower * info.patchSize
  -- the first patch
  let firstHit :=
    mmbitIsset state info.patchCount patchLower &&
      (let val := sparsePatch info state patchLower
       let val :=
         if patchUpper = patchLower then
           (getSparseOptimalTargetValue info (upper - patchLower * info.patchSize + 1) val).2
         else val
       decide (val ≥ repeatTable info diff))
  if firstHit then true
  else if patchLower = patchUpper then false
  -- the patches in between
  else if mmbitIterateBounded state info.patchCount (patchLower + 1) patchUpper ≠ mmbInvalid then true
  else if patchUpper = info.patchCount then false
  -- the last patch
  else if !mmbitIsset state info.patchCount patchUpper then false
  else
    let diff := (patchUpper + 1) * info.patchSize - upper
    let val := sparsePatch info state patchUpper
    (getSparseOptimalTargetValue info (info.patchSize - diff + 1) val).2 ≠ 0

/-- `repeatHasMatchSparseOptimalP`. -/
def repeatHasMatchSparseOptimalP (info : RepeatInfo) (xs : RepeatControl) (state : Mem) (offset : Nat) :
    RepeatMatch :=
  if offset < xs.offset + info.repeatMin then .repeatNomatch -- too soon
  else if offset > sparseLastTop info xs state + info.repeatMax then .repeatStale
  else
    let delta := offset - xs.offset
    let occ := ringOccupancy xs info.patchCount
    let lower := if delta > info.repeatMax then delta - info.repeatMax else 0
    let upper := min (delta - info.repeatMin) (occ * info.patchSize - 1)
    let patchLower := lower / info.patchSize
    let patchUpper := upper / info.patchSize
    if patchLower ≥ occ then .repeatNomatch -- too late
    else
      let remainingLower := lower - patchLower * info.patchSize
      let remainingUpper := upper - patchUpper * info.patchSize
      let patchLower := patchLower + xs.first
      let patchUpper := patchUpper + xs.first
      let (patchLower, patchUpper) :=
        if patchLower ≥ info.patchCount then (patchLower - info.patchCount, patchUpper - info.patchCount)
        else if patchUpper ≥ info.patchCount then (patchLower, patchUpper - info.patchCount)
        else (patchLower, patchUpper)
      let isNotWrapped := decide (patchLower ≤ patchUpper)
      let scanEnd :=
        if isNotWrapped then patchUpper * info.patchSize + remainingUpper
        else info.patchCount * info.patchSize
      let lower := patchLower * info.patchSize + remainingLower
      if sparseHasMatch info state lower scanEnd then .repeatMatch
      else if !isNotWrapped then
        let upper := upper - (info.patchCount - xs.first) * info.patchSize
        if sparseHasMatch info state 0 upper then .repeatMatch else .repeatNomatch
      else .repeatNomatch

end Repeat
end Vectorscan
