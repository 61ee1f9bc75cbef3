import Vectorscan.Repeat.Info
import Vectorscan.Lib.BitMemory

/-!
# Bounded repeats: the FIRST, LAST, RANGE, BITMAP and TRAILER models

The models of `src/nfa/repeat.c` other than the ring and the sparse one.
`REPEAT_FIRST` and `REPEAT_LAST` keep one top in the control block's
`offset`.  `REPEAT_RANGE` keeps an ordered list of `u16` tops relative to
`offset` in stream state.  `REPEAT_BITMAP` keeps a `u64a` bitmap of the tops
from `offset` on.  `REPEAT_TRAILER` keeps the start of the last top's match
window in `offset` and a bitmap of the earlier matches before it.

**Model.**  Each store returns the new control block (and, for RANGE, the
new list).  The list of RANGE is the `u16` array at the start of the state
memory: entry `i` is the sixteen bits from bit `16 i`.  The bit loops of the
BITMAP model visit the set bits with `findAndClearLSB_64` until the bitmap
is empty.
-/

namespace Vectorscan
namespace Repeat

/-! ## Bit utilities of `util/bitutils.h` -/

/-- `clz64`, for a non-zero word. -/
def clz64 (x : Nat) : Nat := 63 - Nat.log2 x

/-- `findAndClearLSB_64`: the index of the lowest set bit, and the word without it. -/
def findAndClearLSB64 (v : Nat) : Nat × Nat := (Multibit.mmbCtz v, v &&& (v - 1))

/-- `findAndClearMSB_64`: the index of the highest set bit, and the word without it. -/
def findAndClearMSB64 (v : Nat) : Nat × Nat :=
  let offset := 63 - clz64 v
  (offset, v &&& Word.compl 64 (1 <<< offset))

/-! ## FIRST and LAST -/

/-- `repeatStoreFirst`: only the first top is kept. -/
def repeatStoreFirst (ctrl : RepeatControl) (offset : Nat) (isAlive : Bool) : RepeatControl :=
  if isAlive then ctrl else { ctrl with offset := offset }

/-- `repeatStoreLast`: only the last top is kept. -/
def repeatStoreLast (ctrl : RepeatControl) (offset : Nat) : RepeatControl :=
  { ctrl with offset := offset }

/-- `repeatHasMatchFirst`: a FIRST repeat has no maximum. -/
def repeatHasMatchFirst (info : RepeatInfo) (ctrl : RepeatControl) (offset : Nat) : RepeatMatch :=
  if offset < ctrl.offset + info.repeatMin then .repeatNomatch else .repeatMatch

/-- `repeatHasMatchLast`. -/
def repeatHasMatchLast (info : RepeatInfo) (ctrl : RepeatControl) (offset : Nat) : RepeatMatch :=
  if offset < ctrl.offset + info.repeatMin then .repeatNomatch
  else if offset ≤ ctrl.offset + info.repeatMax then .repeatMatch
  else .repeatStale

/-- `repeatNextMatchOffset`, for both FIRST and LAST. -/
def repeatNextMatchOffset (info : RepeatInfo) (ctrl : RepeatControl) (offset : Nat) : Nat :=
  let first := ctrl.offset + info.repeatMin
  if offset < first then first
  else if info.repeatMax = repeatInf ∨ offset < ctrl.offset + info.repeatMax then offset + 1
  else 0 -- no more matches

/-! ## RANGE -/

/-- Entry `i` of the `u16` list in stream state (`unaligned_load_u16(ring + i)`). -/
def rangeEntry (ring : Mem) (i : Nat) : Nat := ring.load (16 * i) 16

/-- `unaligned_store_u16(ring + i, v)`. -/
def rangeSet (ring : Mem) (i v : Nat) : Mem := ring.store (16 * i) 16 v

/-- `repeatLastTopRange`. -/
def repeatLastTopRange (xs : RepeatControl) (ring : Mem) : Nat :=
  xs.offset + rangeEntry ring (xs.num - 1)

/-- The loop of `repeatNextMatchRange` over the entries `is`. -/
def repeatNextMatchRangeLoop (info : RepeatInfo) (xs : RepeatControl) (ring : Mem) (offset : Nat) :
    List Nat → Nat
  | [] => 0
  | i :: is =>
      let base := xs.offset + rangeEntry ring i
      let first := base + info.repeatMin
      if offset < first then first
      else if offset < base + info.repeatMax then offset + 1
      else repeatNextMatchRangeLoop info xs ring offset is

/-- `repeatNextMatchRange`. -/
def repeatNextMatchRange (info : RepeatInfo) (xs : RepeatControl) (ring : Mem) (offset : Nat) : Nat :=
  repeatNextMatchRangeLoop info xs ring offset (List.range xs.num)

/-- `storeInitialRangeTop`. -/
def storeInitialRangeTop (xs : RepeatControl) (ring : Mem) (offset : Nat) : RepeatControl × Mem :=
  ({ xs with offset := offset, num := 1 }, rangeSet ring 0 0)

/-- The first loop of `repeatStoreRange` over the entries `is`: the index of
the first top still within `repeatMax` of `offset`, or `num` if none is. -/
def rangeFirstLive (info : RepeatInfo) (xs : RepeatControl) (ring : Mem) (offset : Nat) :
    List Nat → Nat
  | [] => xs.num
  | i :: is =>
      if offset - (xs.offset + rangeEntry ring i) ≤ info.repeatMax then i
      else rangeFirstLive info xs ring offset is

/-- The expiry loop of `repeatStoreRange` over the positions `js`: entry `j`
becomes entry `i + j` less the first live top. -/
def rangeShift (i firstOffset : Nat) : List Nat → Mem → Mem
  | [], ring => ring
  | j :: js, ring => rangeShift i firstOffset js (rangeSet ring j (rangeEntry ring (i + j) - firstOffset))

/-- The append at the end of `repeatStoreRange` (`xs->num` is a `u8`). -/
def rangeAppend (xs : RepeatControl) (ring : Mem) (offset : Nat) : RepeatControl × Mem :=
  ({ xs with num := (xs.num + 1) % 2 ^ 8 }, rangeSet ring xs.num (offset - xs.offset))

/-- `repeatStoreRange`: stale tops are dropped from the front; the new top
replaces the last one when the penultimate top is within
`repeatMax - repeatMin` of it, and is appended otherwise. -/
def repeatStoreRange (info : RepeatInfo) (xs : RepeatControl) (ring : Mem) (offset : Nat)
    (isAlive : Bool) : RepeatControl × Mem :=
  if !isAlive then storeInitialRangeTop xs ring offset
  else
    let i := rangeFirstLive info xs ring offset (List.range xs.num)
    if i = xs.num then storeInitialRangeTop xs ring offset -- the whole list is stale
    else
      let (xs, ring) :=
        if i > 0 then
          let firstOffset := rangeEntry ring i
          (({ xs with offset := xs.offset + firstOffset, num := xs.num - i } : RepeatControl),
            rangeShift i firstOffset (List.range (xs.num - i)) ring)
        else (xs, ring)
      if xs.num = 1 then rangeAppend xs ring offset
      else
        let d := info.repeatMax - info.repeatMin
        let penultimateOffset := xs.offset + rangeEntry ring (xs.num - 2)
        if offset - penultimateOffset ≤ d then (xs, rangeSet ring (xs.num - 1) (offset - xs.offset))
        else rangeAppend xs ring offset

/-- The loop of `repeatHasMatchRange` over the entries `is` before the last. -/
def repeatHasMatchRangeLoop (info : RepeatInfo) (xs : RepeatControl) (ring : Mem) (offset : Nat) :
    List Nat → RepeatMatch
  | [] => .repeatNomatch
  | i :: is =>
      let diff := offset - (xs.offset + rangeEntry ring i)
      if diff ≥ info.repeatMin ∧ diff ≤ info.repeatMax then .repeatMatch
      else repeatHasMatchRangeLoop info xs ring offset is

/-- `repeatHasMatchRange`: the last top decides staleness. -/
def repeatHasMatchRange (info : RepeatInfo) (xs : RepeatControl) (ring : Mem) (offset : Nat) :
    RepeatMatch :=
  if offset - xs.offset < info.repeatMin then .repeatNomatch
  else
    let diff := offset - (xs.offset + rangeEntry ring (xs.num - 1))
    if diff > info.repeatMax then .repeatStale
    else if diff ≥ info.repeatMin ∧ diff ≤ info.repeatMax then .repeatMatch
    else repeatHasMatchRangeLoop info xs ring offset (List.range (xs.num - 1))

/-! ## BITMAP -/

/-- `repeatLastTopBitmap`: `0` once every top has expired. -/
def repeatLastTopBitmap (xs : RepeatControl) : Nat :=
  if xs.bitmap = 0 then 0 else xs.offset + 63 - clz64 xs.bitmap

/-- The loop of `repeatNextMatchBitmap` over the tops in `bitmap`, lowest first. -/
def repeatNextMatchBitmapLoop (info : RepeatInfo) (base offset : Nat) (bitmap : Nat) : Nat :=
  if h : bitmap = 0 then 0
  else
    let top := base + (findAndClearLSB64 bitmap).1
    if offset < top + info.repeatMin then top + info.repeatMin
    else if offset < top + info.repeatMax then offset + 1
    else repeatNextMatchBitmapLoop info base offset (findAndClearLSB64 bitmap).2
termination_by bitmap
decreasing_by exact lt_of_le_of_lt Nat.and_le_right (Nat.sub_lt (Nat.pos_of_ne_zero h) Nat.one_pos)

/-- `repeatNextMatchBitmap`. -/
def repeatNextMatchBitmap (info : RepeatInfo) (xs : RepeatControl) (offset : Nat) : Nat :=
  repeatNextMatchBitmapLoop info xs.offset offset xs.bitmap

/-- `repeatStoreBitmap`: the base moves up when the new top is more than
`repeatMax` past it, dropping the tops below it. -/
def repeatStoreBitmap (info : RepeatInfo) (xs : RepeatControl) (offset : Nat) (isAlive : Bool) :
    RepeatControl :=
  if !isAlive || xs.bitmap = 0 then { xs with offset := offset, bitmap := 1 }
  else
    let lastTop := xs.offset + 63 - clz64 xs.bitmap
    if offset > lastTop + info.repeatMax then { xs with offset := offset, bitmap := 1 } -- stale
    else
      let diff := offset - xs.offset
      let xs : RepeatControl :=
        if diff ≥ info.repeatMax + 1 then
          let push := diff - info.repeatMax
          { xs with offset := xs.offset + push, bitmap := if push ≥ 64 then 0 else xs.bitmap >>> push }
        else xs
      { xs with bitmap := xs.bitmap ||| u64 (1 <<< (offset - xs.offset)) }

/-- The loop of `repeatHasMatchBitmap` over the tops left in `bitmap`. -/
def repeatHasMatchBitmapLoop (info : RepeatInfo) (base offset : Nat) (bitmap : Nat) : RepeatMatch :=
  if bitmap = 0 then .repeatNomatch
  else
    let diff := offset - (base + (findAndClearLSB64 bitmap).1)
    if diff ≥ info.repeatMin ∧ diff ≤ info.repeatMax then .repeatMatch
    else repeatHasMatchBitmapLoop info base offset (findAndClearLSB64 bitmap).2
termination_by bitmap
decreasing_by exact lt_of_le_of_lt Nat.and_le_right (Nat.sub_lt (Nat.pos_of_ne_zero ‹_›) Nat.one_pos)

/-- `repeatHasMatchBitmap`: the last top, found with `findAndClearMSB_64`,
decides staleness; the others are tried from the lowest. -/
def repeatHasMatchBitmap (info : RepeatInfo) (xs : RepeatControl) (offset : Nat) : RepeatMatch :=
  if xs.bitmap = 0 then .repeatStale -- no tops
  else if offset - xs.offset < info.repeatMin then .repeatNomatch
  else
    let (msb, bitmap) := findAndClearMSB64 xs.bitmap
    let diff := offset - (xs.offset + msb)
    if diff > info.repeatMax then .repeatStale
    else if diff ≥ info.repeatMin ∧ diff ≤ info.repeatMax then .repeatMatch
    else repeatHasMatchBitmapLoop info xs.offset offset bitmap

/-! ## TRAILER -/

/-- `repeatLastTopTrailer`. -/
def repeatLastTopTrailer (info : RepeatInfo) (xs : RepeatControl) : Nat :=
  xs.offset - info.repeatMin

/-- `repeatNextMatchTrailer`. -/
def repeatNextMatchTrailer (info : RepeatInfo) (xs : RepeatControl) (offset : Nat) : Nat :=
  let mWidth := info.repeatMax - info.repeatMin
  if offset ≥ xs.offset + mWidth then 0
  else if offset ≥ xs.offset then offset + 1 -- inside the last match window
  else
    -- before the window: the earlier matches after `offset`
    let diff := xs.offset - offset
    let bitmap := if diff ≤ 64 then xs.bitmap &&& (u64 (1 <<< (diff - 1)) - 1) else xs.bitmap
    if bitmap ≠ 0 then xs.offset - (63 - clz64 bitmap) - 1 else xs.offset

/-- `mask_ones_to`: ones in bit positions `[0..v]`. -/
def maskOnesTo (v : Nat) : Nat := if v < 63 then 2 ^ (v + 1) - 1 else 2 ^ 64 - 1

/-- `repeatStoreTrailer`: the bitmap moves with the window's start and takes
the matches of the previous window; only `repeatMin + 1` bits of it are kept. -/
def repeatStoreTrailer (info : RepeatInfo) (xs : RepeatControl) (offset : Nat) (isAlive : Bool) :
    RepeatControl :=
  let nextExtent := offset + info.repeatMin
  if !isAlive then { xs with offset := nextExtent, bitmap := 0 }
  else
    let mWidth := info.repeatMax - info.repeatMin
    let diff := nextExtent - xs.offset
    let bitmap := if diff < 64 then u64 (xs.bitmap <<< diff) else 0
    let bitmap :=
      if diff ≤ mWidth then bitmap ||| maskOnesTo (diff - 1)
      else
        let shift := diff - mWidth - 1
        if shift < 64 then bitmap ||| u64 (maskOnesTo mWidth <<< shift) else bitmap
    -- only `repeatMin` bits of history are needed
    let bitmap := if info.repeatMin < 63 then bitmap &&& (2 ^ (info.repeatMin + 1) - 1) else bitmap
    { xs with offset := nextExtent, bitmap := bitmap }

/-- `repeatHasMatchTrailer`. -/
def repeatHasMatchTrailer (info : RepeatInfo) (xs : RepeatControl) (offset : Nat) : RepeatMatch :=
  let mWidth := info.repeatMax - info.repeatMin
  if offset > xs.offset + mWidth then .repeatStale
  else if offset ≥ xs.offset then .repeatMatch -- in the match window
  else if offset ≥ xs.offset - info.repeatMin then
    if xs.bitmap.testBit (xs.offset - offset - 1) then .repeatMatch else .repeatNomatch
  else .repeatNomatch

end Repeat
end Vectorscan
