import Vectorscan.Repeat.Info
import Vectorscan.Multibit.Update

/-!
# Bounded repeats: the RING model

`REPEAT_RING` tracks a `{N,M}` repeat by the offset of its oldest top and a
ring of `M + 1` bits, held in a multibit in stream state: bit `first + j`
(around the ring) is on when there was a top at `offset + j`.  The control
block keeps the ring's `first` and `last` indices as `u16`s.

**Model.**  The functions of `src/nfa/repeat.c` for the ring, over the
multibit model of `Multibit`: `repeatStoreRing` returns the new control block
and ring, the queries read them.  The ring index `first` is a `u16`, so
`xs->first += push` keeps the low sixteen bits of the sum before it is
brought back into the ring.

**Results.**  On a ring of more than `2^15` bits a store can push `first`
past `2^16`.  For the `{39000,40000}` repeat, which `chooseRepeatType` puts in
a ring, and the tops `0, 40000, 70000, 106000`, the ring then reports
`REPEAT_STALE` at an offset where the last top matches
(`repeatHasMatchRing_stale_at_match`) and a next match that no top makes
(`repeatNextMatchRing_skips_match`).
-/

namespace Vectorscan
namespace Repeat

open Multibit

/-- `ringCapacity`: one more than `repeatMax`, so that a top's trigger and
its position can overlap. -/
def ringCapacity (info : RepeatInfo) : Nat := info.repeatMax + 1

/-- `ringOccupancy`: equal indices mean a full ring. -/
def ringOccupancy (xs : RepeatControl) (ringSize : Nat) : Nat :=
  if xs.last > xs.first then xs.last - xs.first
  else ringSize - (xs.first - xs.last) -- wrapped

/-- `ringLastTop`: the offset of the last top in the ring. -/
def ringLastTop (xs : RepeatControl) (ringSize : Nat) : Nat :=
  xs.offset + ringOccupancy xs ringSize - 1

/-- `repeatLastTopRing`. -/
def repeatLastTopRing (info : RepeatInfo) (xs : RepeatControl) : Nat :=
  ringLastTop xs (ringCapacity info)

/-- The ring index `lower` places after `first`, with the source's single
subtraction for the wrap. -/
def ringIndex (first lower ringSize : Nat) : Nat :=
  if first + lower ≥ ringSize then first + lower - ringSize else first + lower

/-- `repeatNextMatchRing`: the ring is scanned from the first top that can
still match, to `last` or, when that wraps, to the end and then from `0`. -/
def repeatNextMatchRing (info : RepeatInfo) (xs : RepeatControl) (ring : Mem) (offset : Nat) : Nat :=
  let ringSize := ringCapacity info
  -- the next match, not this one
  let offset := offset + 1
  let baseOffset := xs.offset
  let delta := offset - baseOffset
  if offset < baseOffset ∨ delta < info.repeatMin then baseOffset + info.repeatMin
  else if offset > ringLastTop xs ringSize + info.repeatMax then 0 -- the ring is stale
  else
    let lower := if delta > info.repeatMax then delta - info.repeatMax else 0
    let begin := ringIndex xs.first lower ringSize
    let endIdx := if begin ≥ xs.last then ringSize else xs.last
    let i := mmbitIterateBounded ring ringSize begin endIdx
    if i ≠ mmbInvalid then max offset (baseOffset + (i - begin + lower) + info.repeatMin)
    else if begin ≥ xs.last then
      -- the second scan, past the wrap
      let i := mmbitIterateBounded ring ringSize 0 xs.last
      if i ≠ mmbInvalid then max offset (baseOffset + (i + (ringSize - begin) + lower) + info.repeatMin)
      else 0
    else 0

/-- `storeInitialRingTop`. -/
def storeInitialRingTop (xs : RepeatControl) (ring : Mem) (offset ringSize : Nat) :
    RepeatControl × Mem :=
  ({ xs with offset := offset, first := 0, last := 1 },
    (mmbitSet (mmbitClear ring ringSize) ringSize 0).1)

/-- `ringIsStale`: every top in the ring is too old to match. -/
def ringIsStale (xs : RepeatControl) (ringSize offset : Nat) : Bool :=
  decide (offset - ringLastTop xs ringSize ≥ ringSize)

/-- The expiry step of `repeatStoreRing`: when the new top is a whole ring
away from the oldest, the ring's start moves by `push`; `first` is a `u16`.
The result is the new `first`, base offset, distance and occupancy. -/
def ringPush (xs : RepeatControl) (ringSize diff occ : Nat) : Nat × Nat × Nat × Nat :=
  if diff ≥ ringSize then
    let push := diff - ringSize + 1
    let first := u16 (xs.first + push)
    let first := if first ≥ ringSize then first - ringSize else first
    (first, xs.offset + push, diff - push, occ - push)
  else (xs.first, xs.offset, diff, occ)

/-- `repeatStoreRing`: a run of zeroes from `last`, then a one for the new top. -/
def repeatStoreRing (info : RepeatInfo) (xs : RepeatControl) (ring : Mem) (offset : Nat)
    (isAlive : Bool) : RepeatControl × Mem :=
  let ringSize := ringCapacity info
  if !isAlive || ringIsStale xs ringSize offset then storeInitialRingTop xs ring offset ringSize
  else
    let occ := ringOccupancy xs ringSize
    let (first, base, diff, occ) := ringPush xs ringSize (offset - xs.offset) occ
    let n := diff - occ
    let i := xs.last + n
    let ring := mmbitUnsetRange ring ringSize xs.last (min i ringSize)
    let (ring, i) :=
      if i ≥ ringSize then (mmbitUnsetRange ring ringSize 0 (i - ringSize), i - ringSize) else (ring, i)
    let ring := (mmbitSet ring ringSize i).1
    let last := u16 (i + 1)
    let last := if last = ringSize then 0 else last
    ({ xs with offset := base, first := first, last := last }, ring)

/-- `ringHasMatch`: is a top at a ring position in `[lower, upper)` after `first`? -/
def ringHasMatch (xs : RepeatControl) (ring : Mem) (ringSize lower upper : Nat) : Bool :=
  let i := ringIndex xs.first lower ringSize
  -- a fixed repeat needs one bit
  if lower + 1 = upper then mmbitIsset ring ringSize i
  else
    let endIdx := ringIndex xs.first upper ringSize
    let scanEnd := if i < endIdx then endIdx else ringSize
    if mmbitIterateBounded ring ringSize i scanEnd ≠ mmbInvalid then true
    else if i ≥ endIdx then mmbitIterateBounded ring ringSize 0 endIdx ≠ mmbInvalid
    else false

/-- `repeatHasMatchRing`. -/
def repeatHasMatchRing (info : RepeatInfo) (xs : RepeatControl) (ring : Mem) (offset : Nat) :
    RepeatMatch :=
  let ringSize := ringCapacity info
  if offset - xs.offset < info.repeatMin then .repeatNomatch
  else if offset - ringLastTop xs ringSize ≥ ringSize then .repeatStale
  else
    let delta := offset - xs.offset
    let lower := if delta > info.repeatMax then delta - info.repeatMax else 0
    let upper := min (delta - info.repeatMin + 1) (ringOccupancy xs ringSize)
    if lower ≥ upper then .repeatNomatch
    else if ringHasMatch xs ring ringSize lower upper then .repeatMatch
    else .repeatNomatch

/-- Tops stored one after another by `repeatStoreRing`, each with its
`is_alive` flag. -/
def repeatStoreRingRun (info : RepeatInfo) : RepeatControl × Mem → List (Nat × Bool) → RepeatControl × Mem
  | s, [] => s
  | s, (offset, isAlive) :: tops => repeatStoreRingRun info (repeatStoreRing info s.1 s.2 offset isAlive) tops

/-- The `{39000,40000}` repeat that `chooseRepeatType` puts in a ring
(`repeatHasMatchRing_stale_at_match` checks the choice). -/
def ringWrapInfo : RepeatInfo := fillRepeatInfo .repeatRing (.finite 39000) (.finite 40000) 1

/-- Its control block and ring after the tops `0, 40000, 70000, 106000`. -/
def ringWrapRun : RepeatControl × Mem :=
  repeatStoreRingRun ringWrapInfo (⟨0, 0, 0, 0, 0⟩, fun _ => false)
    [(0, false), (40000, true), (70000, true), (106000, true)]

set_option maxRecDepth 100000 in
/-- The fourth store pushes `first` from `30000` by `36000`, past `2^16`: it
becomes `464` where the ring needs `25999`, and the ring's last top is no
longer the top just stored.  At `145000`, `39000` after that top, the ring
answers `REPEAT_STALE`. -/
theorem repeatHasMatchRing_stale_at_match :
    chooseRepeatType (.finite 39000) (.finite 40000) 1 false false = .repeatRing ∧
      ringWrapRun.1.first = 464 ∧ repeatLastTopRing ringWrapInfo ringWrapRun.1 = 91534 ∧
      39000 ≤ 145000 - 106000 ∧ 145000 - 106000 ≤ 40000 ∧
      repeatHasMatchRing ringWrapInfo ringWrapRun.1 ringWrapRun.2 145000 = .repeatStale := by
  decide

/-- In the same state the next match after `106000` is `109000`, `39000`
after the top at `70000`; the ring answers `130534`, which no top makes. -/
theorem repeatNextMatchRing_skips_match :
    39000 ≤ 109000 - 70000 ∧ 109000 - 70000 ≤ 40000 ∧
      repeatNextMatchRing ringWrapInfo ringWrapRun.1 ringWrapRun.2 106000 = 130534 := by
  decide +kernel

end Repeat
end Vectorscan
