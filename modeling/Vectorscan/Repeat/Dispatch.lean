import Vectorscan.Repeat.Models
import Vectorscan.Repeat.Sparse

/-!
# Bounded repeats: the dispatch of `repeat.h`

The engines that hold bounded repeats (the LBR, the Castle, the LimEx NFA)
call four entry points of `src/nfa/repeat.h`; each switches on the model the
compiler chose and calls the model's own function.

**Model.**  A repeat is its control block and its stream state (`Mem`, the
bytes after the packed control block).  `repeatStore` returns both; the
models that keep no stream state (FIRST, LAST, BITMAP, TRAILER, ALWAYS) hand
the stream state back as it was.

**Specification.**  A repeat `{repeatMin, repeatMax}` whose tops since it was
last started are `tops` matches at `o` when some top `t` has
`repeatMin ≤ o - t ≤ repeatMax` (no upper bound for `REPEAT_INF`):
`InWindow`.  It is the window against which the LBR's and the Castle's
reports are measured (`Lbr.Runtime`, `Castle.Runtime`).

**Results.**  `repeatLastTop_ring_after_push`: a ring of more than `2 ^ 15`
entries can report a last top that was never stored.
-/

namespace Vectorscan
namespace Repeat

/-- `repeatLastTop`. -/
def repeatLastTop (info : RepeatInfo) (ctrl : RepeatControl) (state : Mem) : Nat :=
  match info.type with
  | .repeatRing => repeatLastTopRing info ctrl
  | .repeatFirst | .repeatLast => ctrl.offset
  | .repeatRange => repeatLastTopRange ctrl state
  | .repeatBitmap => repeatLastTopBitmap ctrl
  | .repeatSparseOptimalP => repeatLastTopSparseOptimalP info ctrl state
  | .repeatTrailer => repeatLastTopTrailer info ctrl
  | .repeatAlways => 0

/-- `repeatNextMatch`: the offset of the next match after `offset`, or `0`
when no further match is possible. -/
def repeatNextMatch (info : RepeatInfo) (ctrl : RepeatControl) (state : Mem) (offset : Nat) : Nat :=
  match info.type with
  | .repeatRing => repeatNextMatchRing info ctrl state offset
  | .repeatFirst | .repeatLast => repeatNextMatchOffset info ctrl offset
  | .repeatRange => repeatNextMatchRange info ctrl state offset
  | .repeatBitmap => repeatNextMatchBitmap info ctrl offset
  | .repeatSparseOptimalP => repeatNextMatchSparseOptimalP info ctrl state offset
  | .repeatTrailer => repeatNextMatchTrailer info ctrl offset
  | .repeatAlways => offset + 1

/-- `repeatStore`: a new top at `offset`; with `isAlive` false the repeat
starts over with this top alone. -/
def repeatStore (info : RepeatInfo) (ctrl : RepeatControl) (state : Mem) (offset : Nat)
    (isAlive : Bool) : RepeatControl × Mem :=
  match info.type with
  | .repeatRing => repeatStoreRing info ctrl state offset isAlive
  | .repeatFirst => (repeatStoreFirst ctrl offset isAlive, state)
  | .repeatLast => (repeatStoreLast ctrl offset, state)
  | .repeatRange => repeatStoreRange info ctrl state offset isAlive
  | .repeatBitmap => (repeatStoreBitmap info ctrl offset isAlive, state)
  | .repeatSparseOptimalP => repeatStoreSparseOptimalP info ctrl state offset isAlive
  | .repeatTrailer => (repeatStoreTrailer info ctrl offset isAlive, state)
  -- no state
  | .repeatAlways => (ctrl, state)

/-- `repeatHasMatch`. -/
def repeatHasMatch (info : RepeatInfo) (ctrl : RepeatControl) (state : Mem) (offset : Nat) :
    RepeatMatch :=
  match info.type with
  | .repeatRing => repeatHasMatchRing info ctrl state offset
  | .repeatFirst => repeatHasMatchFirst info ctrl offset
  | .repeatLast => repeatHasMatchLast info ctrl offset
  | .repeatRange => repeatHasMatchRange info ctrl state offset
  | .repeatBitmap => repeatHasMatchBitmap info ctrl offset
  | .repeatSparseOptimalP => repeatHasMatchSparseOptimalP info ctrl state offset
  | .repeatTrailer => repeatHasMatchTrailer info ctrl offset
  | .repeatAlways => .repeatMatch

/-- Tops stored one after another by `repeatStore`, each with its
`is_alive` flag. -/
def repeatStoreRun (info : RepeatInfo) : RepeatControl × Mem → List (Nat × Bool) → RepeatControl × Mem
  | s, [] => s
  | s, (offset, isAlive) :: tops => repeatStoreRun info (repeatStore info s.1 s.2 offset isAlive) tops

set_option maxRecDepth 100000 in
/-- **The ring forgets its last top.**  For the `{39000,40000}` repeat, which
`chooseRepeatType` puts in a ring, after the tops `0, 40000, 70000, 106000`
`repeatLastTop` answers `91534`, not `106000`: the fourth store pushed the
`u16` index `first` past `2 ^ 16`, so the occupancy it reads is short. -/
theorem repeatLastTop_ring_after_push :
    chooseRepeatType (.finite 39000) (.finite 40000) 1 false false = .repeatRing ∧
      repeatLastTop ringWrapInfo
        (repeatStoreRun ringWrapInfo (⟨0, 0, 0, 0, 0⟩, fun _ => false)
          [(0, false), (40000, true), (70000, true), (106000, true)]).1
        (repeatStoreRun ringWrapInfo (⟨0, 0, 0, 0, 0⟩, fun _ => false)
          [(0, false), (40000, true), (70000, true), (106000, true)]).2 = 91534 := by
  decide

/-! ## What a repeat is for -/

/-- Offset `o` is in the match window of the top `t`. -/
def InWindow (info : RepeatInfo) (t o : Nat) : Prop :=
  t + info.repeatMin ≤ o ∧ (info.repeatMax = repeatInf ∨ o ≤ t + info.repeatMax)

instance (info : RepeatInfo) (t o : Nat) : Decidable (InWindow info t o) :=
  inferInstanceAs (Decidable (t + info.repeatMin ≤ o ∧ (info.repeatMax = repeatInf ∨ o ≤ t + info.repeatMax)))

/-- The models that keep no stream state leave it as it was. -/
theorem repeatStore_snd_of_stateless (info : RepeatInfo) (ctrl : RepeatControl) (state : Mem)
    (offset : Nat) (isAlive : Bool)
    (h : info.type ≠ .repeatRing ∧ info.type ≠ .repeatRange ∧ info.type ≠ .repeatSparseOptimalP) :
    (repeatStore info ctrl state offset isAlive).2 = state := by
  obtain ⟨h1, h2, h3⟩ := h
  unfold repeatStore
  split <;> first | rfl | contradiction

end Repeat
end Vectorscan
