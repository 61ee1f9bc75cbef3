import Vectorscan.Lib.Word

/-!
# Engine queues

The engines are driven through a queue of events (`struct mq`,
`src/nfa/nfa_api_queue.h`): a `START` at the location where the engine
resumes, tops that start repeats, and an `END`.  Locations are relative to
the queue's `offset`, the stream offset of the start of the current buffer,
and may be negative (in the history before it).

**Model.**  The queue keeps its items, its cursor `cur` and its end `qEnd`
(the source's `q->end`), the buffer and the flag `report_current`.  An
engine's callback is a predicate on the match `(offset, report)` that says
whether it answers `MO_HALT_MATCHING`; the matches an engine raises are kept
in the order it raises them.
-/

namespace Vectorscan
namespace Nfa

/-- `MQE_START`. -/
def mqeStart : Nat := 0

/-- `MQE_END`. -/
def mqeEnd : Nat := 1

/-- `MQE_TOP`. -/
def mqeTop : Nat := 2

/-- `MQE_TOP_FIRST`: multi-top engines number their tops from here. -/
def mqeTopFirst : Nat := 4

/-- `MO_DEAD`. -/
def moDead : Int := 0

/-- `MO_ALIVE`. -/
def moAlive : Int := 1

/-- `MO_HALT_MATCHING`. -/
def moHaltMatching : Int := 0

/-- `MO_CONTINUE_MATCHING`. -/
def moContinueMatching : Int := 1

/-- `MO_MATCHES_PENDING`. -/
def moMatchesPending : Int := -1

/-- `enum MatchMode` of the engines' queue loops. -/
inductive MatchMode
  | callbackOutput
  | stopAtMatch
  deriving DecidableEq, Repr

/-- `struct mq_item`. -/
structure MqItem where
  type : Nat
  location : Int
  deriving DecidableEq, Repr

/-- The fields of `struct mq` that the engines read and write. -/
structure Mq where
  items : List MqItem
  cur : Nat
  qEnd : Nat
  offset : Nat
  buffer : Nat → Nat
  length : Nat
  reportCurrent : Bool

namespace Mq

/-- `q->items[q->cur]`. -/
def curItem (q : Mq) : MqItem := q.items.getD q.cur ⟨mqeEnd, 0⟩

/-- `q_cur_type`. -/
def curType (q : Mq) : Nat := q.curItem.type

/-- `q_cur_loc`. -/
def curLoc (q : Mq) : Int := q.curItem.location

/-- `q_cur_offset`: the stream offset of the current item. -/
def curOffset (q : Mq) : Nat := ((q.offset : Int) + q.curLoc).toNat

/-- `q_last_loc`. -/
def lastLoc (q : Mq) : Int := (q.items.getD (q.qEnd - 1) ⟨mqeEnd, 0⟩).location

/-- `q->cur++`. -/
def advance (q : Mq) : Mq := { q with cur := q.cur + 1 }

/-- `q->cur--; q->items[q->cur] = {MQE_START, loc}`: the engine stops and
will resume at `loc`. -/
def resumeAt (q : Mq) (loc : Int) : Mq :=
  { q with cur := q.cur - 1, items := q.items.set (q.cur - 1) ⟨mqeStart, loc⟩ }

/-- A queue over `buffer` at stream offset `0`, with the events `items`. -/
def ofItems (items : List MqItem) (buffer : Nat → Nat) (length : Nat) : Mq :=
  { items := items, cur := 0, qEnd := items.length, offset := 0, buffer := buffer, length := length,
    reportCurrent := false }

end Mq

end Nfa
end Vectorscan
