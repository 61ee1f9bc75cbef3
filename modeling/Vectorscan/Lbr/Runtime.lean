import Vectorscan.Repeat.Dispatch
import Vectorscan.Repeat.Period
import Vectorscan.Nfa.Queue
import Vectorscan.Nfa.Scan

/-!
# The LBR engine

A Large Bounded Repeat engine (`src/nfa/lbr.c`, `lbr_common_impl.h`) runs
one repeat `x{N,M}` of a byte class: each top is a trigger that just ended,
and the engine reports every offset that some top's window
`[t + N, t + M]` covers, as long as no byte outside the class (an escape)
came between the top and the offset.

**Model.**  The builder of `ng_lbr.cpp` picks the engine by the class (a dot
that nothing kills, a single escape byte, a single byte that is not an
escape, or a class for shufti or truffle) and the repeat model by
`chooseRepeatType`, with the triggers' `minPeriod`.  The runtime keeps the
source's loops over the queue (`_Q_i`, `_TopScan`) and over the repeat's
matches (`lbrMatchLoop`), each on a fuel argument that the queue's length
or the scanned range bounds; they return `none` only if the fuel runs out.
The SIMD scanners are those of `Nfa.Scan`.  `lbr_state` is the engine's full state; the
repeat's stream state is the memory after its packed control block.

**Results.**  `nfaExecLbrQ_reports_outside_window`: a dot LBR `{40000,40000}`
built for the one-byte trigger `a` gets the RING model, and after the tops
`1, 40001, 70001, 106001` it reports a match at an offset that no top's
window covers, and none of the matches of the last two tops: the ring
index `first` wraps its `u16` on the fourth store (`Repeat.Ring`).
-/

namespace Vectorscan
namespace Lbr

open Repeat Nfa

/-! ## Construction (`ng_lbr.cpp`) -/

/-- The five LBR engines (`LBR_NFA_DOT` ... `LBR_NFA_TRUF`), each with what
its scans look for. -/
inductive LbrType
  | lbrNfaDot
  | lbrNfaVerm (c : Nat)
  | lbrNfaNVerm (c : Nat)
  | lbrNfaShuf (escapes : CharReach)
  | lbrNfaTruf (escapes : CharReach)
  deriving DecidableEq, Repr

/-- An LBR: its engine, the `lbr_common` report and the `RepeatInfo` after it. -/
structure LbrNfa where
  type : LbrType
  report : Nat
  info : RepeatInfo

/-- The static `constructLBR`: the first of `buildLbrDot`, `buildLbrVerm`,
`buildLbrNVerm`, `buildLbrShuf` and `buildLbrTruf` that takes the class. -/
def constructLBR (cr : CharReach) (repeatMin repeatMax : Depth) (minPeriod : Nat) (isReset : Bool)
    (report : Nat) : LbrNfa :=
  let rtype := chooseRepeatType repeatMin repeatMax minPeriod isReset false
  let type :=
    if crAll cr then .lbrNfaDot
    else if crCount (crNot cr) = 1 then .lbrNfaVerm (crFindFirst (crNot cr))
    else if crCount cr = 1 then .lbrNfaNVerm (crFindFirst cr)
    else if shuftiBuildable (crNot cr) then .lbrNfaShuf (crNot cr)
    else .lbrNfaTruf (crNot cr)
  { type := type, report := report, info := fillRepeatInfo rtype repeatMin repeatMax minPeriod }

/-- `constructLBR` for the repeat of a `CastleProto` with one report, and the
triggers it was found with. -/
def constructLBRProto (cr : CharReach) (repeatMin repeatMax : Depth) (report : Nat)
    (triggers : List (List CharReach)) : LbrNfa :=
  let (period, isReset) := minPeriod triggers cr
  -- a trigger longer than the repeat: only one offset is needed
  let isReset := if repeatMax.ltNat period then true else isReset
  constructLBR cr repeatMin repeatMax period isReset report

/-! ## The scans -/

/-- `FWDSCAN_FN` of each engine: the first escape in `[begin, end)`. -/
def lbrFwdScan (type : LbrType) (buf : Nat → Nat) (begin endIdx : Nat) : Option Nat :=
  match type with
  -- nothing can kill a dot
  | .lbrNfaDot => none
  | .lbrNfaVerm c => if begin = endIdx then none else vermicelliExec c buf begin endIdx
  | .lbrNfaNVerm c => if begin = endIdx then none else nvermicelliExec c buf begin endIdx
  | .lbrNfaShuf escapes => if begin = endIdx then none else shuftiExec escapes buf begin endIdx
  | .lbrNfaTruf escapes => if begin = endIdx then none else truffleExec escapes buf begin endIdx

/-- `REVSCAN_FN` of each engine: the last escape in `[begin, end)`. -/
def lbrRevScan (type : LbrType) (buf : Nat → Nat) (begin endIdx : Nat) : Option Nat :=
  match type with
  | .lbrNfaDot => none
  | .lbrNfaVerm c => if begin = endIdx then none else rvermicelliExec c buf begin endIdx
  | .lbrNfaNVerm c => if begin = endIdx then none else rnvermicelliExec c buf begin endIdx
  | .lbrNfaShuf escapes => if begin = endIdx then none else rshuftiExec escapes buf begin endIdx
  | .lbrNfaTruf escapes => if begin = endIdx then none else rtruffleExec escapes buf begin endIdx

/-! ## The repeat inside the engine (`lbr.c`) -/

/-- `REPEAT_DEAD`: the offset of a repeat that has been cleared. -/
def repeatDead : Nat := 0xffffffffffffffff

/-- `struct lbr_state`. -/
structure LbrState where
  lastEscape : Nat
  ctrl : RepeatControl
  deriving DecidableEq, Repr

/-- `clearRepeat`: every model's control block begins with its `offset`. -/
def clearRepeat (lstate : LbrState) : LbrState :=
  { lstate with ctrl := { lstate.ctrl with offset := repeatDead } }

/-- `repeatIsDead`. -/
def repeatIsDead (info : RepeatInfo) (lstate : LbrState) : Bool :=
  match info.type with
  | .repeatAlways => false
  | _ => lstate.ctrl.offset = repeatDead

/-- `lbrIsAlive`: can the repeat still match after `offset`? -/
def lbrIsAlive (l : LbrNfa) (lstate : LbrState) (state : Mem) (offset : Nat) : Bool :=
  if repeatIsDead l.info lstate then false
  else if l.info.repeatMax = repeatInf then true
  else decide (offset < repeatLastTop l.info lstate.ctrl state + l.info.repeatMax)

/-- `lbrTop`: a top at `offset`; a second top at the last top's offset is ignored. -/
def lbrTop (l : LbrNfa) (lstate : LbrState) (state : Mem) (offset : Nat) : LbrState × Mem :=
  let isAlive := !repeatIsDead l.info lstate
  if isAlive && repeatLastTop l.info lstate.ctrl state = offset then (lstate, state)
  else
    let (ctrl, state) := repeatStore l.info lstate.ctrl state offset isAlive
    ({ lstate with ctrl := ctrl }, state)

/-- `lbrFindMatch`: the next match in `(begin, end]`, as its distance from `begin`. -/
def lbrFindMatch (l : LbrNfa) (begin endOff : Nat) (lstate : LbrState) (state : Mem) : Option Nat :=
  if begin = endOff then none
  else
    let i := repeatNextMatch l.info lstate.ctrl state begin
    if i = 0 ∨ i > endOff then none else some (i - begin)

/-- The loop of `lbrMatchLoop` after `i`: each match up to `end` is raised
until a callback halts; `fuel` bounds the passes. -/
def lbrMatchLoopFrom (l : LbrNfa) (lstate : LbrState) (state : Mem) (endOff : Nat)
    (cb : Nat → Nat → Bool) : Nat → Nat → List (Nat × Nat) → Option (Int × List (Nat × Nat))
  | 0, _, _ => none
  | fuel + 1, i, fired =>
      let i := repeatNextMatch l.info lstate.ctrl state i
      if i = 0 ∨ i > endOff then some (moContinueMatching, fired)
      else if cb i l.report then some (moHaltMatching, fired ++ [(i, l.report)])
      else lbrMatchLoopFrom l lstate state endOff cb fuel i (fired ++ [(i, l.report)])

/-- `lbrMatchLoop`: the matches in `(begin, end]`. -/
def lbrMatchLoop (l : LbrNfa) (begin endOff : Nat) (lstate : LbrState) (state : Mem)
    (cb : Nat → Nat → Bool) (fired : List (Nat × Nat)) : Option (Int × List (Nat × Nat)) :=
  if begin = endOff then some (moContinueMatching, fired)
  else lbrMatchLoopFrom l lstate state endOff cb (endOff - begin + 1) begin fired

/-! ## The queue (`lbr_common_impl.h`) -/

/-- What the queue functions change: the queue, `q->state`, the repeat's
stream state, and the matches raised so far. -/
structure LbrRun where
  q : Mq
  lstate : LbrState
  state : Mem
  fired : List (Nat × Nat)

/-- `_queueInitState`. -/
def nfaExecLbrQueueInitState (lstate : LbrState) : LbrState :=
  clearRepeat { lstate with lastEscape := 0 }

/-- The `for` loop of `_TopScan`: from `q->cur`, the first top at or after
`lastEscape` among the events up to `end`; `false` when there is none. -/
def lbrTopScanFor (endLoc : Int) (lastEscape : Nat) : Nat → Mq → Bool × Mq
  | 0, q => (false, q)
  | fuel + 1, q =>
      if q.cur < q.qEnd ∧ q.curLoc ≤ endLoc then
        if (q.curType = mqeTop ∨ q.curType = mqeTopFirst) ∧ lastEscape ≤ q.curOffset then (true, q)
        else lbrTopScanFor endLoc lastEscape fuel q.advance
      else (false, q)

/-- The `while` loop of `_TopScan`, for a dead repeat: a top whose first
match an escape already kills is skipped; the first that survives is
stored. -/
def nfaExecLbrTopScanLoop (l : LbrNfa) (endLoc : Int) : Nat → LbrRun → Bool × LbrRun
  | 0, r => (false, r)
  | fuel + 1, r =>
      let (found, q) := lbrTopScanFor endLoc r.lstate.lastEscape (r.q.qEnd - r.q.cur + 1) r.q
      if !found then (false, { r with q := q })
      else
        let sp := q.curOffset
        let firstMatch := sp + l.info.repeatMin
        let ep := min ((min endLoc (q.length : Int)) + q.offset).toNat firstMatch
        let esc := if ep > sp ∧ sp ≥ q.offset then lbrRevScan l.type q.buffer (sp - q.offset) (ep - q.offset)
          else none
        match esc with
        | some eloc =>
            nfaExecLbrTopScanLoop l endLoc fuel { r with q := q.advance, lstate := { r.lstate with lastEscape := eloc } }
        | none =>
            let (lstate, state) := lbrTop l r.lstate r.state sp
            (true, { r with q := q, lstate := lstate, state := state })

/-- `_TopScan`. -/
def nfaExecLbrTopScan (l : LbrNfa) (endLoc : Int) (r : LbrRun) : Bool × LbrRun :=
  nfaExecLbrTopScanLoop l endLoc (r.q.qEnd - r.q.cur + 1) r

/-- The scan of `[sp, ep)` in the loop of `_Q_i`, for a live repeat: the
first escape ends the range and clears the repeat after its matches are
raised; in `STOP_AT_MATCH` mode the first match is left pending instead.
`.inl` is a return from `_Q_i`. -/
def lbrScanGap (l : LbrNfa) (endLoc : Int) (mode : MatchMode) (cb : Nat → Nat → Bool) (sp : Nat)
    (r : LbrRun) : Option ((Int × LbrRun) ⊕ LbrRun) :=
  let ep := min r.q.curOffset ((r.q.offset : Int) + endLoc).toNat
  if sp < ep then
    let esc := lbrFwdScan l.type r.q.buffer (sp - r.q.offset) (ep - r.q.offset)
    let ep := match esc with
      | some eloc => r.q.offset + eloc
      | none => ep
    let afterEscape (r : LbrRun) : LbrRun := if esc.isSome then { r with lstate := clearRepeat r.lstate } else r
    match mode with
    | .stopAtMatch =>
        match lbrFindMatch l sp ep r.lstate r.state with
        | some mloc => some (.inl (moMatchesPending, { r with q := r.q.resumeAt ((sp : Int) - r.q.offset + mloc) }))
        | none => some (.inr (afterEscape r))
    | .callbackOutput =>
        match lbrMatchLoop l sp ep r.lstate r.state cb r.fired with
        | none => none
        | some (rv, fired) =>
            if rv = moHaltMatching then some (.inl (moHaltMatching, { r with fired := fired }))
            else some (.inr (afterEscape { r with fired := fired }))
  else some (.inr r)

/-- The rest of a pass of `_Q_i` (`scan_done`): stop past `end`, look for a
top that survives while the repeat is dead, or store the current top. -/
def lbrScanDone (l : LbrNfa) (endLoc : Int) (r : LbrRun) : (Int × LbrRun) ⊕ LbrRun :=
  if r.q.curLoc > endLoc then .inl (moAlive, { r with q := r.q.resumeAt endLoc })
  else if repeatIsDead l.info r.lstate then
    let (found, r) := nfaExecLbrTopScan l endLoc r
    if found then .inr r
    else if r.q.cur < r.q.qEnd ∧ r.q.curLoc > endLoc then .inl (moAlive, { r with q := r.q.resumeAt endLoc })
    else .inl (0, r)
  else if r.q.curType = mqeTop ∨ r.q.curType = mqeTopFirst then
    let (lstate, state) := lbrTop l r.lstate r.state r.q.curOffset
    .inr { r with lstate := lstate, state := state }
  -- `MQE_START`, `MQE_END`
  else .inr r

/-- The loop of `_Q_i` over the queue, from the offset `sp` of the last
event; every pass moves the cursor on. -/
def nfaExecLbrQiLoop (l : LbrNfa) (endLoc : Int) (mode : MatchMode) (cb : Nat → Nat → Bool) :
    Nat → Nat → LbrRun → Option (Int × LbrRun)
  | 0, _, _ => none
  | fuel + 1, sp, r =>
      if r.q.cur < r.q.qEnd then
        let scanned := if repeatIsDead l.info r.lstate then some (.inr r) else lbrScanGap l endLoc mode cb sp r
        match scanned with
        | none => none
        | some (.inl res) => some res
        | some (.inr r) =>
            match lbrScanDone l endLoc r with
            | .inl res => some res
            | .inr r => nfaExecLbrQiLoop l endLoc mode cb fuel r.q.curOffset { r with q := r.q.advance }
      else some (if lbrIsAlive l r.lstate r.state sp then moAlive else moDead, r)

/-- `_Q_i`: a pending `report_current` first, then the events from the
queue's `START` on, up to the location `end`. -/
def nfaExecLbrQi (l : LbrNfa) (endLoc : Int) (mode : MatchMode) (cb : Nat → Nat → Bool) (r : LbrRun) :
    Option (Int × LbrRun) :=
  let (halt, r) :=
    if r.q.reportCurrent then
      (cb r.q.curOffset l.report,
        { r with fired := r.fired ++ [(r.q.curOffset, l.report)], q := { r.q with reportCurrent := false } })
    else (false, r)
  if halt then some (moHaltMatching, r)
  else if r.q.cur = r.q.qEnd then some (1, r)
  else nfaExecLbrQiLoop l endLoc mode cb (r.q.qEnd + 1) r.q.curOffset { r with q := r.q.advance }

/-- `_Q`. -/
def nfaExecLbrQ (l : LbrNfa) (endLoc : Int) (cb : Nat → Nat → Bool) (r : LbrRun) : Option (Int × LbrRun) :=
  nfaExecLbrQi l endLoc .callbackOutput cb r

/-- `_Q2`. -/
def nfaExecLbrQ2 (l : LbrNfa) (endLoc : Int) (cb : Nat → Nat → Bool) (r : LbrRun) : Option (Int × LbrRun) :=
  nfaExecLbrQi l endLoc .stopAtMatch cb r

/-! ## A ring that wraps -/

/-- A dot LBR `{40000,40000}` built for the one-byte trigger `a`, report `0`. -/
def lbrWrapNfa : LbrNfa := constructLBRProto (2 ^ 256 - 1) (.finite 40000) (.finite 40000) 0 [[2 ^ 97]]

/-- A buffer with the trigger `a` at the bytes `0, 40000, 70000, 106000`. -/
def lbrWrapBuf (i : Nat) : Nat := if i = 0 ∨ i = 40000 ∨ i = 70000 ∨ i = 106000 then 97 else 98

/-- The tops at the ends of those triggers, and the end of the buffer. -/
def lbrWrapQueue : Mq :=
  Mq.ofItems [⟨mqeStart, 0⟩, ⟨mqeTop, 1⟩, ⟨mqeTop, 40001⟩, ⟨mqeTop, 70001⟩, ⟨mqeTop, 106001⟩,
    ⟨mqeEnd, 150000⟩] lbrWrapBuf 150000

/-- The engine after `_queueInitState`, on a stream state of any contents. -/
def lbrWrapRun : LbrRun :=
  ⟨lbrWrapQueue, nfaExecLbrQueueInitState ⟨0, ⟨0, 0, 0, 0, 0⟩⟩, fun _ => false, []⟩

/-- The matches of the four tops are `40001, 80001, 110001, 146001`; the
engine raises `40001, 80001, 131535` and then reports itself dead. -/
theorem nfaExecLbrQ_reports_outside_window :
    lbrWrapNfa.type = .lbrNfaDot ∧ lbrWrapNfa.info.type = .repeatRing ∧
      (∀ t ∈ [1, 40001, 70001, 106001], lbrWrapBuf (t - 1) = 97) ∧
      (nfaExecLbrQ lbrWrapNfa 150000 (fun _ _ => false) lbrWrapRun).map (fun x => x.1) = some moDead ∧
      (nfaExecLbrQ lbrWrapNfa 150000 (fun _ _ => false) lbrWrapRun).map (fun x => x.2.fired) =
        some [(40001, 0), (80001, 0), (131535, 0)] ∧
      (∀ t ∈ [1, 40001, 70001, 106001], ¬ InWindow lbrWrapNfa.info t 131535) ∧
      InWindow lbrWrapNfa.info 70001 110001 ∧ InWindow lbrWrapNfa.info 106001 146001 := by
  decide +kernel

end Lbr
end Vectorscan
