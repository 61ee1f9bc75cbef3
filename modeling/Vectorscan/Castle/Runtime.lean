import Vectorscan.Repeat.Dispatch
import Vectorscan.Repeat.Period
import Vectorscan.Nfa.Queue
import Vectorscan.Nfa.Scan
import Vectorscan.Multibit.ForEach
import Vectorscan.Multibit.Update

/-!
# The Castle engine

A Castle (`src/nfa/castle.c`, `castlecompile.cpp`) runs several bounded
repeats of one byte class side by side, each with its own tops (the events
`MQE_TOP_FIRST + i`) and its own report.  A multibit in stream state says
which repeats are active; repeats whose triggers cannot overlap are put in
exclusive groups that share one control block and one stream state, with
the index of the member that last had a top.

**Model.**  `buildCastle` follows `castlecompile.cpp` for the scan engine,
the repeat models (`chooseRepeatType` with an external guard) and the
exclusive groups; the groups themselves are the cliques that
`checkExclusion` found in its graph of exclusive triggers, which
`buildCastle` takes as an argument (`Castle/Exclusive.lean` models
`checkExclusion` and its cliques).  The state layout is kept by region rather than by byte
offset: `CastleState` holds the `matching` multibit and the control blocks
of the full state, and the active-index array, the active and group
multibits and the repeats' stream states; a repeat's `slot` is its
`fullStateOffset`/`streamStateOffset`, shared by the members of a group.
The loops over a multibit are `mmbitForEach`, the loops over the queue and
the match loop keep the source's control flow on a fuel argument.

**Results.**  `nfaExecCastleQ_reports_outside_window`: a castle of one dot
repeat `{40000,40000}` with the trigger `a` gets the RING model and, after
the tops `1, 40001, 70001, 106001`, raises a match that no top makes and
misses the last two tops' matches.
-/

namespace Vectorscan
namespace Nfa

open Repeat Multibit

/-! ## The engine and its construction -/

/-- `CASTLE_DOT` ... `CASTLE_TRUFFLE`, with what each scan looks for. -/
inductive CastleType
  | castleDot
  | castleVerm (c : Nat)
  | castleNVerm (c : Nat)
  | castleShufti (escapes : CharReach)
  | castleTruffle (escapes : CharReach)
  deriving DecidableEq, Repr

/-- `enum ExclusiveType`. -/
inductive ExclusiveType
  | notExclusive
  | exclusive
  | pureExclusive
  deriving DecidableEq, Repr

/-- `struct SubCastle` with the `RepeatInfo` it points to. -/
structure SubCastle where
  report : Nat
  slot : Nat
  exclusiveId : Nat
  info : RepeatInfo

/-- `struct Castle` with its subcastles. -/
structure Castle where
  numRepeats : Nat
  numGroups : Nat
  type : CastleType
  exclusive : ExclusiveType
  activeIdxSize : Nat
  subs : List SubCastle

/-- `getSubCastle`. -/
def getSubCastle (c : Castle) (num : Nat) : SubCastle :=
  c.subs.getD num ⟨0, 0, c.numRepeats, fillRepeatInfo .repeatAlways (.finite 0) (.finite 0) 0⟩

/-- `c->exclusive` as a truth value. -/
def isExclusive (c : Castle) : Bool := c.exclusive ≠ .notExclusive

/-- `writeCastleScanEngine`. -/
def writeCastleScanEngine (cr : CharReach) : CastleType :=
  if crAll cr then .castleDot
  else if crCount cr = 1 then .castleNVerm (crFindFirst cr)
  else if crCount (crNot cr) = 1 then .castleVerm (crFindFirst (crNot cr))
  else if shuftiBuildable (crNot cr) then .castleShufti (crNot cr)
  else .castleTruffle (crNot cr)

/-- A repeat of a `CastleProto`: its bounds and its one report. -/
structure PureRepeat where
  repeatMin : Depth
  repeatMax : Depth
  report : Nat

/-- The period of repeat `top`'s triggers and its `is_reset` (`buildCastle`). -/
def castleRepeatPeriod (cr : CharReach) (pr : PureRepeat) (triggers : List (List CharReach)) : Nat × Bool :=
  let (period, isReset) := minPeriod triggers cr
  -- a trigger longer than the repeat: only one offset is needed
  (period, if pr.repeatMax.ltNat period then true else isReset)

/-- `buildCastle` for the repeats `repeats` of the class `cr`, numbered by
their tops, with the triggers of each top and the exclusive cliques that
`checkExclusion` found. -/
def buildCastle (cr : CharReach) (repeats : List PureRepeat) (triggers : Nat → List (List CharReach))
    (cliques : List (List Nat)) : Castle :=
  let numRepeats := repeats.length
  let groups := cliques.filter fun g => 1 < g.length
  let total := (groups.map List.length).sum
  let excl : ExclusiveType :=
    if total = numRepeats then .pureExclusive else if groups = [] then .notExclusive else .exclusive
  -- `exclusiveInfo.groupId`, filled group by group
  let groupId : Nat → Option Nat := groups.zipIdx.foldl
    (fun m gi => fun t => if gi.1.contains t then some gi.2 else m t) fun _ => none
  let sub (i : Nat) (pr : PureRepeat) : SubCastle :=
    let (period, isReset) := castleRepeatPeriod cr pr (triggers i)
    let rtype := chooseRepeatType pr.repeatMin pr.repeatMax period isReset true
    -- the members of a group share the group's state
    { report := pr.report, slot := (groupId i).elim i (numRepeats + ·),
      exclusiveId := (groupId i).getD numRepeats,
      info := fillRepeatInfo rtype pr.repeatMin pr.repeatMax period }
  { numRepeats := numRepeats, numGroups := groups.length, type := writeCastleScanEngine cr,
    exclusive := excl,
    activeIdxSize := if groups = [] then 0 else calcPackedBytes (numRepeats + 1),
    subs := (List.range numRepeats).zipWith sub repeats }

/-! ## The state -/

/-- The full state (`q->state`: the `matching` multibit and the control
blocks) and the stream state (`q->streamState`: the active index of each
group, the active and group multibits, and each slot's repeat state). -/
structure CastleState where
  matching : Mem
  ctrl : Nat → RepeatControl
  activeIdx : Nat → Nat
  active : Mem
  groups : Mem
  rstate : Nat → Mem

namespace CastleState

/-- A new control block and repeat state for `slot`. -/
def setSlot (st : CastleState) (slot : Nat) (ctrl : RepeatControl) (rstate : Mem) : CastleState :=
  { st with ctrl := fun s => if s = slot then ctrl else st.ctrl s,
            rstate := fun s => if s = slot then rstate else st.rstate s }

/-- `partial_store_u32(active + id * activeIdxSize, top, activeIdxSize)`. -/
def setActiveIdx (st : CastleState) (id top size : Nat) : CastleState :=
  { st with activeIdx := fun g => if g = id then top % 2 ^ (8 * size) else st.activeIdx g }

end CastleState

/-- `castleProcessTop`: a top for repeat `top` at `offset`; a repeat of a
group is alive only if it was the group's last. -/
def castleProcessTop (c : Castle) (top offset : Nat) (st : CastleState) : CastleState :=
  let sub := getSubCastle c top
  let (isAlive, st) :=
    if sub.exclusiveId < c.numRepeats then
      let (groups, wasSet) := mmbitSet st.groups c.numGroups sub.exclusiveId
      let isAlive := wasSet && st.activeIdx sub.exclusiveId = top
      let st := { st with groups := groups }
      (isAlive, if isAlive then st else st.setActiveIdx sub.exclusiveId top c.activeIdxSize)
    else
      let (active, wasSet) := mmbitSet st.active c.numRepeats top
      (wasSet, { st with active := active })
  let rctrl := st.ctrl sub.slot
  let rstate := st.rstate sub.slot
  -- a duplicate top
  if isAlive && repeatLastTop sub.info rctrl rstate = offset then st
  else
    let (rctrl, rstate) := repeatStore sub.info rctrl rstate offset isAlive
    st.setSlot sub.slot rctrl rstate

/-- `subCastleNextMatch`. -/
def subCastleNextMatch (c : Castle) (st : CastleState) (loc subIdx : Nat) : Nat :=
  let sub := getSubCastle c subIdx
  repeatNextMatch sub.info (st.ctrl sub.slot) (st.rstate sub.slot) loc

/-- `subCastleFindMatch`: the earliest match in `(begin, end]` so far, as a
distance from `begin`; a repeat with no further match is switched off. -/
def subCastleFindMatch (c : Castle) (begin endOff : Nat) (st : CastleState) (mloc : Option Nat)
    (subIdx : Nat) : CastleState × Option Nat :=
  let sub := getSubCastle c subIdx
  let m := subCastleNextMatch c st begin subIdx
  if m = 0 then
    if sub.exclusiveId < c.numRepeats then ({ st with groups := mmbitUnset st.groups c.numGroups sub.exclusiveId }, mloc)
    else ({ st with active := mmbitUnset st.active c.numRepeats subIdx }, mloc)
  else if m > endOff then (st, mloc)
  else
    match mloc with
    | some d => (st, some (min d (m - begin)))
    | none => (st, some (m - begin))

/-- `castleFindMatch`, over the groups and then over the active repeats. -/
def castleFindMatch (c : Castle) (begin endOff : Nat) (st : CastleState) : CastleState × Option Nat :=
  if begin = endOff then (st, none)
  else
    let step (subIdxOf : CastleState → Nat → Nat) (acc : CastleState × Option Nat) (i : Nat) :
        Bool × (CastleState × Option Nat) :=
      (false, subCastleFindMatch c begin endOff acc.1 acc.2 (subIdxOf acc.1 i))
    let acc := (st, none)
    let acc := if isExclusive c then
        (mmbitForEachKey (fun a => a.1.groups) c.numGroups (step fun s i => s.activeIdx i) acc).2
      else acc
    if c.exclusive ≠ .pureExclusive then
      (mmbitForEachKey (fun a => a.1.active) c.numRepeats (step fun _ i => i) acc).2
    else acc

/-- `set_matching`: the least next match so far is `offset`, and `matching`
holds the repeats that make it. -/
def setMatching (c : Castle) (m : Nat) (unsetActive : CastleState → CastleState) (matchingId : Nat)
    (endOff : Nat) (acc : CastleState × Nat) : CastleState × Nat :=
  let (st, offset) := acc
  if m = 0 then (unsetActive st, offset)
  else if m > endOff then (st, offset)
  else if m = offset then ({ st with matching := (mmbitSet st.matching c.numRepeats matchingId).1 }, offset)
  else if m < offset then
    ({ st with matching := (mmbitSet (mmbitClear st.matching c.numRepeats) c.numRepeats matchingId).1 }, m)
  else (st, offset)

/-- One pass of `castleMatchLoop`'s search: the least next match after
`loc` over the groups and the active repeats, with `matching` set. -/
def castleNextMatches (c : Castle) (endOff loc : Nat) (st : CastleState) : CastleState × Nat :=
  let acc := ({ st with matching := mmbitClear st.matching c.numRepeats }, endOff)
  let acc := if isExclusive c then
      (mmbitForEachKey (fun a => a.1.groups) c.numGroups (fun acc i =>
        let activeIdx := acc.1.activeIdx i
        let m := subCastleNextMatch c acc.1 loc activeIdx
        (false, setMatching c m (fun s => { s with groups := mmbitUnset s.groups c.numGroups i }) activeIdx
          endOff acc)) acc).2
    else acc
  -- `subCastleMatchLoop`
  if c.exclusive ≠ .pureExclusive then
    (mmbitForEachKey (fun a => a.1.active) c.numRepeats (fun acc i =>
      let m := subCastleNextMatch c acc.1 loc i
      (false, setMatching c m (fun s => { s with active := mmbitUnset s.active c.numRepeats i }) i
        endOff acc)) acc).2
  else acc

/-- `subCastleFireMatch`: the reports of the `matching` repeats at `offset`;
`true` when a callback halted. -/
def subCastleFireMatch (c : Castle) (st : CastleState) (cb : Nat → Nat → Bool) (offset : Nat)
    (fired : List (Nat × Nat)) : Bool × List (Nat × Nat) :=
  mmbitForEachKey (fun _ => st.matching) c.numRepeats (fun fired i =>
    let r := (getSubCastle c i).report
    (cb offset r, fired ++ [(offset, r)])) fired

/-- The loop of `castleMatchLoop` from `loc`: the matches in `(loc, end)`,
offset by offset; `fuel` bounds the passes. -/
def castleMatchLoopFrom (c : Castle) (endOff : Nat) (cb : Nat → Nat → Bool) :
    Nat → Nat → CastleState × List (Nat × Nat) → Option (Int × CastleState × List (Nat × Nat))
  | 0, _, _ => none
  | fuel + 1, loc, (st, fired) =>
      if loc < endOff then
        let (st, offset) := castleNextMatches c endOff loc st
        if !mmbitAny st.matching c.numRepeats then some (moContinueMatching, st, fired)
        else
          match subCastleFireMatch c st cb offset fired with
          | (true, fired) => some (moHaltMatching, st, fired)
          | (false, fired) => castleMatchLoopFrom c endOff cb fuel offset (st, fired)
      else some (moContinueMatching, st, fired)

/-- `castleMatchLoop`. -/
def castleMatchLoop (c : Castle) (begin endOff : Nat) (st : CastleState) (cb : Nat → Nat → Bool)
    (fired : List (Nat × Nat)) : Option (Int × CastleState × List (Nat × Nat)) :=
  castleMatchLoopFrom c endOff cb (endOff - begin + 1) begin (st, fired)

/-- `castleScan`: the first escape in `[begin, end)`. -/
def castleScan (c : Castle) (buf : Nat → Nat) (begin endIdx : Nat) : Option Nat :=
  if begin = endIdx then none
  else
    match c.type with
    -- nothing can stop a dot scan
    | .castleDot => none
    | .castleVerm ch => vermicelliExec ch buf begin endIdx
    | .castleNVerm ch => nvermicelliExec ch buf begin endIdx
    | .castleShufti escapes => shuftiExec escapes buf begin endIdx
    | .castleTruffle escapes => truffleExec escapes buf begin endIdx

/-- `castleHandleEvent`: a numbered top starts its repeat. -/
def castleHandleEvent (c : Castle) (q : Mq) (sp : Nat) (st : CastleState) : CastleState :=
  if q.curType ≥ mqeTopFirst then castleProcessTop c (q.curType - mqeTopFirst) sp st
  -- `MQE_START`, `MQE_END`
  else st

/-- `clear_repeats`: an escape kills every repeat. -/
def clearRepeats (c : Castle) (st : CastleState) : CastleState :=
  let st := if isExclusive c then { st with groups := mmbitClear st.groups c.numGroups } else st
  if c.exclusive ≠ .pureExclusive then { st with active := mmbitClear st.active c.numRepeats } else st

/-- `subCastleReportCurrent`. -/
def subCastleReportCurrent (c : Castle) (st : CastleState) (cb : Nat → Nat → Bool) (offset subIdx : Nat)
    (fired : List (Nat × Nat)) : Bool × List (Nat × Nat) :=
  let sub := getSubCastle c subIdx
  if repeatHasMatch sub.info (st.ctrl sub.slot) (st.rstate sub.slot) offset = .repeatMatch then
    (cb offset sub.report, fired ++ [(offset, sub.report)])
  else (false, fired)

/-- `castleReportCurrent`; `true` when a callback halted. -/
def castleReportCurrent (c : Castle) (q : Mq) (st : CastleState) (cb : Nat → Nat → Bool)
    (fired : List (Nat × Nat)) : Bool × List (Nat × Nat) :=
  let offset := q.curOffset
  let (halt, fired) :=
    if isExclusive c then
      mmbitForEachKey (fun _ => st.groups) c.numGroups (fun fired i =>
        subCastleReportCurrent c st cb offset (st.activeIdx i) fired) fired
    else (false, fired)
  if halt then (true, fired)
  else if c.exclusive ≠ .pureExclusive then
    mmbitForEachKey (fun _ => st.active) c.numRepeats (fun fired i =>
      subCastleReportCurrent c st cb offset i fired) fired
  else (false, fired)

/-! ## The queue -/

/-- What the queue functions change: the queue, the state and the matches
raised so far. -/
structure CastleRun where
  q : Mq
  st : CastleState
  fired : List (Nat × Nat)

/-- `nfaExecCastle_queueInitState`. -/
def nfaExecCastleQueueInitState (c : Castle) (st : CastleState) : CastleState :=
  let st := if isExclusive c then { st with groups := mmbitClear st.groups c.numGroups } else st
  if c.exclusive ≠ .pureExclusive then { st with active := mmbitClear st.active c.numRepeats } else st

/-- The scan of `[sp, ep)` in the loop of `nfaExecCastle_Q_i`: matches are
raised up to the first escape, which then clears the repeats; in
`STOP_AT_MATCH` mode the first match is left pending.  `.inl` is a return. -/
def castleScanGap (c : Castle) (endLoc : Int) (mode : MatchMode) (cb : Nat → Nat → Bool) (sp : Nat)
    (r : CastleRun) : Option ((Int × CastleRun) ⊕ CastleRun) :=
  let ep := min r.q.curOffset ((r.q.offset : Int) + endLoc).toNat
  if sp < ep then
    let esc := castleScan c r.q.buffer (sp - r.q.offset) (ep - r.q.offset)
    let ep := match esc with
      | some eloc => r.q.offset + eloc
      | none => ep
    let afterEscape (r : CastleRun) : CastleRun := if esc.isSome then { r with st := clearRepeats c r.st } else r
    match mode with
    | .stopAtMatch =>
        match castleFindMatch c sp ep r.st with
        | (st, some mloc) =>
            some (.inl (moMatchesPending, { r with st := st, q := r.q.resumeAt ((sp : Int) - r.q.offset + mloc) }))
        | (st, none) => some (.inr (afterEscape { r with st := st }))
    | .callbackOutput =>
        match castleMatchLoop c sp ep r.st cb r.fired with
        | none => none
        | some (rv, st, fired) =>
            if rv = moHaltMatching then some (.inl (moHaltMatching, { r with st := st, fired := fired }))
            else some (.inr (afterEscape { r with st := st, fired := fired }))
  else some (.inr r)

/-- The loop of `nfaExecCastle_Q_i` over the queue, from the offset `sp` of
the last event. -/
def nfaExecCastleQiLoop (c : Castle) (endLoc : Int) (mode : MatchMode) (cb : Nat → Nat → Bool) :
    Nat → Nat → CastleRun → Option (Int × CastleRun)
  | 0, _, _ => none
  | fuel + 1, sp, r =>
      if r.q.cur < r.q.qEnd then
        let found := isExclusive c && mmbitAny r.st.groups c.numGroups
        -- no repeats active: skip the scan
        let scanned := if !found && !mmbitAny r.st.active c.numRepeats then some (.inr r)
          else castleScanGap c endLoc mode cb sp r
        match scanned with
        | none => none
        | some (.inl res) => some res
        | some (.inr r) =>
            if r.q.curLoc > endLoc then some (moAlive, { r with q := r.q.resumeAt endLoc })
            else
              let sp := r.q.curOffset
              nfaExecCastleQiLoop c endLoc mode cb fuel sp
                { r with st := castleHandleEvent c r.q sp r.st, q := r.q.advance }
      else
        let alive := (isExclusive c && mmbitAnyPrecise r.st.groups c.numGroups) ||
          mmbitAnyPrecise r.st.active c.numRepeats
        some (if alive then 1 else 0, r)

/-- `nfaExecCastle_Q_i`. -/
def nfaExecCastleQi (c : Castle) (endLoc : Int) (mode : MatchMode) (cb : Nat → Nat → Bool) (r : CastleRun) :
    Option (Int × CastleRun) :=
  let (halt, r) :=
    if r.q.reportCurrent then
      let (halt, fired) := castleReportCurrent c r.q r.st cb r.fired
      (halt, { r with fired := fired, q := { r.q with reportCurrent := false } })
    else (false, r)
  if halt then some (moHaltMatching, r)
  else if r.q.cur = r.q.qEnd then some (1, r)
  else nfaExecCastleQiLoop c endLoc mode cb (r.q.qEnd + 1) r.q.curOffset { r with q := r.q.advance }

/-- `nfaExecCastle_Q`. -/
def nfaExecCastleQ (c : Castle) (endLoc : Int) (cb : Nat → Nat → Bool) (r : CastleRun) : Option (Int × CastleRun) :=
  nfaExecCastleQi c endLoc .callbackOutput cb r

/-- `nfaExecCastle_Q2`. -/
def nfaExecCastleQ2 (c : Castle) (endLoc : Int) (cb : Nat → Nat → Bool) (r : CastleRun) : Option (Int × CastleRun) :=
  nfaExecCastleQi c endLoc .stopAtMatch cb r

/-! ## A repeat whose ring wraps -/

/-- The castle of `[\x00-\xff]{40000,40000}` after the trigger `a`, with no
exclusive groups. -/
def castleWrap : Castle :=
  buildCastle (2 ^ 256 - 1) [⟨.finite 40000, .finite 40000, 0⟩] (fun _ => [[2 ^ 97]]) []

/-- A buffer with the trigger `a` at the bytes `0, 40000, 70000, 106000`. -/
def castleWrapBuf (i : Nat) : Nat := if i = 0 ∨ i = 40000 ∨ i = 70000 ∨ i = 106000 then 97 else 98

/-- The tops of repeat `0` at the ends of those triggers, and the end of the buffer. -/
def castleWrapQueue : Mq :=
  Mq.ofItems [⟨mqeStart, 0⟩, ⟨mqeTopFirst, 1⟩, ⟨mqeTopFirst, 40001⟩, ⟨mqeTopFirst, 70001⟩,
    ⟨mqeTopFirst, 106001⟩, ⟨mqeEnd, 150000⟩] castleWrapBuf 150000

/-- The engine after `_queueInitState`, on a state of any contents. -/
def castleWrapRun : CastleRun :=
  ⟨castleWrapQueue, nfaExecCastleQueueInitState castleWrap
    ⟨fun _ => false, fun _ => ⟨0, 0, 0, 0, 0⟩, fun _ => 0, fun _ => false, fun _ => false, fun _ _ => false⟩, []⟩

/-- The matches of the four tops are `40001, 80001, 110001, 146001`; the
castle raises `40001, 80001, 131535` and then reports itself dead.  The
repeat's RING model overflows its `u16` field as in the LBR. -/
theorem nfaExecCastleQ_reports_outside_window :
    castleWrap.type = .castleDot ∧ castleWrap.exclusive = .notExclusive ∧
      (getSubCastle castleWrap 0).info.type = .repeatRing ∧
      (∀ t ∈ [1, 40001, 70001, 106001], castleWrapBuf (t - 1) = 97) ∧
      (nfaExecCastleQ castleWrap 150000 (fun _ _ => false) castleWrapRun).map (fun x => x.1) = some 0 ∧
      (nfaExecCastleQ castleWrap 150000 (fun _ _ => false) castleWrapRun).map (fun x => x.2.fired) =
        some [(40001, 0), (80001, 0), (131535, 0)] ∧
      (∀ t ∈ [1, 40001, 70001, 106001], ¬ InWindow (getSubCastle castleWrap 0).info t 131535) ∧
      InWindow (getSubCastle castleWrap 0).info 70001 110001 ∧
      InWindow (getSubCastle castleWrap 0).info 106001 146001 := by
  decide +kernel

end Nfa
end Vectorscan
