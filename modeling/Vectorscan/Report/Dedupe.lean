import Mathlib.Logic.Function.Basic
import Mathlib.Order.Bounds.Basic
import Mathlib.Tactic.IntervalCases
import Mathlib.Tactic.SplitIfs

/-!
# Reports: the dedupe log

A pattern can be reported by several paths of the Rose program at one
offset; `dedupeCatchup` (`src/report.h`) lets one of them through.  The
scratch keeps two logs of dedupe keys, for the even and the odd match
offsets, and two SOM logs with the least start offset of each key.  Since
a report at `offset` ends at `offset` or `offset - 1`, two logs are enough:
when the offset moves on by one the log of `offset + 1` is cleared, and when
it moves further both are.  `populateCoreInfo` starts each scan with
`current_report_offset = ~0` and the SOM logs dirty; the logs themselves are
left as the last scan left them.

**Model.**  A `fatbit` is its set of keys, a function to `Bool`; each log
pair is indexed by the parity of the offset.  `flushStoredSomMatches` hands
the keys of a SOM log to the user's callback, which may stop the scan.  A
run of calls (`dedupeRun`) stops at the first `DEDUPE_HALT`, as the Rose
program does.

**Invariant.**  After the calls `pre` of a scan, at the current offset
`cur`, for both offsets `t ∈ {cur - 1, cur}`: the log holds a key at `t`
exactly when a call of `pre` on the log path had that key and to-offset `t`
(`LogAt`); the SOM log likewise for the SOM path, with the least start
offset of those calls (`SomAt`); and a SOM log that holds a key has its bit
in `som_log_dirty` (`DirtyAt`), so that the flush at the next offset clears
it.

**Results.**  `dedupeRun_skip_iff`: within a scan of offsets below `~0`, a
call on the log path that does not halt skips exactly when an earlier call
of the scan on that path had its key and to-offset; with SOM, a call on the
SOM path leaves the least start offset of the scan's calls with its key and
to-offset.  `dedupeCatchup_skip_at_max`: a first report at offset `~0` clears
no log, and a key left by the last scan is skipped.
-/

namespace Vectorscan
namespace Report

/-- `~0ULL`, the `current_report_offset` of a scan before its first report. -/
def u64Max : Nat := 2 ^ 64 - 1

/-- `MO_INVALID_IDX`. -/
def moInvalidIdx : Nat := 0xffffffff

/-- `enum DedupeResult`. -/
inductive DedupeResult
  | dedupeContinue
  | dedupeSkip
  -- the user's callback asked to stop
  | dedupeHalt
  deriving DecidableEq, Repr

/-- The fields of `struct RoseEngine` that deduplication reads: `dkeyCount`,
a `u32`, and the table at `invDkeyOffset` from dedupe keys to reports. -/
structure RoseEngine where
  dkeyCount : Nat
  dkeyToReport : Nat → Nat
  dkeyCount_lt : dkeyCount < 2 ^ 32

/-- `struct match_deduper`: the even and odd logs, the even and odd SOM logs
and their start offsets, `som_log_dirty` and `current_report_offset`. -/
structure MatchDeduper where
  log : Nat → Nat → Bool
  somLog : Nat → Nat → Bool
  somStartLog : Nat → Nat → Nat
  somLogDirty : Nat
  currentReportOffset : Nat

/-! ## The SOM flush -/

/-- `clearSomLog`: the keys of the log, in increasing order, go to the user's
callback with their start offsets and the end `offset`; at the first that the
callback answers with a halt the loop stops, leaving the log, and otherwise
the log is cleared. -/
def clearSomLog (rose : RoseEngine) (onEvent : Nat → Nat → Nat → Bool) (offset : Nat)
    (log : Nat → Bool) (starts : Nat → Nat) : Bool × (Nat → Bool) :=
  if ((List.range rose.dkeyCount).filter log).any fun it => onEvent (rose.dkeyToReport it) (starts it) offset then
    (true, log)
  else (false, fun _ => false)

/-- `flushStoredSomMatches` at `offset`, with `flushStoredSomMatches_i`:
nothing when no SOM log is dirty; at the first report of a scan both logs are
cleared unread; a move by one offset reports and clears the log of
`current_report_offset - 1`, a longer move both logs. -/
def flushStoredSomMatches (rose : RoseEngine) (onEvent : Nat → Nat → Nat → Bool) (d : MatchDeduper)
    (offset : Nat) : Bool × MatchDeduper :=
  if d.somLogDirty = 0 then (false, d)
  else if d.currentReportOffset = u64Max then
    (false, { d with somLog := Function.update (Function.update d.somLog 0 fun _ => false) 1 fun _ => false,
                     somLogDirty := 0 })
  else if offset = (d.currentReportOffset + 1) % 2 ^ 64 then
    let done := clearSomLog rose onEvent ((d.currentReportOffset + u64Max) % 2 ^ 64)
      (d.somLog (offset % 2)) (d.somStartLog (offset % 2))
    (done.1, { d with somLog := Function.update d.somLog (offset % 2) done.2, somLogDirty := d.somLogDirty >>> 1 })
  else
    let fOffset := (d.currentReportOffset + u64Max) % 2 ^ 64
    let sOffset := d.currentReportOffset
    let first := clearSomLog rose onEvent fOffset (d.somLog (fOffset % 2)) (d.somStartLog (fOffset % 2))
    let somLog := Function.update d.somLog (fOffset % 2) first.2
    -- `clearSomLog(f) || clearSomLog(s)`
    if first.1 then (true, { d with somLog := somLog, somLogDirty := 0 })
    else
      let second := clearSomLog rose onEvent sOffset (somLog (sOffset % 2)) (d.somStartLog (sOffset % 2))
      (second.1, { d with somLog := Function.update somLog (sOffset % 2) second.2, somLogDirty := 0 })

/-! ## `dedupeCatchup` -/

/-- The first block of `dedupeCatchup`: a report at a new offset clears the
log of `offset` when the offset moved on by one and both logs otherwise,
flushes the SOM logs, and makes `offset` current unless the flush halted. -/
def catchUpLogs (rose : RoseEngine) (onEvent : Nat → Nat → Nat → Bool) (d : MatchDeduper) (offset : Nat)
    (doSom : Bool) : Bool × MatchDeduper :=
  if offset ≠ d.currentReportOffset then
    let log :=
      if offset = (d.currentReportOffset + 1) % 2 ^ 64 then Function.update d.log (offset % 2) fun _ => false
      else Function.update (Function.update d.log 0 fun _ => false) 1 fun _ => false
    let flushed :=
      if doSom then flushStoredSomMatches rose onEvent { d with log := log } offset else (false, { d with log := log })
    if flushed.1 then (true, flushed.2) else (false, { flushed.2 with currentReportOffset := offset })
  else (false, d)

/-- The second block of `dedupeCatchup`: the key goes into the log of its
to-offset, and a key already there is skipped (`fatbit_set` answers whether
it was); on the SOM path the key goes into the SOM log with the least start
offset, and the report waits for the flush. -/
def logDedupeKey (d : MatchDeduper) (fromOffset toOffset dkey : Nat) (offsetAdjust : Int)
    (isExternalReport quashSom doSom : Bool) : DedupeResult × MatchDeduper :=
  if dkey ≠ moInvalidIdx then
    let slot := toOffset % 2
    if isExternalReport || quashSom then
      let log := Function.update d.log slot (Function.update (d.log slot) dkey true)
      if d.log slot dkey then (.dedupeSkip, { d with log := log }) else (.dedupeContinue, { d with log := log })
    else if doSom then
      let start := if d.somLog slot dkey then min (d.somStartLog slot dkey) fromOffset else fromOffset
      (.dedupeSkip,
        { d with somLog := Function.update d.somLog slot (Function.update (d.somLog slot) dkey true),
                 somStartLog := Function.update d.somStartLog slot (Function.update (d.somStartLog slot) dkey start),
                 somLogDirty := d.somLogDirty ||| (if offsetAdjust ≠ 0 then 1 else 2) })
    else (.dedupeContinue, d)
  else (.dedupeContinue, d)

/-- `dedupeCatchup`. -/
def dedupeCatchup (rose : RoseEngine) (onEvent : Nat → Nat → Nat → Bool) (d : MatchDeduper)
    (offset fromOffset toOffset dkey : Nat) (offsetAdjust : Int) (isExternalReport quashSom doSom : Bool) :
    DedupeResult × MatchDeduper :=
  let caught := catchUpLogs rose onEvent d offset doSom
  if caught.1 then (.dedupeHalt, caught.2)
  else logDedupeKey caught.2 fromOffset toOffset dkey offsetAdjust isExternalReport quashSom doSom

/-! ## Scans -/

/-- What `populateCoreInfo` sets at the start of a scan. -/
def scanStart (d : MatchDeduper) : MatchDeduper :=
  { d with currentReportOffset := u64Max, somLogDirty := 1 }

/-- The arguments of one call of `dedupeCatchup` from the Rose program:
the report ends at `offset + offsetAdjust`. -/
structure DedupeCall where
  offset : Nat
  fromOffset : Nat
  offsetAdjust : Int
  dkey : Nat
  isExternalReport : Bool
  quashSom : Bool
  doSom : Bool
  deriving DecidableEq, Repr

/-- `end + ri->offset_adjust`. -/
def DedupeCall.toOffset (c : DedupeCall) : Nat := ((c.offset : Int) + c.offsetAdjust).toNat

/-- The arguments the call asserts: `offset_adjust` is `0` or `-1`, the match
does not end before the stream, and the key is one of the engine's. -/
structure DedupeCall.Valid (rose : RoseEngine) (c : DedupeCall) : Prop where
  offset_lt : c.offset < u64Max
  adjust : c.offsetAdjust = 0 ∨ c.offsetAdjust = -1
  to_nonneg : 0 ≤ (c.offset : Int) + c.offsetAdjust
  dkey_lt : c.dkey < rose.dkeyCount

/-- The call checks the dedupe log (an external report, or one that quashes SOM). -/
def DedupeCall.OnLog (c : DedupeCall) : Prop := (c.isExternalReport || c.quashSom) = true

/-- The call records a start offset in the SOM log. -/
def DedupeCall.OnSom (c : DedupeCall) : Prop := (c.isExternalReport || c.quashSom) = false ∧ c.doSom = true

/-- The call of `dedupeCatchup`. -/
def DedupeCall.run (rose : RoseEngine) (onEvent : Nat → Nat → Nat → Bool) (d : MatchDeduper) (c : DedupeCall) :
    DedupeResult × MatchDeduper :=
  dedupeCatchup rose onEvent d c.offset c.fromOffset c.toOffset c.dkey c.offsetAdjust c.isExternalReport
    c.quashSom c.doSom

/-- The results of the calls of a scan, each with the deduper after it; the
scan stops at the first `DEDUPE_HALT`. -/
def dedupeRun (rose : RoseEngine) (onEvent : Nat → Nat → Nat → Bool) :
    MatchDeduper → List DedupeCall → List (DedupeResult × MatchDeduper)
  | _, [] => []
  | d, c :: cs =>
      c.run rose onEvent d :: if (c.run rose onEvent d).1 = .dedupeHalt then [] else
        dedupeRun rose onEvent (c.run rose onEvent d).2 cs

/-! ## What the flush and the catch-up change -/

section Steps

variable {rose : RoseEngine} {onEvent : Nat → Nat → Nat → Bool} {d : MatchDeduper}

@[simp] theorem flushStoredSomMatches_log (offset : Nat) :
    (flushStoredSomMatches rose onEvent d offset).2.log = d.log := by
  unfold flushStoredSomMatches
  dsimp only
  split_ifs <;> rfl

@[simp] theorem flushStoredSomMatches_currentReportOffset (offset : Nat) :
    (flushStoredSomMatches rose onEvent d offset).2.currentReportOffset = d.currentReportOffset := by
  unfold flushStoredSomMatches
  dsimp only
  split_ifs <;> rfl

@[simp] theorem flushStoredSomMatches_somStartLog (offset : Nat) :
    (flushStoredSomMatches rose onEvent d offset).2.somStartLog = d.somStartLog := by
  unfold flushStoredSomMatches
  dsimp only
  split_ifs <;> rfl

/-- A `clearSomLog` that does not halt clears the log. -/
theorem clearSomLog_of_not_halt {offset : Nat} {log : Nat → Bool} {starts : Nat → Nat}
    (h : (clearSomLog rose onEvent offset log starts).1 = false) :
    (clearSomLog rose onEvent offset log starts).2 = fun _ => false := by
  unfold clearSomLog at h ⊢
  split at h
  · simp at h
  · rw [if_neg ‹_›]

/-- The end of the catch-up keeps the flushed log, and makes `offset`
current unless the flush halted. -/
theorem catchUpTail_log (p : Bool × MatchDeduper) (offset : Nat) :
    (if p.1 = true then (true, p.2) else (false, { p.2 with currentReportOffset := offset })).2.log = p.2.log := by
  split <;> rfl

theorem catchUpTail_currentReportOffset (p : Bool × MatchDeduper) (offset : Nat)
    (h : (if p.1 = true then (true, p.2) else (false, { p.2 with currentReportOffset := offset })).1 = false) :
    (if p.1 = true then (true, p.2) else (false, { p.2 with currentReportOffset := offset })).2.currentReportOffset
      = offset := by
  obtain ⟨b, d'⟩ := p
  cases b
  · rfl
  · simp at h

/-- The log after the catch-up. -/
theorem catchUpLogs_log (offset : Nat) (doSom : Bool) :
    (catchUpLogs rose onEvent d offset doSom).2.log =
      if offset ≠ d.currentReportOffset then
        if offset = (d.currentReportOffset + 1) % 2 ^ 64 then Function.update d.log (offset % 2) fun _ => false
        else Function.update (Function.update d.log 0 fun _ => false) 1 fun _ => false
      else d.log := by
  unfold catchUpLogs
  split
  · dsimp only
    -- whether or not the flush halts, and whether or not it runs, the log is the cleared one
    rw [catchUpTail_log]
    cases doSom
    · rfl
    · exact flushStoredSomMatches_log offset
  · rfl

/-- A report at the current offset catches nothing up. -/
theorem catchUpLogs_of_eq {offset : Nat} (doSom : Bool) (h : offset = d.currentReportOffset) :
    catchUpLogs rose onEvent d offset doSom = (false, d) := by
  unfold catchUpLogs
  rw [if_neg (not_not.mpr h)]

/-- A catch-up that does not halt makes `offset` current. -/
theorem catchUpLogs_currentReportOffset {offset : Nat} {doSom : Bool}
    (h : (catchUpLogs rose onEvent d offset doSom).1 = false) :
    (catchUpLogs rose onEvent d offset doSom).2.currentReportOffset = offset := by
  unfold catchUpLogs at h ⊢
  by_cases hne : offset ≠ d.currentReportOffset
  · rw [if_pos hne] at h ⊢
    exact catchUpTail_currentReportOffset _ offset h
  · rw [if_neg hne]
    exact (not_not.mp hne).symm

end Steps

/-! ## The log path -/

/-- `t` is one of the two to-offsets of a report at `cur`: `cur - 1` or `cur`. -/
def LiveAt (cur t : Nat) : Prop := t ≤ cur ∧ cur ≤ t + 1

theorem LiveAt.eq_of_mod {cur t t' : Nat} (h : LiveAt cur t) (h' : LiveAt cur t') (hm : t % 2 = t' % 2) :
    t = t' := by
  unfold LiveAt at h h'
  omega

theorem DedupeCall.Valid.liveAt {rose : RoseEngine} {c : DedupeCall} (h : c.Valid rose) :
    LiveAt c.offset c.toOffset := by
  unfold LiveAt DedupeCall.toOffset
  rcases h.adjust with h0 | h1 <;> have := h.to_nonneg <;> omega

theorem DedupeCall.Valid.toOffset_le {rose : RoseEngine} {c : DedupeCall} (h : c.Valid rose) :
    c.toOffset ≤ c.offset :=
  h.liveAt.1

/-- The report ends at the call's offset with no adjustment, and one before
it with `offset_adjust = -1`. -/
theorem DedupeCall.Valid.toOffset_cases {rose : RoseEngine} {c : DedupeCall} (h : c.Valid rose) :
    (c.toOffset = c.offset ∧ c.offsetAdjust = 0) ∨ (c.toOffset + 1 = c.offset ∧ c.offsetAdjust = -1) := by
  unfold DedupeCall.toOffset
  rcases h.adjust with h0 | h1
  · exact .inl ⟨by rw [h0]; simp, h0⟩
  · have := h.to_nonneg
    exact .inr ⟨by omega, h1⟩

/-- A key below `dkeyCount` is never `MO_INVALID_IDX`. -/
theorem DedupeCall.Valid.dkey_ne {rose : RoseEngine} {c : DedupeCall} (h : c.Valid rose) :
    c.dkey ≠ moInvalidIdx := by
  have := h.dkey_lt
  have := rose.dkeyCount_lt
  unfold moInvalidIdx
  omega

/-- Where a scan is: before its first report, or at the offset of one of
its calls, after every to-offset of them. -/
def Started (pre : List DedupeCall) (cur : Nat) : Prop :=
  (pre = [] ∧ cur = u64Max) ∨ ((∃ c ∈ pre, c.offset = cur) ∧ cur < u64Max ∧ ∀ c ∈ pre, c.toOffset ≤ cur)

/-- The log at `cur` holds, for both of its to-offsets, the keys of the calls
of `pre` on the log path. -/
def LogAt (rose : RoseEngine) (pre : List DedupeCall) (log : Nat → Nat → Bool) (cur : Nat) : Prop :=
  ∀ t k, LiveAt cur t → k < rose.dkeyCount →
    (log (t % 2) k = true ↔ ∃ c ∈ pre, c.OnLog ∧ c.dkey = k ∧ c.toOffset = t)

/-- The invariant of the log path. -/
structure LogInv (rose : RoseEngine) (pre : List DedupeCall) (d : MatchDeduper) : Prop where
  started : Started pre d.currentReportOffset
  logAt : d.currentReportOffset ≠ u64Max → LogAt rose pre d.log d.currentReportOffset

theorem logInv_scanStart (rose : RoseEngine) (d : MatchDeduper) : LogInv rose [] (scanStart d) :=
  ⟨.inl ⟨rfl, rfl⟩, fun h => absurd rfl h⟩

section LogStep

variable {rose : RoseEngine} {onEvent : Nat → Nat → Nat → Bool} {pre : List DedupeCall} {d : MatchDeduper}
  {c : DedupeCall}

/-- A report at an offset not before the last: the calls so far all end before it. -/
theorem Started.le_offset (h : Started pre d.currentReportOffset) (hge : ∀ c' ∈ pre, c'.offset ≤ c.offset) :
    d.currentReportOffset = u64Max ∨ (d.currentReportOffset ≤ c.offset ∧ ∀ c' ∈ pre, c'.toOffset ≤ d.currentReportOffset) := by
  rcases h with ⟨-, h⟩ | ⟨⟨c', hc', heq⟩, -, hto⟩
  · exact .inl h
  · exact .inr ⟨heq ▸ hge c' hc', hto⟩

theorem Started.snoc (h : Started pre d.currentReportOffset) (hge : ∀ c' ∈ pre, c'.offset ≤ c.offset)
    (hc : c.Valid rose) : Started (pre ++ [c]) c.offset := by
  refine .inr ⟨⟨c, by simp, rfl⟩, hc.offset_lt, fun c' hc' => ?_⟩
  rcases List.mem_append.mp hc' with hc' | hc'
  · rcases h.le_offset hge with hmax | ⟨hle, hto⟩
    · rcases h with ⟨rfl, -⟩ | ⟨-, hlt, -⟩
      · simp at hc'
      · omega
    · exact Nat.le_trans (hto c' hc') hle
  · rw [List.mem_singleton.mp hc']
    exact hc.toOffset_le

/-- After a move to a new offset, a call so far that ends at one of its
live to-offsets ended at the old offset, one before the new. -/
theorem Started.toOffset_eq (h : Started pre d.currentReportOffset) (hge : ∀ c' ∈ pre, c'.offset ≤ c.offset)
    (hne : c.offset ≠ d.currentReportOffset) {c' : DedupeCall} (hc' : c' ∈ pre) {t : Nat} (ht : LiveAt c.offset t)
    (hto : c'.toOffset = t) :
    t = d.currentReportOffset ∧ c.offset = d.currentReportOffset + 1 ∧ d.currentReportOffset < u64Max := by
  have hcur : d.currentReportOffset < u64Max := by
    rcases h with ⟨rfl, -⟩ | ⟨-, hlt, -⟩
    · simp at hc'
    · exact hlt
  rcases h.le_offset hge with hmax | ⟨hle, hto'⟩
  · omega
  · have := hto' c' hc'
    unfold LiveAt at ht
    omega

/-- The logs after the clear of a move from `cur` to `offset`, at a live
to-offset `t`: only the log of `offset - 1` survives, and only after a move
by one. -/
theorem clearedLog_apply (log : Nat → Nat → Bool) {cur offset t : Nat} (k : Nat) (ht : LiveAt offset t) :
    (if offset = (cur + 1) % 2 ^ 64 then Function.update log (offset % 2) fun _ => false
      else Function.update (Function.update log 0 fun _ => false) 1 fun _ => false) (t % 2) k =
      if t + 1 = offset ∧ offset = (cur + 1) % 2 ^ 64 then log (t % 2) k else false := by
  unfold LiveAt at ht
  by_cases hnext : offset = (cur + 1) % 2 ^ 64
  · rw [if_pos hnext]
    by_cases hprev : t + 1 = offset
    · rw [if_pos ⟨hprev, hnext⟩, Function.update_of_ne (by omega)]
    · have hslot : t % 2 = offset % 2 := by rw [show t = offset by omega]
      rw [if_neg (fun h => hprev h.1), hslot, Function.update_self]
  · rw [if_neg hnext, if_neg (fun h => hnext h.2)]
    rcases Nat.mod_two_eq_zero_or_one t with h0 | h1
    · rw [h0, Function.update_of_ne (by decide), Function.update_self]
    · rw [h1, Function.update_self]

/-- **The catch-up.**  A report at an offset not before the last, that does
not halt, leaves a log right for its own offset. -/
theorem LogInv.catchUp (h : LogInv rose pre d) (hge : ∀ c' ∈ pre, c'.offset ≤ c.offset) (hc : c.Valid rose) :
    LogAt rose pre (catchUpLogs rose onEvent d c.offset c.doSom).2.log c.offset := by
  intro t k ht hk
  rw [catchUpLogs_log]
  by_cases hsame : c.offset = d.currentReportOffset
  · -- the same offset: nothing changes
    rw [if_neg (not_not.mpr hsame)]
    exact h.logAt (hsame ▸ Nat.ne_of_lt hc.offset_lt) t k (hsame ▸ ht) hk
  rw [if_pos hsame, clearedLog_apply _ k ht]
  have hlt := hc.offset_lt
  unfold LiveAt at ht
  unfold u64Max at hlt
  rcases h.started.le_offset hge with hmax | ⟨hle, hto⟩
  · -- the first report of the scan: no log survives, and no call came before
    have hpre : pre = [] := by
      rcases h.started with ⟨hpre, -⟩ | ⟨-, hcur, -⟩
      · exact hpre
      · omega
    unfold u64Max at hmax
    rw [if_neg (by omega), hpre]
    simp
  · have hcur : d.currentReportOffset < 2 ^ 64 - 1 := by
      rcases h.started with ⟨-, hmax⟩ | ⟨-, hcur, -⟩
      · unfold u64Max at hmax
        omega
      · exact hcur
    split
    · -- a move by one: `t` is the old offset, whose log is right
      rename_i hprev
      have htcur : t = d.currentReportOffset := by omega
      exact h.logAt (by unfold u64Max; omega) t k ⟨by omega, by omega⟩ hk
    · -- no call of `pre` ends at a cleared offset
      rename_i hfar
      simp only [Bool.false_eq_true, false_iff, not_exists, not_and]
      intro c' hc' _ _ hto'
      have := hto c' hc'
      omega

/-- **The key check.**  On a log right for the call's offset, the call skips
exactly when a call of `pre` on the log path had its key and to-offset, and
leaves a log right for `pre ++ [c]`. -/
theorem LogAt.logKey {log : Nat → Nat → Bool} (h : LogAt rose pre log c.offset) (hc : c.Valid rose)
    (d' : MatchDeduper) (hlog : d'.log = log) :
    LogAt rose (pre ++ [c]) (logDedupeKey d' c.fromOffset c.toOffset c.dkey c.offsetAdjust c.isExternalReport
        c.quashSom c.doSom).2.log c.offset ∧
      (c.OnLog → ((logDedupeKey d' c.fromOffset c.toOffset c.dkey c.offsetAdjust c.isExternalReport c.quashSom
          c.doSom).1 = .dedupeSkip ↔ ∃ c' ∈ pre, c'.OnLog ∧ c'.dkey = c.dkey ∧ c'.toOffset = c.toOffset)) := by
  have hkey := hc.dkey_ne
  have hlive := hc.liveAt
  have hold := h c.toOffset c.dkey hlive hc.dkey_lt
  -- the calls of `pre ++ [c]` on the log path, at a live to-offset
  have hsnoc : ∀ t k, (∃ c' ∈ pre ++ [c], c'.OnLog ∧ c'.dkey = k ∧ c'.toOffset = t) ↔
      (∃ c' ∈ pre, c'.OnLog ∧ c'.dkey = k ∧ c'.toOffset = t) ∨ (c.OnLog ∧ c.dkey = k ∧ c.toOffset = t) := by
    intro t k
    simp only [List.mem_append, List.mem_singleton]
    constructor
    · rintro ⟨c', hc' | rfl, hp⟩
      · exact .inl ⟨c', hc', hp⟩
      · exact .inr hp
    · rintro (⟨c', hc', hp⟩ | hp)
      · exact ⟨c', .inl hc', hp⟩
      · exact ⟨c, .inr rfl, hp⟩
  unfold logDedupeKey
  rw [if_pos hkey]
  dsimp only
  by_cases hpath : (c.isExternalReport || c.quashSom) = true
  · rw [if_pos hpath]
    have hnew : ∀ t k, LiveAt c.offset t → k < rose.dkeyCount →
        (Function.update d'.log (c.toOffset % 2) (Function.update (d'.log (c.toOffset % 2)) c.dkey true) (t % 2) k
          = true ↔ ∃ c' ∈ pre ++ [c], c'.OnLog ∧ c'.dkey = k ∧ c'.toOffset = t) := by
      intro t k ht hk
      rw [hsnoc, ← h t k ht hk, ← hlog]
      by_cases hslot : t % 2 = c.toOffset % 2
      · have htt := ht.eq_of_mod hlive hslot
        subst htt
        rw [Function.update_self]
        by_cases hkk : k = c.dkey
        · subst hkk
          rw [Function.update_self]
          exact ⟨fun _ => .inr ⟨hpath, rfl, rfl⟩, fun _ => rfl⟩
        · rw [Function.update_of_ne hkk]
          exact ⟨.inl, fun h' => h'.elim id fun h'' => absurd h''.2.1.symm hkk⟩
      · rw [Function.update_of_ne hslot]
        exact ⟨.inl, fun h' => h'.elim id fun h'' => absurd (congrArg (· % 2) h''.2.2.symm) hslot⟩
    split
    · rename_i hset
      exact ⟨hnew, fun _ => ⟨fun _ => hold.mp (hlog ▸ hset), fun _ => rfl⟩⟩
    · rename_i hset
      refine ⟨hnew, fun _ => ⟨fun h' => absurd h' (by simp), fun hex => absurd (hlog ▸ hold.mpr hex) hset⟩⟩
  · have hoff : ¬ c.OnLog := hpath
    rw [if_neg hpath]
    -- the log does not change off the log path
    have hsame : ∀ t k, LiveAt c.offset t → k < rose.dkeyCount →
        (d'.log (t % 2) k = true ↔ ∃ c' ∈ pre ++ [c], c'.OnLog ∧ c'.dkey = k ∧ c'.toOffset = t) := by
      intro t k ht hk
      rw [hsnoc, hlog, h t k ht hk]
      exact ⟨.inl, fun h' => h'.elim id fun h'' => absurd h''.1 hoff⟩
    split
    · exact ⟨hsame, fun hon => absurd hon hoff⟩
    · exact ⟨hsame, fun hon => absurd hon hoff⟩

end LogStep

/-! ## The SOM path -/

/-- The start offsets of the calls of `pre` on the SOM path with key `k`
and to-offset `t`. -/
def somStarts (pre : List DedupeCall) (t k : Nat) : Set Nat :=
  {f | ∃ c ∈ pre, c.OnSom ∧ c.dkey = k ∧ c.toOffset = t ∧ c.fromOffset = f}

theorem somStarts_snoc_of_not {pre : List DedupeCall} {c : DedupeCall} {t k : Nat}
    (h : ¬ (c.OnSom ∧ c.dkey = k ∧ c.toOffset = t)) : somStarts (pre ++ [c]) t k = somStarts pre t k := by
  ext f
  simp only [somStarts, Set.mem_ofPred_eq, List.mem_append, List.mem_singleton, or_and_right, exists_or,
    exists_eq_left]
  exact ⟨fun h' => h'.elim id fun hc => absurd ⟨hc.1, hc.2.1, hc.2.2.1⟩ h, .inl⟩

theorem somStarts_snoc_of {pre : List DedupeCall} {c : DedupeCall} {t k : Nat}
    (h : c.OnSom ∧ c.dkey = k ∧ c.toOffset = t) :
    somStarts (pre ++ [c]) t k = somStarts pre t k ∪ {c.fromOffset} := by
  ext f
  simp only [somStarts, Set.mem_ofPred_eq, Set.mem_union, Set.mem_singleton_iff, List.mem_append,
    List.mem_singleton, or_and_right, exists_or, exists_eq_left]
  exact or_congr_right ⟨fun hc => hc.2.2.2.symm, fun hf => ⟨h.1, h.2.1, h.2.2, hf.symm⟩⟩

theorem somStarts_eq_empty {pre : List DedupeCall} {t k : Nat} (h : ∀ c ∈ pre, c.toOffset ≠ t) :
    somStarts pre t k = ∅ := by
  ext f
  simp only [somStarts, Set.mem_ofPred_eq, Set.mem_empty_iff_false, iff_false, not_exists, not_and]
  exact fun c hc _ _ hto _ => h c hc hto

/-- The SOM logs at `cur` hold, for both of its to-offsets, the keys of the
calls of `pre` on the SOM path, each with the least start offset of them. -/
def SomAt (rose : RoseEngine) (pre : List DedupeCall) (somLog : Nat → Nat → Bool) (starts : Nat → Nat → Nat)
    (cur : Nat) : Prop :=
  ∀ t k, LiveAt cur t → k < rose.dkeyCount →
    (somLog (t % 2) k = true ↔ (somStarts pre t k).Nonempty) ∧
      (somLog (t % 2) k = true → IsLeast (somStarts pre t k) (starts (t % 2) k))

/-- `som_log_dirty` at `cur`: bit 0 is set when the SOM log of `cur - 1`
holds a key, bit 1 when that of `cur` does. -/
def DirtyAt (rose : RoseEngine) (somLog : Nat → Nat → Bool) (dirty cur : Nat) : Prop :=
  dirty < 4 ∧ (∀ k < rose.dkeyCount, somLog ((cur + 1) % 2) k = true → dirty % 2 = 1) ∧
    ∀ k < rose.dkeyCount, somLog (cur % 2) k = true → 2 ≤ dirty

/-- The invariant of the SOM path: before the first report the logs are
dirty, so that the first flush clears them; after it they are right. -/
structure SomInv (rose : RoseEngine) (pre : List DedupeCall) (d : MatchDeduper) : Prop where
  started : Started pre d.currentReportOffset
  dirty_first : d.currentReportOffset = u64Max → d.somLogDirty ≠ 0
  somAt : d.currentReportOffset ≠ u64Max → SomAt rose pre d.somLog d.somStartLog d.currentReportOffset
  dirtyAt : d.currentReportOffset ≠ u64Max → DirtyAt rose d.somLog d.somLogDirty d.currentReportOffset

theorem somInv_scanStart (rose : RoseEngine) (d : MatchDeduper) : SomInv rose [] (scanStart d) :=
  ⟨.inl ⟨rfl, rfl⟩, fun _ => Nat.one_ne_zero, fun h => absurd rfl h, fun h => absurd rfl h⟩

/-- Both logs cleared: every slot is empty. -/
theorem clearBoth_apply (log : Nat → Nat → Bool) (n k : Nat) :
    Function.update (Function.update log 0 fun _ => false) 1 (fun _ => false) (n % 2) k = false := by
  rcases Nat.mod_two_eq_zero_or_one n with h0 | h1
  · rw [h0, Function.update_of_ne (by decide), Function.update_self]
  · rw [h1, Function.update_self]

/-- The bits a report sets in `som_log_dirty` keep it below `4`, and keep
the bits already set. -/
theorem somLogDirty_or {dirty b : Nat} (h : dirty < 4) (hb : b = 1 ∨ b = 2) :
    dirty ||| b < 4 ∧ (dirty % 2 = 1 → (dirty ||| b) % 2 = 1) ∧ (2 ≤ dirty → 2 ≤ dirty ||| b) ∧
      (b = 1 → (dirty ||| b) % 2 = 1) ∧ (b = 2 → 2 ≤ dirty ||| b) := by
  rcases hb with rfl | rfl <;> interval_cases dirty <;> decide

section SomStep

variable {rose : RoseEngine} {onEvent : Nat → Nat → Nat → Bool} {d : MatchDeduper}

theorem flushStoredSomMatches_with_log (offset : Nat) (l : Nat → Nat → Bool) :
    flushStoredSomMatches rose onEvent { d with log := l } offset =
      ((flushStoredSomMatches rose onEvent d offset).1, { (flushStoredSomMatches rose onEvent d offset).2 with log := l }) := by
  unfold flushStoredSomMatches
  dsimp only
  split_ifs <;> rfl

/-- **The flush.**  After a move from `cur` to a new `offset` that does not
halt, the SOM log of `offset` is empty, that of `offset - 1` is the log of
`cur` after a move by one and empty after a longer move, and the dirty bits
stay right. -/
theorem flushStoredSomMatches_move {offset k : Nat}
    (hfirst : d.currentReportOffset = u64Max → d.somLogDirty ≠ 0)
    (hdirty : d.currentReportOffset ≠ u64Max → DirtyAt rose d.somLog d.somLogDirty d.currentReportOffset)
    (hcur : d.currentReportOffset ≤ u64Max) (hk : k < rose.dkeyCount)
    (hnh : (flushStoredSomMatches rose onEvent d offset).1 = false) :
    (flushStoredSomMatches rose onEvent d offset).2.somLog (offset % 2) k = false ∧
      (flushStoredSomMatches rose onEvent d offset).2.somLog ((offset + 1) % 2) k =
        (if d.currentReportOffset ≠ u64Max ∧ offset = d.currentReportOffset + 1 then
          d.somLog (d.currentReportOffset % 2) k else false) ∧
      (flushStoredSomMatches rose onEvent d offset).2.somLogDirty < 4 ∧
      (d.currentReportOffset ≠ u64Max → offset = d.currentReportOffset + 1 → 2 ≤ d.somLogDirty →
        (flushStoredSomMatches rose onEvent d offset).2.somLogDirty % 2 = 1) := by
  have hslots : ∀ n m : Nat, n % 2 = m % 2 ∨ n % 2 = (m + 1) % 2 := by omega
  unfold flushStoredSomMatches at hnh ⊢
  by_cases hclean : d.somLogDirty = 0
  · -- nothing to flush: the dirty bits say that both logs are empty
    rw [if_pos hclean] at hnh ⊢
    dsimp only
    obtain ⟨hlt4, h1, h2⟩ := hdirty fun h => hfirst h hclean
    have hprev : d.somLog ((d.currentReportOffset + 1) % 2) k = false := by
      cases hb : d.somLog ((d.currentReportOffset + 1) % 2) k
      · rfl
      · have := h1 k hk hb
        omega
    have hcur : d.somLog (d.currentReportOffset % 2) k = false := by
      cases hb : d.somLog (d.currentReportOffset % 2) k
      · rfl
      · have := h2 k hk hb
        omega
    have hempty : ∀ n, d.somLog (n % 2) k = false := by
      intro n
      rcases hslots n d.currentReportOffset with h | h
      · rw [h, hcur]
      · rw [h, hprev]
    refine ⟨hempty offset, ?_, by omega, fun _ _ h => by omega⟩
    rw [hempty]
    split
    · rw [← hempty d.currentReportOffset]
    · rfl
  rw [if_neg hclean] at hnh ⊢
  by_cases hmax : d.currentReportOffset = u64Max
  · -- the first report of the scan: both logs are cleared unread
    rw [if_pos hmax] at hnh ⊢
    dsimp only
    refine ⟨clearBoth_apply _ _ _, ?_, by decide, fun h => absurd hmax h⟩
    rw [clearBoth_apply, if_neg fun h => h.1 hmax]
  rw [if_neg hmax] at hnh ⊢
  obtain ⟨hlt4, -, -⟩ := hdirty hmax
  unfold u64Max at hmax hcur
  by_cases hnext : offset = (d.currentReportOffset + 1) % 2 ^ 64
  · -- a move by one: the log of `cur - 1` is reported and cleared
    rw [if_pos hnext] at hnh ⊢
    dsimp only at hnh ⊢
    have hoff : offset = d.currentReportOffset + 1 := by omega
    refine ⟨?_, ?_, ?_, fun _ _ h => ?_⟩
    · rw [Function.update_self, clearSomLog_of_not_halt hnh]
    · rw [Function.update_of_ne (by omega), if_pos ⟨hmax, hoff⟩, show (offset + 1) % 2 = d.currentReportOffset % 2 by omega]
    · rw [Nat.shiftRight_eq_div_pow]
      omega
    · rw [Nat.shiftRight_eq_div_pow]
      omega
  · -- a longer move: both logs are reported and cleared
    rw [if_neg hnext] at hnh ⊢
    dsimp only at hnh ⊢
    have hoff : offset ≠ d.currentReportOffset + 1 := by omega
    split at hnh
    · simp at hnh
    rename_i hfirstClear
    rw [if_neg hfirstClear]
    dsimp only at hnh ⊢
    have hf : (d.currentReportOffset + u64Max) % 2 ^ 64 % 2 = (d.currentReportOffset + 1) % 2 := by
      unfold u64Max
      omega
    have hcleared : ∀ n, Function.update (Function.update d.somLog ((d.currentReportOffset + u64Max) % 2 ^ 64 % 2)
        (clearSomLog rose onEvent ((d.currentReportOffset + u64Max) % 2 ^ 64)
          (d.somLog ((d.currentReportOffset + u64Max) % 2 ^ 64 % 2))
          (d.somStartLog ((d.currentReportOffset + u64Max) % 2 ^ 64 % 2))).2)
        (d.currentReportOffset % 2) (clearSomLog rose onEvent d.currentReportOffset
          (Function.update d.somLog ((d.currentReportOffset + u64Max) % 2 ^ 64 % 2)
            (clearSomLog rose onEvent ((d.currentReportOffset + u64Max) % 2 ^ 64)
              (d.somLog ((d.currentReportOffset + u64Max) % 2 ^ 64 % 2))
              (d.somStartLog ((d.currentReportOffset + u64Max) % 2 ^ 64 % 2))).2 (d.currentReportOffset % 2))
          (d.somStartLog (d.currentReportOffset % 2))).2 (n % 2) k = false := by
      intro n
      rw [clearSomLog_of_not_halt hnh, clearSomLog_of_not_halt (by simpa using hfirstClear), hf]
      rcases hslots n d.currentReportOffset with h | h
      · rw [h, Function.update_self]
      · rw [h, Function.update_of_ne (by omega), Function.update_self]
    refine ⟨hcleared offset, ?_, by decide, fun _ h => absurd h hoff⟩
    rw [hcleared, if_neg fun h => hoff h.2]

/-- The SOM fields after a catch-up with `do_som` to a new offset that does
not halt are those the flush leaves. -/
theorem catchUpLogs_som {offset : Nat} (hne : offset ≠ d.currentReportOffset)
    (hnh : (catchUpLogs rose onEvent d offset true).1 = false) :
    (flushStoredSomMatches rose onEvent d offset).1 = false ∧
      (catchUpLogs rose onEvent d offset true).2.somLog = (flushStoredSomMatches rose onEvent d offset).2.somLog ∧
      (catchUpLogs rose onEvent d offset true).2.somStartLog = d.somStartLog ∧
      (catchUpLogs rose onEvent d offset true).2.somLogDirty =
        (flushStoredSomMatches rose onEvent d offset).2.somLogDirty := by
  unfold catchUpLogs at hnh ⊢
  rw [if_pos hne] at hnh ⊢
  simp only [↓reduceIte, flushStoredSomMatches_with_log] at hnh ⊢
  rcases hf : flushStoredSomMatches rose onEvent d offset with ⟨b, d'⟩
  have hstart : d'.somStartLog = d.somStartLog := by
    have := @flushStoredSomMatches_somStartLog rose onEvent d offset
    rwa [hf] at this
  rw [hf] at hnh
  cases b
  · exact ⟨rfl, rfl, hstart, rfl⟩
  · simp at hnh

end SomStep


/-! ## A call and a run -/

/-- One key of a two-level log set. -/
theorem update_update_self {β : Type} (f : Nat → Nat → β) (a b : Nat) (v : β) :
    Function.update f a (Function.update (f a) b v) a b = v := by
  rw [Function.update_self, Function.update_self]

theorem update_update_of_ne {β : Type} (f : Nat → Nat → β) {a b a' b' : Nat} (v : β) (h : ¬ (a' = a ∧ b' = b)) :
    Function.update f a (Function.update (f a) b v) a' b' = f a' b' := by
  by_cases ha : a' = a
  · subst ha
    rw [Function.update_self, Function.update_of_ne fun hb => h ⟨rfl, hb⟩]
  · rw [Function.update_of_ne ha]

@[simp] theorem logDedupeKey_currentReportOffset (d : MatchDeduper) (fromOffset toOffset dkey : Nat)
    (offsetAdjust : Int) (isExternalReport quashSom doSom : Bool) :
    (logDedupeKey d fromOffset toOffset dkey offsetAdjust isExternalReport quashSom doSom).2.currentReportOffset =
      d.currentReportOffset := by
  unfold logDedupeKey
  dsimp only
  split_ifs <;> rfl

/-- Off the SOM path the key check leaves the SOM logs alone. -/
theorem logDedupeKey_som_of_not (d : MatchDeduper) (fromOffset toOffset dkey : Nat) (offsetAdjust : Int)
    {isExternalReport quashSom doSom : Bool} (h : ¬ ((isExternalReport || quashSom) = false ∧ doSom = true)) :
    (logDedupeKey d fromOffset toOffset dkey offsetAdjust isExternalReport quashSom doSom).2.somLog = d.somLog ∧
      (logDedupeKey d fromOffset toOffset dkey offsetAdjust isExternalReport quashSom doSom).2.somStartLog =
        d.somStartLog ∧
      (logDedupeKey d fromOffset toOffset dkey offsetAdjust isExternalReport quashSom doSom).2.somLogDirty =
        d.somLogDirty := by
  unfold logDedupeKey
  by_cases hkey : dkey ≠ moInvalidIdx
  · rw [if_pos hkey]
    dsimp only
    by_cases hpath : (isExternalReport || quashSom) = true
    · rw [if_pos hpath]
      split <;> exact ⟨rfl, rfl, rfl⟩
    · rw [if_neg hpath, if_neg fun hdo => h ⟨by simpa using hpath, hdo⟩]
      exact ⟨rfl, rfl, rfl⟩
  · rw [if_neg hkey]
    exact ⟨rfl, rfl, rfl⟩

/-- A call that does not halt is the key check after a catch-up that does
not halt. -/
theorem dedupeCatchup_of_not_halt {rose : RoseEngine} {onEvent : Nat → Nat → Nat → Bool} {d : MatchDeduper}
    {offset fromOffset toOffset dkey : Nat} {offsetAdjust : Int} {isExternalReport quashSom doSom : Bool}
    (h : (dedupeCatchup rose onEvent d offset fromOffset toOffset dkey offsetAdjust isExternalReport quashSom
      doSom).1 ≠ .dedupeHalt) :
    (catchUpLogs rose onEvent d offset doSom).1 = false ∧
      dedupeCatchup rose onEvent d offset fromOffset toOffset dkey offsetAdjust isExternalReport quashSom doSom =
        logDedupeKey (catchUpLogs rose onEvent d offset doSom).2 fromOffset toOffset dkey offsetAdjust
          isExternalReport quashSom doSom := by
  unfold dedupeCatchup at h ⊢
  by_cases hb : (catchUpLogs rose onEvent d offset doSom).1 = true
  · rw [if_pos hb] at h
    exact absurd rfl h
  · rw [if_neg hb]
    exact ⟨by simpa using hb, rfl⟩

section SomRun

variable {rose : RoseEngine} {onEvent : Nat → Nat → Nat → Bool} {pre : List DedupeCall} {d : MatchDeduper}
  {c : DedupeCall}

/-- **The SOM catch-up.**  A report with `do_som` at an offset not before
the last, that does not halt, leaves SOM logs right for its own offset. -/
theorem SomInv.catchUp (h : SomInv rose pre d) (hge : ∀ c' ∈ pre, c'.offset ≤ c.offset) (hc : c.Valid rose)
    (hnh : (catchUpLogs rose onEvent d c.offset true).1 = false) :
    SomAt rose pre (catchUpLogs rose onEvent d c.offset true).2.somLog
        (catchUpLogs rose onEvent d c.offset true).2.somStartLog c.offset ∧
      DirtyAt rose (catchUpLogs rose onEvent d c.offset true).2.somLog
        (catchUpLogs rose onEvent d c.offset true).2.somLogDirty c.offset := by
  by_cases hsame : c.offset = d.currentReportOffset
  · -- the same offset: nothing changes
    have hcur : d.currentReportOffset ≠ u64Max := hsame ▸ Nat.ne_of_lt hc.offset_lt
    rw [catchUpLogs_of_eq true hsame, hsame]
    exact ⟨h.somAt hcur, h.dirtyAt hcur⟩
  obtain ⟨hf, hlog, hstart, hdirty⟩ := catchUpLogs_som hsame hnh
  rw [hlog, hstart, hdirty]
  have hcur : d.currentReportOffset ≤ u64Max := by
    rcases h.started with ⟨-, hmax⟩ | ⟨-, hlt, -⟩ <;> omega
  have hmove := fun k (hk : k < rose.dkeyCount) => flushStoredSomMatches_move h.dirty_first h.dirtyAt hcur hk hf
  refine ⟨fun t k ht hk => ?_, (hmove c.dkey hc.dkey_lt).2.2.1, fun k hk hbit => ?_, fun k hk hbit => ?_⟩
  · obtain ⟨h0, h1, -, -⟩ := hmove k hk
    have hold := fun c' (hc' : c' ∈ pre) hto => h.started.toOffset_eq hge hsame hc' ht hto
    unfold LiveAt at ht
    by_cases htop : t = c.offset
    · -- the log of the new offset is empty, and no call so far ends there
      rw [htop, h0, somStarts_eq_empty fun c' hc' hto => hsame ((hold c' hc' (htop ▸ hto)).1 ▸ htop.symm)]
      simp
    have hslot : t % 2 = (c.offset + 1) % 2 := by omega
    by_cases hprev : d.currentReportOffset ≠ u64Max ∧ c.offset = d.currentReportOffset + 1
    · -- a move by one: `t` is the old offset, whose log is kept
      have hbit : (flushStoredSomMatches rose onEvent d c.offset).2.somLog (t % 2) k = d.somLog (t % 2) k := by
        rw [hslot, h1, if_pos hprev, show (c.offset + 1) % 2 = d.currentReportOffset % 2 by omega]
      rw [hbit]
      exact h.somAt hprev.1 t k ⟨by omega, by omega⟩ hk
    · -- a longer move: the log of `offset - 1` is empty, and no call so far ends there
      rw [hslot, h1, if_neg hprev, ← hslot,
        somStarts_eq_empty fun c' hc' hto => hprev (by have := hold c' hc' hto; omega)]
      simp
  · -- the log of `offset - 1` holds a key only after a move by one, with bit 1 set before it
    obtain ⟨-, h1, -, hodd⟩ := hmove k hk
    rw [h1] at hbit
    split at hbit
    · rename_i hprev
      exact hodd hprev.1 hprev.2 ((h.dirtyAt hprev.1).2.2 k hk hbit)
    · simp at hbit
  · rw [(hmove k hk).1] at hbit
    simp at hbit

/-- **The SOM record.**  On SOM logs right for the call's offset, the call
leaves them right for `pre ++ [c]`, with its dirty bit set. -/
theorem SomAt.logKey (d' : MatchDeduper) (h : SomAt rose pre d'.somLog d'.somStartLog c.offset)
    (hdirty : DirtyAt rose d'.somLog d'.somLogDirty c.offset) (hc : c.Valid rose) :
    SomAt rose (pre ++ [c]) (logDedupeKey d' c.fromOffset c.toOffset c.dkey c.offsetAdjust c.isExternalReport
        c.quashSom c.doSom).2.somLog (logDedupeKey d' c.fromOffset c.toOffset c.dkey c.offsetAdjust
        c.isExternalReport c.quashSom c.doSom).2.somStartLog c.offset ∧
      DirtyAt rose (logDedupeKey d' c.fromOffset c.toOffset c.dkey c.offsetAdjust c.isExternalReport c.quashSom
        c.doSom).2.somLog (logDedupeKey d' c.fromOffset c.toOffset c.dkey c.offsetAdjust c.isExternalReport
        c.quashSom c.doSom).2.somLogDirty c.offset := by
  by_cases hsom : c.OnSom
  swap
  · -- off the SOM path nothing changes, and the call adds no start offset
    obtain ⟨hlog, hstart, hd⟩ := logDedupeKey_som_of_not d' c.fromOffset c.toOffset c.dkey c.offsetAdjust hsom
    rw [hlog, hstart, hd]
    refine ⟨fun t k ht hk => ?_, hdirty⟩
    rw [somStarts_snoc_of_not fun hm => hsom hm.1]
    exact h t k ht hk
  obtain ⟨hpath, hdo⟩ := hsom
  have hlive := hc.liveAt
  unfold logDedupeKey
  rw [if_pos hc.dkey_ne, if_neg (by simp [hpath]), if_pos hdo]
  dsimp only
  constructor
  · intro t k ht hk
    by_cases hmatch : t % 2 = c.toOffset % 2 ∧ k = c.dkey
    swap
    · -- another slot or key: nothing changes
      rw [update_update_of_ne _ _ hmatch, update_update_of_ne _ _ hmatch,
        somStarts_snoc_of_not fun hm => hmatch ⟨by rw [hm.2.2], hm.2.1.symm⟩]
      exact h t k ht hk
    obtain ⟨hslot, rfl⟩ := hmatch
    obtain rfl := ht.eq_of_mod hlive hslot
    obtain ⟨hiff, hleast⟩ := h c.toOffset c.dkey hlive hk
    rw [update_update_self, update_update_self, somStarts_snoc_of ⟨⟨hpath, hdo⟩, rfl, rfl⟩]
    refine ⟨iff_of_true rfl ⟨c.fromOffset, .inr rfl⟩, fun _ => ?_⟩
    split
    · -- `MIN(starts[dkey], from_offset)`
      rename_i hset
      exact (hleast hset).union isLeast_singleton
    · -- the first start offset of this key and to-offset
      rename_i hset
      rw [Set.not_nonempty_iff_eq_empty.mp fun hne => hset (hiff.mpr hne), Set.empty_union]
      exact isLeast_singleton
  · obtain ⟨hlt4, hodd, htwo⟩ := hdirty
    have hb : (if c.offsetAdjust ≠ 0 then 1 else 2) = 1 ∨ (if c.offsetAdjust ≠ 0 then 1 else 2) = 2 := by
      split <;> simp
    obtain ⟨hor4, hkeepOdd, hkeepTwo, hone, htwo'⟩ := somLogDirty_or hlt4 hb
    refine ⟨hor4, fun k hk hbit => ?_, fun k hk hbit => ?_⟩
    · by_cases hmatch : (c.offset + 1) % 2 = c.toOffset % 2 ∧ k = c.dkey
      · -- recorded at `offset - 1`: bit 0
        apply hone
        rcases hc.toOffset_cases with ⟨hto, -⟩ | ⟨-, hadj⟩
        · omega
        · rw [if_pos (by rw [hadj]; decide)]
      · rw [update_update_of_ne _ _ hmatch] at hbit
        exact hkeepOdd (hodd k hk hbit)
    · by_cases hmatch : c.offset % 2 = c.toOffset % 2 ∧ k = c.dkey
      · -- recorded at `offset`: bit 1
        apply htwo'
        rcases hc.toOffset_cases with ⟨-, hadj⟩ | ⟨hto, -⟩
        · rw [if_neg (not_not.mpr hadj)]
        · omega
      · rw [update_update_of_ne _ _ hmatch] at hbit
        exact hkeepTwo (htwo k hk hbit)

end SomRun


/-- A call that does not halt makes its offset current. -/
theorem DedupeCall.run_currentReportOffset {rose : RoseEngine} {onEvent : Nat → Nat → Nat → Bool}
    {d : MatchDeduper} {c : DedupeCall} (hnh : (c.run rose onEvent d).1 ≠ .dedupeHalt) :
    (c.run rose onEvent d).2.currentReportOffset = c.offset := by
  obtain ⟨hcaught, hrun⟩ := dedupeCatchup_of_not_halt hnh
  unfold DedupeCall.run
  rw [hrun, logDedupeKey_currentReportOffset, catchUpLogs_currentReportOffset hcaught]

section Run

variable {rose : RoseEngine} {onEvent : Nat → Nat → Nat → Bool} {pre : List DedupeCall} {d : MatchDeduper}
  {c : DedupeCall}

/-- **One call on the log path.**  A call at an offset not before the last
that does not halt keeps the invariant, and on the log path it skips exactly
when a call of `pre` on that path had its key and to-offset. -/
theorem LogInv.run (h : LogInv rose pre d) (hge : ∀ c' ∈ pre, c'.offset ≤ c.offset) (hc : c.Valid rose)
    (hnh : (c.run rose onEvent d).1 ≠ .dedupeHalt) :
    LogInv rose (pre ++ [c]) (c.run rose onEvent d).2 ∧
      (c.OnLog → ((c.run rose onEvent d).1 = .dedupeSkip ↔
        ∃ c' ∈ pre, c'.OnLog ∧ c'.dkey = c.dkey ∧ c'.toOffset = c.toOffset)) := by
  have hcur := DedupeCall.run_currentReportOffset hnh
  obtain ⟨-, hrun⟩ := dedupeCatchup_of_not_halt hnh
  have hcatch : LogAt rose pre (catchUpLogs rose onEvent d c.offset c.doSom).2.log c.offset := h.catchUp hge hc
  obtain ⟨hat, hskip⟩ := hcatch.logKey hc _ rfl
  unfold DedupeCall.run at hcur ⊢
  rw [hrun] at hcur ⊢
  refine ⟨⟨?_, fun _ => ?_⟩, hskip⟩ <;> rw [hcur]
  · exact h.started.snoc hge hc
  · exact hat

/-- **One call on the SOM path.**  A call with `do_som` at an offset not
before the last that does not halt keeps the SOM invariant. -/
theorem SomInv.run (h : SomInv rose pre d) (hge : ∀ c' ∈ pre, c'.offset ≤ c.offset) (hc : c.Valid rose)
    (hdo : c.doSom = true) (hnh : (c.run rose onEvent d).1 ≠ .dedupeHalt) :
    SomInv rose (pre ++ [c]) (c.run rose onEvent d).2 := by
  have hcur := DedupeCall.run_currentReportOffset hnh
  obtain ⟨hcaught, hrun⟩ := dedupeCatchup_of_not_halt hnh
  rw [hdo] at hcaught
  obtain ⟨hsomAt, hdirtyAt⟩ := h.catchUp hge hc hcaught
  rw [← hdo] at hsomAt hdirtyAt
  obtain ⟨hsomAt', hdirtyAt'⟩ := SomAt.logKey _ hsomAt hdirtyAt hc
  unfold DedupeCall.run at hcur ⊢
  rw [hrun] at hcur ⊢
  have hne : c.offset ≠ u64Max := Nat.ne_of_lt hc.offset_lt
  refine ⟨?_, fun hmax => absurd (hcur ▸ hmax) hne, fun _ => ?_, fun _ => ?_⟩ <;> rw [hcur]
  · exact h.started.snoc hge hc
  · exact hsomAt'
  · exact hdirtyAt'

/-- The SOM invariant just after a call on the SOM path: its key and
to-offset carry the least start offset of the scan's calls with them. -/
theorem SomInv.isLeast (h : SomInv rose (pre ++ [c]) d) (hcur : d.currentReportOffset = c.offset)
    (hc : c.Valid rose) (hsom : c.OnSom) :
    IsLeast (somStarts (pre ++ [c]) c.toOffset c.dkey) (d.somStartLog (c.toOffset % 2) c.dkey) := by
  have hne : d.currentReportOffset ≠ u64Max := hcur ▸ Nat.ne_of_lt hc.offset_lt
  obtain ⟨hiff, hleast⟩ := h.somAt hne c.toOffset c.dkey (hcur ▸ hc.liveAt) hc.dkey_lt
  exact hleast (hiff.mpr ⟨c.fromOffset, c, by simp, hsom, rfl, rfl, rfl⟩)

/-- **A run.**  From invariants for the calls `pre` before them, each call
of a run with valid arguments at non-decreasing offsets that does not halt
answers on the log path by the calls before it, and on the SOM path, when
every call has `do_som`, leaves the least start offset of the calls so far
with its key and to-offset.  By induction on the calls, with `LogInv.run`
and `SomInv.run` as the step. -/
theorem dedupeRun_spec (pre calls : List DedupeCall) (d : MatchDeduper) (hlog : LogInv rose pre d)
    (hsom : (∀ c ∈ pre ++ calls, c.doSom = true) → SomInv rose pre d) (hvalid : ∀ c ∈ calls, c.Valid rose)
    (hmono : (pre ++ calls).Pairwise fun a b => a.offset ≤ b.offset) (n : Nat) (c : DedupeCall)
    (p : DedupeResult × MatchDeduper) (hc : calls[n]? = some c)
    (hp : (dedupeRun rose onEvent d calls)[n]? = some p) (hnh : p.1 ≠ .dedupeHalt) :
    (c.OnLog → (p.1 = .dedupeSkip ↔
        ∃ c' ∈ pre ++ calls.take n, c'.OnLog ∧ c'.dkey = c.dkey ∧ c'.toOffset = c.toOffset)) ∧
      ((∀ c ∈ pre ++ calls, c.doSom = true) → c.OnSom →
        IsLeast (somStarts (pre ++ calls.take (n + 1)) c.toOffset c.dkey)
          (p.2.somStartLog (c.toOffset % 2) c.dkey)) := by
  induction calls generalizing pre d n with
  | nil => simp at hc
  | cons c0 cs ih =>
    have hge : ∀ c' ∈ pre, c'.offset ≤ c0.offset := fun c' hc' =>
      (List.pairwise_append.mp hmono).2.2 c' hc' c0 (by simp)
    have hv0 := hvalid c0 (by simp)
    cases n with
    | zero =>
      -- the first call: the step lemmas themselves
      simp only [List.getElem?_cons_zero, Option.some.injEq] at hc
      subst hc
      simp only [dedupeRun, List.getElem?_cons_zero, Option.some.injEq] at hp
      subst hp
      refine ⟨fun hon => by simpa using (hlog.run hge hv0 hnh).2 hon, fun hall hon => ?_⟩
      have hinv := (hsom hall).run hge hv0 (hall _ (by simp)) hnh
      simpa using hinv.isLeast (DedupeCall.run_currentReportOffset hnh) hv0 hon
    | succ m =>
      -- a later call: the rest of the run, from the invariants after the first
      simp only [List.getElem?_cons_succ] at hc
      have hnh0 : (c0.run rose onEvent d).1 ≠ .dedupeHalt := by
        intro hhalt
        simp [dedupeRun, hhalt] at hp
      simp only [dedupeRun, if_neg hnh0, List.getElem?_cons_succ] at hp
      have hsame : pre ++ [c0] ++ cs = pre ++ c0 :: cs := by simp
      have hsom' : (∀ c ∈ pre ++ [c0] ++ cs, c.doSom = true) → SomInv rose (pre ++ [c0]) (c0.run rose onEvent d).2 :=
        fun hall => (hsom (hsame ▸ hall)).run hge hv0 (hall c0 (by simp)) hnh0
      have hrest := ih (pre ++ [c0]) (c0.run rose onEvent d).2 (hlog.run hge hv0 hnh0).1 hsom'
        (fun c hc => hvalid c (by simp [hc])) (hsame ▸ hmono) m hc hp
      rw [hsame] at hrest
      simpa using hrest

end Run


/-! ## Dedupe within a scan -/

/-- **Dedupe within a scan.**  In a scan started by `populateCoreInfo`, for
calls with valid arguments below offset `~0` at non-decreasing offsets, a
call that the run reaches and that does not halt skips on the log path
exactly when an earlier call of the scan on that path had its key and
to-offset; in a scan whose calls all have `do_som`, a call on the SOM path
leaves the least start offset of the scan's SOM calls with its key and
to-offset in `som_start_log`. -/
theorem dedupeRun_skip_iff (rose : RoseEngine) (onEvent : Nat → Nat → Nat → Bool) (d : MatchDeduper)
    (calls : List DedupeCall) (hvalid : ∀ c ∈ calls, c.Valid rose)
    (hmono : calls.Pairwise fun a b => a.offset ≤ b.offset) (n : Nat) (c : DedupeCall)
    (p : DedupeResult × MatchDeduper) (hc : calls[n]? = some c)
    (hp : (dedupeRun rose onEvent (scanStart d) calls)[n]? = some p) (hnh : p.1 ≠ .dedupeHalt) :
    (c.OnLog → (p.1 = .dedupeSkip ↔
        ∃ c' ∈ calls.take n, c'.OnLog ∧ c'.dkey = c.dkey ∧ c'.toOffset = c.toOffset)) ∧
      ((∀ c ∈ calls, c.doSom = true) → c.OnSom →
        IsLeast (somStarts (calls.take (n + 1)) c.toOffset c.dkey) (p.2.somStartLog (c.toOffset % 2) c.dkey)) := by
  have h := dedupeRun_spec [] calls (scanStart d) (logInv_scanStart rose d) (fun _ => somInv_scanStart rose d)
    hvalid (by simpa using hmono) n c p hc hp hnh
  simpa using h

/-- An engine of two dedupe keys, each its own report. -/
def twoKeyRose : RoseEngine := ⟨2, id, by decide⟩

/-- A user callback that never halts. -/
def quietCallback : Nat → Nat → Nat → Bool := fun _ _ _ => false

/-- A deduper with empty logs. -/
def freshDeduper : MatchDeduper := ⟨fun _ _ => false, fun _ _ => false, fun _ _ => 0, 0, 0⟩

/-- Two reports of key `1` at offset `5` on the log path, then two of key `0`
at offset `6` on the SOM path, from `2` and from `1`. -/
def sampleCalls : List DedupeCall :=
  [⟨5, 3, 0, 1, true, false, true⟩, ⟨5, 4, 0, 1, true, false, true⟩,
    ⟨6, 2, 0, 0, false, false, true⟩, ⟨6, 1, 0, 0, false, false, true⟩]

/-- The answer to call `n` of the sample scan, with the deduper after it. -/
def sampleResult (n : Nat) : DedupeResult × MatchDeduper :=
  ((dedupeRun twoKeyRose quietCallback (scanStart freshDeduper) sampleCalls)[n]?).getD
    (.dedupeContinue, freshDeduper)

theorem dedupeRun_skip_iff_sample :
    (sampleResult 1).1 = .dedupeSkip ∧
      IsLeast (somStarts (sampleCalls.take 4) 6 0) ((sampleResult 3).2.somStartLog 0 0) := by
  have hvalid : ∀ c ∈ sampleCalls, c.Valid twoKeyRose := by
    intro c hc
    simp only [sampleCalls, List.mem_cons, List.mem_nil_iff, or_false] at hc
    rcases hc with rfl | rfl | rfl | rfl <;> exact ⟨by decide, .inl rfl, by decide, by decide⟩
  have hmono : sampleCalls.Pairwise fun a b => a.offset ≤ b.offset := by decide
  constructor
  · refine ((dedupeRun_skip_iff twoKeyRose quietCallback freshDeduper sampleCalls hvalid hmono 1
      ⟨5, 4, 0, 1, true, false, true⟩ (sampleResult 1) rfl rfl (by decide)).1 rfl).mpr ?_
    exact ⟨⟨5, 3, 0, 1, true, false, true⟩, by decide, rfl, rfl, rfl⟩
  · exact (dedupeRun_skip_iff twoKeyRose quietCallback freshDeduper sampleCalls hvalid hmono 3
      ⟨6, 1, 0, 0, false, false, true⟩ (sampleResult 3) rfl rfl (by decide)).2 (by decide) ⟨rfl, rfl⟩

/-- A deduper left by an earlier scan with key `0` in the log of odd offsets. -/
def staleDeduper : MatchDeduper := { freshDeduper with log := fun s k => s == 1 && k == 0 }

/-- The first report of a scan at offset `~0` finds that offset current and
clears no log, so the key left by the last scan is skipped. -/
theorem dedupeCatchup_skip_at_max :
    ((dedupeRun twoKeyRose quietCallback (scanStart staleDeduper) [⟨u64Max, 0, 0, 0, true, false, false⟩]).map
      Prod.fst) = [.dedupeSkip] := by
  decide

end Report
end Vectorscan
