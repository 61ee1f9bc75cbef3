import Vectorscan.Multibit.Compress
import Vectorscan.Multibit.ForEach
import Vectorscan.Lib.Refinement

/-!
# Stream state compression

`hs_compress_stream` and `hs_expand_stream` store a stream in a caller's
buffer and rebuild it (`src/stream_compress.c`).  One body,
`stream_compress_impl.h`, is instantiated three times: `sc_compress` copies
each region of the stream state into the buffer, `sc_expand` copies it back,
and `sc_size` only adds up the sizes.  Multibits go through
`mmbit_compress`/`mmbit_decompress`; history, engine states and SOM slots
are copied only as far as the stream uses them.

**Model.**  A stream is one bit-addressed memory: `struct hs_stream` (the
engine pointer, then the offset at byte 8), followed by the Rose state that
the engine's `RoseStateOffsets` lays out (`fillStateOffsets`).  The body
`scBody` is written once over `ScOps`, what `COPY`, `COPY_MULTIBIT` and
`ASSIGN` do; `scExpandOps`, `scCompressOps` and `scSizeOps` are the three
instantiations of `stream_compress.c`.  A multibit of the stream is handed
to the multibit functions through a pointer view (`Mem.shift`).  The walk
over the non-transient active leftfixes (`mmbit_sparse_iter_begin`/`_next`)
is taken by its contract: the keys of the active left array that the
iterator holds, in increasing order.

**Results.**  `scBody_sim`: instantiations whose operations keep in step
(`ScSim`) give runs of the body that keep in step.  `sizeCompressStream_eq`:
when `compress_stream` succeeds, `size_compress_stream` is the number of bytes
it wrote.
-/

namespace Vectorscan
namespace Stream

open Multibit

/-! ## The layout -/

/-- `sizeof(struct hs_stream)`: the engine pointer and the stream offset. -/
def hsStreamSize : Nat := 16

/-- The offset of `hs_stream::offset`. -/
def hsStreamOffsetField : Nat := 8

/-- `ROSE_STATE_OFFSET_STATUS_FLAGS`. -/
def roseStateOffsetStatusFlags : Nat := 0

/-- `ROSE_STATE_OFFSET_ROLE_MMBIT`. -/
def roseStateOffsetRoleMmbit : Nat := 1

/-- The fields of `struct RoseStateOffsets` that stream compression reads,
byte offsets into the Rose state. -/
structure RoseStateOffsets where
  history : Nat
  exhausted : Nat
  logicalVec : Nat
  combVec : Nat
  activeLeafArray : Nat
  activeLeftArray : Nat
  leftfixLagTable : Nat
  anchorState : Nat
  groups : Nat
  groupsSize : Nat
  longLitState : Nat
  longLitStateSize : Nat
  somLocation : Nat
  somValid : Nat
  somWritable : Nat
  nfaStateBegin : Nat
  deriving DecidableEq, Repr

/-- The sizes `fillStateOffsets` (`rose_build_bytecode.cpp`) lays the Rose
state out from: its parameters, and what it reads of the build (the end of
the groups, the numbers of exhaustion, logical and combination keys, and the
SOM slots and their width). -/
structure StateCounts where
  rolesWithStateCount : Nat
  anchorStateSize : Nat
  activeArrayCount : Nat
  activeLeftCount : Nat
  laggedRoseCount : Nat
  longLitStreamStateRequired : Nat
  historyRequired : Nat
  groupEnd : Nat
  numEkeys : Nat
  numLogical : Nat
  numCkeys : Nat
  numSomSlots : Nat
  somPrecision : Nat

/-- `fillStateOffsets`: the regions of the Rose state, one after the other. -/
def fillStateOffsets (c : StateCounts) : RoseStateOffsets :=
  -- the status byte, then the role multibit
  let curr := 1 + mmbitSize c.rolesWithStateCount
  let activeLeafArray := curr
  let curr := curr + mmbitSize c.activeArrayCount
  let activeLeftArray := curr
  let curr := curr + mmbitSize c.activeLeftCount
  let longLitState := curr
  let curr := curr + c.longLitStreamStateRequired
  -- one whole byte for each active leftfix with lag
  let leftfixLagTable := curr
  let curr := curr + c.laggedRoseCount
  let anchorState := curr
  let curr := curr + c.anchorStateSize
  let groups := curr
  let groupsSize := (c.groupEnd + 7) / 8
  let curr := curr + groupsSize
  let history := curr
  let curr := curr + c.historyRequired
  let exhausted := curr
  let curr := curr + mmbitSize c.numEkeys
  let logicalVec := curr
  let curr := curr + mmbitSize c.numLogical
  let combVec := curr
  let curr := curr + mmbitSize c.numCkeys
  let (somLocation, somValid, somWritable, curr) :=
    if c.numSomSlots ≠ 0 then
      -- the slots are aligned to their width; their width is zero in block mode
      let (somLocation, curr) :=
        if c.somPrecision ≠ 0 then
          (roundupN curr c.somPrecision, roundupN curr c.somPrecision + c.numSomSlots * c.somPrecision)
        else (0, curr)
      let somValid := curr
      let curr := curr + mmbitSize c.numSomSlots
      (somLocation, somValid, curr, curr + mmbitSize c.numSomSlots)
    else (0, 0, 0, curr)
  { history := history, exhausted := exhausted, logicalVec := logicalVec, combVec := combVec,
    activeLeafArray := activeLeafArray, activeLeftArray := activeLeftArray,
    leftfixLagTable := leftfixLagTable, anchorState := anchorState, groups := groups,
    groupsSize := groupsSize, longLitState := longLitState,
    longLitStateSize := c.longLitStreamStateRequired, somLocation := somLocation, somValid := somValid,
    somWritable := somWritable, nfaStateBegin := curr }

/-- Where an engine keeps its stream state: `NfaInfo::stateOffset` and the
engine's `streamStateSize`. -/
structure NfaStreamInfo where
  stateOffset : Nat
  streamStateSize : Nat

/-- The fields of `struct RoseEngine` that stream compression reads; `ptr` is
the engine's address, which `expand_stream` stores in the stream, `nfaInfo`
gives each queue's engine, and `lagIndex` each leftfix's byte of the lag
table. -/
structure RoseEngine where
  ptr : Nat
  stateOffsets : RoseStateOffsets
  rolesWithStateCount : Nat
  activeArrayCount : Nat
  activeLeftCount : Nat
  historyRequired : Nat
  anchoredDistance : Nat
  anchorStateSize : Nat
  ekeyCount : Nat
  lkeyCount : Nat
  lopCount : Nat
  ckeyCount : Nat
  somLocationCount : Nat
  somHorizon : Nat
  activeLeftIterOffset : Nat
  activeLeftIter : List MmbitSparseIter
  leftfixBeginQueue : Nat
  nfaInfo : Nat → NfaStreamInfo
  lagIndex : Nat → Nat

/-- `stream->offset`. -/
def streamOffset (stream : Mem) : Nat := stream.load (8 * hsStreamOffsetField) 64

/-! ## The three instantiations -/

/-- One run of the body: the stream, the buffer and `currOffset`. -/
structure ScState where
  stream : Mem
  buf : Mem
  currOffset : Nat

/-- What `COPY(p, sz)`, `COPY_MULTIBIT(p, total_bits)` and
`ASSIGN(stream->rose, rose)` do, for a byte address `p` of the stream;
`none` is the body's `return 0`. -/
structure ScOps where
  copy : Nat → Nat → ScState → Option ScState
  copyMultibit : Nat → Nat → ScState → Option ScState
  assignRose : Nat → ScState → ScState

/-- `COPY_OUT`, `COPY_MULTIBIT_OUT` and the assignment of `sc_expand`, from a
buffer of `buf_size` bytes. -/
def scExpandOps (bufSize : Nat) : ScOps where
  copy p sz st :=
    if st.currOffset + sz > bufSize then none
    else some { st with stream := st.stream.copy (8 * p) st.buf (8 * st.currOffset) (8 * sz),
                        currOffset := st.currOffset + sz }
  copyMultibit p totalBits st :=
    (mmbitDecompress (st.stream.shift (8 * p)) totalBits (st.buf.shift (8 * st.currOffset))
        (bufSize - st.currOffset)).map fun r =>
      { st with stream := st.stream.unshift (8 * p) r.1, currOffset := st.currOffset + r.2 }
  assignRose rose st := { st with stream := st.stream.store 0 64 rose }

/-- `COPY_IN` (its bound is an `assert`, so it writes unchecked),
`COPY_MULTIBIT_IN` and the empty assignment of `sc_compress`, into a buffer
of `buf_size` bytes. -/
def scCompressOps (bufSize : Nat) : ScOps where
  copy p sz st :=
    some { st with buf := st.buf.copy (8 * st.currOffset) st.stream (8 * p) (8 * sz),
                   currOffset := st.currOffset + sz }
  copyMultibit p totalBits st :=
    (mmbitCompress (st.stream.shift (8 * p)) totalBits (st.buf.shift (8 * st.currOffset))
        (bufSize - st.currOffset)).map fun r =>
      { st with buf := st.buf.unshift (8 * st.currOffset) r.1, currOffset := st.currOffset + r.2 }
  assignRose _ st := st

/-- `SIZE_COPY_IN`, `COPY_MULTIBIT_SIZE` and the empty assignment of `sc_size`. -/
def scSizeOps : ScOps where
  copy _ sz st := some { st with currOffset := st.currOffset + sz }
  copyMultibit p totalBits st :=
    (mmbitCompsize (st.stream.shift (8 * p)) totalBits).map fun sz =>
      { st with currOffset := st.currOffset + sz }
  assignRose _ st := st

/-! ## The body -/

/-- A pass of a loop of the body whose step can fail: a failure (`return 0`)
leaves the loop. -/
def scLoopBody (step : Nat → ScState → Option ScState) (o : Option ScState) (i : Nat) :
    Bool × Option ScState :=
  match o.bind (step i) with
  | none => (true, none)
  | some st => (false, some st)

/-- The loop over the keys of the multibit at byte `p` of the stream, which is
read from the stream as it stands before each pass (on the expand side, as it
has just been decompressed). -/
def scForEach (p totalBits : Nat) (step : Nat → ScState → Option ScState) (st : ScState) :
    Option ScState :=
  (mmbitForEachKey (fun o : Option ScState => ((o.map ScState.stream).getD fun _ => false).shift (8 * p))
    totalBits (scLoopBody step) (some st)).2

section Body

variable (ops : ScOps) (rose : RoseEngine)

/-- The loop over the active endfixes: `COPY` of the stream state of each
queue of the active leaf array. -/
def scNfaStates (st : ScState) : Option ScState :=
  scForEach (hsStreamSize + rose.stateOffsets.activeLeafArray) rose.activeArrayCount
    (fun qi => ops.copy (hsStreamSize + (rose.nfaInfo qi).stateOffset) (rose.nfaInfo qi).streamStateSize) st

/-- The non-transient active leftfixes, as `mmbit_sparse_iter_begin`/`_next`
over the active left array return them: its keys that the iterator holds. -/
def activeLeftfixes (ara : Mem) : List Nat :=
  (List.range rose.activeLeftCount).filter fun ri =>
    decide (MmbitMember rose.activeLeftCount ara ri) &&
      sparseIterNode rose.activeLeftIter (mmbitMaxlevel rose.activeLeftCount) ri

/-- `COPY_LEFTFIXES`: the stream state and the lag byte of each
non-transient active leftfix. -/
def scLeftfixes (st : ScState) : Option ScState :=
  if rose.activeLeftIterOffset = 0 then some st
  else
    let so := rose.stateOffsets
    let ara := st.stream.shift (8 * (hsStreamSize + so.activeLeftArray))
    (activeLeftfixes rose ara).foldlM (fun st ri => do
      let info := rose.nfaInfo (ri + rose.leftfixBeginQueue)
      let st ← ops.copy (hsStreamSize + info.stateOffset) info.streamStateSize st
      ops.copy (hsStreamSize + so.leftfixLagTable + rose.lagIndex ri) 1 st) st

/-- `COPY_SOM_INFO`: the SOM multibits, then each valid slot. -/
def scSomInfo (st : ScState) : Option ScState :=
  let so := rose.stateOffsets
  if so.somLocation = 0 then some st
  else do
    let st ← ops.copyMultibit (hsStreamSize + so.somWritable) rose.somLocationCount st
    let st ← ops.copyMultibit (hsStreamSize + so.somValid) rose.somLocationCount st
    scForEach (hsStreamSize + so.somValid) rose.somLocationCount
      (fun slot => ops.copy (hsStreamSize + so.somLocation + slot * rose.somHorizon) rose.somHorizon) st

/-- The history the body copies: `MIN((u32)offset, historyRequired)` bytes. -/
def scHistory (offset : Nat) : Nat := min (offset % 2 ^ 32) rose.historyRequired

/-- `sc_##FN_SUFFIX`: the regions of the stream in their order. -/
def scBody (st : ScState) : Option ScState := do
  let so := rose.stateOffsets
  let body := hsStreamSize
  let st ← ops.copy hsStreamOffsetField 8 st
  let st := ops.assignRose rose.ptr st
  let st ← ops.copy (body + roseStateOffsetStatusFlags) 1 st
  let st ← ops.copyMultibit (body + roseStateOffsetRoleMmbit) rose.rolesWithStateCount st
  -- on the expand side the offset has just been copied in
  let offset := streamOffset st.stream
  let history := scHistory rose offset
  let st ← ops.copyMultibit (body + so.activeLeafArray) rose.activeArrayCount st
  let st ← ops.copyMultibit (body + so.activeLeftArray) rose.activeLeftCount st
  let st ← ops.copy (body + so.longLitState) so.longLitStateSize st
  -- the anchored state is not needed once deep in the stream
  let st ← (if offset ≤ rose.anchoredDistance then ops.copy (body + so.anchorState) rose.anchorStateSize st
    else some st)
  let st ← ops.copy (body + so.groups) so.groupsSize st
  -- the real bits of history, up to its end
  let st ← ops.copy (body + so.history + rose.historyRequired - history) history st
  let st ← ops.copyMultibit (body + so.exhausted) rose.ekeyCount st
  let st ← ops.copyMultibit (body + so.logicalVec) (rose.lkeyCount + rose.lopCount) st
  let st ← ops.copyMultibit (body + so.combVec) rose.ckeyCount st
  let st ← scNfaStates ops rose st
  let st ← scLeftfixes ops rose st
  if st.currOffset = 0 then none
  else
    let st ← scSomInfo ops rose st
    if st.currOffset = 0 then none else some st

end Body

/-- `expand_stream`: the stream rebuilt over `stream` from `buf`, and the
bytes read; `none` is a failure. -/
def expandStream (stream : Mem) (rose : RoseEngine) (buf : Mem) (bufSize : Nat) : Option (Mem × Nat) :=
  (scBody (scExpandOps bufSize) rose ⟨stream, buf, 0⟩).map fun st => (st.stream, st.currOffset)

/-- `compress_stream`: the buffer with the stream written into it, and the
bytes written; `none` is a failure (`0`). -/
def compressStream (buf : Mem) (bufSize : Nat) (rose : RoseEngine) (stream : Mem) : Option (Mem × Nat) :=
  (scBody (scCompressOps bufSize) rose ⟨stream, buf, 0⟩).map fun st => (st.buf, st.currOffset)

/-- `size_compress_stream`. -/
def sizeCompressStream (rose : RoseEngine) (stream : Mem) : Option Nat :=
  (scBody scSizeOps rose ⟨stream, fun _ => false, 0⟩).map ScState.currOffset

/-! ## The size of a compressed stream -/

/-- Two runs of the body agree on what the body reads: the stream and
`currOffset`. -/
def ScAgree (a b : ScState) : Prop := a.stream = b.stream ∧ a.currOffset = b.currOffset

/-- The operations `A` keep in step with `B`: on states that agree, each
operation of `B` that succeeds is matched by one of `A`. -/
structure ScSim (A B : ScOps) : Prop where
  copy : ∀ p sz a b, ScAgree a b → OptSim ScAgree (A.copy p sz a) (B.copy p sz b)
  copyMultibit : ∀ p n a b, ScAgree a b → OptSim ScAgree (A.copyMultibit p n a) (B.copyMultibit p n b)
  assignRose : ∀ r a b, ScAgree a b → ScAgree (A.assignRose r a) (B.assignRose r b)

section Sim

variable {A B : ScOps} (rose : RoseEngine)

/-- The loops of the body keep in step when their steps do. -/
theorem scForEach_sim {p n : Nat} {stepA stepB : Nat → ScState → Option ScState}
    (hstep : ∀ i a b, ScAgree a b → OptSim ScAgree (stepA i a) (stepB i b)) {a b : ScState}
    (hab : ScAgree a b) : OptSim ScAgree (scForEach p n stepA a) (scForEach p n stepB b) := by
  intro b' hb'
  -- the loop states: both alive and agreeing
  let R : Option ScState → Option ScState → Prop := fun o1 o2 =>
    ∃ a b, o1 = some a ∧ o2 = some b ∧ ScAgree a b
  have hbits : ∀ o1 o2, R o1 o2 → ((o1.map ScState.stream).getD fun _ => false).shift (8 * p) =
      ((o2.map ScState.stream).getD fun _ => false).shift (8 * p) := by
    rintro _ _ ⟨a, b, rfl, rfl, hab⟩
    simp [hab.1]
  have hgo : ∀ o1 o2 i, R o1 o2 → (scLoopBody stepB o2 i).1 = false →
      (scLoopBody stepA o1 i).1 = false ∧ R (scLoopBody stepA o1 i).2 (scLoopBody stepB o2 i).2 := by
    rintro _ _ i ⟨a, b, rfl, rfl, hab⟩ hgo
    cases hB : stepB i b with
    | none => simp [scLoopBody, hB] at hgo
    | some b' =>
        obtain ⟨a', hA, hab'⟩ := hstep i a b hab b' hB
        simp only [scLoopBody, Option.bind_some, hA, hB, true_and]
        exact ⟨a', b', rfl, rfl, hab'⟩
  have hleave : ∀ o i, (scLoopBody stepB o i).1 = true → ¬ ((scLoopBody stepB o i).2.isSome = true) := by
    intro o i
    cases h : o.bind (stepB i) <;> simp [scLoopBody, h]
  unfold scForEach mmbitForEachKey at hb' ⊢
  obtain ⟨a', b'', hA, hB, hab'⟩ := mmbitForEach_sim R (fun o => o.isSome = true) hbits hgo hleave _ _
    (some a) (some b) ⟨a, b, rfl, rfl, hab⟩ (by rw [hb']; rfl)
  rw [hb'] at hB
  cases hB
  exact ⟨a', hA, hab'⟩

theorem scNfaStates_sim (hs : ScSim A B) {a b : ScState} (hab : ScAgree a b) :
    OptSim ScAgree (scNfaStates A rose a) (scNfaStates B rose b) := by
  unfold scNfaStates
  refine scForEach_sim ?_ hab
  intro qi a b h
  exact hs.copy _ _ _ _ h

theorem scLeftfixes_sim (hs : ScSim A B) {a b : ScState} (hab : ScAgree a b) :
    OptSim ScAgree (scLeftfixes A rose a) (scLeftfixes B rose b) := by
  unfold scLeftfixes
  split_ifs
  · exact OptSim.some hab
  -- both sides walk the leftfixes of the same stream
  rw [hab.1]
  refine OptSim.foldlM ?_ _ a b hab
  intro a b _ h
  exact OptSim.bind (hs.copy _ _ _ _ h) fun _ _ h' => hs.copy _ _ _ _ h'

theorem scSomInfo_sim (hs : ScSim A B) {a b : ScState} (hab : ScAgree a b) :
    OptSim ScAgree (scSomInfo A rose a) (scSomInfo B rose b) := by
  unfold scSomInfo
  dsimp only
  split_ifs
  · exact OptSim.some hab
  refine OptSim.bind (hs.copyMultibit _ _ _ _ hab) fun a b hab => ?_
  refine OptSim.bind (hs.copyMultibit _ _ _ _ hab) fun a b hab => ?_
  refine scForEach_sim ?_ hab
  intro slot a b h
  exact hs.copy _ _ _ _ h

/-- **The body keeps in step.**  Operations that keep in step give runs of
the body that do. -/
theorem scBody_sim (hs : ScSim A B) {a b : ScState} (hab : ScAgree a b) :
    OptSim ScAgree (scBody A rose a) (scBody B rose b) := by
  unfold scBody
  refine OptSim.bind (hs.copy _ _ _ _ hab) fun a b hab => ?_
  refine OptSim.bind (hs.copy _ _ _ _ (hs.assignRose _ _ _ hab)) fun a b hab => ?_
  refine OptSim.bind (hs.copyMultibit _ _ _ _ hab) fun a b hab => ?_
  -- the rest reads the offset of the same stream on both sides
  rw [hab.1]
  refine OptSim.bind (hs.copyMultibit _ _ _ _ hab) fun a b hab => ?_
  refine OptSim.bind (hs.copyMultibit _ _ _ _ hab) fun a b hab => ?_
  refine OptSim.bind (hs.copy _ _ _ _ hab) fun a b hab => ?_
  refine OptSim.bind (OptSim.ite (fun _ => hs.copy _ _ _ _ hab) fun _ => OptSim.some hab) fun a b hab => ?_
  refine OptSim.bind (hs.copy _ _ _ _ hab) fun a b hab => ?_
  refine OptSim.bind (hs.copy _ _ _ _ hab) fun a b hab => ?_
  refine OptSim.bind (hs.copyMultibit _ _ _ _ hab) fun a b hab => ?_
  refine OptSim.bind (hs.copyMultibit _ _ _ _ hab) fun a b hab => ?_
  refine OptSim.bind (hs.copyMultibit _ _ _ _ hab) fun a b hab => ?_
  refine OptSim.bind (scNfaStates_sim rose hs hab) fun a b hab => ?_
  refine OptSim.bind (scLeftfixes_sim rose hs hab) fun a b hab => ?_
  -- the checks of currOffset read the same value on both sides
  rw [hab.2]
  split_ifs
  · exact OptSim.none _
  refine OptSim.bind (scSomInfo_sim rose hs hab) fun a b hab => ?_
  rw [hab.2]
  split_ifs
  · exact OptSim.none _
  · exact OptSim.some hab

end Sim

/-- `sc_size` keeps in step with `sc_compress`: it counts what `COPY_IN` and
`COPY_MULTIBIT_IN` write. -/
theorem scSizeOps_sim (bufSize : Nat) : ScSim scSizeOps (scCompressOps bufSize) where
  copy _ _ a b hab := OptSim.some ⟨hab.1, by simp [hab.2]⟩
  copyMultibit p n a b hab := by
    rintro b' hb'
    obtain ⟨r, hr, rfl⟩ := Option.map_eq_some_iff.mp hb'
    refine ⟨{ a with currOffset := a.currOffset + r.2 }, ?_, hab.1, by simp [hab.2]⟩
    simp only [scSizeOps, hab.1, mmbitCompress_compsize hr, Option.map_some]
  assignRose _ _ _ hab := hab

/-- **The size of a compressed stream.**  When `compress_stream` succeeds,
`size_compress_stream` gives the number of bytes it wrote. -/
theorem sizeCompressStream_eq {buf buf' stream : Mem} {bufSize n : Nat} {rose : RoseEngine}
    (h : compressStream buf bufSize rose stream = some (buf', n)) :
    sizeCompressStream rose stream = some n := by
  obtain ⟨st, hst, hres⟩ := Option.map_eq_some_iff.mp h
  obtain ⟨st', hst', hagree⟩ := scBody_sim rose (scSizeOps_sim bufSize)
    (a := ⟨stream, fun _ => false, 0⟩) (b := ⟨stream, buf, 0⟩) ⟨rfl, rfl⟩ st hst
  simp only [Prod.mk.injEq] at hres
  rw [sizeCompressStream, hst', Option.map_some, hagree.2, hres.2]

/-- The sizes of a streaming engine whose Rose state is the status byte and
two bytes of history. -/
def historyTwoCounts : StateCounts := ⟨0, 0, 0, 0, 0, 0, 2, 0, 0, 0, 0, 0, 0⟩

/-- That engine, laid out by `fillStateOffsets`: no roles, engines, keys or SOM
slots. -/
def historyTwoRose : RoseEngine :=
  { ptr := 0, stateOffsets := fillStateOffsets historyTwoCounts, rolesWithStateCount := 0,
    activeArrayCount := 0, activeLeftCount := 0, historyRequired := 2, anchoredDistance := 0,
    anchorStateSize := 0, ekeyCount := 0, lkeyCount := 0, lopCount := 0, ckeyCount := 0,
    somLocationCount := 0, somHorizon := 0, activeLeftIterOffset := 0, activeLeftIter := [],
    leftfixBeginQueue := 0, nfaInfo := fun _ => ⟨0, 0⟩, lagIndex := fun _ => 0 }

/-- A stream of that engine at the offset `2 ^ 32 - 2`, its state otherwise clear. -/
def historyTwoStart : Mem := Mem.store (fun _ => false) (8 * hsStreamOffsetField) 64 (2 ^ 32 - 2)

set_option maxRecDepth 100000 in
theorem sizeCompressStream_eq_historyTwo :
    ∃ buf, compressStream (fun _ => false) 11 historyTwoRose historyTwoStart = some (buf, 11) ∧
      sizeCompressStream historyTwoRose historyTwoStart = some 11 := by
  obtain ⟨⟨buf, n⟩, hc⟩ : ∃ r, compressStream (fun _ => false) 11 historyTwoRose historyTwoStart = some r :=
    Option.isSome_iff_exists.mp (by decide)
  have hn : n = 11 := by
    have hmap := congrArg (Option.map Prod.snd) hc
    rw [show (compressStream (fun _ => false) 11 historyTwoRose historyTwoStart).map Prod.snd = some 11 by
      decide] at hmap
    exact (Option.some.inj hmap).symm
  subst hn
  exact ⟨buf, hc, sizeCompressStream_eq hc⟩

end Stream
end Vectorscan
