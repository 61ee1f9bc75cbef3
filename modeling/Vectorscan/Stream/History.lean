import Vectorscan.Stream.Compress

/-!
# The history of a stream

A streaming engine keeps the last `historyRequired` bytes of the stream in
the history region of its Rose state, so that a match can look back past the
start of a block (`runtime.c`).  After each scan `maintainHistoryBuffer`
shifts the region by the bytes scanned and copies in the end of the block;
the runtime reads it back through `getHistory`, of which only the last
`MIN(historyRequired, offset)` bytes are real.

**Model.**  The Rose state is the stream seen past `struct hs_stream`
(`Mem.shift`); a scanned block is a byte list (`Mem.ofBytes`).  `scanStreamTail`
is the end of `hs_scan_stream_internal` after a scan that was not stopped:
the history kept and `id->offset += length`.  What the engine does with the
bytes in between is not modelled here.

**Results.**  `maintainHistoryBuffer_load`: after one scan each byte of the
region is the byte `length` places further along the old region followed by
the block.  `historyRegion_foldl`: over any run of scans the region is the
old region and all the data, less as many bytes as were scanned.
`streamHistory_scans`: from a new stream, `getHistory` exposes the last
`MIN(historyRequired, offset)` bytes scanned; `streamHistory_openStream`
says the same of a stream from `init_stream` and the writes of
`hs_scan_stream`, empty ones included, of fewer than `2 ^ 64` bytes in all.
`streamHistory_wraps`: after `2 ^ 64` bytes the `u64a` offset is back at `0`
and `getHistory` exposes nothing.  `expandStream_history_lost`:
at the stream offset `2 ^ 32`, where the `(u32)offset` of the compression body
is `0`, no history is copied, and the rebuilt stream exposes what the buffer
it was rebuilt into held.
-/

namespace Vectorscan
namespace Stream

open Multibit

/-! ## What the runtime reads -/

/-- `getHistoryAmount`: the history bytes the runtime uses. -/
def getHistoryAmount (rose : RoseEngine) (offset : Nat) : Nat := min rose.historyRequired offset

/-- `getHistory`: where in the Rose state they start. -/
def getHistory (rose : RoseEngine) (offset : Nat) : Nat :=
  rose.stateOffsets.history + rose.historyRequired - min rose.historyRequired offset

/-- The history bytes the runtime reads from a stream. -/
def streamHistory (rose : RoseEngine) (stream : Mem) : List Nat :=
  let offset := streamOffset stream
  (List.range (getHistoryAmount rose offset)).map fun i =>
    stream.load (8 * (hsStreamSize + getHistory rose offset + i)) 8

/-- The bytes of the history region of a Rose state. -/
def historyRegion (rose : RoseEngine) (state : Mem) : List Nat :=
  (List.range rose.historyRequired).map fun i => state.load (8 * (rose.stateOffsets.history + i)) 8

@[simp] theorem length_historyRegion (rose : RoseEngine) (state : Mem) :
    (historyRegion rose state).length = rose.historyRequired := by
  simp [historyRegion]

/-- The runtime reads the last `MIN(historyRequired, offset)` bytes of the region. -/
theorem streamHistory_eq_drop (rose : RoseEngine) (stream : Mem) :
    streamHistory rose stream =
      (historyRegion rose (stream.shift (8 * hsStreamSize))).drop
        (rose.historyRequired - min rose.historyRequired (streamOffset stream)) := by
  apply List.ext_getElem
  · simp [streamHistory, getHistoryAmount]
    omega
  · intro i h1 _
    simp only [streamHistory, getHistoryAmount, List.length_map, List.length_range] at h1
    simp only [streamHistory, historyRegion, getHistory, getHistoryAmount, List.getElem_map,
      List.getElem_range, List.getElem_drop, Mem.load_shift]
    congr 1
    omega

/-! ## Keeping the history -/

/-- `maintainHistoryBuffer` on the Rose state `state`, after a scan of the
`length` bytes of `buffer`. -/
def maintainHistoryBuffer (rose : RoseEngine) (state buffer : Mem) (length : Nat) : Mem :=
  if rose.historyRequired = 0 then state
  -- a zero-byte scan
  else if length = 0 then state
  else
    let his := rose.stateOffsets.history
    let h := rose.historyRequired
    -- the old bytes that stay move to the front of the region (memmove)
    let state :=
      if length < h then
        let shortfall := h - length
        state.copy (8 * his) state (8 * (his + h - shortfall)) (8 * shortfall)
      else state
    let amount := min h length
    state.copy (8 * (his + h - amount)) buffer (8 * (length - amount)) (8 * amount)

/-- One scan moves the region along by the bytes scanned: byte `i` of the new
region is byte `length + i` of the old region followed by the block. -/
theorem maintainHistoryBuffer_load (rose : RoseEngine) (state buffer : Mem) (length : Nat) {i : Nat}
    (hi : i < rose.historyRequired) :
    (maintainHistoryBuffer rose state buffer length).load (8 * (rose.stateOffsets.history + i)) 8 =
      if length + i < rose.historyRequired then
        state.load (8 * (rose.stateOffsets.history + length + i)) 8
      else buffer.load (8 * (length + i - rose.historyRequired)) 8 := by
  unfold maintainHistoryBuffer
  rw [if_neg (by omega)]
  by_cases h0 : length = 0
  · -- a zero-byte scan leaves the region alone
    subst h0
    simp [hi]
  rw [if_neg h0]
  dsimp only
  by_cases hshort : length < rose.historyRequired
  · rw [if_pos hshort, min_eq_right hshort.le]
    by_cases hkeep : length + i < rose.historyRequired
    · -- an old byte, moved to the front
      rw [if_pos hkeep, Mem.load_copy_of_disjoint (by omega), Mem.load_copy_of_le (by omega) (by omega)]
      congr 1
      omega
    · -- a byte of the block
      rw [if_neg hkeep, Mem.load_copy_of_le (by omega) (by omega)]
      congr 1
      omega
  · -- the block fills the region
    rw [if_neg hshort, min_eq_left (by omega), if_neg (by omega), Mem.load_copy_of_le (by omega) (by omega)]
    congr 1
    omega

/-- **The step lemma.**  A scan of the bytes `bs` drops as many bytes from the
front of the region as it appends. -/
theorem historyRegion_maintainHistoryBuffer (rose : RoseEngine) (state : Mem) {bs : List Nat}
    (hbs : ∀ v ∈ bs, v < 256) :
    historyRegion rose (maintainHistoryBuffer rose state (Mem.ofBytes bs) bs.length) =
      (historyRegion rose state ++ bs).drop bs.length := by
  apply List.ext_getElem
  · simp
  · intro i h1 _
    rw [length_historyRegion] at h1
    simp only [historyRegion, List.getElem_map, List.getElem_range, List.getElem_drop]
    rw [maintainHistoryBuffer_load rose _ _ _ h1]
    split_ifs with hkeep
    · rw [List.getElem_append_left (by simpa using hkeep)]
      simp [Nat.add_assoc]
    · rw [List.getElem_append_right (by simpa using hkeep), Mem.load_ofBytes hbs,
        List.getD_eq_getElem _ _ (by omega)]
      simp

/-- **The run lemma.**  Over any run of scans the region is the old region and
all the data scanned, less as many bytes as were scanned. -/
theorem historyRegion_foldl (rose : RoseEngine) (scans : List (List Nat))
    (hscans : ∀ bs ∈ scans, ∀ v ∈ bs, v < 256) (state : Mem) :
    historyRegion rose
        (scans.foldl (fun st bs => maintainHistoryBuffer rose st (Mem.ofBytes bs) bs.length) state) =
      (historyRegion rose state ++ scans.flatten).drop scans.flatten.length := by
  -- induction on the scans, the state generalised
  induction scans generalizing state with
  | nil => simp
  | cons bs scans ih =>
      rw [List.foldl_cons, ih (fun b hb => hscans b (List.mem_cons_of_mem _ hb)),
        historyRegion_maintainHistoryBuffer rose state (hscans bs List.mem_cons_self),
        ← List.drop_append_of_le_length (by simp), List.drop_drop, List.append_assoc,
        List.flatten_cons, List.length_append, Nat.add_comm]

/-! ## Scans of a stream -/

/-- The end of `hs_scan_stream_internal` after a scan of the bytes `bs` that
was not stopped: `maintainHistoryBuffer`, then `id->offset += length`. -/
def scanStreamTail (rose : RoseEngine) (stream : Mem) (bs : List Nat) : Mem :=
  let stream := stream.unshift (8 * hsStreamSize)
    (maintainHistoryBuffer rose (stream.shift (8 * hsStreamSize)) (Mem.ofBytes bs) bs.length)
  stream.store (8 * hsStreamOffsetField) 64 (streamOffset stream + bs.length)

theorem streamOffset_store (stream : Mem) (v : Nat) :
    streamOffset (stream.store (8 * hsStreamOffsetField) 64 v) = v % 2 ^ 64 :=
  Mem.load_store_self _ _ _ _

theorem streamOffset_scanStreamTail (rose : RoseEngine) (stream : Mem) (bs : List Nat) :
    streamOffset (scanStreamTail rose stream bs) = (streamOffset stream + bs.length) % 2 ^ 64 := by
  have hoff : streamOffset (stream.unshift (8 * hsStreamSize)
      (maintainHistoryBuffer rose (stream.shift (8 * hsStreamSize)) (Mem.ofBytes bs) bs.length)) =
      streamOffset stream :=
    -- the offset lies in struct hs_stream, before the Rose state
    Mem.load_congr fun i hi => Mem.unshift_apply_of_lt (by unfold hsStreamOffsetField hsStreamSize; omega)
  unfold scanStreamTail
  dsimp only
  rw [streamOffset_store, hoff]

theorem shift_scanStreamTail (rose : RoseEngine) (stream : Mem) (bs : List Nat) :
    (scanStreamTail rose stream bs).shift (8 * hsStreamSize) =
      maintainHistoryBuffer rose (stream.shift (8 * hsStreamSize)) (Mem.ofBytes bs) bs.length := by
  funext k
  unfold scanStreamTail
  dsimp only
  rw [Mem.shift, Mem.store_apply_of_not_mem (by unfold hsStreamOffsetField hsStreamSize; omega),
    Mem.unshift_apply_of_le (by omega), Nat.add_sub_cancel_left]

/-- The offset of a stream after any run of scans is the offset it had plus
the bytes scanned, wrapping as a `u64a` does. -/
theorem streamOffset_foldl_mod (rose : RoseEngine) (scans : List (List Nat)) (stream : Mem) :
    streamOffset (scans.foldl (scanStreamTail rose) stream) =
      (streamOffset stream + scans.flatten.length) % 2 ^ 64 := by
  induction scans generalizing stream with
  | nil =>
      rw [List.foldl_nil, List.flatten_nil, List.length_nil, Nat.add_zero]
      exact (Nat.mod_eq_of_lt (Mem.load_lt _ _ _)).symm
  | cons bs scans ih =>
      rw [List.foldl_cons, ih, streamOffset_scanStreamTail, List.flatten_cons, List.length_append,
        Nat.mod_add_mod, Nat.add_assoc]

/-- The offset of a stream after scans of fewer than `2 ^ 64` bytes in all is
the offset it had plus the bytes scanned. -/
theorem streamOffset_foldl (rose : RoseEngine) (scans : List (List Nat)) (stream : Mem)
    (hlen : streamOffset stream + scans.flatten.length < 2 ^ 64) :
    streamOffset (scans.foldl (scanStreamTail rose) stream) = streamOffset stream + scans.flatten.length := by
  rw [streamOffset_foldl_mod, Nat.mod_eq_of_lt hlen]

theorem shift_foldl (rose : RoseEngine) (scans : List (List Nat)) (stream : Mem) :
    (scans.foldl (scanStreamTail rose) stream).shift (8 * hsStreamSize) =
      scans.foldl (fun st bs => maintainHistoryBuffer rose st (Mem.ofBytes bs) bs.length)
        (stream.shift (8 * hsStreamSize)) := by
  induction scans generalizing stream with
  | nil => rfl
  | cons bs scans ih => rw [List.foldl_cons, ih, shift_scanStreamTail, List.foldl_cons]

/-- After any run of scans that does not wrap the offset, `getHistory` reads
the old region followed by the data, less the bytes scanned and the bytes of
the region that the offset does not yet cover. -/
theorem streamHistory_foldl (rose : RoseEngine) (scans : List (List Nat))
    (hscans : ∀ bs ∈ scans, ∀ v ∈ bs, v < 256) (stream : Mem)
    (hlen : streamOffset stream + scans.flatten.length < 2 ^ 64) :
    streamHistory rose (scans.foldl (scanStreamTail rose) stream) =
      (historyRegion rose (stream.shift (8 * hsStreamSize)) ++ scans.flatten).drop
        (scans.flatten.length +
          (rose.historyRequired - min rose.historyRequired (streamOffset stream + scans.flatten.length))) := by
  rw [streamHistory_eq_drop, streamOffset_foldl rose scans stream hlen, shift_foldl,
    historyRegion_foldl rose scans hscans, List.drop_drop]

/-- A region of `h` bytes and the data after it, less the bytes of the data and
the bytes of the region not yet covered, is the last `MIN(h, |data|)` bytes
of the data: none of the region is left. -/
theorem drop_history_append {region data : List Nat} {h : Nat} (hr : region.length = h) :
    (region ++ data).drop (data.length + (h - min h data.length)) =
      data.drop (data.length - min h data.length) := by
  rw [List.drop_append, List.drop_eq_nil_of_le (by omega), List.nil_append, hr]
  congr 1
  omega

/-- **The history a stream exposes.**  After scans of the bytes `data`, in any
pieces, from a stream at offset zero, `getHistory` exposes the last
`MIN(historyRequired, offset)` bytes of `data`, whatever the region held
before. -/
theorem streamHistory_scans (rose : RoseEngine) (scans : List (List Nat))
    (hscans : ∀ bs ∈ scans, ∀ v ∈ bs, v < 256) (stream : Mem) (h0 : streamOffset stream = 0)
    (hlen : scans.flatten.length < 2 ^ 64) :
    streamHistory rose (scans.foldl (scanStreamTail rose) stream) =
      scans.flatten.drop (scans.flatten.length - min rose.historyRequired scans.flatten.length) := by
  rw [streamHistory_foldl rose scans hscans stream (by omega), h0, Nat.zero_add]
  exact drop_history_append (length_historyRegion _ _)

theorem streamHistory_scans_ab :
    streamHistory historyTwoRose ([[120, 97], [98]].foldl (scanStreamTail historyTwoRose) (fun _ => false)) =
      [97, 98] :=
  streamHistory_scans historyTwoRose [[120, 97], [98]] (by decide) (fun _ => false) (by decide) (by decide)

/-! ## Streams from `hs_open_stream` -/

/-- `init_stream`: with `init_history` (`hs_open_stream`, not
`hs_reset_stream`) the 16 bytes before the end of the history region are set
to `0x5a`; then `offset` is set to `0`.  The rest of the state that
`init_stream` sets up is not read here. -/
def initStream (rose : RoseEngine) (stream : Mem) (initHistory : Bool) : Mem :=
  let histEnd := hsStreamSize + rose.stateOffsets.history + rose.historyRequired
  let stream :=
    if initHistory then (List.range 16).foldl (fun m i => m.store (8 * (histEnd - 16 + i)) 8 0x5a) stream
    else stream
  stream.store (8 * hsStreamOffsetField) 64 0

/-- `hs_scan_stream` of the bytes `bs` on a stream that is not broken and that
the scan does not stop: a write of no bytes returns before anything changes,
any other ends with `scanStreamTail`. -/
def hsScanStream (rose : RoseEngine) (stream : Mem) (bs : List Nat) : Mem :=
  if bs.length = 0 then stream else scanStreamTail rose stream bs

theorem streamOffset_initStream (rose : RoseEngine) (stream : Mem) (initHistory : Bool) :
    streamOffset (initStream rose stream initHistory) = 0 :=
  streamOffset_store _ 0

/-- A run of writes is the run of its writes of at least one byte. -/
theorem foldl_hsScanStream (rose : RoseEngine) (writes : List (List Nat)) (stream : Mem) :
    writes.foldl (hsScanStream rose) stream =
      (writes.filter fun bs => !bs.isEmpty).foldl (scanStreamTail rose) stream := by
  induction writes generalizing stream with
  | nil => rfl
  | cons bs writes ih =>
      cases bs with
      | nil =>
          rw [List.foldl_cons, hsScanStream, if_pos List.length_nil, ih,
            List.filter_cons_of_neg (by simp)]
      | cons b bs =>
          have hne : ¬ (b :: bs).length = 0 := by simp
          rw [List.foldl_cons, hsScanStream, if_neg hne, ih, List.filter_cons_of_pos (by simp),
            List.foldl_cons]

/-- **The history of an opened stream.**  On a stream from `init_stream`,
after writes of fewer than `2 ^ 64` bytes in all, in any pieces, none of
which stops the stream, the offset is the number of bytes written and
`getHistory` exposes the last `MIN(historyRequired, offset)` of them; a
write of no bytes changes nothing. -/
theorem streamHistory_openStream (rose : RoseEngine) (stream : Mem) (initHistory : Bool)
    (writes : List (List Nat)) (hbytes : ∀ bs ∈ writes, ∀ v ∈ bs, v < 256)
    (hlen : writes.flatten.length < 2 ^ 64) :
    streamOffset (writes.foldl (hsScanStream rose) (initStream rose stream initHistory)) =
        writes.flatten.length ∧
      streamHistory rose (writes.foldl (hsScanStream rose) (initStream rose stream initHistory)) =
        writes.flatten.drop (writes.flatten.length - min rose.historyRequired writes.flatten.length) ∧
      ∀ st, hsScanStream rose st [] = st := by
  have hflat := @List.flatten_filter_not_isEmpty _ writes
  have hsub : ∀ bs ∈ writes.filter (fun bs => !bs.isEmpty), ∀ v ∈ bs, v < 256 :=
    fun bs hbs => hbytes bs (List.mem_of_mem_filter hbs)
  have h0 := streamOffset_initStream rose stream initHistory
  rw [foldl_hsScanStream]
  refine ⟨?_, ?_, fun st => if_pos rfl⟩
  · rw [streamOffset_foldl rose _ _ (by rw [h0, hflat]; omega), h0, hflat, Nat.zero_add]
  · rw [streamHistory_foldl rose _ hsub _ (by rw [h0, hflat]; omega), h0, Nat.zero_add, hflat]
    exact drop_history_append (length_historyRegion _ _)

theorem streamHistory_openStream_ab :
    streamOffset ([[120, 97], [], [98]].foldl (hsScanStream historyTwoRose)
        (initStream historyTwoRose (fun _ => true) true)) = 3 ∧
      streamHistory historyTwoRose ([[120, 97], [], [98]].foldl (hsScanStream historyTwoRose)
        (initStream historyTwoRose (fun _ => true) true)) = [97, 98] ∧
      ∀ st, hsScanStream historyTwoRose st [] = st :=
  streamHistory_openStream historyTwoRose (fun _ => true) true [[120, 97], [], [98]] (by decide) (by decide)

theorem length_flatten_replicate {α : Type} (n : Nat) (l : List α) :
    (List.replicate n l).flatten.length = n * l.length := by
  induction n with
  | zero => simp
  | succ n ih => rw [List.replicate_succ, List.flatten_cons, List.length_append, ih, Nat.succ_mul, Nat.add_comm]

/-- `2 ^ 32 + 1` writes of `2 ^ 32 - 1` bytes, the most that one
`hs_scan_stream` takes (`unsigned length`), then a write of one byte:
`2 ^ 64` bytes in all. -/
def wrapWrites : List (List Nat) := List.replicate (2 ^ 32 + 1) (List.replicate (2 ^ 32 - 1) 0) ++ [[0]]

theorem length_flatten_wrapWrites : wrapWrites.flatten.length = 2 ^ 64 := by
  rw [wrapWrites, List.flatten_append, List.length_append, length_flatten_replicate, List.length_replicate]
  rfl

/-- **The offset wraps after `2 ^ 64` bytes.**  After those writes on a
stream opened on the engine with a two-byte history, `id->offset` is `0`,
not the `2 ^ 64` bytes written, and `getHistory` exposes no byte, not the
last two. -/
theorem streamHistory_wraps :
    wrapWrites.flatten.length = 2 ^ 64 ∧
      streamOffset (wrapWrites.foldl (hsScanStream historyTwoRose)
        (initStream historyTwoRose (fun _ => false) true)) = 0 ∧
      streamHistory historyTwoRose (wrapWrites.foldl (hsScanStream historyTwoRose)
        (initStream historyTwoRose (fun _ => false) true)) = [] := by
  have hoff : streamOffset (wrapWrites.foldl (hsScanStream historyTwoRose)
      (initStream historyTwoRose (fun _ => false) true)) = 0 := by
    rw [foldl_hsScanStream, streamOffset_foldl_mod, streamOffset_initStream, List.flatten_filter_not_isEmpty,
      length_flatten_wrapWrites, Nat.zero_add, Nat.mod_self]
  refine ⟨length_flatten_wrapWrites, hoff, ?_⟩
  -- `MIN(historyRequired, 0)` bytes
  simp only [streamHistory, hoff, getHistoryAmount, Nat.min_zero, List.range_zero, List.map_nil]

/-! ## A stream at offset `2 ^ 32` -/

/-- A stream of that engine after scans of `2 ^ 32 - 2` bytes, then the scan of
"ab": its offset is `2 ^ 32`. -/
def historyTwoStream : Mem := scanStreamTail historyTwoRose historyTwoStart [97, 98]

set_option maxRecDepth 100000 in
/-- **The history is lost at a stream offset of `2 ^ 32`.**  The stream exposes
the history "ab"; `hs_compress_stream` writes 9 bytes, and `hs_expand_stream`
of them, into a buffer of `0xff` bytes, succeeds with the offset `2 ^ 32`, but
the history the rebuilt stream exposes is `0xff 0xff`: the body copies
`MIN((u32)offset, historyRequired) = 0` bytes of it, while `getHistory` reads
`MIN(historyRequired, offset) = 2`. -/
theorem expandStream_history_lost :
    streamOffset historyTwoStream = 2 ^ 32 ∧ streamHistory historyTwoRose historyTwoStream = [97, 98] ∧
      sizeCompressStream historyTwoRose historyTwoStream = some 9 ∧
      ∃ buf out, compressStream (fun _ => false) 9 historyTwoRose historyTwoStream = some (buf, 9) ∧
        expandStream (fun _ => true) historyTwoRose buf 9 = some (out, 9) ∧
        streamOffset out = 2 ^ 32 ∧ streamHistory historyTwoRose out = [255, 255] := by
  have hrun : ((compressStream (fun _ => false) 9 historyTwoRose historyTwoStream).bind fun c =>
      (expandStream (fun _ => true) historyTwoRose c.1 c.2).map fun r => (c.2, r)).map
        (fun x => (x.1, x.2.2, streamOffset x.2.1, streamHistory historyTwoRose x.2.1)) =
      some (9, 9, 2 ^ 32, [255, 255]) := by
    decide
  -- take the compression and the expansion apart
  obtain ⟨⟨n, out, n'⟩, hbind, hval⟩ := Option.map_eq_some_iff.mp hrun
  obtain ⟨⟨buf, n0⟩, hc, he⟩ := Option.bind_eq_some_iff.mp hbind
  obtain ⟨⟨out', n1⟩, he', hr⟩ := Option.map_eq_some_iff.mp he
  simp only [Prod.mk.injEq] at hval hr
  obtain ⟨rfl, rfl, hoff, hhist⟩ := hval
  obtain ⟨rfl, rfl, rfl⟩ := hr
  refine ⟨by decide, by decide, by decide, buf, out', hc, he', hoff, hhist⟩

end Stream
end Vectorscan
