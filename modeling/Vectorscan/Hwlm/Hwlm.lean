import Vectorscan.Nfa.VermicelliDouble
import Vectorscan.Nfa.Shufti
import Vectorscan.Nfa.Truffle

/-!
# The literal matcher's entry points

`src/hwlm/hwlm.c`: the literal matcher (`HWLM`) runs either the noodle engine
or FDR.  Before FDR it may run an acceleration scheme over the buffer
(`do_accel_block`, `do_accel_streaming`) and start FDR where the scheme
stopped, less the scheme's `offset`: the scheme is built so that every
literal it serves has a byte that it accepts within `offset` bytes of the
start of the literal's window.

**Model.**  `AccelAux` has one constructor for each scheme that the literal
matcher's compiler builds, with its fields and its `offset` (the SVE2-only
`verm16` is left out).  `runHwlmAccel` runs the vector scanners of
`Nfa.Vermicelli`, `Nfa.VermicelliDouble`, `Nfa.Shufti` and `Nfa.Truffle` with
vectors of `S` bytes (`VECTORSIZE`: 16, 32 or 64), and every entry point takes
`S`; `runHwlmAccelSpec` is the same dispatch over the byte loops of
`Nfa.Accel`, the specification.  An entry point returns the engine call that it
ends in (`HwlmCall`).  In streaming mode the history `hbuf` comes before
`buf`, and `hbuf ++ buf` is the stream's bytes.  `hit` says where a scanner
stops: a byte it accepts, or for the double vermicelli the start of its pair.

**Results.**  `runHwlmAccel_eq_spec`: with vectors of any size but 64, on a
buffer of bytes, the vector scanners stop where their specification stops.
`runHwlmAccelSpec_le`: the specification stops at or before each position where
its test passes; so does `runHwlmAccel` (`runHwlmAccel_le`).
`doAccelBlock_le`: when the scheme stops within `offset` bytes after `w`
(`StopsNear`), `do_accel_block` moves `start` to at most `w`.
`doAccelStreaming_le`: the same in streaming mode, for windows that begin at or
after the start, or in the history when the scan starts at `0`; the history is
passed over only when the scheme stops nowhere in it (`scanHistory_ne_of_hit`).
-/

namespace Vectorscan
namespace Hwlm

open Word Nfa.Accel

/-! ## Acceleration schemes -/

/-- `union AccelAux` with its `accel_type`: the schemes the literal matcher's
compiler builds. -/
inductive AccelAux where
  | none
  | verm (c offset : Nat)
  | vermNocase (c offset : Nat)
  | dverm (c1 c2 offset : Nat)
  | dvermNocase (c1 c2 offset : Nat)
  | shufti (lo hi : List Nat) (offset : Nat)
  | truffle (mask1 mask2 : List Nat) (offset : Nat)
  deriving DecidableEq, Repr

namespace AccelAux

/-- `aux->generic.offset`; the zeroed `ACCEL_NONE` has offset `0`. -/
def offset : AccelAux → Nat
  | none => 0
  | verm _ o | vermNocase _ o | dverm _ _ o | dvermNocase _ _ o | shufti _ _ o | truffle _ _ o => o

/-- Where the scheme's scanner stops: a byte that it accepts, or for the
double vermicelli a position where its pair starts.  `ACCEL_NONE` stops at once. -/
def hit : AccelAux → List Nat → Nat → Bool
  | none, _, _ => true
  | verm c _, buf, i => vermHit c false (buf.getD i 0)
  | vermNocase c _, buf, i => vermHit c true (buf.getD i 0)
  | dverm c1 c2 _, buf, i => dvermHit c1 c2 false buf i
  | dvermNocase c1 c2 _, buf, i => dvermHit c1 c2 true buf i
  | shufti lo hi _, buf, i => shuftiHit lo hi (buf.getD i 0)
  | truffle mask1 mask2 _, buf, i => truffleHit mask1 mask2 (buf.getD i 0)

/-- How many bytes from a stop its test reads. -/
def span : AccelAux → Nat
  | dverm .. | dvermNocase .. => 2
  | _ => 1

/-- The scheme stops within `offset` bytes after `w`, before `endp`. -/
def StopsNear (aux : AccelAux) (buf : List Nat) (w endp : Nat) : Prop :=
  ∃ q, w ≤ q ∧ q ≤ w + aux.offset ∧ q < endp ∧ aux.hit buf q = true

end AccelAux

/-- `run_hwlm_accel` built with vectors of `S` bytes: where the scheme's
scanner stops in `[ptr, end)`.  `truffleExec` is `truffleExecReal<VECTORSIZE>`. -/
def runHwlmAccel (S : Nat) (aux : AccelAux) (buf : List Nat) (ptr endp : Nat) : Nat :=
  match aux with
  | .none => ptr
  | .verm c _ => Vermicelli.vermicelliExec S c false buf ptr endp
  | .vermNocase c _ => Vermicelli.vermicelliExec S c true buf ptr endp
  | .dverm c1 c2 _ => Vermicelli.vermicelliDoubleExec S c1 c2 false buf ptr endp
  | .dvermNocase c1 c2 _ => Vermicelli.vermicelliDoubleExec S c1 c2 true buf ptr endp
  | .shufti lo hi _ => Shufti.shuftiExec S lo hi buf ptr endp
  | .truffle mask1 mask2 _ => truffleExecReal S mask1 mask2 buf ptr endp

/-- The specification of `run_hwlm_accel`: the same dispatch over the byte
loops that `Nfa.Accel` gives for the scanners. -/
def runHwlmAccelSpec (aux : AccelAux) (buf : List Nat) (ptr endp : Nat) : Nat :=
  match aux with
  | .none => ptr
  | .verm c _ => vermicelliExec c false buf ptr endp
  | .vermNocase c _ => vermicelliExec c true buf ptr endp
  | .dverm c1 c2 _ => vermicelliDoubleExec c1 c2 false buf ptr endp
  | .dvermNocase c1 c2 _ => vermicelliDoubleExec c1 c2 true buf ptr endp
  | .shufti lo hi _ => shuftiExec lo hi buf ptr endp
  | .truffle mask1 mask2 _ => truffleExec mask1 mask2 buf ptr endp

/-- `MIN_ACCEL_LEN_BLOCK`. -/
def minAccelLenBlock : Nat := 16

/-- `MIN_ACCEL_LEN_STREAM`. -/
def minAccelLenStream : Nat := 16

/-- `do_accel_block`: the new `start` in `buf`, whose length is `len`. -/
def doAccelBlock (S : Nat) (aux : AccelAux) (buf : List Nat) (start : Nat) : Nat :=
  if buf.length - start < minAccelLenBlock then start
  else
    let ptr := runHwlmAccel S aux buf start buf.length
    -- `ptr -= offset`, clamped at `buf`: a truncated subtraction
    if aux.offset ≠ 0 then ptr - aux.offset else ptr

/-- `inaccurate_accel`: the double vermicelli may stop short of the end. -/
def inaccurateAccel : AccelAux → Bool
  | .dverm .. | .dvermNocase .. => true
  | _ => false

/-- `temp[17]` of the history check: the history from `ptr1` on, zeros after
it, and the first byte of `buf` (when there is one) right after the history. -/
def historyTemp (hbuf buf : List Nat) (ptr1 : Nat) : List Nat :=
  let tlen := hbuf.length - ptr1
  let temp := hbuf.drop ptr1 ++ List.replicate (17 - tlen) 0
  if buf.length ≠ 0 then temp.set tlen (buf.getD 0 0) else temp

/-- Where the history check of `do_accel_streaming` leaves `ptr1`; the history
is passed over when `ptr1` reaches `end1`, the history's length. -/
def scanHistory (S : Nat) (aux : AccelAux) (hbuf buf : List Nat) : Nat :=
  let hlen := hbuf.length
  let ptr1 := if hlen ≥ 16 then runHwlmAccel S aux hbuf 0 hlen else 0
  if (hlen ≤ 16 || inaccurateAccel aux) && hlen != ptr1 && decide (hlen - ptr1 ≤ 16) then
    -- see if the history can be finished off in `temp`
    let tlen := hlen - ptr1
    let tempp := runHwlmAccel S aux (historyTemp hbuf buf ptr1) 0 17
    if tempp ≥ tlen then hlen else ptr1
  else ptr1

/-- `do_accel_streaming`: the new `start` in `buf`, after the history `hbuf`. -/
def doAccelStreaming (S : Nat) (aux : AccelAux) (hbuf buf : List Nat) (start : Nat) : Nat :=
  if aux = .none ∨ buf.length - start < minAccelLenStream then start
  -- the history is scanned only when `start` is zero; bail while in it
  else if start = 0 ∧ hbuf.length ≠ 0 ∧ scanHistory S aux hbuf buf ≠ hbuf.length then start
  else
    let found := runHwlmAccel S aux buf start buf.length
    if found ≥ start + aux.offset then start + (found - aux.offset - start) else start

/-! ## Entry points -/

/-- `HWLM_ENGINE_NOOD` or `HWLM_ENGINE_FDR`. -/
inductive HwlmEngine where
  | nood
  | fdr
  deriving DecidableEq, Repr

/-- The fields of `struct HWLM` that the entry points read. -/
structure HWLM where
  type : HwlmEngine
  accel1Groups : UInt64
  accel1 : AccelAux
  accel0 : AccelAux
  deriving DecidableEq, Repr

/-- The engine call that an entry point ends in. -/
inductive HwlmCall where
  /-- all groups are off: nothing is scanned -/
  | none
  | noodExec (start : Nat)
  | noodExecStreaming
  | fdrExec (start : Nat) (groups : UInt64)
  | fdrExecStreaming (start : Nat) (groups : UInt64)
  deriving DecidableEq, Repr

/-- `HWLM_ALL_GROUPS`. -/
def hwlmAllGroups : UInt64 := ~~~0

/-- The scheme an entry point runs: `accel1` when the groups are among
`accel1_groups`, else `accel0`. -/
def selectAccel (t : HWLM) (groups : UInt64) : AccelAux :=
  if groups &&& ~~~t.accel1Groups = 0 then t.accel1 else t.accel0

/-- `hwlmExec`. -/
def hwlmExec (S : Nat) (t : HWLM) (buf : List Nat) (start : Nat) (groups : UInt64) : HwlmCall :=
  if groups = 0 then .none
  else
    match t.type with
    | .nood => .noodExec start
    | .fdr => .fdrExec (doAccelBlock S (selectAccel t groups) buf start) groups

/-- `hwlmExecStreaming`: with a start offset the noodle engine scans in block
mode. -/
def hwlmExecStreaming (S : Nat) (t : HWLM) (hbuf buf : List Nat) (start : Nat) (groups : UInt64) : HwlmCall :=
  if groups = 0 then .none
  else
    match t.type with
    | .nood => if start ≠ 0 then .noodExec start else .noodExecStreaming
    | .fdr => .fdrExecStreaming (doAccelStreaming S (selectAccel t groups) hbuf buf start) groups

/-! ## Where a scheme stops -/

section Run

variable (aux : AccelAux)

/-- A scheme's test reads only the `span` bytes from its position. -/
theorem hit_congr {b1 b2 : List Nat} {i j : Nat} (h : ∀ d < aux.span, b1.getD (i + d) 0 = b2.getD (j + d) 0) :
    aux.hit b1 i = aux.hit b2 j := by
  have h0 : b1.getD i 0 = b2.getD j 0 := h 0 (by cases aux <;> simp [AccelAux.span])
  cases aux with
  | dverm c1 c2 o =>
    have h1 := h 1 (by simp [AccelAux.span])
    simp only [AccelAux.hit, dvermHit, h0, h1]
  | dvermNocase c1 c2 o =>
    have h1 := h 1 (by simp [AccelAux.span])
    simp only [AccelAux.hit, dvermHit, h0, h1]
  | _ => simp only [AccelAux.hit, h0]

/-- **A scheme stops at or before each stop of its range.**  When a buffer that
agrees with `buf` from `q` to the end of the range passes the test at `q`,
the specified scan of `[ptr, end)` stops at or before `q`: the double
vermicelli stops at the last byte of the range when the pair may go on past it. -/
theorem runHwlmAccelSpec_le {buf b' : List Nat} {ptr endp q : Nat} (h1 : ptr ≤ q) (h2 : q < endp)
    (hagree : ∀ d, q + d < endp → b'.getD (q + d) 0 = buf.getD (q + d) 0) (hq : aux.hit b' q = true) :
    runHwlmAccelSpec aux buf ptr endp ≤ q := by
  have h0 : b'.getD q 0 = buf.getD q 0 := hagree 0 h2
  -- the double vermicelli, case-sensitive or not
  have hdouble : ∀ c1 c2 nocase, dvermHit c1 c2 nocase b' q = true →
      vermicelliDoubleExec c1 c2 nocase buf ptr endp ≤ q := by
    intro c1 c2 nocase hd
    unfold dvermHit at hd
    rw [h0] at hd
    by_cases hq1 : q + 1 < endp
    · rw [hagree 1 hq1] at hd
      exact vermicelliDoubleExec_le h1 hq1 hd
    · have hlast : q = endp - 1 := by omega
      subst hlast
      exact vermicelliDoubleExec_le_last (Bool.and_eq_true_iff.mp hd).1
  cases aux with
  | none => exact h1
  | verm c o => rw [AccelAux.hit, h0] at hq; exact firstIn_getD_le h1 h2 hq
  | vermNocase c o => rw [AccelAux.hit, h0] at hq; exact firstIn_getD_le h1 h2 hq
  | dverm c1 c2 o => exact hdouble c1 c2 false hq
  | dvermNocase c1 c2 o => exact hdouble c1 c2 true hq
  | shufti lo hi o => rw [AccelAux.hit, h0] at hq; exact firstIn_getD_le h1 h2 hq
  | truffle m1 m2 o => rw [AccelAux.hit, h0] at hq; exact firstIn_getD_le h1 h2 hq

variable {S : Nat} (hS : 0 < S) (h64 : S ≠ 64)
include hS h64

/-- **The vector scanners refine their specification.**  With vectors of any
size but 64, on a buffer of bytes and a range of at least one byte, each
scanner that `run_hwlm_accel` calls stops where the byte loop of `Nfa.Accel`
stops. -/
theorem runHwlmAccel_eq_spec {buf : List Nat} (hmem : ∀ b ∈ buf, b < 256) {ptr endp : Nat} (hlt : ptr < endp) :
    runHwlmAccel S aux buf ptr endp = runHwlmAccelSpec aux buf ptr endp := by
  cases aux with
  | none => rfl
  | verm c o => exact Vermicelli.vermicelliExec_eq hS h64 hmem hlt.le
  | vermNocase c o => exact Vermicelli.vermicelliExec_eq hS h64 hmem hlt.le
  | dverm c1 c2 o => exact Vermicelli.vermicelliDoubleExec_eq hS c1 c2 false hmem hlt
  | dvermNocase c1 c2 o => exact Vermicelli.vermicelliDoubleExec_eq hS c1 c2 true hmem hlt
  | shufti lo hi o => exact Shufti.shuftiExec_eq hS hmem hlt.le
  | truffle m1 m2 o => exact truffleExecReal_eq_truffleExec hS hmem hlt.le

/-- The vector scanners too stop at or before each stop of their range. -/
theorem runHwlmAccel_le {buf b' : List Nat} (hmem : ∀ b ∈ buf, b < 256) {ptr endp q : Nat} (h1 : ptr ≤ q)
    (h2 : q < endp) (hagree : ∀ d, q + d < endp → b'.getD (q + d) 0 = buf.getD (q + d) 0)
    (hq : aux.hit b' q = true) : runHwlmAccel S aux buf ptr endp ≤ q := by
  rw [runHwlmAccel_eq_spec aux hS h64 hmem (by omega)]
  exact runHwlmAccelSpec_le aux h1 h2 hagree hq

end Run

/-! ## The history buffer of the streaming scan -/

/-- The bytes of `temp`: the stream's bytes from `ptr1`, up to and including
the first byte of `buf`. -/
theorem getD_historyTemp {hbuf buf : List Nat} {ptr1 k : Nat} (hbuf0 : buf ≠ []) (hp : ptr1 ≤ hbuf.length)
    (ht : hbuf.length - ptr1 ≤ 16) (hk : k ≤ hbuf.length - ptr1) :
    (historyTemp hbuf buf ptr1).getD k 0 = (hbuf ++ buf).getD (ptr1 + k) 0 := by
  have hlen : buf.length ≠ 0 := by simpa using hbuf0
  have hdrop : (hbuf.drop ptr1).length = hbuf.length - ptr1 := List.length_drop
  unfold historyTemp
  simp only [if_pos hlen, List.getD_eq_getElem?_getD, List.getElem?_set]
  by_cases hkt : k = hbuf.length - ptr1
  · -- the first byte of `buf`, written over the first zero
    subst hkt
    have hin : hbuf.length - ptr1 < (hbuf.drop ptr1 ++ List.replicate (17 - (hbuf.length - ptr1)) 0).length := by
      simp only [List.length_append, hdrop, List.length_replicate]
      omega
    rw [if_pos rfl, if_pos hin, List.getElem?_append_right (by omega)]
    simp [show ptr1 + (hbuf.length - ptr1) - hbuf.length = 0 by omega]
  · -- a byte of the history
    rw [if_neg (Ne.symm hkt), List.getElem?_append_left (by omega), List.getElem?_append_left (by omega),
      List.getElem?_drop]

/-- `temp` holds bytes: those of the stream, and zeros. -/
theorem historyTemp_bytes {hbuf buf : List Nat} (hbytes : ∀ b ∈ hbuf ++ buf, b < 256) (ptr1 : Nat) :
    ∀ b ∈ historyTemp hbuf buf ptr1, b < 256 := by
  have hpad : ∀ b ∈ hbuf.drop ptr1 ++ List.replicate (17 - (hbuf.length - ptr1)) 0, b < 256 := by
    intro b hb
    rcases List.mem_append.1 hb with hb | hb
    · exact hbytes b (List.mem_append_left _ (List.mem_of_mem_drop hb))
    · rw [List.eq_of_mem_replicate hb]
      norm_num
  intro b hb
  unfold historyTemp at hb
  dsimp only at hb
  split at hb
  · -- the first byte of `buf`, written over a zero
    rcases List.mem_or_eq_of_mem_set hb with hb | rfl
    · exact hpad b hb
    · exact getD_lt_of_bytes (fun x hx => hbytes x (List.mem_append_right _ hx)) 0
  · exact hpad b hb

/-! ## The scans with vectors of any size but 64 -/

section Scans

variable {S : Nat} (hS : 0 < S) (h64 : S ≠ 64)
include hS h64

/-! ### Block mode -/

/-- **The block scan keeps every window it is told of.**  When the scheme stops
within `offset` bytes after a window start `w` at or after `start`,
`do_accel_block` moves `start` to at most `w`. -/
theorem doAccelBlock_le {aux : AccelAux} {buf : List Nat}
    (hbytes : ∀ b ∈ buf, b < 256) {start w : Nat} (hw : start ≤ w) (hstop : aux.StopsNear buf w buf.length) :
    doAccelBlock S aux buf start ≤ w := by
  obtain ⟨q, hwq, hqo, hq, hhit⟩ := hstop
  have hrun : runHwlmAccel S aux buf start buf.length ≤ q :=
    runHwlmAccel_le aux hS h64 hbytes (by omega) hq (fun _ _ => rfl) hhit
  unfold doAccelBlock
  split
  · exact hw
  · dsimp only
    split <;> omega

/-! ### Streaming mode -/

/-- **The history is passed over only when the scheme stops nowhere in it.**
A position of the history where the scheme passes its test on the stream keeps
`ptr1` short of the end of the history. -/
theorem scanHistory_ne_of_hit (aux : AccelAux) {hbuf buf : List Nat}
    (hbytes : ∀ b ∈ hbuf ++ buf, b < 256) {q : Nat} (hbuf0 : buf ≠ []) (hq : q < hbuf.length)
    (hhit : aux.hit (hbuf ++ buf) q = true) : scanHistory S aux hbuf buf ≠ hbuf.length := by
  -- the first scan, over the history alone, stops at or before `q`
  have hp : (if hbuf.length ≥ 16 then runHwlmAccel S aux hbuf 0 hbuf.length else 0) ≤ q := by
    split
    · refine runHwlmAccel_le aux hS h64 (fun b hb => hbytes b (List.mem_append_left _ hb)) (Nat.zero_le q) hq
        (fun d hd => ?_) hhit
      exact List.getD_append _ _ _ _ hd
    · exact Nat.zero_le q
  unfold scanHistory
  dsimp only
  generalize hptr : (if hbuf.length ≥ 16 then runHwlmAccel S aux hbuf 0 hbuf.length else 0) = ptr1 at hp
  split
  · -- `temp` holds `q` too, and the scan of `temp` stops at or before it
    rename_i hcond
    have ht : hbuf.length - ptr1 ≤ 16 := by simpa using (Bool.and_eq_true_iff.mp hcond).2
    have htemp : aux.hit (historyTemp hbuf buf ptr1) (q - ptr1) = aux.hit (hbuf ++ buf) q := by
      apply hit_congr
      intro d hd
      have hd1 : d ≤ 1 := by cases aux <;> simp [AccelAux.span] at hd <;> omega
      rw [getD_historyTemp hbuf0 (by omega) ht (by omega)]
      congr 1
      omega
    have hrun : runHwlmAccel S aux (historyTemp hbuf buf ptr1) 0 17 ≤ q - ptr1 :=
      runHwlmAccel_le aux hS h64 (historyTemp_bytes hbytes ptr1) (Nat.zero_le _) (by omega) (fun _ _ => rfl)
        (htemp.trans hhit)
    rw [if_neg (by omega)]
    omega
  · omega

/-- **The streaming scan keeps every window it is told of.**  For a window of
the stream that starts at `w`, at or after `start` in `buf` or anywhere in the
history when `start` is zero, and a stop of the scheme within `offset` bytes
after `w`: the new start still lets the window be scanned. -/
theorem doAccelStreaming_le {aux : AccelAux} {hbuf buf : List Nat}
    (hbytes : ∀ b ∈ hbuf ++ buf, b < 256) {start w : Nat} (hw : start = 0 ∨ hbuf.length + start ≤ w)
    (hstop : aux.StopsNear (hbuf ++ buf) w (hbuf.length + buf.length)) :
    doAccelStreaming S aux hbuf buf start = 0 ∨ hbuf.length + doAccelStreaming S aux hbuf buf start ≤ w := by
  obtain ⟨q, hwq, hqo, hq, hhit⟩ := hstop
  unfold doAccelStreaming
  split
  · exact hw
  split
  · exact hw
  rename_i hlong hpass
  have hlen : minAccelLenStream ≤ buf.length - start := by
    simp only [not_or] at hlong
    omega
  dsimp only
  by_cases hqb : hbuf.length + start ≤ q
  · -- the stop is in the part of `buf` that is scanned
    have hbuf_hit : aux.hit buf (q - hbuf.length) = true := by
      rw [← hhit]
      apply hit_congr
      intro d _
      rw [List.getD_append_right _ _ _ _ (by omega)]
      congr 1
      omega
    have hrun : runHwlmAccel S aux buf start buf.length ≤ q - hbuf.length :=
      runHwlmAccel_le aux hS h64 (fun b hb => hbytes b (List.mem_append_right _ hb)) (by omega) (by omega)
        (fun _ _ => rfl) hbuf_hit
    split <;> omega
  · -- a stop in the history: it was not passed over
    have hstart : start = 0 := by omega
    have hne : scanHistory S aux hbuf buf ≠ hbuf.length :=
      scanHistory_ne_of_hit hS h64 aux hbytes
        (List.ne_nil_of_length_pos (by simp only [minAccelLenStream] at hlen; omega)) (by omega) hhit
    exact absurd ⟨hstart, by omega, hne⟩ hpass

end Scans

end Hwlm
end Vectorscan
