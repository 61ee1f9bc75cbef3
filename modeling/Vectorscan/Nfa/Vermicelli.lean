import Mathlib
import Vectorscan.Nfa.SuperVector
import Vectorscan.Lib.VectorScan

/-!
# The vermicelli scanners

`vermicelliExec`, `nvermicelliExec`, `rvermicelliExec` and `rnvermicelliExec`
of `vermicelli_simd.cpp`, with the blocks of `x86/vermicelli.hpp`: the byte
loop on a buffer shorter than a vector, else the vector scan.

**Model.**  The vectors, the memory and the match helpers are those of
`Nfa.SuperVector`; a match helper at `S = 64` looks at the `len` low lanes
only, as the AVX-512 helpers of `match.hpp` do.  The four vector scans differ
only in their block, so they are two definitions with the block as a
parameter, `fwdExecReal` and `revExecReal`, each scanner applying one to its
own block.

**Results.**  `vermicelliBlock_loadu` and its three siblings: a block reports
the first (the last) byte of the lanes it looks at that is `c` (that is not).
`fwdExecReal_eq`: with vectors of 16 or 32 bytes, a forward scan returns the
first such byte of the buffer; `revExecReal_eq`: a reverse scan returns the
last one at every vector size.  `vermicelliExec_tail_misses`: with vectors of
64 bytes the forward tail passes the number of bytes left as the length of a
vector loaded from `buf_end - 64`, so that it looks at bytes it has scanned
already, and a match in the last bytes of the buffer is missed.
-/

namespace Vectorscan
namespace Nfa
namespace Accel
namespace Vermicelli

open Word BlockScan VectorScan Hwlm

/-! ## The blocks -/

/-- `casemask`: `CASE_CLEAR` in every byte for a caseless scan (`getCaseMask`),
else all ones. -/
def caseMask (S : Nat) (nocase : Bool) : List Nat := List.replicate S (if nocase then caseClear else 0xff)

/-- `vermicelliBlock`: the first lane of `data`, loaded from `buf`, whose byte
under the case mask is the byte of `chars`. -/
def vermicelliBlock (S : Nat) (chars casemask data : List Nat) (buf len : Nat) : Option Nat :=
  firstNonZeroMatch S buf (comparemask (vecEq chars (List.zipWith (· &&& ·) casemask data))) len

/-- `vermicelliBlockNeg`: the first lane whose byte is not that byte. -/
def vermicelliBlockNeg (S : Nat) (chars casemask data : List Nat) (buf len : Nat) : Option Nat :=
  firstZeroMatchInvertedLen S buf (comparemask (vecEq chars (List.zipWith (· &&& ·) casemask data))) len

/-- `rvermicelliBlock`: the last lane whose byte is that byte. -/
def rvermicelliBlock (S : Nat) (chars casemask data : List Nat) (buf len : Nat) : Option Nat :=
  lastNonZeroMatch S buf (comparemask (vecEq chars (List.zipWith (· &&& ·) casemask data))) len

/-- `rvermicelliBlockNeg`: the last lane whose byte is not that byte. -/
def rvermicelliBlockNeg (S : Nat) (chars casemask data : List Nat) (buf len : Nat) : Option Nat :=
  lastZeroMatchInvertedLen S buf (comparemask (vecEq chars (List.zipWith (· &&& ·) casemask data))) len

/-! ## The vector scans -/

section Real

variable (S : Nat) (block : List Nat → Nat → Nat → Option Nat) (mem : List Nat)

/-- The aligned loop of a forward scan: `loops` vectors from `d`, up to the
first whose block reports a position. -/
def fwdLoop : Nat → Nat → Option Nat
  | 0, _ => none
  | loops + 1, d => (block (loadu S mem d) d S).or (fwdLoop loops (d + S))

/-- The tail of a forward scan from `d`: the last vector of the buffer, with
the number of bytes left, `buf_end - d`, as the length; a position before
`buf_end`. -/
def fwdTail (bufEnd d : Nat) : Option Nat :=
  if d = bufEnd then none
  else (block (loadu S mem (bufEnd - S)) (bufEnd - S) (bufEnd - d)).filter fun rv => decide (rv < bufEnd)

/-- `vermicelliExecReal` and `nvermicelliExecReal`, with their block: the
unaligned head and the aligned vectors while a whole vector fits, then the
tail. -/
def fwdExecReal (buf bufEnd : Nat) : Nat :=
  if buf + S ≤ bufEnd then
    let d1 := (buf + (S - 1)) / S * S
    let loops := (bufEnd - d1) / S
    ((if buf % S = 0 then none else block (loadu S mem buf) buf S).or (fwdLoop S block mem loops d1)).getD
      ((fwdTail S block mem bufEnd (d1 + loops * S)).getD bufEnd)
  else (fwdTail S block mem bufEnd buf).getD bufEnd

/-- The aligned loop of a reverse scan: `loops` vectors down from `d`, up to
the first whose block reports a position. -/
def revLoop : Nat → Nat → Option Nat
  | 0, _ => none
  | loops + 1, d => (block (loadu S mem (d - S)) (d - S) S).or (revLoop loops (d - S))

/-- The head of the buffer, scanned last by a reverse scan from `d`: the
first vector of the buffer, with `d - buf` as the length; a position before
`buf_end`. -/
def revTail (buf bufEnd d : Nat) : Option Nat :=
  if d = buf then none
  else (block (loadu S mem buf) buf (d - buf)).filter fun rv => decide (rv < bufEnd)

/-- `rvermicelliExecReal` and `rnvermicelliExecReal`, with their block: the
unaligned head and the aligned vectors down while a whole vector fits, then
the start of the buffer; `buf - 1` when no block reports a position. -/
def revExecReal (buf bufEnd : Nat) : Nat :=
  if buf + S ≤ bufEnd then
    let d1 := bufEnd / S * S
    let loops := (d1 - buf) / S
    ((if bufEnd % S = 0 then none else block (loadu S mem (bufEnd - S)) (bufEnd - S) S).or
        (revLoop S block mem loops d1)).getD
      ((revTail S block mem buf bufEnd (d1 - loops * S)).getD (buf - 1))
  else (revTail S block mem buf bufEnd bufEnd).getD (buf - 1)

end Real

section Scanners

variable (S : Nat) (chars casemask mem : List Nat) (buf bufEnd : Nat)

def vermicelliExecReal : Nat := fwdExecReal S (vermicelliBlock S chars casemask) mem buf bufEnd

def nvermicelliExecReal : Nat := fwdExecReal S (vermicelliBlockNeg S chars casemask) mem buf bufEnd

def rvermicelliExecReal : Nat := revExecReal S (rvermicelliBlock S chars casemask) mem buf bufEnd

def rnvermicelliExecReal : Nat := revExecReal S (rvermicelliBlockNeg S chars casemask) mem buf bufEnd

end Scanners

/-! ## The entry points -/

/-- The byte at address `i`, under `CASE_CLEAR` for a caseless scan, is `c`. -/
def vermAt (c : Nat) (nocase : Bool) (mem : List Nat) (i : Nat) : Bool := vermHit c nocase (mem.getD i 0)

section Exec

variable (S c : Nat) (nocase : Bool) (mem : List Nat) (buf bufEnd : Nat)

/-- `vermicelliExec`: the byte loop below a vector of `S` bytes (`VECTORSIZE`),
else the vector scan. -/
def vermicelliExec : Nat :=
  if bufEnd - buf < S then byteLoopFwd (vermAt c nocase mem) (bufEnd - buf) buf
  else vermicelliExecReal S (List.replicate S c) (caseMask S nocase) mem buf bufEnd

/-- `nvermicelliExec`: the first byte that is not `c`. -/
def nvermicelliExec : Nat :=
  if bufEnd - buf < S then byteLoopFwd (fun i => !vermAt c nocase mem i) (bufEnd - buf) buf
  else nvermicelliExecReal S (List.replicate S c) (caseMask S nocase) mem buf bufEnd

/-- `rvermicelliExec`: the last byte that is `c`, else `buf - 1`. -/
def rvermicelliExec : Nat :=
  if bufEnd - buf < S then byteLoopRev (vermAt c nocase mem) (bufEnd - buf) bufEnd
  else rvermicelliExecReal S (List.replicate S c) (caseMask S nocase) mem buf bufEnd

/-- `rnvermicelliExec`: the last byte that is not `c`, else `buf - 1`. -/
def rnvermicelliExec : Nat :=
  if bufEnd - buf < S then byteLoopRev (fun i => !vermAt c nocase mem i) (bufEnd - buf) bufEnd
  else rnvermicelliExecReal S (List.replicate S c) (caseMask S nocase) mem buf bufEnd

end Exec

/-! ## One vector -/

section Blocks

variable {S c : Nat} {nocase : Bool} {mem : List Nat}

/-- The case mask leaves a byte as `vermHit` compares it. -/
theorem caseMask_and (nocase : Bool) {b : Nat} (hb : b < 256) :
    (if nocase then caseClear else 0xff) &&& b = if nocase then b &&& caseClear else b := by
  cases nocase
  · rw [if_neg Bool.false_ne_true, if_neg Bool.false_ne_true, Nat.and_comm,
      show (0xff : Nat) = 2 ^ 8 - 1 by norm_num, Nat.and_two_pow_sub_one_eq_mod, Nat.mod_eq_of_lt hb]
  · rw [if_pos rfl, if_pos rfl, Nat.and_comm]

/-- **One lane of the compare.**  Lane `j` of `chars.eq(casemask & data)`, for
a vector loaded from `p`, is `0xff` when the byte at `p + j` is `c`. -/
theorem lanes_vermicelli (hmem : ∀ b ∈ mem, b < 256) (p : Nat) :
    ∀ j < (vecEq (List.replicate S c) (List.zipWith (· &&& ·) (caseMask S nocase) (loadu S mem p))).length,
      (vecEq (List.replicate S c) (List.zipWith (· &&& ·) (caseMask S nocase) (loadu S mem p))).getD j 0 =
        if vermAt c nocase mem (p + j) then 0xff else 0 := by
  intro j hj
  have hjS : j < S := by simpa [caseMask] using hj
  have hc : (List.replicate S c).getD j 0 = c := by simp [List.getD_eq_getElem?_getD, hjS]
  have hm : (caseMask S nocase).getD j 0 = if nocase then caseClear else 0xff := by
    simp [caseMask, List.getD_eq_getElem?_getD, hjS]
  rw [getD_vecEq (by simpa using hjS) (by simpa [caseMask] using hjS),
    getD_zipWith _ (by simpa [caseMask] using hjS) (by simpa using hjS), getD_loadu hjS, hc, hm,
    caseMask_and nocase (getD_lt_of_bytes hmem _), vermAt, vermHit]
  by_cases h : (if nocase then mem.getD (p + j) 0 &&& caseClear else mem.getD (p + j) 0) = c
  · rw [if_pos h.symm, if_pos (beq_iff_eq.mpr h)]
  · rw [if_neg (Ne.symm h), if_neg (by simpa using h)]

/-- The compare mask of a vector loaded from `p` has bit `i - p` where the
byte at `i` is `c`. -/
theorem testBit_vermicelli (hmem : ∀ b ∈ mem, b < 256) {p i : Nat} (h1 : p ≤ i) (h2 : i < p + S) :
    (comparemask (vecEq (List.replicate S c) (List.zipWith (· &&& ·) (caseMask S nocase) (loadu S mem p)))).testBit
      (i - p) = vermAt c nocase mem i := by
  rw [testBit_comparemask_of_hits (lanes_vermicelli hmem p) (by simp [caseMask]; omega), Nat.add_sub_cancel' h1]

theorem vermicelliBlock_loadu (hmem : ∀ b ∈ mem, b < 256) {len : Nat} (hlen : len ≤ S) (p : Nat) :
    vermicelliBlock S (List.replicate S c) (caseMask S nocase) (loadu S mem p) p len =
      firstIn (vermAt c nocase mem) p (p + laneCount S len) := by
  have hcount := laneCount_le hlen
  rw [vermicelliBlock, firstNonZeroMatch, firstLane_eq_firstIn hlen]
  exact firstIn_congr fun i h1 h2 => testBit_vermicelli hmem h1 (by omega)

theorem vermicelliBlockNeg_loadu (hmem : ∀ b ∈ mem, b < 256) {len : Nat} (hlen : len ≤ S) (p : Nat) :
    vermicelliBlockNeg S (List.replicate S c) (caseMask S nocase) (loadu S mem p) p len =
      firstIn (fun i => !vermAt c nocase mem i) p (p + laneCount S len) := by
  have hcount := laneCount_le hlen
  rw [vermicelliBlockNeg, firstZeroMatchInvertedLen, firstLane_eq_firstIn hlen]
  exact firstIn_congr fun i h1 h2 => by rw [testBit_vermicelli hmem h1 (by omega)]

theorem rvermicelliBlock_loadu (hmem : ∀ b ∈ mem, b < 256) {len : Nat} (hlen : len ≤ S) (p : Nat) :
    rvermicelliBlock S (List.replicate S c) (caseMask S nocase) (loadu S mem p) p len =
      lastIn (vermAt c nocase mem) p (p + laneCount S len) := by
  have hcount := laneCount_le hlen
  rw [rvermicelliBlock, lastNonZeroMatch, lastLane_eq_lastIn hlen]
  exact lastIn_congr fun i h1 h2 => testBit_vermicelli hmem h1 (by omega)

theorem rvermicelliBlockNeg_loadu (hmem : ∀ b ∈ mem, b < 256) {len : Nat} (hlen : len ≤ S) (p : Nat) :
    rvermicelliBlockNeg S (List.replicate S c) (caseMask S nocase) (loadu S mem p) p len =
      lastIn (fun i => !vermAt c nocase mem i) p (p + laneCount S len) := by
  have hcount := laneCount_le hlen
  rw [rvermicelliBlockNeg, lastZeroMatchInvertedLen, lastLane_eq_lastIn hlen]
  exact lastIn_congr fun i h1 h2 => by rw [testBit_vermicelli hmem h1 (by omega)]

end Blocks

/-! ## The vector scans, for any block -/

section Family

variable {S : Nat} {block : List Nat → Nat → Nat → Option Nat} {mem : List Nat} {P : Nat → Bool}

/-- The aligned loop of a forward scan finds the first hit of its vectors. -/
theorem fwdLoop_eq (hblock : ∀ p, block (loadu S mem p) p S = firstIn P p (p + S)) :
    ∀ loops d, fwdLoop S block mem loops d = firstIn P d (d + loops * S) :=
  blockLoop_firstIn _ (fun _ => rfl) fun _ d => by rw [fwdLoop, hblock]

/-- The tail of a forward scan looks at the first `laneCount S (buf_end - d)`
lanes of the last vector. -/
theorem fwdTail_eq (hblock : ∀ p len, len ≤ S → block (loadu S mem p) p len = firstIn P p (p + laneCount S len))
    {bufEnd d : Nat} (hdS : bufEnd < d + S) :
    fwdTail S block mem bufEnd d = if d = bufEnd then none
      else (firstIn P (bufEnd - S) (bufEnd - S + laneCount S (bufEnd - d))).filter fun rv => decide (rv < bufEnd) := by
  unfold fwdTail
  split_ifs with hd
  · rfl
  · rw [hblock _ _ (by omega)]

/-- **A forward scan at 16 or 32 bytes.**  When each block reports the first
hit of the lanes it looks at, and these are all its lanes (`S ≠ 64`), the scan
of a buffer of at least a vector returns its first hit, else `buf_end`. -/
theorem fwdExecReal_eq (hS : 0 < S) (h64 : S ≠ 64)
    (hblock : ∀ p len, len ≤ S → block (loadu S mem p) p len = firstIn P p (p + laneCount S len))
    {buf bufEnd : Nat} (hlong : buf + S ≤ bufEnd) :
    fwdExecReal S block mem buf bufEnd = (firstIn P buf bufEnd).getD bufEnd := by
  have hfull : ∀ p, block (loadu S mem p) p S = firstIn P p (p + S) := fun p => by
    rw [hblock p S le_rfl, laneCount_self]
  rw [fwdExecReal, if_pos hlong]
  dsimp only
  set d1 := (buf + (S - 1)) / S * S with hd1
  set d2 := d1 + (bufEnd - d1) / S * S with hd2
  have h1 : buf ≤ d1 := le_roundUp hS buf
  have h2 : d1 < buf + S := roundUp_lt hS buf
  have h3 : (bufEnd - d1) / S * S ≤ bufEnd - d1 := Nat.div_mul_le_self _ _
  have h4 : bufEnd - d1 < (bufEnd - d1) / S * S + S := Nat.lt_div_mul_add hS
  have htail : fwdTail S block mem bufEnd d2 = if d2 = bufEnd then none else firstIn P (bufEnd - S) bufEnd := by
    rw [fwdTail_eq hblock (by omega), laneCount_of_ne h64, Nat.sub_add_cancel (by omega : S ≤ bufEnd),
      firstIn_filter_lt (Nat.sub_le bufEnd S) le_rfl]
  rw [hfull, fwdLoop_eq hfull, htail]
  exact fwdScan_eq hS hd1 hd2 hlong (by omega) (by omega)

/-- The aligned loop of a reverse scan finds the last hit of its vectors. -/
theorem revLoop_eq (hblock : ∀ p, block (loadu S mem p) p S = lastIn P p (p + S)) :
    ∀ loops d, loops * S ≤ d → revLoop S block mem loops d = lastIn P (d - loops * S) d :=
  blockLoop_lastIn _ (fun _ => rfl) fun _ d hd => by rw [revLoop, hblock, Nat.sub_add_cancel hd]

/-- The start of the buffer, scanned last from `d`: the first `d - buf` bytes
of the first vector, or all of them when the helpers look at every lane. -/
theorem revTail_eq (hblock : ∀ p len, len ≤ S → block (loadu S mem p) p len = lastIn P p (p + laneCount S len))
    {buf bufEnd d : Nat} (hbd : buf ≤ d) (hdS : d < buf + S) (hlong : buf + S ≤ bufEnd) :
    revTail S block mem buf bufEnd d = if d = buf then none else lastIn P buf (buf + laneCount S (d - buf)) := by
  have hcount := laneCount_le (by omega : d - buf ≤ S)
  unfold revTail
  split_ifs with hd
  · rfl
  · rw [hblock _ _ (by omega), lastIn_filter_lt (by omega)]

/-- **A reverse scan at every vector size.**  When each block reports the last
hit of the lanes it looks at, the scan of a buffer of at least a vector
returns its last hit, else `buf - 1`: the start of the buffer is loaded from
`buf`, so that its low lanes are the ones left to scan. -/
theorem revExecReal_eq (hS : 0 < S)
    (hblock : ∀ p len, len ≤ S → block (loadu S mem p) p len = lastIn P p (p + laneCount S len))
    {buf bufEnd : Nat} (hlong : buf + S ≤ bufEnd) :
    revExecReal S block mem buf bufEnd = (lastIn P buf bufEnd).getD (buf - 1) := by
  have hfull : ∀ p, block (loadu S mem p) p S = lastIn P p (p + S) := fun p => by
    rw [hblock p S le_rfl, laneCount_self]
  rw [revExecReal, if_pos hlong]
  dsimp only
  set d1 := bufEnd / S * S with hd1
  set d3 := d1 - (d1 - buf) / S * S with hd3
  have h1 : d1 ≤ bufEnd := roundDown_le bufEnd
  have h2 : bufEnd < d1 + S := lt_roundDown_add hS bufEnd
  have h3 : (d1 - buf) / S * S ≤ d1 - buf := Nat.div_mul_le_self _ _
  have h4 : d1 - buf < (d1 - buf) / S * S + S := Nat.lt_div_mul_add hS
  have hcount := le_laneCount (by omega : d3 - buf ≤ S)
  have hcount' := laneCount_le (by omega : d3 - buf ≤ S)
  rw [hfull, Nat.sub_add_cancel (by omega : S ≤ bufEnd), revLoop_eq hfull _ d1 (by omega),
    revTail_eq hblock (by omega) (by omega) hlong]
  exact revScan_eq hS hd1 hd3 hlong (by omega) (by omega)

end Family

/-! ## The entry points against the bytes -/

section Entry

variable {S c : Nat} {nocase : Bool} {mem : List Nat} {buf bufEnd : Nat}

/-- With vectors of 16 or 32 bytes, `vermicelliExec` is the scan that
`Accel.vermicelliExec` specifies, at every length. -/
theorem vermicelliExec_eq (hS : 0 < S) (h64 : S ≠ 64) (hmem : ∀ b ∈ mem, b < 256) (hbuf : buf ≤ bufEnd) :
    vermicelliExec S c nocase mem buf bufEnd = Accel.vermicelliExec c nocase mem buf bufEnd := by
  unfold vermicelliExec
  split_ifs with hshort
  · rw [byteLoopFwd_eq, Nat.add_sub_cancel' hbuf]
    rfl
  · exact fwdExecReal_eq hS h64 (fun p _ hlen => vermicelliBlock_loadu hmem hlen p) (by omega)

theorem nvermicelliExec_eq (hS : 0 < S) (h64 : S ≠ 64) (hmem : ∀ b ∈ mem, b < 256) (hbuf : buf ≤ bufEnd) :
    nvermicelliExec S c nocase mem buf bufEnd = (firstIn (fun i => !vermAt c nocase mem i) buf bufEnd).getD bufEnd := by
  unfold nvermicelliExec
  split_ifs with hshort
  · rw [byteLoopFwd_eq, Nat.add_sub_cancel' hbuf]
  · exact fwdExecReal_eq hS h64 (fun p _ hlen => vermicelliBlockNeg_loadu hmem hlen p) (by omega)

theorem rvermicelliExec_eq (hS : 0 < S) (hmem : ∀ b ∈ mem, b < 256) (hbuf : buf ≤ bufEnd) :
    rvermicelliExec S c nocase mem buf bufEnd = (lastIn (vermAt c nocase mem) buf bufEnd).getD (buf - 1) := by
  unfold rvermicelliExec
  split_ifs with hshort
  · rw [byteLoopRev_eq _ _ _ (Nat.sub_le _ _), Nat.sub_sub_self hbuf]
  · exact revExecReal_eq hS (fun p _ hlen => rvermicelliBlock_loadu hmem hlen p) (by omega)

theorem rnvermicelliExec_eq (hS : 0 < S) (hmem : ∀ b ∈ mem, b < 256) (hbuf : buf ≤ bufEnd) :
    rnvermicelliExec S c nocase mem buf bufEnd =
      (lastIn (fun i => !vermAt c nocase mem i) buf bufEnd).getD (buf - 1) := by
  unfold rnvermicelliExec
  split_ifs with hshort
  · rw [byteLoopRev_eq _ _ _ (Nat.sub_le _ _), Nat.sub_sub_self hbuf]
  · exact revExecReal_eq hS (fun p _ hlen => rvermicelliBlockNeg_loadu hmem hlen p) (by omega)

end Entry

/-- **The single-byte vermicelli scans are the byte loops.**  For every byte
`c`, case flag, memory of bytes, vector size and buffer, the reverse scans
return the last byte that is `c` (that is not `c`), else `buf - 1`; with
vectors of 16 or 32 bytes the forward scans return the first one, else
`buf_end`. -/
theorem vermicelli_scans_exact (c : Nat) (nocase : Bool) {mem : List Nat} (hmem : ∀ b ∈ mem, b < 256) {S : Nat}
    (hS : 0 < S) {buf bufEnd : Nat} (hbuf : buf ≤ bufEnd) :
    rvermicelliExec S c nocase mem buf bufEnd = (lastIn (vermAt c nocase mem) buf bufEnd).getD (buf - 1) ∧
      rnvermicelliExec S c nocase mem buf bufEnd =
        (lastIn (fun i => !vermAt c nocase mem i) buf bufEnd).getD (buf - 1) ∧
      (S ≠ 64 →
        vermicelliExec S c nocase mem buf bufEnd = (firstIn (vermAt c nocase mem) buf bufEnd).getD bufEnd ∧
        nvermicelliExec S c nocase mem buf bufEnd =
          (firstIn (fun i => !vermAt c nocase mem i) buf bufEnd).getD bufEnd) :=
  ⟨rvermicelliExec_eq hS hmem hbuf, rnvermicelliExec_eq hS hmem hbuf,
    fun h64 => ⟨vermicelliExec_eq hS h64 hmem hbuf, nvermicelliExec_eq hS h64 hmem hbuf⟩⟩

theorem vermicelli_scans_exact_a :
    (∀ b ∈ [0x41, 0x61, 0x62], b < 256) ∧ 0 < 16 ∧ 0 ≤ 3 ∧
      rvermicelliExec 16 0x41 true [0x41, 0x61, 0x62] 0 3 =
        (lastIn (vermAt 0x41 true [0x41, 0x61, 0x62]) 0 3).getD (0 - 1) :=
  ⟨by decide, by decide, by decide, (vermicelli_scans_exact 0x41 true (by decide) (by decide) (by decide)).1⟩

/-- **With vectors of 64 bytes the forward tail looks at the wrong bytes.**
The tail loads the last vector of the buffer, from `buf_end - 64`, and passes
the number of bytes left, `r`, as the length, so that the AVX-512 helper looks
at its `r` low lanes, which the aligned vectors scanned already, and not at
its `r` high lanes, the bytes left.  On an aligned buffer of at least a vector
whose last `r ≤ 32` bytes follow its whole vectors, with no `c` in the whole
vectors, `vermicelliExec` returns `buf_end` whatever the last bytes hold. -/
theorem vermicelliExec_tail_misses (c : Nat) (nocase : Bool) {mem : List Nat} (hmem : ∀ b ∈ mem, b < 256)
    {buf bufEnd : Nat} (haligned : buf % 64 = 0) (hlong : buf + 64 ≤ bufEnd) (htail : (bufEnd - buf) % 64 ≤ 32)
    (hnone : firstIn (vermAt c nocase mem) buf (bufEnd - (bufEnd - buf) % 64) = none) :
    vermicelliExec 64 c nocase mem buf bufEnd = bufEnd := by
  have hblock : ∀ p len, len ≤ 64 → vermicelliBlock 64 (List.replicate 64 c) (caseMask 64 nocase) (loadu 64 mem p) p len =
      firstIn (vermAt c nocase mem) p (p + laneCount 64 len) := fun p _ hlen => vermicelliBlock_loadu hmem hlen p
  have hfull : ∀ p, vermicelliBlock 64 (List.replicate 64 c) (caseMask 64 nocase) (loadu 64 mem p) p 64 =
      firstIn (vermAt c nocase mem) p (p + 64) := fun p => by rw [hblock p 64 le_rfl, laneCount_self]
  have hd1 : (buf + (64 - 1)) / 64 * 64 = buf := roundUp_of_mod_eq_zero (by norm_num) haligned
  have hd2 : buf + (bufEnd - buf) / 64 * 64 = bufEnd - (bufEnd - buf) % 64 := by omega
  rw [vermicelliExec, if_neg (by omega), vermicelliExecReal, fwdExecReal, if_pos hlong]
  dsimp only
  rw [hd1, if_pos haligned, Option.none_or, fwdLoop_eq hfull, hd2, hnone, Option.getD_none,
    fwdTail_eq hblock (by omega)]
  split_ifs with hend
  · rfl
  · -- the lanes it looks at lie in the whole vectors, where there is no `c`
    have hlanes : firstIn (vermAt c nocase mem) (bufEnd - 64)
        (bufEnd - 64 + laneCount 64 (bufEnd - (bufEnd - (bufEnd - buf) % 64))) = none := by
      rw [laneCount, if_pos rfl]
      exact firstIn_none_of_sub (by omega) (by omega) hnone
    rw [hlanes]
    rfl

theorem vermicelliExec_tail_misses_sixty_five :
    vermAt 0x61 false (List.replicate 64 0 ++ [0x61]) 64 = true ∧
      vermicelliExec 64 0x61 false (List.replicate 64 0 ++ [0x61]) 0 65 = 65 :=
  ⟨by decide, vermicelliExec_tail_misses 0x61 false (by decide) (by decide) (by decide) (by decide) (by decide)⟩

end Vermicelli
end Accel
end Nfa
end Vectorscan
