import Mathlib
import Vectorscan.Nfa.SuperVector

/-!
# The shufti scanners

`shuftiExec` and `rshuftiExec` of `shufti_simd.hpp`: the byte loops
`shuftiFwdSlow` and `shuftiRevSlow` of `shufti.cpp` on a buffer shorter than a
vector, and otherwise `shuftiExecReal` and `rshuftiExecReal` with the lane test
of `blockSingleMask` (`x86/shufti.hpp`).  The masks are those of
`shuftiBuildMasks` (`Nfa.Accel`).

**Model.**  The vectors are those of `Nfa.SuperVector`; memory is a list of
bytes indexed by address.  The declarations are in the namespace `Shufti`, as
the source's `blockSingleMask`, `fwdBlock` and `revBlock` of shufti are its
own, beside those of truffle.

**Results.**  `shuftiBuildMasks_isSome`: the masks are built for every class
of at most eight bytes.  `shuftiExec_eq`, `rshuftiExec_eq`: the scanners
return the first and the last byte of the buffer that the masks accept (else
`buf_end` and `buf - 1`), at every vector size, address and length, as the byte
loops do (`shuftiFwdSlow_eq`, `shuftiRevSlow_eq`).  `shufti_exact`: with the
masks of a class, these are the bytes of the class.
-/

namespace Vectorscan
namespace Nfa
namespace Accel
namespace Shufti

open Word BlockScan Repeat

/-! ## The lane test -/

/-- `blockSingleMask` of `x86/shufti.hpp`: the low mask at each byte's low
nibble and the high mask at its high nibble; a lane is `0xff` where they share
no bit. -/
def blockSingleMask (maskLo maskHi chars : List Nat) : List Nat :=
  let low4bits := List.replicate chars.length 0xf
  let cLo := List.zipWith (· &&& ·) chars low4bits
  let cHi := List.zipWith (· &&& ·) (vshr64Four chars) low4bits
  eqZeroes (List.zipWith (· &&& ·) (pshufb maskLo cLo) (pshufb maskHi cHi))

/-- `fwdBlock`: the first byte of the vector `chars`, loaded from `buf`, that
the masks accept. -/
def fwdBlock (maskLo maskHi chars : List Nat) (buf : Nat) : Option Nat :=
  firstZeroMatchInverted chars.length buf (comparemask (blockSingleMask maskLo maskHi chars))

/-- `revBlock`: the last such byte. -/
def revBlock (maskLo maskHi chars : List Nat) (buf : Nat) : Option Nat :=
  lastZeroMatchInverted chars.length buf (comparemask (blockSingleMask maskLo maskHi chars))

/-! ## The scanners -/

section Exec

variable (S : Nat) (maskLo maskHi mem : List Nat)

/-- The unaligned head of `shuftiExecReal`: a match in the vector at `buf`. -/
def shuftiFwdHead (buf : Nat) : Option Nat :=
  if buf % S = 0 then none else fwdBlock maskLo maskHi (loadu S mem buf) buf

/-- The aligned loop of `shuftiExecReal`: `loops` vectors from `d`, up to the
first that has a match. -/
def shuftiFwdLoop : Nat → Nat → Option Nat
  | 0, _ => none
  | loops + 1, d => (fwdBlock maskLo maskHi (loadu S mem d) d).or (shuftiFwdLoop loops (d + S))

/-- The tail of `shuftiExecReal` from `d`: the last vector of the buffer; a
match before `buf_end`. -/
def shuftiFwdTail (bufEnd d : Nat) : Option Nat :=
  if d = bufEnd then none
  else (fwdBlock maskLo maskHi (loadu S mem (bufEnd - S)) (bufEnd - S)).filter fun rv => decide (rv < bufEnd)

/-- `shuftiExecReal`: when a whole vector fits, the unaligned head and the
aligned vectors, then the tail. -/
def shuftiExecReal (buf bufEnd : Nat) : Nat :=
  if buf + S ≤ bufEnd then
    let d1 := (buf + (S - 1)) / S * S
    let loops := (bufEnd - d1) / S
    ((shuftiFwdHead S maskLo maskHi mem buf).or (shuftiFwdLoop S maskLo maskHi mem loops d1)).getD
      ((shuftiFwdTail S maskLo maskHi mem bufEnd (d1 + loops * S)).getD bufEnd)
  else (shuftiFwdTail S maskLo maskHi mem bufEnd buf).getD bufEnd

/-- The unaligned head of `rshuftiExecReal`: a match in the vector that ends
at `buf_end`. -/
def rshuftiRevHead (bufEnd : Nat) : Option Nat :=
  if bufEnd % S = 0 then none else revBlock maskLo maskHi (loadu S mem (bufEnd - S)) (bufEnd - S)

/-- The aligned loop of `rshuftiExecReal`: `loops` vectors down from `d`, up
to the first that has a match. -/
def rshuftiRevLoop : Nat → Nat → Option Nat
  | 0, _ => none
  | loops + 1, d => (revBlock maskLo maskHi (loadu S mem (d - S)) (d - S)).or (rshuftiRevLoop loops (d - S))

/-- The start of the buffer, scanned last by `rshuftiExecReal` from `d`: the
first vector of the buffer; a match before `buf_end`. -/
def rshuftiRevTail (buf bufEnd d : Nat) : Option Nat :=
  if d = buf then none
  else (revBlock maskLo maskHi (loadu S mem buf) buf).filter fun rv => decide (rv < bufEnd)

/-- `rshuftiExecReal`: when a whole vector fits, the unaligned head and the
aligned vectors downwards, then the start of the buffer; `buf - 1` when
nothing matched. -/
def rshuftiExecReal (buf bufEnd : Nat) : Nat :=
  if buf + S ≤ bufEnd then
    let d1 := bufEnd / S * S
    let loops := (d1 - buf) / S
    ((rshuftiRevHead S maskLo maskHi mem bufEnd).or (rshuftiRevLoop S maskLo maskHi mem loops d1)).getD
      ((rshuftiRevTail S maskLo maskHi mem buf bufEnd (d1 - loops * S)).getD (buf - 1))
  else (rshuftiRevTail S maskLo maskHi mem buf bufEnd bufEnd).getD (buf - 1)

end Exec

section Slow

variable (lo hi mem : List Nat)

/-- The loop of `shuftiFwdSlow` over the `n` bytes from `buf`. -/
def shuftiFwdSlowLoop : Nat → Nat → Nat
  | 0, buf => buf
  | n + 1, buf => if shuftiHit lo hi (mem.getD buf 0) then buf else shuftiFwdSlowLoop n (buf + 1)

/-- `shuftiFwdSlow`: the byte loop forwards. -/
def shuftiFwdSlow (buf bufEnd : Nat) : Nat := shuftiFwdSlowLoop lo hi mem (bufEnd - buf) buf

/-- The loop of `shuftiRevSlow` over the `n` bytes below `top`. -/
def shuftiRevSlowLoop : Nat → Nat → Nat
  | 0, top => top - 1
  | n + 1, top => if shuftiHit lo hi (mem.getD (top - 1) 0) then top - 1 else shuftiRevSlowLoop n (top - 1)

/-- `shuftiRevSlow`: the byte loop backwards. -/
def shuftiRevSlow (buf bufEnd : Nat) : Nat := shuftiRevSlowLoop lo hi mem (bufEnd - buf) bufEnd

end Slow

/-- `shuftiExec`: the byte loop on a buffer shorter than a vector of `S`
bytes (`VECTORSIZE`), else the vector scan. -/
def shuftiExec (S : Nat) (lo hi mem : List Nat) (buf bufEnd : Nat) : Nat :=
  if bufEnd - buf < S then shuftiFwdSlow lo hi mem buf bufEnd else shuftiExecReal S lo hi mem buf bufEnd

/-- `rshuftiExec`: likewise backwards. -/
def rshuftiExec (S : Nat) (lo hi mem : List Nat) (buf bufEnd : Nat) : Nat :=
  if bufEnd - buf < S then shuftiRevSlow lo hi mem buf bufEnd else rshuftiExecReal S lo hi mem buf bufEnd

/-- The byte at address `i` passes the lane test of the masks. -/
def shuftiAt (lo hi mem : List Nat) (i : Nat) : Bool := shuftiHit lo hi (mem.getD i 0)

/-! ## One lane -/

section Lanes

@[simp] theorem length_blockSingleMask (maskLo maskHi chars : List Nat) :
    (blockSingleMask maskLo maskHi chars).length = chars.length := by
  simp [blockSingleMask, eqZeroes]

/-- A low nibble has no top bit. -/
theorem and_fifteen_top (x : Nat) : x &&& 0xf &&& 0x80 = 0 := by
  rw [Nat.and_assoc, show (0xf &&& 0x80 : Nat) = 0 by decide, Nat.and_zero]

/-- The high nibble of a byte, shifted down within its word: the next byte
lands above the low nibble. -/
theorem shifted_nibble {b n : Nat} (hb : b < 256) (hn : n &&& 0xf = 0) :
    (((b >>> 4) ||| n) &&& 0xff) &&& 0xf = b >>> 4 := by
  have hhi : b >>> 4 < 16 := by rw [shiftRight_four]; omega
  rw [Nat.and_assoc, show (0xff &&& 0xf : Nat) = 0xf by decide, Nat.and_or_distrib_right, hn, Nat.or_zero,
    and_fifteen, Nat.mod_eq_of_lt hhi]

/-- **One lane of `blockSingleMask`.**  Lane `j` is `0x00` when byte `j`
passes the lane test of the masks and `0xff` when it does not. -/
theorem getD_blockSingleMask (maskLo maskHi : List Nat) {chars : List Nat} {j : Nat}
    (hj : j < chars.length) (hb : chars.getD j 0 < 256) :
    (blockSingleMask maskLo maskHi chars).getD j 0 =
      if shuftiHit maskLo maskHi (chars.getD j 0) then 0 else 0xff := by
  set b := chars.getD j 0 with hbdef
  have hrep : (List.replicate chars.length 0xf).getD j 0 = 0xf := by
    simp [List.getD_eq_getElem?_getD, hj]
  -- the low nibble indexes the low mask
  have hlo : (pshufb maskLo (List.zipWith (· &&& ·) chars (List.replicate chars.length 0xf))).getD j 0 =
      maskLo.getD (b &&& 0xf) 0 := by
    rw [getD_pshufb _ (by simp [hj]), getD_zipWith _ hj (by simp [hj]), hrep, ← hbdef, if_pos (and_fifteen_top b),
      Nat.and_assoc, Nat.and_self]
  -- the high nibble, shifted down within its word, indexes the high mask
  have hnext : ((if j % 8 = 7 then 0 else chars.getD (j + 1) 0 <<< 4) &&& 0xf) = 0 := by
    split
    · rfl
    · exact shiftLeft_four_and_fifteen _
  have hhi16 : (b >>> 4) &&& 0xf = b >>> 4 := by
    rw [and_fifteen, Nat.mod_eq_of_lt (by rw [shiftRight_four]; omega)]
  have hhi : (pshufb maskHi (List.zipWith (· &&& ·) (vshr64Four chars) (List.replicate chars.length 0xf))).getD j 0 =
      maskHi.getD ((b >>> 4) &&& 0xf) 0 := by
    rw [getD_pshufb _ (by simp [hj]), getD_zipWith _ (by simp [hj]) (by simp [hj]), hrep, getD_vshr64Four hj, ← hbdef,
      if_pos (and_fifteen_top _), shifted_nibble hb hnext, hhi16]
  rw [blockSingleMask, getD_eqZeroes (by simp [hj]), getD_zipWith _ (by simp [hj]) (by simp [hj]), hlo, hhi, shuftiHit]
  by_cases hz : maskLo.getD (b &&& 0xf) 0 &&& maskHi.getD ((b >>> 4) &&& 0xf) 0 = 0
  · rw [if_pos hz, hz]
    rfl
  · rw [if_neg hz, if_pos (bne_iff_ne.mpr hz)]

/-- Every lane of `blockSingleMask` on a vector of bytes. -/
theorem lanes_blockSingleMask (maskLo maskHi : List Nat) {chars : List Nat}
    (hb : ∀ j < chars.length, chars.getD j 0 < 256) :
    ∀ j < (blockSingleMask maskLo maskHi chars).length, (blockSingleMask maskLo maskHi chars).getD j 0 =
      if shuftiHit maskLo maskHi (chars.getD j 0) then 0 else 0xff := by
  intro j hj
  rw [length_blockSingleMask] at hj
  exact getD_blockSingleMask maskLo maskHi hj (hb j hj)

end Lanes

/-! ## One vector -/

section Blocks

variable {maskLo maskHi mem : List Nat}

theorem loadu_bytes (hmem : ∀ b ∈ mem, b < 256) (S p : Nat) :
    ∀ j < (loadu S mem p).length, (loadu S mem p).getD j 0 < 256 := by
  intro j hj
  rw [getD_loadu (by simpa using hj)]
  exact getD_lt_of_bytes hmem _

/-- The first match of a vector loaded from memory. -/
theorem fwdBlock_loadu (hmem : ∀ b ∈ mem, b < 256) (S p : Nat) :
    fwdBlock maskLo maskHi (loadu S mem p) p = firstIn (shuftiAt maskLo maskHi mem) p (p + S) := by
  have h := firstZeroMatchInverted_comparemask (lanes_blockSingleMask maskLo maskHi (loadu_bytes hmem S p)) p
  rw [length_blockSingleMask, length_loadu] at h
  rw [fwdBlock, length_loadu, h]
  apply firstIn_congr
  intro i h1 h2
  rw [getD_loadu (by omega), Nat.add_sub_cancel' h1]
  rfl

/-- The last match of a vector loaded from memory. -/
theorem revBlock_loadu (hmem : ∀ b ∈ mem, b < 256) (S p : Nat) :
    revBlock maskLo maskHi (loadu S mem p) p = lastIn (shuftiAt maskLo maskHi mem) p (p + S) := by
  have h := lastZeroMatchInverted_comparemask (lanes_blockSingleMask maskLo maskHi (loadu_bytes hmem S p)) p
  rw [length_blockSingleMask, length_loadu] at h
  rw [revBlock, length_loadu, h]
  apply lastIn_congr
  intro i h1 h2
  rw [getD_loadu (by omega), Nat.add_sub_cancel' h1]
  rfl

end Blocks

/-! ## The forward scan -/

section Forward

variable {S : Nat} {maskLo maskHi mem : List Nat}

/-- The aligned loop scans its vectors in turn. -/
theorem shuftiFwdLoop_eq (hmem : ∀ b ∈ mem, b < 256) :
    ∀ loops d, shuftiFwdLoop S maskLo maskHi mem loops d = firstIn (shuftiAt maskLo maskHi mem) d (d + loops * S) :=
  blockLoop_firstIn _ (fun _ => rfl) fun _ d => by rw [shuftiFwdLoop, fwdBlock_loadu hmem]

/-- The head vector at an unaligned `buf` runs past the next boundary, into the
aligned loop's range: the two scan up to the further of their ends. -/
theorem shuftiFwdHead_or (hS : 0 < S) (hmem : ∀ b ∈ mem, b < 256) {buf e : Nat}
    (haligned : buf % S = 0 → buf + S ≤ e) :
    (shuftiFwdHead S maskLo maskHi mem buf).or (firstIn (shuftiAt maskLo maskHi mem) ((buf + (S - 1)) / S * S) e) =
      firstIn (shuftiAt maskLo maskHi mem) buf (max (buf + S) e) := by
  unfold shuftiFwdHead
  split_ifs with h
  · rw [Option.none_or, roundUp_of_mod_eq_zero hS h, Nat.max_eq_right (haligned h)]
  · rw [fwdBlock_loadu hmem, firstIn_or_overlap (le_roundUp hS buf) (roundUp_lt hS buf).le]

/-- The tail from `d`, after a scan of `[buf, E)`: the last vector of the
buffer, which starts inside `[buf, E)`. -/
theorem shuftiFwdTail_or (hmem : ∀ b ∈ mem, b < 256) {buf bufEnd d E : Nat} (hlong : buf + S ≤ bufEnd)
    (hd : d ≤ E) (hE : E ≤ bufEnd) (hdS : bufEnd < d + S) :
    (firstIn (shuftiAt maskLo maskHi mem) buf E).or (shuftiFwdTail S maskLo maskHi mem bufEnd d) =
      firstIn (shuftiAt maskLo maskHi mem) buf bufEnd := by
  unfold shuftiFwdTail
  split_ifs with hdE
  · rw [Option.or_none, show E = bufEnd by omega]
  · rw [fwdBlock_loadu hmem, Nat.sub_add_cancel (by omega : S ≤ bufEnd), firstIn_filter_lt (Nat.sub_le bufEnd S) le_rfl,
      firstIn_or_overlap (by omega) (by omega), Nat.max_eq_right hE]

/-- **The forward scan of a whole vector or more.**  `shuftiExecReal` returns
the first position of `[buf, buf_end)` whose byte the masks accept, else
`buf_end`. -/
theorem shuftiExecReal_eq (hS : 0 < S) (hmem : ∀ b ∈ mem, b < 256) {buf bufEnd : Nat} (hlong : buf + S ≤ bufEnd) :
    shuftiExecReal S maskLo maskHi mem buf bufEnd = (firstIn (shuftiAt maskLo maskHi mem) buf bufEnd).getD bufEnd := by
  rw [shuftiExecReal, if_pos hlong]
  dsimp only
  set d1 := (buf + (S - 1)) / S * S with hd1
  set loops := (bufEnd - d1) / S with hloops
  have h1 : buf ≤ d1 := le_roundUp hS buf
  have h2 : d1 < buf + S := roundUp_lt hS buf
  have h3 : loops * S ≤ bufEnd - d1 := Nat.div_mul_le_self _ _
  have h4 : bufEnd - d1 < loops * S + S := Nat.lt_div_mul_add hS
  -- an aligned buffer has no head, and its loop covers a whole vector
  have haligned : buf % S = 0 → buf + S ≤ d1 + loops * S := fun h => by
    have hd : d1 = buf := roundUp_of_mod_eq_zero hS h
    have hl : 1 ≤ loops := (Nat.le_div_iff_mul_le hS).mpr (by omega)
    have : S ≤ loops * S := Nat.le_mul_of_pos_left S hl
    omega
  rw [shuftiFwdLoop_eq hmem, shuftiFwdHead_or hS hmem haligned, ← Option.getD_or,
    shuftiFwdTail_or hmem hlong (Nat.le_max_right _ _) (by omega) (by omega)]

end Forward

/-! ## The reverse scan -/

section Reverse

variable {S : Nat} {maskLo maskHi mem : List Nat}

/-- The aligned loop scans its vectors in turn, downwards. -/
theorem rshuftiRevLoop_eq (hmem : ∀ b ∈ mem, b < 256) :
    ∀ loops d, loops * S ≤ d → rshuftiRevLoop S maskLo maskHi mem loops d =
      lastIn (shuftiAt maskLo maskHi mem) (d - loops * S) d :=
  blockLoop_lastIn _ (fun _ => rfl) fun _ d hd => by
    rw [rshuftiRevLoop, revBlock_loadu hmem, Nat.sub_add_cancel hd]

/-- The head vector that ends at an unaligned `buf_end` runs below the last
boundary, into the aligned loop's range. -/
theorem rshuftiRevHead_or (hS : 0 < S) (hmem : ∀ b ∈ mem, b < 256) {bufEnd e : Nat} (hlong : S ≤ bufEnd)
    (haligned : bufEnd % S = 0 → e + S ≤ bufEnd) :
    (rshuftiRevHead S maskLo maskHi mem bufEnd).or (lastIn (shuftiAt maskLo maskHi mem) e (bufEnd / S * S)) =
      lastIn (shuftiAt maskLo maskHi mem) (min e (bufEnd - S)) bufEnd := by
  unfold rshuftiRevHead
  split_ifs with h
  · rw [Option.none_or, roundDown_of_mod_eq_zero h, Nat.min_eq_left (by have := haligned h; omega)]
  · have hlt := lt_roundDown_add hS bufEnd
    rw [revBlock_loadu hmem, Nat.sub_add_cancel hlong, lastIn_or_overlap (by omega) (roundDown_le bufEnd)]

/-- The start of the buffer, from `d` down, after a scan of `[E, buf_end)`:
the first vector of the buffer, which ends inside `[E, buf_end)`. -/
theorem rshuftiRevTail_or (hmem : ∀ b ∈ mem, b < 256) {buf bufEnd d E : Nat} (hlong : buf + S ≤ bufEnd)
    (hbE : buf ≤ E) (hEd : E ≤ d) (hdS : d < buf + S) :
    (lastIn (shuftiAt maskLo maskHi mem) E bufEnd).or (rshuftiRevTail S maskLo maskHi mem buf bufEnd d) =
      lastIn (shuftiAt maskLo maskHi mem) buf bufEnd := by
  unfold rshuftiRevTail
  split_ifs with hd
  · rw [Option.or_none, show E = buf by omega]
  · rw [revBlock_loadu hmem, lastIn_filter_lt hlong, lastIn_or_overlap (by omega) hlong, Nat.min_eq_left hbE]

/-- **The reverse scan of a whole vector or more.**  `rshuftiExecReal`
returns the last position of `[buf, buf_end)` whose byte the masks accept,
else `buf - 1`. -/
theorem rshuftiExecReal_eq (hS : 0 < S) (hmem : ∀ b ∈ mem, b < 256) {buf bufEnd : Nat} (hlong : buf + S ≤ bufEnd) :
    rshuftiExecReal S maskLo maskHi mem buf bufEnd = (lastIn (shuftiAt maskLo maskHi mem) buf bufEnd).getD (buf - 1) := by
  rw [rshuftiExecReal, if_pos hlong]
  dsimp only
  set d1 := bufEnd / S * S with hd1
  set loops := (d1 - buf) / S with hloops
  have h1 : d1 ≤ bufEnd := roundDown_le bufEnd
  have h2 : bufEnd < d1 + S := lt_roundDown_add hS bufEnd
  have h3 : loops * S ≤ d1 - buf := Nat.div_mul_le_self _ _
  have h4 : d1 - buf < loops * S + S := Nat.lt_div_mul_add hS
  -- an aligned end has no head, and the loop below it covers a whole vector
  have haligned : bufEnd % S = 0 → d1 - loops * S + S ≤ bufEnd := fun h => by
    have hd : d1 = bufEnd := roundDown_of_mod_eq_zero h
    have hl : 1 ≤ loops := (Nat.le_div_iff_mul_le hS).mpr (by omega)
    have : S ≤ loops * S := Nat.le_mul_of_pos_left S hl
    omega
  rw [rshuftiRevLoop_eq hmem loops d1 (by omega), rshuftiRevHead_or hS hmem (by omega) haligned,
    ← Option.getD_or, rshuftiRevTail_or hmem hlong (by omega) (Nat.min_le_left _ _) (by omega)]

end Reverse

/-! ## The byte loops -/

section Slow

variable (lo hi mem : List Nat)

/-- The forward byte loop over `n` bytes: the first match, else the end. -/
theorem shuftiFwdSlowLoop_eq :
    ∀ n buf, shuftiFwdSlowLoop lo hi mem n buf = (firstIn (shuftiAt lo hi mem) buf (buf + n)).getD (buf + n)
  | 0, buf => by rw [shuftiFwdSlowLoop, Nat.add_zero, firstIn_of_le le_rfl]; rfl
  | n + 1, buf => by
    rw [shuftiFwdSlowLoop, firstIn_of_lt (by omega), shuftiFwdSlowLoop_eq n (buf + 1),
      show buf + 1 + n = buf + (n + 1) by omega]
    -- the loop tests the byte, the search its position
    by_cases hb : shuftiAt lo hi mem buf = true
    · have hbyte : shuftiHit lo hi (mem.getD buf 0) = true := hb
      rw [if_pos hbyte, if_pos hb, Option.getD_some]
    · have hbyte : ¬ shuftiHit lo hi (mem.getD buf 0) = true := hb
      rw [if_neg hbyte, if_neg hb]

/-- The reverse byte loop over the `n` bytes below `top`: the last match,
else the byte before them. -/
theorem shuftiRevSlowLoop_eq :
    ∀ n top, n ≤ top → shuftiRevSlowLoop lo hi mem n top =
      (lastIn (shuftiAt lo hi mem) (top - n) top).getD (top - n - 1)
  | 0, top, _ => by rw [shuftiRevSlowLoop, Nat.sub_zero, lastIn_of_le le_rfl]; rfl
  | n + 1, top, h => by
    obtain ⟨t, rfl⟩ : ∃ t, top = t + 1 := ⟨top - 1, by omega⟩
    rw [shuftiRevSlowLoop, Nat.add_sub_cancel, lastIn_succ (by omega), shuftiRevSlowLoop_eq n t (by omega),
      Nat.add_sub_add_right]
    -- the loop tests the byte, the search its position
    by_cases hb : shuftiAt lo hi mem t = true
    · have hbyte : shuftiHit lo hi (mem.getD t 0) = true := hb
      rw [if_pos hbyte, if_pos hb, Option.getD_some]
    · have hbyte : ¬ shuftiHit lo hi (mem.getD t 0) = true := hb
      rw [if_neg hbyte, if_neg hb]

theorem shuftiFwdSlow_eq {buf bufEnd : Nat} (hbuf : buf ≤ bufEnd) :
    shuftiFwdSlow lo hi mem buf bufEnd = (firstIn (shuftiAt lo hi mem) buf bufEnd).getD bufEnd := by
  rw [shuftiFwdSlow, shuftiFwdSlowLoop_eq, Nat.add_sub_cancel' hbuf]

theorem shuftiRevSlow_eq {buf bufEnd : Nat} (hbuf : buf ≤ bufEnd) :
    shuftiRevSlow lo hi mem buf bufEnd = (lastIn (shuftiAt lo hi mem) buf bufEnd).getD (buf - 1) := by
  rw [shuftiRevSlow, shuftiRevSlowLoop_eq lo hi mem _ _ (Nat.sub_le _ _), Nat.sub_sub_self hbuf]

end Slow

/-! ## Both paths -/

section Dispatch

variable {S : Nat} {lo hi mem : List Nat}

/-- **Forwards, at every length.**  `shuftiExec` returns the first byte of the
buffer that the masks accept, as `Accel.shuftiExec` specifies: the byte loop
below a vector, the vector scan from one. -/
theorem shuftiExec_eq (hS : 0 < S) (hmem : ∀ b ∈ mem, b < 256) {buf bufEnd : Nat} (hbuf : buf ≤ bufEnd) :
    shuftiExec S lo hi mem buf bufEnd = Accel.shuftiExec lo hi mem buf bufEnd := by
  unfold shuftiExec
  split_ifs with hshort
  · exact shuftiFwdSlow_eq lo hi mem hbuf
  · exact shuftiExecReal_eq hS hmem (by omega)

/-- **Backwards, at every length.**  `rshuftiExec` returns the last byte of
the buffer that the masks accept, else `buf - 1`. -/
theorem rshuftiExec_eq (hS : 0 < S) (hmem : ∀ b ∈ mem, b < 256) {buf bufEnd : Nat} (hbuf : buf ≤ bufEnd) :
    rshuftiExec S lo hi mem buf bufEnd = (lastIn (shuftiAt lo hi mem) buf bufEnd).getD (buf - 1) := by
  unfold rshuftiExec
  split_ifs with hshort
  · exact shuftiRevSlow_eq lo hi mem hbuf
  · exact rshuftiExecReal_eq hS hmem (by omega)

end Dispatch

/-! ## When the masks are built -/

section Build

/-- Each byte of the class adds at most one high nibble to `by_hi`, and each
high nibble at most one group. -/
theorem length_shuftiGroups_le (c : CharReach) : (BitSetMap.entries (shuftiByLoSet c)).length ≤ crCount c := by
  have hchars : (crChars c).length = crCount c := (List.countP_eq_length_filter ..).symm
  have hhi : (BitSetMap.keys (shuftiByHi c)).length ≤ 0 + (crChars c).length :=
    BitSetMap.length_keys_foldl_le (fun i : Nat => i >>> 4) (fun i : Nat => i &&& 0xf) (crChars c) []
  have hlo : (BitSetMap.keys (shuftiByLoSet c)).length ≤ 0 + (BitSetMap.entries (shuftiByHi c)).length :=
    BitSetMap.length_keys_foldl_le (fun e : Nat × Nat => e.2) (fun e : Nat × Nat => e.1)
      (BitSetMap.entries (shuftiByHi c)) []
  rw [BitSetMap.length_entries] at hlo ⊢
  omega

/-- A class of at most eight bytes has at most eight groups: the masks are built. -/
theorem shuftiBuildMasks_isSome {c : CharReach} (hc : crCount c ≤ 8) : (shuftiBuildMasks c).isSome := by
  have hlen := length_shuftiGroups_le c
  dsimp only [shuftiBuildMasks]
  rw [if_neg (by omega)]
  rfl

end Build

/-! ## The scanners against the class -/

/-- **Shufti finds its class.**  For a class of at most eight bytes, or any
class whose masks are built, the masks are built, their lane test is the class
on every byte, and at every vector size, every memory of bytes and every
buffer, the vector scans return what the byte loops return: the first and the
last byte of the buffer in the class, else `buf_end` and `buf - 1`. -/
theorem shufti_exact (cr : CharReach) (hbuild : crCount cr ≤ 8 ∨ (shuftiBuildMasks cr).isSome) :
    ∃ lo hi, shuftiBuildMasks cr = some (lo, hi) ∧ (∀ b < 256, shuftiHit lo hi b = cr.testBit b) ∧
      ∀ S, 0 < S → ∀ mem : List Nat, (∀ b ∈ mem, b < 256) → ∀ buf bufEnd, buf ≤ bufEnd →
        shuftiExec S lo hi mem buf bufEnd = shuftiFwdSlow lo hi mem buf bufEnd ∧
        shuftiFwdSlow lo hi mem buf bufEnd = (firstIn (fun i => cr.testBit (mem.getD i 0)) buf bufEnd).getD bufEnd ∧
        rshuftiExec S lo hi mem buf bufEnd = shuftiRevSlow lo hi mem buf bufEnd ∧
        shuftiRevSlow lo hi mem buf bufEnd = (lastIn (fun i => cr.testBit (mem.getD i 0)) buf bufEnd).getD (buf - 1) := by
  have hsome : (shuftiBuildMasks cr).isSome := hbuild.elim shuftiBuildMasks_isSome id
  obtain ⟨⟨lo, hi⟩, hmasks⟩ := Option.isSome_iff_exists.mp hsome
  have hlane : ∀ b < 256, shuftiHit lo hi b = cr.testBit b := fun b hb => shuftiHit_eq_test cr hmasks hb
  refine ⟨lo, hi, hmasks, hlane, fun S hS mem hmem buf bufEnd hbuf => ?_⟩
  -- with bytes in memory, the lane test at an address is the class at its byte
  have hat : shuftiAt lo hi mem = fun i => cr.testBit (mem.getD i 0) :=
    funext fun i => hlane _ (getD_lt_of_bytes hmem i)
  refine ⟨?_, ?_, ?_, ?_⟩
  · rw [shuftiExec_eq hS hmem hbuf, shuftiFwdSlow_eq lo hi mem hbuf]
    rfl
  · rw [shuftiFwdSlow_eq lo hi mem hbuf, hat]
  · rw [rshuftiExec_eq hS hmem hbuf, shuftiRevSlow_eq lo hi mem hbuf]
  · rw [shuftiRevSlow_eq lo hi mem hbuf, hat]

set_option maxRecDepth 100000 in
theorem shufti_exact_a :
    ∃ lo hi, shuftiBuildMasks (1 <<< 0x61) = some (lo, hi) ∧ (∀ b < 256, shuftiHit lo hi b = (1 <<< 0x61).testBit b) ∧
      ∀ S, 0 < S → ∀ mem : List Nat, (∀ b ∈ mem, b < 256) → ∀ buf bufEnd, buf ≤ bufEnd →
        shuftiExec S lo hi mem buf bufEnd = shuftiFwdSlow lo hi mem buf bufEnd ∧
        shuftiFwdSlow lo hi mem buf bufEnd =
          (firstIn (fun i => (1 <<< 0x61).testBit (mem.getD i 0)) buf bufEnd).getD bufEnd ∧
        rshuftiExec S lo hi mem buf bufEnd = shuftiRevSlow lo hi mem buf bufEnd ∧
        shuftiRevSlow lo hi mem buf bufEnd =
          (lastIn (fun i => (1 <<< 0x61).testBit (mem.getD i 0)) buf bufEnd).getD (buf - 1) :=
  shufti_exact (1 <<< 0x61) (Or.inl (by decide))

end Shufti
end Accel
end Nfa
end Vectorscan
