import Mathlib
import Vectorscan.Nfa.SuperVector

/-!
# The truffle scanners

`truffleExecReal` and `rtruffleExecReal` of `truffle_simd.hpp` at every
vector size `S`, with the lane test of `blockSingleMask` (`x86/truffle.hpp`);
and `truffle2cr` of `trufflecompile.cpp`, which reads a class back from its
masks.

**Model.**  The vectors and their operations are those of `Nfa.SuperVector`.
Memory is a list of bytes indexed by address, and `buf`, `buf_end` are
addresses, so that every alignment is covered.  Each scanner is its head, its
loop of aligned vectors and its tail, as the source runs them.

**Results.**  `getD_blockSingleMask`: lane `j` of `blockSingleMask` is zero
exactly when byte `j` passes `truffleHit`.  `truffle2cr_truffleBuildMasks`:
the masks of a class read back as the class.
`truffleExecReal_eq_truffleExec`: the forward scan is the byte loop at every
vector size, address and length.  `rtruffleExecReal_eq_rtruffleScan`: so is
the reverse scan when the buffer holds a whole vector or the class does not
contain `0x00`.  `rtruffleExecReal_short_nul`: otherwise the zero bytes that
pad a short buffer all pass the lane test, the last of them lies past the
buffer, and the reverse scan returns `buf - 1` whatever the buffer holds.
-/

namespace Vectorscan
namespace Nfa
namespace Accel

open Word BlockScan Repeat

/-! ## The lane test -/

/-- `dup_u64(0x8040201008040201)` as a table: byte `j` has bit `j % 8`. -/
def shufMaskHi : List Nat := (List.range 16).map fun j => 1 <<< (j % 8)

/-- `blockSingleMask`: the byte of the first mask (top bit clear) or of the
second (top bit set) at the low nibble, and'ed with the bit that bits 4 to 6
name; a lane is `0xff` where that is zero. -/
def blockSingleMask (highclear highset chars : List Nat) : List Nat :=
  let highconst := List.replicate chars.length 0x80
  let shuf1 := pshufb highclear chars
  let t1 := List.zipWith (· ^^^ ·) chars highconst
  let shuf2 := pshufb highset t1
  let t2 := List.zipWith (fun a b => (a ^^^ 0xff) &&& b) highconst (vshr64Four chars)
  let shuf3 := pshufb shufMaskHi t2
  eqZeroes (List.zipWith (· &&& ·) (List.zipWith (· ||| ·) shuf1 shuf2) shuf3)

/-- `fwdBlock`: the first byte of the vector `chars`, loaded from `buf`,
that the masks accept. -/
def fwdBlock (highclear highset chars : List Nat) (buf : Nat) : Option Nat :=
  firstZeroMatchInverted chars.length buf (comparemask (blockSingleMask highclear highset chars))

/-- `revBlock`: the last such byte. -/
def revBlock (highclear highset chars : List Nat) (buf : Nat) : Option Nat :=
  lastZeroMatchInverted chars.length buf (comparemask (blockSingleMask highclear highset chars))

/-! ## One lane -/

section Lanes

@[simp] theorem length_blockSingleMask (highclear highset chars : List Nat) :
    (blockSingleMask highclear highset chars).length = chars.length := by
  simp [blockSingleMask, eqZeroes]

/-- Flipping the top bit of a byte moves it between the two masks and keeps
its low nibble. -/
theorem xor_top_bits (b : Nat) :
    ((b ^^^ 0x80) &&& 0x80 = 0 ↔ ¬ b &&& 0x80 = 0) ∧ (b ^^^ 0x80) &&& 0xf = b &&& 0xf := by
  rw [Nat.and_xor_distrib_right, Nat.and_xor_distrib_right, show (0x80 &&& 0x80 : Nat) = 0x80 by decide,
    show (0x80 &&& 0xf : Nat) = 0 by decide, Nat.xor_zero, and_top]
  refine ⟨?_, rfl⟩
  rcases Nat.mod_two_eq_zero_or_one (b / 128) with h | h <;> rw [h] <;> decide

/-- **One lane of `blockSingleMask`.**  Lane `j` is `0x00` when byte `j`
passes the lane test of the masks and `0xff` when it does not. -/
theorem getD_blockSingleMask (highclear highset : List Nat) {chars : List Nat} {j : Nat}
    (hj : j < chars.length) (hb : chars.getD j 0 < 256) :
    (blockSingleMask highclear highset chars).getD j 0 =
      if truffleHit highclear highset (chars.getD j 0) then 0 else 0xff := by
  set b := chars.getD j 0 with hbdef
  have hrep : (List.replicate chars.length 0x80).getD j 0 = 0x80 := by
    simp [List.getD_eq_getElem?_getD, hj]
  -- the third lookup reads the bit that bits 4 to 6 name
  have hnext : ((if j % 8 = 7 then 0 else chars.getD (j + 1) 0 <<< 4) &&& 0xf) = 0 := by
    split
    · rfl
    · exact shiftLeft_four_and_fifteen _
  obtain ⟨hidx8, hidx⟩ := shifted_index hb hnext
  have hhi : b >>> 4 < 16 := by rw [shiftRight_four]; omega
  have hshuf3 : (pshufb shufMaskHi (List.zipWith (fun a b => (a ^^^ 0xff) &&& b)
      (List.replicate chars.length 0x80) (vshr64Four chars))).getD j 0 = 1 <<< ((b >>> 4) &&& 7) := by
    rw [getD_pshufb _ (by simp [hj]), getD_zipWith _ (by simp [hj]) (by simp [hj]), hrep, getD_vshr64Four hj,
      ← hbdef, if_pos hidx8, hidx, shufMaskHi, getD_map_range _ 0 hhi,
      show (b >>> 4) &&& 7 = (b >>> 4) % 8 from Nat.and_two_pow_sub_one_eq_mod _ 3]
  -- the first two lookups: the mask for the byte's top bit, at its low nibble
  obtain ⟨htop, hlow⟩ := xor_top_bits b
  have hmask : (List.zipWith (· ||| ·) (pshufb highclear chars)
      (pshufb highset (List.zipWith (· ^^^ ·) chars (List.replicate chars.length 0x80)))).getD j 0 =
      (if b &&& 0x80 = 0 then highclear else highset).getD (b &&& 0xf) 0 := by
    rw [getD_zipWith _ (by simp [hj]) (by simp [hj]), getD_pshufb _ hj, getD_pshufb _ (by simp [hj]),
      getD_zipWith _ hj (by simp [hj]), hrep, ← hbdef, hlow]
    by_cases h8 : b &&& 0x80 = 0
    · rw [if_pos h8, if_neg (mt htop.mp (not_not.mpr h8)), if_pos h8, Nat.or_zero]
    · rw [if_neg h8, if_pos (htop.mpr h8), if_neg h8, Nat.zero_or]
  have hres := getD_zipWith (· &&& ·) (a := List.zipWith (· ||| ·) (pshufb highclear chars)
      (pshufb highset (List.zipWith (· ^^^ ·) chars (List.replicate chars.length 0x80))))
    (b := pshufb shufMaskHi (List.zipWith (fun a b => (a ^^^ 0xff) &&& b)
      (List.replicate chars.length 0x80) (vshr64Four chars))) (j := j) (by simp [hj]) (by simp [hj])
  rw [hmask, hshuf3] at hres
  rw [blockSingleMask, getD_eqZeroes (by simp [hj]), hres, truffleHit]
  by_cases hz : (if b &&& 0x80 = 0 then highclear else highset).getD (b &&& 0xf) 0 &&& 1 <<< ((b >>> 4) &&& 7) = 0
  · rw [if_pos hz, hz]
    rfl
  · rw [if_neg hz, if_pos (bne_iff_ne.mpr hz)]

/-- Every lane of `blockSingleMask` on a vector of bytes. -/
theorem lanes_blockSingleMask (highclear highset : List Nat) {chars : List Nat} (hb : ∀ j < chars.length, chars.getD j 0 < 256) :
    ∀ j < (blockSingleMask highclear highset chars).length, (blockSingleMask highclear highset chars).getD j 0 =
      if truffleHit highclear highset (chars.getD j 0) then 0 else 0xff := by
  intro j hj
  rw [length_blockSingleMask] at hj
  exact getD_blockSingleMask highclear highset hj (hb j hj)

/-- Bit `j` of the compare mask of `blockSingleMask` is set when byte `j`
fails the lane test. -/
theorem testBit_comparemask_blockSingleMask (highclear highset : List Nat) {chars : List Nat} {j : Nat}
    (hj : j < chars.length) (hb : chars.getD j 0 < 256) :
    (comparemask (blockSingleMask highclear highset chars)).testBit j = !truffleHit highclear highset (chars.getD j 0) := by
  rw [testBit_comparemask, getD_blockSingleMask highclear highset hj hb, length_blockSingleMask]
  cases truffleHit highclear highset (chars.getD j 0) <;> simp [hj]

end Lanes

/-! ## The scanners -/

section Exec

variable (S : Nat) (highclear highset mem : List Nat)

/-- The unaligned head of `truffleExecReal`: a match in the vector at `buf`
before the first aligned address. -/
def truffleFwdHead (buf : Nat) : Option Nat :=
  if buf % S = 0 then none
  else (fwdBlock highclear highset (loadu S mem buf) buf).filter fun rv => decide (rv < (buf + (S - 1)) / S * S)

/-- The aligned loop of `truffleExecReal`: `loops` vectors from `d`, up to
the first that has a match. -/
def truffleFwdLoop : Nat → Nat → Option Nat
  | 0, _ => none
  | loops + 1, d => (fwdBlock highclear highset (loadu S mem d) d).or (truffleFwdLoop loops (d + S))

/-- The tail of `truffleExecReal` from `d`: the buffer copied into zeroes
when it is shorter than a vector, else the last vector of the buffer; a match
before `buf_end`. -/
def truffleFwdTail (buf bufEnd d : Nat) : Option Nat :=
  if d = bufEnd then none
  else if bufEnd - buf < S then
    (fwdBlock highclear highset (loadPadded S mem buf (bufEnd - buf)) buf).filter fun rv => decide (rv < bufEnd)
  else (fwdBlock highclear highset (loadu S mem (bufEnd - S)) (bufEnd - S)).filter fun rv => decide (rv < bufEnd)

/-- `truffleExecReal`: when a whole vector fits, the head up to an aligned
address and the aligned vectors, then the tail. -/
def truffleExecReal (buf bufEnd : Nat) : Nat :=
  if buf + S ≤ bufEnd then
    let d1 := (buf + (S - 1)) / S * S
    let loops := (bufEnd - d1) / S
    ((truffleFwdHead S highclear highset mem buf).or (truffleFwdLoop S highclear highset mem loops d1)).getD
      ((truffleFwdTail S highclear highset mem buf bufEnd (d1 + loops * S)).getD bufEnd)
  else (truffleFwdTail S highclear highset mem buf bufEnd buf).getD bufEnd

/-- The unaligned head of `rtruffleExecReal`: a match in the vector that ends
at `buf_end`, at or above the last aligned address. -/
def rtruffleRevHead (bufEnd : Nat) : Option Nat :=
  if bufEnd % S = 0 then none
  else (revBlock highclear highset (loadu S mem (bufEnd - S)) (bufEnd - S)).filter fun rv => decide (rv ≥ bufEnd / S * S)

/-- The aligned loop of `rtruffleExecReal`: `loops` vectors down from `d`, up
to the first that has a match. -/
def rtruffleRevLoop : Nat → Nat → Option Nat
  | 0, _ => none
  | loops + 1, d => (revBlock highclear highset (loadu S mem (d - S)) (d - S)).or (rtruffleRevLoop loops (d - S))

/-- The head of the buffer, scanned last by `rtruffleExecReal` from `d`: the
buffer copied into zeroes when it is shorter than a vector, else the first
vector of the buffer; a match before `buf_end`. -/
def rtruffleRevTail (buf bufEnd d : Nat) : Option Nat :=
  if d = buf then none
  else
    let chars := if bufEnd - buf < S then loadPadded S mem buf (bufEnd - buf) else loadu S mem buf
    (revBlock highclear highset chars buf).filter fun rv => decide (rv < bufEnd)

/-- `rtruffleExecReal`: when a whole vector fits, the head down to an aligned
address and the aligned vectors, then the start of the buffer; `buf - 1`
when nothing matched. -/
def rtruffleExecReal (buf bufEnd : Nat) : Nat :=
  if buf + S ≤ bufEnd then
    let d1 := bufEnd / S * S
    let loops := (d1 - buf) / S
    ((rtruffleRevHead S highclear highset mem bufEnd).or (rtruffleRevLoop S highclear highset mem loops d1)).getD
      ((rtruffleRevTail S highclear highset mem buf bufEnd (d1 - loops * S)).getD (buf - 1))
  else (rtruffleRevTail S highclear highset mem buf bufEnd bufEnd).getD (buf - 1)

end Exec

/-- The byte at address `i` passes the lane test of the masks. -/
def truffleAt (highclear highset mem : List Nat) (i : Nat) : Bool := truffleHit highclear highset (mem.getD i 0)

/-- What `rtruffleExec` is for: the last byte of `[buf, buf_end)` that the
masks accept, else `buf - 1`. -/
def rtruffleScan (highclear highset mem : List Nat) (buf bufEnd : Nat) : Nat :=
  (lastIn (truffleAt highclear highset mem) buf bufEnd).getD (buf - 1)

/-- `truffle2cr`: the class that the masks stand for.  Bit `pos` of byte `i`
of the first mask is the byte `pos << 4 | i`, of the second `0x80 | pos << 4 | i`. -/
def truffle2cr (highclear highset : List Nat) : CharReach :=
  (List.range 16).foldl (fun cr i =>
    let cr := (List.range 8).foldl (fun cr pos =>
      if (highclear.getD i 0).testBit pos then crSet cr (pos <<< 4 ||| i) else cr) cr
    (List.range 8).foldl (fun cr pos =>
      if (highset.getD i 0).testBit pos then crSet cr (0x80 ||| pos <<< 4 ||| i) else cr) cr) 0

/-! ## One vector -/

section Blocks

variable {highclear highset : List Nat}

/-- **The first match of a vector.**  `fwdBlock` of a vector of bytes loaded
from `p` is the first of its positions whose byte passes the lane test. -/
theorem fwdBlock_eq {chars : List Nat} (hb : ∀ j < chars.length, chars.getD j 0 < 256) (p : Nat) :
    fwdBlock highclear highset chars p =
      firstIn (fun i => truffleHit highclear highset (chars.getD (i - p) 0)) p (p + chars.length) := by
  have h := firstZeroMatchInverted_comparemask (lanes_blockSingleMask highclear highset hb) p
  rwa [length_blockSingleMask] at h

/-- **The last match of a vector.** -/
theorem revBlock_eq {chars : List Nat} (hb : ∀ j < chars.length, chars.getD j 0 < 256) (p : Nat) :
    revBlock highclear highset chars p =
      lastIn (fun i => truffleHit highclear highset (chars.getD (i - p) 0)) p (p + chars.length) := by
  have h := lastZeroMatchInverted_comparemask (lanes_blockSingleMask highclear highset hb) p
  rwa [length_blockSingleMask] at h

/-- The last lane alone decides `revBlock` when its byte passes. -/
theorem revBlock_of_last {chars : List Nat} {k : Nat} (hk : chars.length = k + 1) (hb : chars.getD k 0 < 256)
    (hhit : truffleHit highclear highset (chars.getD k 0) = true) (p : Nat) :
    revBlock highclear highset chars p = some (p + k) := by
  rw [revBlock, lastZeroMatchInverted, hk, List.range_succ, List.reverse_append, List.reverse_singleton,
    List.singleton_append, List.find?_cons_of_pos]
  · rfl
  · rw [testBit_comparemask_blockSingleMask highclear highset (by omega) hb, hhit]
    rfl

variable {mem : List Nat}

theorem fwdBlock_loadu (hmem : ∀ b ∈ mem, b < 256) (S p : Nat) :
    fwdBlock highclear highset (loadu S mem p) p = firstIn (truffleAt highclear highset mem) p (p + S) := by
  rw [fwdBlock_eq (fun j hj => by rw [getD_loadu (by simpa using hj)]; exact getD_lt_of_bytes hmem _), length_loadu]
  apply firstIn_congr
  intro i h1 h2
  rw [getD_loadu (by omega), Nat.add_sub_cancel' h1]
  rfl

theorem revBlock_loadu (hmem : ∀ b ∈ mem, b < 256) (S p : Nat) :
    revBlock highclear highset (loadu S mem p) p = lastIn (truffleAt highclear highset mem) p (p + S) := by
  rw [revBlock_eq (fun j hj => by rw [getD_loadu (by simpa using hj)]; exact getD_lt_of_bytes hmem _), length_loadu]
  apply lastIn_congr
  intro i h1 h2
  rw [getD_loadu (by omega), Nat.add_sub_cancel' h1]
  rfl

/-- The forward tail of a short buffer: the padding past the buffer is cut
off, whatever it matches. -/
theorem fwdBlock_loadPadded (hmem : ∀ b ∈ mem, b < 256) {S l : Nat} (hl : l ≤ S) (p : Nat) :
    (fwdBlock highclear highset (loadPadded S mem p l) p).filter (fun rv => decide (rv < p + l)) =
      firstIn (truffleAt highclear highset mem) p (p + l) := by
  rw [fwdBlock_eq (padded_bytes hmem S p l) p, length_loadPadded,
    firstIn_filter_lt (Nat.le_add_right p l) (Nat.add_le_add_left hl p)]
  apply firstIn_congr
  intro i h1 h2
  rw [getD_loadPadded_sub S h1 (by omega), if_pos h2]
  rfl

/-- The reverse tail of a short buffer when the zero byte fails the test:
the padding holds no match. -/
theorem revBlock_loadPadded (hmem : ∀ b ∈ mem, b < 256) (h0 : truffleHit highclear highset 0 = false)
    {S l : Nat} (hl : l ≤ S) (p : Nat) :
    revBlock highclear highset (loadPadded S mem p l) p = lastIn (truffleAt highclear highset mem) p (p + l) := by
  rw [revBlock_eq (padded_bytes hmem S p l) p, length_loadPadded,
    lastIn_split (p + l) (Nat.le_add_right p l) (Nat.add_le_add_left hl p)]
  have hpad : lastIn (fun i => truffleHit highclear highset ((loadPadded S mem p l).getD (i - p) 0)) (p + l) (p + S) =
      none := by
    refine lastIn_eq_none_iff.2 fun i h1 h2 => ?_
    rw [getD_loadPadded_sub S (by omega) h2, if_neg (by omega)]
    exact h0
  rw [hpad, Option.none_or]
  apply lastIn_congr
  intro i h1 h2
  rw [getD_loadPadded_sub S h1 (by omega), if_pos h2]
  rfl

end Blocks

/-! ## The forward scan -/

section Forward

variable {S : Nat} {highclear highset mem : List Nat}

theorem truffleFwdHead_eq (hS : 0 < S) (hmem : ∀ b ∈ mem, b < 256) (buf : Nat) :
    truffleFwdHead S highclear highset mem buf =
      firstIn (truffleAt highclear highset mem) buf ((buf + (S - 1)) / S * S) := by
  unfold truffleFwdHead
  split_ifs with h
  · rw [roundUp_of_mod_eq_zero hS h, firstIn_of_le le_rfl]
  · rw [fwdBlock_loadu hmem]
    exact firstIn_filter_lt (le_roundUp hS buf) (roundUp_lt hS buf).le

/-- The aligned loop scans its vectors in turn. -/
theorem truffleFwdLoop_eq (hmem : ∀ b ∈ mem, b < 256) :
    ∀ loops d, truffleFwdLoop S highclear highset mem loops d =
      firstIn (truffleAt highclear highset mem) d (d + loops * S) :=
  blockLoop_firstIn _ (fun _ => rfl) fun _ d => by rw [truffleFwdLoop, fwdBlock_loadu hmem]

/-- The tail of a buffer shorter than a vector is the whole buffer. -/
theorem truffleFwdTail_short (hmem : ∀ b ∈ mem, b < 256) {buf bufEnd : Nat} (hbuf : buf ≤ bufEnd)
    (hshort : bufEnd - buf < S) :
    truffleFwdTail S highclear highset mem buf bufEnd buf = firstIn (truffleAt highclear highset mem) buf bufEnd := by
  unfold truffleFwdTail
  rw [if_pos hshort]
  split_ifs with hd
  · rw [hd, firstIn_of_le le_rfl]
  · have h : (fwdBlock highclear highset (loadPadded S mem buf (bufEnd - buf)) buf).filter
          (fun rv => decide (rv < buf + (bufEnd - buf))) =
        firstIn (truffleAt highclear highset mem) buf (buf + (bufEnd - buf)) :=
      fwdBlock_loadPadded hmem hshort.le buf
    rwa [Nat.add_sub_cancel' hbuf] at h

/-- The tail of a longer buffer, from `d` on: the last vector of the buffer,
whose part before `d` was scanned already. -/
theorem truffleFwdTail_long (hmem : ∀ b ∈ mem, b < 256) {buf bufEnd d : Nat} (hlong : buf + S ≤ bufEnd)
    (hd : d ≤ bufEnd) (hdS : bufEnd < d + S) (hnone : firstIn (truffleAt highclear highset mem) (bufEnd - S) d = none) :
    truffleFwdTail S highclear highset mem buf bufEnd d = firstIn (truffleAt highclear highset mem) d bufEnd := by
  unfold truffleFwdTail
  rw [if_neg (by omega : ¬ bufEnd - buf < S)]
  split_ifs with hdE
  · rw [hdE, firstIn_of_le le_rfl]
  · rw [fwdBlock_loadu hmem, Nat.sub_add_cancel (by omega : S ≤ bufEnd), firstIn_filter_lt (Nat.sub_le bufEnd S) le_rfl,
      firstIn_split d (by omega) hd, hnone, Option.none_or]

/-- **The forward scan is the byte loop.**  For every vector size, every
memory of bytes and every buffer at any address, `truffleExecReal` returns the
first position of `[buf, buf_end)` whose byte the masks accept, else `buf_end`. -/
theorem truffleExecReal_eq_truffleExec (hS : 0 < S) (hmem : ∀ b ∈ mem, b < 256) {buf bufEnd : Nat}
    (hbuf : buf ≤ bufEnd) :
    truffleExecReal S highclear highset mem buf bufEnd = truffleExec highclear highset mem buf bufEnd := by
  have hexec : truffleExec highclear highset mem buf bufEnd =
      (firstIn (truffleAt highclear highset mem) buf bufEnd).getD bufEnd := rfl
  rw [hexec, truffleExecReal]
  split_ifs with hlong
  · -- the head and the aligned vectors cover `[buf, d2)`, the tail `[d2, buf_end)`
    dsimp only
    set d1 := (buf + (S - 1)) / S * S with hd1
    set loops := (bufEnd - d1) / S with hloops
    have h1 : buf ≤ d1 := le_roundUp hS buf
    have h2 : d1 < buf + S := roundUp_lt hS buf
    have h3 : loops * S ≤ bufEnd - d1 := Nat.div_mul_le_self _ _
    have h4 : bufEnd - d1 < loops * S + S := Nat.lt_div_mul_add hS
    have hsplit : firstIn (truffleAt highclear highset mem) buf bufEnd =
        (firstIn (truffleAt highclear highset mem) buf (d1 + loops * S)).or
          (firstIn (truffleAt highclear highset mem) (d1 + loops * S) bufEnd) :=
      firstIn_split _ (by omega) (by omega)
    rw [truffleFwdHead_eq hS hmem, truffleFwdLoop_eq hmem, ← firstIn_split d1 h1 (Nat.le_add_right d1 _), hsplit]
    cases hA : firstIn (truffleAt highclear highset mem) buf (d1 + loops * S) with
    | some r => rw [Option.getD_some, Option.some_or, Option.getD_some]
    | none =>
      rw [Option.getD_none, Option.none_or,
        truffleFwdTail_long hmem hlong (by omega) (by omega) (firstIn_none_of_sub (by omega) le_rfl hA)]
  · rw [truffleFwdTail_short hmem hbuf (by omega)]

end Forward

/-! ## The reverse scan -/

section Reverse

variable {S : Nat} {highclear highset mem : List Nat}

theorem rtruffleRevHead_eq (hS : 0 < S) (hmem : ∀ b ∈ mem, b < 256) {bufEnd : Nat} (hlong : S ≤ bufEnd) :
    rtruffleRevHead S highclear highset mem bufEnd =
      lastIn (truffleAt highclear highset mem) (bufEnd / S * S) bufEnd := by
  unfold rtruffleRevHead
  split_ifs with h
  · rw [roundDown_of_mod_eq_zero h, lastIn_of_le le_rfl]
  · have hlt := lt_roundDown_add hS bufEnd
    rw [revBlock_loadu hmem, Nat.sub_add_cancel hlong]
    exact lastIn_filter_ge (by omega) (roundDown_le bufEnd)

/-- The aligned loop scans its vectors in turn, downwards. -/
theorem rtruffleRevLoop_eq (hmem : ∀ b ∈ mem, b < 256) :
    ∀ loops d, loops * S ≤ d → rtruffleRevLoop S highclear highset mem loops d =
      lastIn (truffleAt highclear highset mem) (d - loops * S) d :=
  blockLoop_lastIn _ (fun _ => rfl) fun _ d hd => by
    rw [rtruffleRevLoop, revBlock_loadu hmem, Nat.sub_add_cancel hd]

/-- The start of a longer buffer, below `d`: the first vector of the buffer,
whose part from `d` on was scanned already. -/
theorem rtruffleRevTail_long (hmem : ∀ b ∈ mem, b < 256) {buf bufEnd d : Nat} (hlong : buf + S ≤ bufEnd)
    (hbd : buf ≤ d) (hdS : d < buf + S) (hnone : lastIn (truffleAt highclear highset mem) d bufEnd = none) :
    rtruffleRevTail S highclear highset mem buf bufEnd d = lastIn (truffleAt highclear highset mem) buf d := by
  unfold rtruffleRevTail
  dsimp only
  rw [if_neg (by omega : ¬ bufEnd - buf < S)]
  split_ifs with hd
  · rw [hd, lastIn_of_le le_rfl]
  · have hup : lastIn (truffleAt highclear highset mem) d (buf + S) = none :=
      lastIn_eq_none_iff.2 fun j h1 h2 => lastIn_eq_none_iff.1 hnone j h1 (by omega)
    rw [revBlock_loadu hmem, lastIn_filter_lt hlong, lastIn_split d hbd hdS.le, hup, Option.none_or]

/-- The tail of a buffer shorter than a vector, when the zero byte fails the
test, is the whole buffer. -/
theorem rtruffleRevTail_short (hmem : ∀ b ∈ mem, b < 256) (h0 : truffleHit highclear highset 0 = false)
    {buf bufEnd : Nat} (hbuf : buf ≤ bufEnd) (hshort : bufEnd - buf < S) :
    rtruffleRevTail S highclear highset mem buf bufEnd bufEnd = lastIn (truffleAt highclear highset mem) buf bufEnd := by
  unfold rtruffleRevTail
  dsimp only
  rw [if_pos hshort]
  split_ifs with hd
  · rw [hd, lastIn_of_le le_rfl]
  · rw [revBlock_loadPadded hmem h0 hshort.le, Nat.add_sub_cancel' hbuf, lastIn_filter_lt le_rfl]

/-- **The reverse scan of a whole vector or more.**  When the buffer holds at
least a vector, or the zero byte is not in the class, `rtruffleExecReal`
returns the last position of `[buf, buf_end)` whose byte the masks accept,
else `buf - 1`. -/
theorem rtruffleExecReal_eq_rtruffleScan (hS : 0 < S) (hmem : ∀ b ∈ mem, b < 256) {buf bufEnd : Nat}
    (hbuf : buf ≤ bufEnd) (h : S ≤ bufEnd - buf ∨ truffleHit highclear highset 0 = false) :
    rtruffleExecReal S highclear highset mem buf bufEnd = rtruffleScan highclear highset mem buf bufEnd := by
  rw [rtruffleScan, rtruffleExecReal]
  split_ifs with hlong
  · -- the head and the aligned vectors cover `[d3, buf_end)`, the start `[buf, d3)`
    dsimp only
    set d1 := bufEnd / S * S with hd1
    set loops := (d1 - buf) / S with hloops
    have h1 : d1 ≤ bufEnd := roundDown_le bufEnd
    have h2 : bufEnd < d1 + S := lt_roundDown_add hS bufEnd
    have h3 : loops * S ≤ d1 - buf := Nat.div_mul_le_self _ _
    have h4 : d1 - buf < loops * S + S := Nat.lt_div_mul_add hS
    have hsplit : lastIn (truffleAt highclear highset mem) buf bufEnd =
        (lastIn (truffleAt highclear highset mem) (d1 - loops * S) bufEnd).or
          (lastIn (truffleAt highclear highset mem) buf (d1 - loops * S)) :=
      lastIn_split _ (by omega) (by omega)
    rw [rtruffleRevHead_eq hS hmem (by omega), rtruffleRevLoop_eq hmem loops d1 (by omega),
      ← lastIn_split d1 (Nat.sub_le d1 _) h1, hsplit]
    cases hA : lastIn (truffleAt highclear highset mem) (d1 - loops * S) bufEnd with
    | some r => rw [Option.getD_some, Option.some_or, Option.getD_some]
    | none =>
      rw [Option.getD_none, Option.none_or, rtruffleRevTail_long hmem hlong (by omega) (by omega) hA]
  · rw [rtruffleRevTail_short hmem (h.resolve_left (by omega)) hbuf (by omega)]

/-- On a buffer shorter than a vector, when the zero byte passes the test,
the last lane of the padded vector is a match past the buffer, and the scan
of the buffer's start finds nothing. -/
theorem rtruffleRevTail_short_of_hit_zero (h0 : truffleHit highclear highset 0 = true) {buf bufEnd : Nat}
    (hshort : bufEnd - buf < S) :
    rtruffleRevTail S highclear highset mem buf bufEnd bufEnd = none := by
  obtain ⟨k, rfl⟩ : ∃ k, S = k + 1 := ⟨S - 1, by omega⟩
  unfold rtruffleRevTail
  dsimp only
  rw [if_pos hshort]
  split_ifs with hd
  · rfl
  · have hlast : (loadPadded (k + 1) mem buf (bufEnd - buf)).getD k 0 = 0 := by
      rw [getD_loadPadded (Nat.lt_succ_self k), if_neg (by omega)]
    rw [revBlock_of_last (length_loadPadded _ _ _ _) (by rw [hlast]; decide) (by rw [hlast]; exact h0),
      Option.filter_some, if_neg (by simp only [decide_eq_true_eq]; omega)]

end Reverse

/-! ## Reading the class back -/

section Decode

/-- A loop of conditional `CharReach::set`s: a bit is set after it when it
was set before or some element sets it. -/
theorem testBit_foldl_crSet {α : Type*} (l : List α) (q : α → Bool) (f : α → Nat) (c d : Nat) :
    (l.foldl (fun cr x => if q x then crSet cr (f x) else cr) c).testBit d =
      (c.testBit d || l.any fun x => q x && f x == d) := by
  induction l generalizing c with
  | nil => simp
  | cons x l ih =>
    rw [List.foldl_cons, ih, List.any_cons]
    cases hq : q x with
    | false => simp
    | true =>
      rw [if_pos rfl, testBit_crSet]
      by_cases hfd : f x = d
      · simp [hfd]
      · rw [beq_false_of_ne (Ne.symm hfd), beq_false_of_ne hfd]
        simp

/-- The bits that `truffle2cr` sets: for some index `i` and bit `pos` of a
mask byte, the byte `pos << 4 | i`, or `0x80 | pos << 4 | i`. -/
theorem testBit_truffle2cr (highclear highset : List Nat) (d : Nat) :
    (truffle2cr highclear highset).testBit d =
      (List.range 16).any fun i =>
        ((List.range 8).any fun pos => (highclear.getD i 0).testBit pos && (pos <<< 4 ||| i) == d) ||
          ((List.range 8).any fun pos => (highset.getD i 0).testBit pos && (0x80 ||| pos <<< 4 ||| i) == d) := by
  -- the loop over the sixteen indices, from any class
  suffices h : ∀ (is : List Nat) (c : Nat),
      (is.foldl (fun cr i =>
        (List.range 8).foldl (fun cr pos =>
          if (highset.getD i 0).testBit pos then crSet cr (0x80 ||| pos <<< 4 ||| i) else cr)
        ((List.range 8).foldl (fun cr pos =>
          if (highclear.getD i 0).testBit pos then crSet cr (pos <<< 4 ||| i) else cr) cr)) c).testBit d =
      (c.testBit d || is.any fun i =>
        ((List.range 8).any fun pos => (highclear.getD i 0).testBit pos && (pos <<< 4 ||| i) == d) ||
          ((List.range 8).any fun pos => (highset.getD i 0).testBit pos && (0x80 ||| pos <<< 4 ||| i) == d)) by
    rw [truffle2cr, h, Nat.zero_testBit, Bool.false_or]
  intro is
  induction is with
  | nil => simp
  | cons i is ih =>
    intro c
    rw [List.foldl_cons, ih, testBit_foldl_crSet, testBit_foldl_crSet, List.any_cons]
    simp only [Bool.or_assoc]

/-- The bytes that `truffle2cr` sets: their values, top bits, low nibbles and
bits 4 to 6. -/
theorem truffle2cr_code : ∀ i < 16, ∀ pos < 8,
    (pos <<< 4 ||| i = 16 * pos + i ∧ (pos <<< 4 ||| i) &&& 0x80 = 0 ∧ (pos <<< 4 ||| i) &&& 0xf = i ∧
        ((pos <<< 4 ||| i) >>> 4) &&& 7 = pos) ∧
      (0x80 ||| pos <<< 4 ||| i = 128 + 16 * pos + i ∧ ¬ (0x80 ||| pos <<< 4 ||| i) &&& 0x80 = 0 ∧
        (0x80 ||| pos <<< 4 ||| i) &&& 0xf = i ∧ ((0x80 ||| pos <<< 4 ||| i) >>> 4) &&& 7 = pos) := by
  intro i hi pos hpos
  -- the or's put the parts in disjoint bits, so they are sums
  have hlow : pos <<< 4 ||| i = 16 * pos + i := by
    rw [Nat.lor_comm, Nat.shiftLeft_eq, or_mul_two_pow (by omega : i < 2 ^ 4)]
    omega
  have hhigh : 0x80 ||| pos <<< 4 ||| i = 128 + 16 * pos + i := by
    rw [Nat.lor_assoc, hlow, Nat.lor_comm, show (0x80 : Nat) = 1 * 2 ^ 7 by norm_num,
      or_mul_two_pow (by omega : 16 * pos + i < 2 ^ 7)]
    omega
  have hmid : ∀ x, x &&& 7 = x % 8 := fun x => Nat.and_two_pow_sub_one_eq_mod x 3
  rw [hlow, hhigh, and_top, and_top, and_fifteen, and_fifteen, shiftRight_four, shiftRight_four, hmid, hmid]
  omega

/-- **The masks read back.**  `truffle2cr` of any masks is the set of bytes
that pass their lane test. -/
theorem testBit_truffle2cr_eq (highclear highset : List Nat) (d : Nat) :
    (truffle2cr highclear highset).testBit d = (decide (d < 256) && truffleHit highclear highset d) := by
  rw [testBit_truffle2cr, Bool.eq_iff_iff]
  simp only [List.any_eq_true, List.mem_range, Bool.or_eq_true, Bool.and_eq_true, beq_iff_eq, decide_eq_true_eq]
  constructor
  · rintro ⟨i, hi, ⟨pos, hpos, hbit, rfl⟩ | ⟨pos, hpos, hbit, rfl⟩⟩
    · -- a byte without the top bit, from the first mask
      obtain ⟨⟨hval, htop, hnib, hmid⟩, -⟩ := truffle2cr_code i hi pos hpos
      refine ⟨by omega, ?_⟩
      rw [truffleHit, if_pos htop, hnib, hmid, and_one_shiftLeft_ne_zero]
      exact hbit
    · -- a byte with the top bit, from the second
      obtain ⟨-, ⟨hval, htop, hnib, hmid⟩⟩ := truffle2cr_code i hi pos hpos
      refine ⟨by omega, ?_⟩
      rw [truffleHit, if_neg htop, hnib, hmid, and_one_shiftLeft_ne_zero]
      exact hbit
  · rintro ⟨hd, hhit⟩
    -- the byte's low nibble is the index and its bits 4 to 6 the position
    obtain ⟨hparts, -⟩ := truffle_split d hd
    have hi : d &&& 0xf < 16 := by rw [and_fifteen]; omega
    have hpos : (d >>> 4) &&& 7 < 8 := by
      rw [show (d >>> 4) &&& 7 = (d >>> 4) % 8 from Nat.and_two_pow_sub_one_eq_mod _ 3]
      omega
    obtain ⟨⟨hlow, -⟩, ⟨hhigh, -⟩⟩ := truffle2cr_code _ hi _ hpos
    rw [truffleHit, and_one_shiftLeft_ne_zero] at hhit
    refine ⟨d &&& 0xf, hi, ?_⟩
    by_cases htop : d &&& 0x80 = 0
    · rw [if_pos htop] at hhit hparts
      exact Or.inl ⟨(d >>> 4) &&& 7, hpos, hhit, by omega⟩
    · rw [if_neg htop] at hhit hparts
      exact Or.inr ⟨(d >>> 4) &&& 7, hpos, hhit, by omega⟩

/-- **`truffle2cr` undoes `truffleBuildMasks`.** -/
theorem truffle2cr_truffleBuildMasks (c : CharReach) (hc : c < 2 ^ 256) :
    truffle2cr (truffleBuildMasks c).1 (truffleBuildMasks c).2 = c := by
  apply Nat.eq_of_testBit_eq
  intro d
  rw [testBit_truffle2cr_eq]
  by_cases hd : d < 256
  · rw [truffleHit_eq_test c hd, decide_eq_true hd, Bool.true_and]
  · rw [decide_eq_false hd, Bool.false_and,
      Nat.testBit_lt_two_pow (lt_of_lt_of_le hc (Nat.pow_le_pow_right (by norm_num) (by omega)))]

end Decode

/-! ## The scanners against the class -/

section Class

/-- The masks of a class accept, at each address of a memory of bytes, the
bytes of the class. -/
theorem truffleAt_truffleBuildMasks (cr : CharReach) {mem : List Nat} (hmem : ∀ b ∈ mem, b < 256) (i : Nat) :
    truffleAt (truffleBuildMasks cr).1 (truffleBuildMasks cr).2 mem i = cr.testBit (mem.getD i 0) :=
  truffleHit_eq_test cr (getD_lt_of_bytes hmem i)

/-- **Short buffers and the zero byte.**  When the class contains `0x00` and
the buffer is shorter than a vector, `rtruffleExecReal` returns `buf - 1`
whatever the buffer holds: the last lane of the zero-padded vector passes the
lane test, lies past `buf_end`, and is the only match the scan looks at. -/
theorem rtruffleExecReal_short_nul (cr : CharReach) (h0 : cr.testBit 0 = true) (mem : List Nat)
    {S buf bufEnd : Nat} (hshort : bufEnd - buf < S) :
    rtruffleExecReal S (truffleBuildMasks cr).1 (truffleBuildMasks cr).2 mem buf bufEnd = buf - 1 := by
  have hhit : truffleHit (truffleBuildMasks cr).1 (truffleBuildMasks cr).2 0 = true :=
    (truffleHit_eq_test cr (by norm_num)).trans h0
  rw [rtruffleExecReal, if_neg (by omega), rtruffleRevTail_short_of_hit_zero hhit hshort, Option.getD_none]

/-- The class `{0x00}` and the one-byte buffer `[0x00]` at address 1, with
16-byte vectors: the reverse scan returns `buf - 1 = 0`, while the last byte of
the buffer in the class is at `buf = 1`. -/
theorem rtruffleExecReal_short_nul_one_byte :
    (1 : CharReach).testBit 0 = true ∧ 2 - 1 < 16 ∧
      rtruffleExecReal 16 (truffleBuildMasks 1).1 (truffleBuildMasks 1).2 [0, 0] 1 2 = 0 ∧
      rtruffleScan (truffleBuildMasks 1).1 (truffleBuildMasks 1).2 [0, 0] 1 2 = 1 := by
  have h0 : (1 : CharReach).testBit 0 = true := by decide
  refine ⟨h0, by decide, rtruffleExecReal_short_nul 1 h0 [0, 0] (by decide), ?_⟩
  have hhit : truffleAt (truffleBuildMasks 1).1 (truffleBuildMasks 1).2 [0, 0] 1 = true :=
    (truffleAt_truffleBuildMasks 1 (by decide) 1).trans h0
  rw [rtruffleScan, lastIn_succ (Nat.le_refl 1), if_pos hhit]
  rfl

/-- **Truffle against its class.**  For every class, `truffle2cr` reads its
masks back as the class; at every vector size, on every memory of bytes and
buffer at any address, the forward scan returns the first position whose byte
is in the class (else `buf_end`), and the reverse scan the last one (else
`buf - 1`) when the buffer holds a whole vector or `0x00` is not in the class. -/
theorem truffle_masks_scans_exact (cr : CharReach) (hcr : cr < 2 ^ 256) {S : Nat} (hS : 0 < S) {mem : List Nat}
    (hmem : ∀ b ∈ mem, b < 256) {buf bufEnd : Nat} (hbuf : buf ≤ bufEnd) :
    truffle2cr (truffleBuildMasks cr).1 (truffleBuildMasks cr).2 = cr ∧
      truffleExecReal S (truffleBuildMasks cr).1 (truffleBuildMasks cr).2 mem buf bufEnd =
        (firstIn (fun i => cr.testBit (mem.getD i 0)) buf bufEnd).getD bufEnd ∧
      (S ≤ bufEnd - buf ∨ cr.testBit 0 = false →
        rtruffleExecReal S (truffleBuildMasks cr).1 (truffleBuildMasks cr).2 mem buf bufEnd =
          (lastIn (fun i => cr.testBit (mem.getD i 0)) buf bufEnd).getD (buf - 1)) := by
  refine ⟨truffle2cr_truffleBuildMasks cr hcr, ?_, fun h => ?_⟩
  · rw [truffleExecReal_eq_truffleExec hS hmem hbuf, truffleExec]
    exact congrArg (Option.getD · bufEnd) (firstIn_congr fun i _ _ => truffleAt_truffleBuildMasks cr hmem i)
  · have h' : S ≤ bufEnd - buf ∨ truffleHit (truffleBuildMasks cr).1 (truffleBuildMasks cr).2 0 = false := by
      rw [truffleHit_eq_test cr (by norm_num)]
      exact h
    rw [rtruffleExecReal_eq_rtruffleScan hS hmem hbuf h', rtruffleScan]
    exact congrArg (Option.getD · (buf - 1)) (lastIn_congr fun i _ _ => truffleAt_truffleBuildMasks cr hmem i)

/-- The class `{'a'}` on the one-byte buffer `"a"`. -/
theorem truffle_masks_scans_exact_a :
    (1 <<< 0x61 : CharReach) < 2 ^ 256 ∧ (0 : Nat) < 16 ∧ (∀ b ∈ [0x61], b < 256) ∧ (0 : Nat) ≤ 1 ∧
      (truffle2cr (truffleBuildMasks (1 <<< 0x61)).1 (truffleBuildMasks (1 <<< 0x61)).2 = 1 <<< 0x61 ∧
        truffleExecReal 16 (truffleBuildMasks (1 <<< 0x61)).1 (truffleBuildMasks (1 <<< 0x61)).2 [0x61] 0 1 =
          (firstIn (fun i => (1 <<< 0x61 : CharReach).testBit ([0x61].getD i 0)) 0 1).getD 1 ∧
        (16 ≤ 1 - 0 ∨ (1 <<< 0x61 : CharReach).testBit 0 = false →
          rtruffleExecReal 16 (truffleBuildMasks (1 <<< 0x61)).1 (truffleBuildMasks (1 <<< 0x61)).2 [0x61] 0 1 =
            (lastIn (fun i => (1 <<< 0x61 : CharReach).testBit ([0x61].getD i 0)) 0 1).getD (0 - 1))) :=
  ⟨by decide, by decide, by decide, by decide,
    truffle_masks_scans_exact (1 <<< 0x61) (by decide) (by decide) (by decide) (by decide)⟩

end Class

end Accel
end Nfa
end Vectorscan
