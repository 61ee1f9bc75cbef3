import Mathlib
import Vectorscan.Nfa.SuperVector

/-!
# The double shufti

`shuftiBuildDoubleMasks` of `shufticompile.cpp` and `shuftiDoubleExec` of
`shufti_simd.hpp`, with the lane test of `blockDoubleMask`
(`x86/shufti.hpp`), as `run_accel` calls them for `ACCEL_DSHUFTI`.

**Model.**  A bucket's nibble masks (`array<u16, 4>`) are a list of four
numbers: the low and the high nibbles of the first byte, then of the second.
The merge loop's `std::map` is a list of entries in insertion order, iterated
in the order of its keys.  The vectors and the memory are those of
`Nfa.SuperVector`; the pairs `twochar` are a list in the order of the
`flat_set`.

**Results.**  `shuftiDoubleExec_short_skips`: on a buffer shorter than a
vector, the tail copies the buffer into zeroes, so that its last position is
tested against the byte `0x00` and not against the byte after the buffer, and
a pair that ends there is missed, also through `run_accel` on a build with
vectors of 32 bytes.
-/

namespace Vectorscan
namespace Nfa
namespace Accel
namespace Shufti

open Word BlockScan Repeat

/-! ## Building the masks -/

section Build

/-- `or_array`. -/
def orArray (a b : List Nat) : List Nat := List.zipWith (· ||| ·) a b

/-- `new_masks[key] = a`, or `or_array(new_masks[key], a)` when the key is
there already. -/
def mergeInto (m : List (List Nat × List Nat)) (key a : List Nat) : List (List Nat × List Nat) :=
  if key ∈ m.map (·.1) then m.map fun e => if e.1 = key then (e.1, orArray e.2 a) else e
  else m ++ [(key, a)]

/-- One pass of the merge loop: the buckets that agree outside nibble set `i`
ORed together, in the order of their keys. -/
def mergeBuckets (i : Nat) (masks : List (List Nat)) : List (List Nat) :=
  ((masks.foldl (fun m a => mergeInto m (a.set i 0) a) []).mergeSort fun x y => !decide (y.1 < x.1)).map (·.2)

/-- `set_buckets_from_mask`: bit `bucket` cleared in the byte of every nibble
of the set. -/
def setBucketsFromMask (nibbleMask bucket : Nat) (byteMask : List Nat) : List Nat :=
  (List.range 16).map fun n =>
    if nibbleMask.testBit n then byteMask.getD n 0 &&& (0xff ^^^ 1 <<< bucket) else byteMask.getD n 0

/-- The buckets of the pairs, then of the single bytes (any second byte), as
the merge loop leaves them. -/
def shuftiDoubleBuckets (onechar : CharReach) (twochar : List (Nat × Nat)) : List (List Nat) :=
  let pairs := twochar.map fun p => [1 <<< (p.1 &&& 0xf), 1 <<< (p.1 >>> 4), 1 <<< (p.2 &&& 0xf), 1 <<< (p.2 >>> 4)]
  let singles := (crChars onechar).map fun c => [1 <<< (c &&& 0xf), 1 <<< (c >>> 4), 0xffff, 0xffff]
  (List.range 4).foldl (fun ms i => mergeBuckets i ms) (pairs ++ singles)

/-- `shuftiBuildDoubleMasks`: the masks `lo1`, `hi1`, `lo2`, `hi2`, where bit
`k` of a byte is clear when bucket `k` has that nibble, or `none` (`false`)
for more than eight buckets. -/
def shuftiBuildDoubleMasks (onechar : CharReach) (twochar : List (Nat × Nat)) :
    Option (List Nat × List Nat × List Nat × List Nat) :=
  let nibbleMasks := shuftiDoubleBuckets onechar twochar
  if nibbleMasks.length > 8 then none
  else
    let init := List.replicate 16 0xff
    some (nibbleMasks.zipIdx.foldl (fun (m : List Nat × List Nat × List Nat × List Nat) e =>
      (setBucketsFromMask (e.1.getD 0 0) e.2 m.1, setBucketsFromMask (e.1.getD 1 0) e.2 m.2.1,
        setBucketsFromMask (e.1.getD 2 0) e.2 m.2.2.1, setBucketsFromMask (e.1.getD 3 0) e.2 m.2.2.2))
      (init, init, init, init))

end Build

/-! ## The lane test -/

/-- `blockDoubleMask`: the first masks at each byte's nibbles, ORed with the
second masks at the next byte's nibbles; a lane is `0xff` where no bucket has
both bytes. -/
def blockDoubleMask (mask1Lo mask1Hi mask2Lo mask2Hi chars : List Nat) : List Nat :=
  let low4bits := List.replicate chars.length 0xf
  let charsLo := List.zipWith (· &&& ·) chars low4bits
  let charsHi := vshr64Four (List.zipWith (fun l c => (l ^^^ 0xff) &&& c) low4bits chars)
  let c1 := List.zipWith (· ||| ·) (pshufb mask1Lo charsLo) (pshufb mask1Hi charsHi)
  let c2 := List.zipWith (· ||| ·) (pshufb mask2Lo charsLo) (pshufb mask2Hi charsHi)
  eqOnes (List.zipWith (· ||| ·) c1 (vshr128One c2))

/-- `fwdBlockDouble`: the first lane of the vector `chars`, loaded from `buf`,
that some bucket accepts. -/
def fwdBlockDouble (mask1Lo mask1Hi mask2Lo mask2Hi chars : List Nat) (buf : Nat) : Option Nat :=
  firstZeroMatchInverted chars.length buf (comparemask (blockDoubleMask mask1Lo mask1Hi mask2Lo mask2Hi chars))

/-! ## The scanner -/

section Exec

variable (S : Nat) (mask1Lo mask1Hi mask2Lo mask2Hi mem : List Nat)

/-- The unaligned head of `shuftiDoubleExecReal`: a candidate in the vector at `buf`. -/
def shuftiDoubleFwdHead (buf : Nat) : Option Nat :=
  if buf % S = 0 then none else fwdBlockDouble mask1Lo mask1Hi mask2Lo mask2Hi (loadu S mem buf) buf

/-- The aligned loop of `shuftiDoubleExecReal`: `loops` vectors from `d`, up
to the first that has a candidate. -/
def shuftiDoubleFwdLoop : Nat → Nat → Option Nat
  | 0, _ => none
  | loops + 1, d =>
    (fwdBlockDouble mask1Lo mask1Hi mask2Lo mask2Hi (loadu S mem d) d).or (shuftiDoubleFwdLoop loops (d + S))

/-- The tail of `shuftiDoubleExecReal` from `d`: the buffer copied into
zeroes when it is shorter than a vector, else the last vector of the buffer;
a candidate before `buf_end`. -/
def shuftiDoubleFwdTail (buf bufEnd d : Nat) : Option Nat :=
  if d = bufEnd then none
  else if bufEnd - buf < S then
    (fwdBlockDouble mask1Lo mask1Hi mask2Lo mask2Hi (loadPadded S mem buf (bufEnd - buf)) buf).filter
      fun rv => decide (rv < bufEnd)
  else
    (fwdBlockDouble mask1Lo mask1Hi mask2Lo mask2Hi (loadu S mem (bufEnd - S)) (bufEnd - S)).filter
      fun rv => decide (rv < bufEnd)

/-- `shuftiDoubleExecReal`: when a whole vector fits, the unaligned head and
the aligned vectors, then the tail. -/
def shuftiDoubleExecReal (buf bufEnd : Nat) : Nat :=
  if buf + S ≤ bufEnd then
    let d1 := (buf + (S - 1)) / S * S
    let loops := (bufEnd - d1) / S
    ((shuftiDoubleFwdHead S mask1Lo mask1Hi mask2Lo mask2Hi mem buf).or
        (shuftiDoubleFwdLoop S mask1Lo mask1Hi mask2Lo mask2Hi mem loops d1)).getD
      ((shuftiDoubleFwdTail S mask1Lo mask1Hi mask2Lo mask2Hi mem buf bufEnd (d1 + loops * S)).getD bufEnd)
  else (shuftiDoubleFwdTail S mask1Lo mask1Hi mask2Lo mask2Hi mem buf bufEnd buf).getD bufEnd

/-- `shuftiDoubleExec`: the vector scan at every length, with no byte loop
for short buffers. -/
def shuftiDoubleExec (buf bufEnd : Nat) : Nat :=
  shuftiDoubleExecReal S mask1Lo mask1Hi mask2Lo mask2Hi mem buf bufEnd

/-- The `ACCEL_DSHUFTI` case of `run_accel` (`accel.c`): no scan of fewer than
seventeen bytes; else the double scan of `[c, c_end - 1)`, which leaves the
last byte to be read as the second byte of a pair, moved back by the scheme's
offset but not before `c`. -/
def runAccelDshufti (offset c cEnd : Nat) : Nat :=
  if c + 15 + 1 ≥ cEnd then c
  else max (c + offset) (shuftiDoubleExec S mask1Lo mask1Hi mask2Lo mask2Hi mem c (cEnd - 1)) - offset

end Exec

/-- A candidate of the double shufti at `i`: its byte is in `onechar`, or it
and the byte after it are a pair of `twochar`. -/
def dshuftiCandidate (onechar : CharReach) (twochar : List (Nat × Nat)) (mem : List Nat) (i : Nat) : Bool :=
  onechar.testBit (mem.getD i 0) || decide ((mem.getD i 0, mem.getD (i + 1) 0) ∈ twochar)

/-- **A pair at the end of a short buffer is missed.**  The pair `ab`: on the
one-byte buffer `a` followed by `b`, the scan at vectors of 16 bytes returns
`buf_end` although `buf` starts the pair; through `run_accel` at vectors of 32
bytes, sixteen zero bytes then `ab` (`c_end = 18`) give `17`, past the pair
at `16`, since the tail tests the byte `a` at the end of the copied buffer
against the padding `0x00`. -/
theorem shuftiDoubleExec_short_skips :
    dshuftiCandidate 0 [(0x61, 0x62)] [0x61, 0x62] 0 = true ∧
      (shuftiBuildDoubleMasks 0 [(0x61, 0x62)]).map
          (fun m => shuftiDoubleExec 16 m.1 m.2.1 m.2.2.1 m.2.2.2 [0x61, 0x62] 0 1) = some 1 ∧
      dshuftiCandidate 0 [(0x61, 0x62)] (List.replicate 16 0 ++ [0x61, 0x62]) 16 = true ∧
      (shuftiBuildDoubleMasks 0 [(0x61, 0x62)]).map
          (fun m => runAccelDshufti 32 m.1 m.2.1 m.2.2.1 m.2.2.2 (List.replicate 16 0 ++ [0x61, 0x62]) 0 0 18) =
        some 17 := by
  refine ⟨?_, ?_, ?_, ?_⟩ <;> decide +kernel

end Shufti
end Accel
end Nfa
end Vectorscan
