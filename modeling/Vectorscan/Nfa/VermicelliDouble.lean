import Mathlib
import Vectorscan.Nfa.Vermicelli

/-!
# The double vermicelli scanners

`vermicelliDoubleExec`, `rvermicelliDoubleExec` and `vermicelliDoubleMaskedExec`
of `vermicelli_simd.cpp`, with the blocks of `x86/vermicelli.hpp`: a scan for
the pair `c1 c2`, each byte compared under a mask (the case mask, or `m1` and
`m2`).

**Model.**  A forward block ANDs the compare with `c1` and the compare with
`c2` shifted down by a byte (`mask1 & (mask2 >> 1)`, shifts of the whole
vector), so that lane `j` holds when the pair starts at `j`; a reverse block
shifts the first compare up (`(mask1 << 1) & mask2`), so that lane `j` holds
when the pair ends at `j`.  The pair across the edge of the vector is the
`partial_match` that the block reads from memory at `buf[0]` and `buf[-1]`:
the forward scans give a block the address after its vector, so that this
edge is its top, and move the result back by `S`.  The loops run while a
vector and one byte more fit (`d + S < buf_end`, `d - S > buf`); what is left
is a vector loaded from `d` (backwards from `buf`), copied into zeroes when it
is shorter, with the number of bytes left as the length and no check across
its edge.  The two forward scans are one definition, `dfwdExecReal`, with the
block and the test of the last byte as parameters; the reverse scan is
`drevExecReal`.

**Results.**  `dfwdExecReal_eq`: a forward double scan returns the first start
of the pair before `buf_end - 1`, else `buf_end - 1` when the last byte may
start one, else `buf_end`, at every vector size and length; so
`vermicelliDoubleExec` is `Accel.vermicelliDoubleExec` and the masked scan is
its specification.  `drevExecReal_eq`, `rvermicelliDoubleExec_eq`: the reverse
scan returns the last end of the pair, else `buf - 1`, with vectors of 64
bytes or when `c2` is not the zero byte; `rvermicelliDoubleExec_padding`:
otherwise the zeroes after a short start of the buffer may be taken for `c2`,
and the scan returns a position where the pair does not end.
`vermicelli_double_scans_exact` gathers the three scans.
-/

namespace Vectorscan
namespace Nfa
namespace Accel
namespace Vermicelli

open Word BlockScan VectorScan Hwlm

/-! ## The blocks -/

/-- `vermicelliDoubleBlock<S, check_partial>`: the first lane of `data` whose
byte under the case mask is `c1` and whose next byte is `c2`; with
`check_partial`, also the top lane when the bytes at `buf - 1` and `buf` are
`c1` and `c2`. -/
def vermicelliDoubleBlock (S : Nat) (checkPartial : Bool) (mem data chars1 chars2 casemask : List Nat)
    (c1 c2 casechar buf len : Nat) : Option Nat :=
  let v := List.zipWith (· &&& ·) casemask data
  let mask1 := vecEq chars1 v
  let mask2 := vecEq chars2 v
  let mask := List.zipWith (· &&& ·) mask1 (vshr mask2 1)
  let partialMatch := checkPartial && (mem.getD buf 0 &&& casechar == c2) && (mem.getD (buf - 1) 0 &&& casechar == c1)
  let mask := if partialMatch then List.zipWith (· ||| ·) mask (vshl (vshr (ones S) (S - 1)) (S - 1)) else mask
  firstNonZeroMatch S buf (comparemask mask) len

/-- `rvermicelliDoubleBlock<S, check_partial>`: the last lane whose byte is
`c2` and whose byte before is `c1`; with `check_partial`, also the bottom lane
when the bytes at `buf - 1` and `buf` are `c1` and `c2`. -/
def rvermicelliDoubleBlock (S : Nat) (checkPartial : Bool) (mem data chars1 chars2 casemask : List Nat)
    (c1 c2 casechar buf len : Nat) : Option Nat :=
  let v := List.zipWith (· &&& ·) casemask data
  let mask1 := vecEq chars1 v
  let mask2 := vecEq chars2 v
  let mask := List.zipWith (· &&& ·) (vshl mask1 1) mask2
  let partialMatch := checkPartial && (mem.getD buf 0 &&& casechar == c2) && (mem.getD (buf - 1) 0 &&& casechar == c1)
  let mask := if partialMatch then List.zipWith (· ||| ·) mask (vshr (ones S) (S - 1)) else mask
  lastNonZeroMatch S buf (comparemask mask) len

/-- `vermicelliDoubleMaskedBlock<S, check_partial>`: as `vermicelliDoubleBlock`,
with the mask `m1` on the first byte of the pair and `m2` on the second. -/
def vermicelliDoubleMaskedBlock (S : Nat) (checkPartial : Bool) (mem data chars1 chars2 mask1 mask2 : List Nat)
    (c1 c2 m1 m2 buf len : Nat) : Option Nat :=
  let v1 := vecEq chars1 (List.zipWith (· &&& ·) data mask1)
  let v2 := vecEq chars2 (List.zipWith (· &&& ·) data mask2)
  let mask := List.zipWith (· &&& ·) v1 (vshr v2 1)
  let partialMatch := checkPartial && (mem.getD buf 0 &&& m2 == c2) && (mem.getD (buf - 1) 0 &&& m1 == c1)
  let mask := if partialMatch then List.zipWith (· ||| ·) mask (vshl (vshr (ones S) (S - 1)) (S - 1)) else mask
  firstNonZeroMatch S buf (comparemask mask) len

/-! ## The vector scans -/

section Real

variable (S : Nat) (block : Bool → List Nat → Nat → Nat → Option Nat) (mem : List Nat)

/-- The aligned loop of a forward double scan: `loops` vectors from `d`, each
given the address after it, so that it checks the pair across its top edge;
the position moved back by a vector. -/
def dfwdLoop : Nat → Nat → Option Nat
  | 0, _ => none
  | loops + 1, d => ((block true (loadu S mem d) (d + S) S).map (· - S)).or (dfwdLoop loops (d + S))

/-- The tail of a forward double scan from `d`: the bytes left, copied into
zeroes when there are fewer than a vector, with their number as the length and
no check across the edge; a position before `buf_end`. -/
def dfwdTail (bufEnd d : Nat) : Option Nat :=
  if d = bufEnd then none
  else (block false (if bufEnd - d < S then loadPadded S mem d (bufEnd - d) else loadu S mem d) d (bufEnd - d)).filter
    fun rv => decide (rv < bufEnd)

/-- `vermicelliDoubleExecReal` and `vermicelliDoubleMaskedExecReal`, with their
block and the test `first` of their last check: the unaligned head and the
aligned vectors while a vector and one byte more fit, then the tail, then
`buf_end - 1` when the last byte passes `first` (a pair that may go on past
the buffer), else `buf_end`. -/
def dfwdExecReal (first : Nat → Bool) (buf bufEnd : Nat) : Nat :=
  (if buf + S < bufEnd then
    let d1 := (buf + (S - 1)) / S * S
    let loops := (bufEnd - 1 - d1) / S
    ((if buf % S = 0 then none else (block true (loadu S mem buf) (buf + S) S).map (· - S)).or
        (dfwdLoop S block mem loops d1)).or (dfwdTail S block mem bufEnd (d1 + loops * S))
  else dfwdTail S block mem bufEnd buf).getD (if first (mem.getD (bufEnd - 1) 0) then bufEnd - 1 else bufEnd)

/-- The aligned loop of a reverse double scan: `loops` vectors down from `d`,
each checking the pair across its bottom edge. -/
def drevLoop : Nat → Nat → Option Nat
  | 0, _ => none
  | loops + 1, d => (block true (loadu S mem (d - S)) (d - S) S).or (drevLoop loops (d - S))

/-- The start of the buffer, scanned last from `d`: the bytes left from `buf`,
copied into zeroes when there are fewer than a vector, with no check across
the edge; a position before `buf_end`. -/
def drevTail (buf bufEnd d : Nat) : Option Nat :=
  if d = buf then none
  else (block false (if d - buf < S then loadPadded S mem buf (d - buf) else loadu S mem buf) buf (d - buf)).filter
    fun rv => decide (rv < bufEnd)

/-- `rvermicelliDoubleExecReal` with its block: the unaligned vector that ends
at `buf_end` and the aligned vectors down while a vector and one byte more
fit, then the start of the buffer; `buf - 1` when no block reports a position. -/
def drevExecReal (buf bufEnd : Nat) : Nat :=
  (if buf + S < bufEnd then
    let d1 := bufEnd / S * S
    let loops := (d1 - buf - 1) / S
    (((if bufEnd % S = 0 then none else block true (loadu S mem (bufEnd - S)) (bufEnd - S) S).filter
        fun rv => decide (rv < bufEnd)).or (drevLoop S block mem loops d1)).or
      (drevTail S block mem buf bufEnd (d1 - loops * S))
  else drevTail S block mem buf bufEnd bufEnd).getD (buf - 1)

end Real

section Scanners

variable (S c1 c2 : Nat) (casemask mem : List Nat) (buf bufEnd : Nat)

def vermicelliDoubleExecReal : Nat :=
  dfwdExecReal S (fun cp data b len => vermicelliDoubleBlock S cp mem data (List.replicate S c1)
    (List.replicate S c2) casemask c1 c2 (casemask.getD 0 0) b len) mem (fun x => x &&& casemask.getD 0 0 == c1) buf bufEnd

def rvermicelliDoubleExecReal : Nat :=
  drevExecReal S (fun cp data b len => rvermicelliDoubleBlock S cp mem data (List.replicate S c1)
    (List.replicate S c2) casemask c1 c2 (casemask.getD 0 0) b len) mem buf bufEnd

end Scanners

def vermicelliDoubleMaskedExecReal (S c1 c2 m1 m2 : Nat) (mem : List Nat) (buf bufEnd : Nat) : Nat :=
  dfwdExecReal S (fun cp data b len => vermicelliDoubleMaskedBlock S cp mem data (List.replicate S c1)
    (List.replicate S c2) (List.replicate S m1) (List.replicate S m2) c1 c2 m1 m2 b len) mem (fun x => x &&& m1 == c1)
    buf bufEnd

/-! ## The entry points -/

section Exec

variable (S c1 c2 : Nat) (nocase : Bool) (mem : List Nat) (buf bufEnd : Nat)

/-- `vermicelliDoubleExec`: the vector scan at every length, with the case
mask of `nocase`. -/
def vermicelliDoubleExec : Nat := vermicelliDoubleExecReal S c1 c2 (caseMask S nocase) mem buf bufEnd

/-- `rvermicelliDoubleExec`: the last end of the pair, else `buf - 1`. -/
def rvermicelliDoubleExec : Nat := rvermicelliDoubleExecReal S c1 c2 (caseMask S nocase) mem buf bufEnd

end Exec

/-- `vermicelliDoubleMaskedExec`: the vector scan for `c1` under `m1` followed
by `c2` under `m2`. -/
def vermicelliDoubleMaskedExec (S c1 c2 m1 m2 : Nat) (mem : List Nat) (buf bufEnd : Nat) : Nat :=
  vermicelliDoubleMaskedExecReal S c1 c2 m1 m2 mem buf bufEnd

/-! ## One lane -/

section Lanes

variable {S : Nat}

theorem zipWith_and_comm (a b : List Nat) : List.zipWith (· &&& ·) a b = List.zipWith (· &&& ·) b a := by
  rw [List.zipWith_comm]
  congr 1
  funext x y
  exact Nat.and_comm y x

/-- Lane `j` of `chars.eq(data & mask)`, with `c` and `m` in every lane of
`chars` and `mask`: all ones when the byte under `m` is `c`. -/
theorem getD_vecEq_and (c m : Nat) {data : List Nat} (hD : data.length = S) {j : Nat} (hj : j < S) :
    (vecEq (List.replicate S c) (List.zipWith (· &&& ·) data (List.replicate S m))).getD j 0 =
      if (data.getD j 0 &&& m == c) then 0xff else 0 := by
  have hc : ∀ x, (List.replicate S x).getD j 0 = x := fun x => by simp [List.getD_eq_getElem?_getD, hj]
  rw [getD_vecEq (by simpa using hj) (by simp [hD, hj]), getD_zipWith _ (by omega) (by simpa using hj), hc, hc]
  by_cases h : data.getD j 0 &&& m = c
  · rw [if_pos h.symm, if_pos (beq_iff_eq.mpr h)]
  · rw [if_neg (Ne.symm h), if_neg (by simpa using h)]

theorem ite_or_ff (x : Bool) : ((if x then 0xff else 0) ||| 0xff : Nat) = 0xff := by
  cases x <;> rfl

variable {m1 m2 : List Nat} {a b : Nat → Bool}

/-- **One lane of a forward pair mask.**  Lane `j` of `mask1 & (mask2 >> 1)`
holds when lane `j` of the first compare and lane `j + 1` of the second do;
with the partial match, the top lane holds too. -/
theorem getD_fwdMask (hl1 : m1.length = S) (hl2 : m2.length = S) (h1 : ∀ j < S, m1.getD j 0 = if a j then 0xff else 0)
    (h2 : ∀ j < S, m2.getD j 0 = if b j then 0xff else 0) (pm : Bool) {j : Nat} (hj : j < S) :
    (if pm then List.zipWith (· ||| ·) (List.zipWith (· &&& ·) m1 (vshr m2 1)) (vshl (vshr (ones S) (S - 1)) (S - 1))
      else List.zipWith (· &&& ·) m1 (vshr m2 1)).getD j 0 =
      if (a j && (decide (j + 1 < S) && b (j + 1)) || pm && decide (j = S - 1)) then 0xff else 0 := by
  have h0 : (List.zipWith (· &&& ·) m1 (vshr m2 1)).getD j 0 =
      if (a j && (decide (j + 1 < S) && b (j + 1))) then 0xff else 0 := by
    rw [getD_zipWith _ (by omega) (by simp; omega), getD_vshr _ (by omega), h1 j hj]
    by_cases hn : j + 1 < S
    · rw [h2 _ hn, ite_and_ite, decide_eq_true hn, Bool.true_and]
    · rw [List.getD_eq_default _ _ (by omega), Nat.and_zero, decide_eq_false hn, Bool.false_and, Bool.and_false]
      rfl
  cases pm
  · rw [if_neg Bool.false_ne_true, h0, Bool.false_and, Bool.or_false]
  · rw [if_pos rfl, getD_zipWith _ (by simp; omega) (by simp; omega), h0, getD_ones_top hj, Bool.true_and]
    by_cases ht : j = S - 1
    · rw [if_pos ht, decide_eq_true ht, Bool.or_true, if_pos rfl, ite_or_ff]
    · rw [if_neg ht, decide_eq_false ht, Bool.or_false, Nat.or_zero]

/-- **One lane of a reverse pair mask.**  Lane `j` of `(mask1 << 1) & mask2`
holds when lane `j - 1` of the first compare and lane `j` of the second do;
with the partial match, the bottom lane holds too. -/
theorem getD_revMask (hl1 : m1.length = S) (hl2 : m2.length = S) (h1 : ∀ j < S, m1.getD j 0 = if a j then 0xff else 0)
    (h2 : ∀ j < S, m2.getD j 0 = if b j then 0xff else 0) (pm : Bool) {j : Nat} (hj : j < S) :
    (if pm then List.zipWith (· ||| ·) (List.zipWith (· &&& ·) (vshl m1 1) m2) (vshr (ones S) (S - 1))
      else List.zipWith (· &&& ·) (vshl m1 1) m2).getD j 0 =
      if (decide (1 ≤ j) && a (j - 1) && b j || pm && decide (j = 0)) then 0xff else 0 := by
  have h0 : (List.zipWith (· &&& ·) (vshl m1 1) m2).getD j 0 = if (decide (1 ≤ j) && a (j - 1) && b j) then 0xff else 0 := by
    rw [getD_zipWith _ (by simp; omega) (by omega), getD_vshl _ (by omega), h2 j hj]
    by_cases hn : 1 ≤ j
    · rw [if_pos hn, h1 _ (by omega), ite_and_ite, decide_eq_true hn, Bool.true_and]
    · rw [if_neg hn, Nat.zero_and, decide_eq_false hn, Bool.false_and, Bool.false_and]
      rfl
  cases pm
  · rw [if_neg Bool.false_ne_true, h0, Bool.false_and, Bool.or_false]
  · rw [if_pos rfl, getD_zipWith _ (by simp; omega) (by simp; omega), h0, getD_ones_vshr hj, Bool.true_and]
    by_cases h0j : j = 0
    · rw [if_pos h0j, decide_eq_true h0j, Bool.or_true, if_pos rfl, ite_or_ff]
    · rw [if_neg h0j, decide_eq_false h0j, Bool.or_false, Nat.or_zero]

/-- A helper with a length looks only at the lanes below `S`. -/
theorem firstLane_congr {len buf : Nat} {t t' : Nat → Bool} (h : ∀ j < S, t j = t' j) :
    firstLane S len buf t = firstLane S len buf t' := by
  unfold firstLane
  congr 1
  exact List.find?_congr fun j hj => by rw [h j (List.mem_range.mp hj)]

theorem lastLane_congr {len buf : Nat} {t t' : Nat → Bool} (h : ∀ j < S, t j = t' j) :
    lastLane S len buf t = lastLane S len buf t' := by
  unfold lastLane
  congr 1
  exact List.find?_congr fun j hj => by rw [h j (List.mem_range.mp (List.mem_reverse.mp hj))]

/-- A block given the address after its vector reports lanes from there. -/
theorem firstLane_add (len d k : Nat) (t : Nat → Bool) : firstLane S len (d + k) t = (firstLane S len d t).map (· + k) := by
  unfold firstLane
  rw [Option.map_map]
  congr 1
  funext j
  show d + k + j = d + j + k
  omega

end Lanes

/-! ## One vector -/

section Blocks

variable {S : Nat} (cp : Bool) (mem : List Nat) {data : List Nat}

/-- The case mask is one mask on both bytes of the pair: a double block is a
masked block with the case byte as both masks. -/
theorem vermicelliDoubleBlock_eq_masked (c1 c2 cc buf len : Nat) :
    vermicelliDoubleBlock S cp mem data (List.replicate S c1) (List.replicate S c2) (List.replicate S cc) c1 c2 cc buf len =
      vermicelliDoubleMaskedBlock S cp mem data (List.replicate S c1) (List.replicate S c2) (List.replicate S cc)
        (List.replicate S cc) c1 c2 cc cc buf len := by
  simp only [vermicelliDoubleBlock, vermicelliDoubleMaskedBlock, zipWith_and_comm (List.replicate S cc) data]

/-- **A forward block.**  On a vector of `S` bytes, the masked block reports
the first lane the helper looks at where the pair starts: the lane's byte and
the next under their masks, or the top lane when `check_partial` is set and
the bytes at `buf - 1` and `buf` make the pair. -/
theorem vermicelliDoubleMaskedBlock_eq (hD : data.length = S) (c1 c2 m1 m2 buf len : Nat) :
    vermicelliDoubleMaskedBlock S cp mem data (List.replicate S c1) (List.replicate S c2) (List.replicate S m1)
        (List.replicate S m2) c1 c2 m1 m2 buf len =
      firstLane S len buf fun j =>
        (data.getD j 0 &&& m1 == c1) && (decide (j + 1 < S) && (data.getD (j + 1) 0 &&& m2 == c2)) ||
          (cp && (mem.getD buf 0 &&& m2 == c2) && (mem.getD (buf - 1) 0 &&& m1 == c1)) && decide (j = S - 1) := by
  rw [vermicelliDoubleMaskedBlock, firstNonZeroMatch]
  apply firstLane_congr
  intro j hj
  have hl : ∀ c m, (vecEq (List.replicate S c) (List.zipWith (· &&& ·) data (List.replicate S m))).length = S :=
    fun c m => by simp [hD]
  apply testBit_comparemask_of_hits (fun k hk => getD_fwdMask (hl c1 m1) (hl c2 m2)
    (fun k hk => getD_vecEq_and c1 m1 hD hk) (fun k hk => getD_vecEq_and c2 m2 hD hk) _ (by split at hk <;> simpa [hD] using hk))
  split <;> simpa [hD] using hj

/-- **A reverse block.**  On a vector of `S` bytes, the block reports the last
lane the helper looks at where the pair ends: the lane's byte and the one
before under the case mask, or the bottom lane when `check_partial` is set and
the bytes at `buf - 1` and `buf` make the pair. -/
theorem rvermicelliDoubleBlock_eq (hD : data.length = S) (c1 c2 cc buf len : Nat) :
    rvermicelliDoubleBlock S cp mem data (List.replicate S c1) (List.replicate S c2) (List.replicate S cc) c1 c2 cc buf len =
      lastLane S len buf fun j =>
        decide (1 ≤ j) && (data.getD (j - 1) 0 &&& cc == c1) && (data.getD j 0 &&& cc == c2) ||
          (cp && (mem.getD buf 0 &&& cc == c2) && (mem.getD (buf - 1) 0 &&& cc == c1)) && decide (j = 0) := by
  rw [rvermicelliDoubleBlock, lastNonZeroMatch, zipWith_and_comm (List.replicate S cc) data]
  apply lastLane_congr
  intro j hj
  have hl : ∀ c m, (vecEq (List.replicate S c) (List.zipWith (· &&& ·) data (List.replicate S m))).length = S :=
    fun c m => by simp [hD]
  apply testBit_comparemask_of_hits (fun k hk => getD_revMask (hl c1 cc) (hl c2 cc)
    (fun k hk => getD_vecEq_and c1 cc hD hk) (fun k hk => getD_vecEq_and c2 cc hD hk) _ (by split at hk <;> simpa [hD] using hk))
  split <;> simpa [hD] using hj

end Blocks

/-- The pair compare of a masked double vermicelli at `i`: the byte under `m1`
is `c1` and the next under `m2` is `c2`. -/
def dvermMaskedHit (c1 c2 m1 m2 : Nat) (mem : List Nat) (i : Nat) : Bool :=
  (mem.getD i 0 &&& m1 == c1) && (mem.getD (i + 1) 0 &&& m2 == c2)

section Vectors

variable {S : Nat} {mem : List Nat}

/-- A whole vector of a forward scan, given the address after it: the first
start of the pair in the vector, moved up by a vector. -/
theorem maskedBlock_full (hS : 0 < S) (c1 c2 m1 m2 d : Nat) :
    vermicelliDoubleMaskedBlock S true mem (loadu S mem d) (List.replicate S c1) (List.replicate S c2)
        (List.replicate S m1) (List.replicate S m2) c1 c2 m1 m2 (d + S) S =
      (firstIn (dvermMaskedHit c1 c2 m1 m2 mem) d (d + S)).map (· + S) := by
  rw [vermicelliDoubleMaskedBlock_eq true mem (length_loadu S mem d), firstLane_add, firstLane_eq_firstIn le_rfl,
    laneCount_self]
  congr 1
  apply firstIn_congr
  intro i h1 h2
  rw [getD_loadu (by omega), Nat.add_sub_cancel' h1, dvermMaskedHit]
  by_cases hn : i - d + 1 < S
  · rw [getD_loadu hn, show d + (i - d + 1) = i + 1 by omega, decide_eq_true hn,
      decide_eq_false (show ¬ i - d = S - 1 by omega)]
    simp only [Bool.true_and, Bool.and_false, Bool.or_false]
  · -- the top lane: the pair across the edge, which the block reads from memory
    rw [decide_eq_false hn, decide_eq_true (show i - d = S - 1 by omega), show d + S = i + 1 by omega,
      show i + 1 - 1 = i by omega]
    simp only [Bool.false_and, Bool.false_or, Bool.true_and, Bool.and_comm]

/-- The bytes of the last vector of a scan: the buffer's, then zeroes. -/
theorem getD_tailLoad {L j : Nat} (hL : L ≤ S) (hj : j < S) (d : Nat) :
    (if L < S then loadPadded S mem d L else loadu S mem d).getD j 0 = if j < L then mem.getD (d + j) 0 else 0 := by
  split_ifs with hLS hjL hjL
  · rw [getD_loadPadded hj, if_pos hjL]
  · rw [getD_loadPadded hj, if_neg hjL]
  · exact getD_loadu hj mem d
  · omega

theorem length_tailLoad (L d : Nat) : (if L < S then loadPadded S mem d L else loadu S mem d).length = S := by
  split <;> simp

/-- **The last vector of a forward scan.**  Loaded from `d`, with the `L`
bytes left and zeroes after them: before `d + L`, the first start of the pair,
where the byte after the buffer is the zero of the padding, or nothing when
the vector is full. -/
theorem maskedBlock_tail (c1 c2 m1 m2 d : Nat) {L : Nat} (hL : L ≤ S) :
    (vermicelliDoubleMaskedBlock S false mem (if L < S then loadPadded S mem d L else loadu S mem d)
        (List.replicate S c1) (List.replicate S c2) (List.replicate S m1) (List.replicate S m2) c1 c2 m1 m2 d L).filter
        (fun rv => decide (rv < d + L)) =
      firstIn (fun i => (mem.getD i 0 &&& m1 == c1) &&
        if i + 1 < d + L then mem.getD (i + 1) 0 &&& m2 == c2 else decide (L < S) && (0 &&& m2 == c2)) d (d + L) := by
  rw [vermicelliDoubleMaskedBlock_eq false mem (length_tailLoad L d), firstLane_eq_firstIn hL,
    firstIn_filter_lt (Nat.le_add_right d L) (Nat.add_le_add_left (le_laneCount hL) d)]
  apply firstIn_congr
  intro i h1 h2
  rw [getD_tailLoad hL (by omega), if_pos (by omega), Nat.add_sub_cancel' h1]
  simp only [Bool.false_and, Bool.or_false]
  by_cases hn : i + 1 < d + L
  · rw [if_pos hn, decide_eq_true (show i - d + 1 < S by omega), getD_tailLoad hL (by omega), if_pos (by omega),
      show d + (i - d + 1) = i + 1 by omega, Bool.true_and]
  · rw [if_neg hn]
    by_cases hLS : L < S
    · -- the byte after the buffer is the first zero of the padding
      rw [decide_eq_true (show i - d + 1 < S by omega), getD_tailLoad hL (by omega), if_neg (by omega),
        decide_eq_true hLS]
    · rw [decide_eq_false (show ¬ i - d + 1 < S by omega), decide_eq_false hLS, Bool.false_and, Bool.false_and]

/-- A whole vector of a reverse scan: the last end of the pair in it, the pair
across its bottom edge read from memory. -/
theorem rblock_full (c1 c2 cc p : Nat) :
    rvermicelliDoubleBlock S true mem (loadu S mem p) (List.replicate S c1) (List.replicate S c2)
        (List.replicate S cc) c1 c2 cc p S =
      lastIn (fun i => (mem.getD (i - 1) 0 &&& cc == c1) && (mem.getD i 0 &&& cc == c2)) p (p + S) := by
  rw [rvermicelliDoubleBlock_eq true mem (length_loadu S mem p), lastLane_eq_lastIn le_rfl, laneCount_self]
  apply lastIn_congr
  intro i h1 h2
  by_cases hn : 1 ≤ i - p
  · rw [getD_loadu (by omega), getD_loadu (by omega), show p + (i - p - 1) = i - 1 by omega, Nat.add_sub_cancel' h1,
      decide_eq_true hn, decide_eq_false (show ¬ i - p = 0 by omega)]
    simp only [Bool.true_and, Bool.and_false, Bool.or_false]
  · -- the bottom lane: the pair across the edge
    rw [decide_eq_false hn, decide_eq_true (show i - p = 0 by omega), show i = p by omega]
    simp only [Bool.false_and, Bool.false_or, Bool.true_and, Bool.and_comm]

/-- **The start of the buffer in a reverse scan.**  Loaded from `buf`, with
the `L` bytes left and zeroes after them: the last end of the pair in
`[buf + 1, buf + L)`, when the helper looks only at those lanes (`S = 64`) or
the zero byte is not `c2`. -/
theorem rblock_tail (c1 c2 cc buf : Nat) {L : Nat} (hL0 : 0 < L) (hL : L ≤ S) (hpad : S = 64 ∨ (0 &&& cc == c2) = false) :
    rvermicelliDoubleBlock S false mem (if L < S then loadPadded S mem buf L else loadu S mem buf)
        (List.replicate S c1) (List.replicate S c2) (List.replicate S cc) c1 c2 cc buf L =
      lastIn (fun i => (mem.getD (i - 1) 0 &&& cc == c1) && (mem.getD i 0 &&& cc == c2)) (buf + 1) (buf + L) := by
  rw [rvermicelliDoubleBlock_eq false mem (length_tailLoad L buf), lastLane_eq_lastIn hL]
  simp only [Bool.false_and, Bool.or_false]
  -- lanes past the bytes left see zero for `c2`
  have hhigh : lastIn (fun i => decide (1 ≤ i - buf) &&
        ((if L < S then loadPadded S mem buf L else loadu S mem buf).getD (i - buf - 1) 0 &&& cc == c1) &&
        ((if L < S then loadPadded S mem buf L else loadu S mem buf).getD (i - buf) 0 &&& cc == c2))
      (buf + L) (buf + laneCount S L) = none := by
    rcases hpad with h64 | hz
    · rw [laneCount, if_pos h64]
      exact lastIn_of_le le_rfl
    · refine lastIn_eq_none_iff.2 fun i h1 h2 => ?_
      have hi : i - buf < S := Nat.lt_of_lt_of_le (by omega) (laneCount_le hL)
      rw [getD_tailLoad hL hi, if_neg (show ¬ i - buf < L by omega), hz, Bool.and_false]
  -- and the bottom lane has no lane below it
  have hlow : lastIn (fun i => decide (1 ≤ i - buf) &&
        ((if L < S then loadPadded S mem buf L else loadu S mem buf).getD (i - buf - 1) 0 &&& cc == c1) &&
        ((if L < S then loadPadded S mem buf L else loadu S mem buf).getD (i - buf) 0 &&& cc == c2))
      buf (buf + 1) = none :=
    lastIn_eq_none_iff.2 fun i h1 h2 => by rw [decide_eq_false (by omega), Bool.false_and, Bool.false_and]
  rw [lastIn_split (buf + L) (Nat.le_add_right _ _) (Nat.add_le_add_left (le_laneCount hL) buf), hhigh,
    Option.none_or, lastIn_split (buf + 1) (Nat.le_add_right _ _) (by omega), hlow, Option.or_none]
  apply lastIn_congr
  intro i h1 h2
  rw [getD_tailLoad hL (by omega), if_pos (by omega), getD_tailLoad hL (by omega), if_pos (by omega),
    show buf + (i - buf - 1) = i - 1 by omega, Nat.add_sub_cancel' (by omega : buf ≤ i), decide_eq_true (by omega),
    Bool.true_and]

end Vectors

/-! ## The scans, for any block -/

section Family

variable {S : Nat} {block : Bool → List Nat → Nat → Nat → Option Nat} {mem : List Nat}

section Forward

variable {t1 t2 : Nat → Bool}

/-- **A forward double scan.**  When a whole vector, given the address after
it, reports the first start of the pair in it, and the last vector reports
the first start before its end, taking the byte after the buffer for the zero
of the padding: the scan returns the first start of the pair before
`buf_end - 1`, else `buf_end - 1` when the last byte passes `t1`, else
`buf_end`. -/
theorem dfwdExecReal_eq (hS : 0 < S)
    (hfull : ∀ d, block true (loadu S mem d) (d + S) S =
      (firstIn (fun i => t1 (mem.getD i 0) && t2 (mem.getD (i + 1) 0)) d (d + S)).map (· + S))
    (htail : ∀ d L, L ≤ S →
      (block false (if L < S then loadPadded S mem d L else loadu S mem d) d L).filter (fun rv => decide (rv < d + L)) =
        firstIn (fun i => t1 (mem.getD i 0) &&
          if i + 1 < d + L then t2 (mem.getD (i + 1) 0) else decide (L < S) && t2 0) d (d + L))
    {buf bufEnd : Nat} (hbuf : buf < bufEnd) :
    dfwdExecReal S block mem t1 buf bufEnd =
      (firstIn (fun i => t1 (mem.getD i 0) && t2 (mem.getD (i + 1) 0)) buf (bufEnd - 1)).getD
        (if t1 (mem.getD (bufEnd - 1) 0) then bufEnd - 1 else bufEnd) := by
  set P := fun i => t1 (mem.getD i 0) && t2 (mem.getD (i + 1) 0) with hP
  set z := if t1 (mem.getD (bufEnd - 1) 0) then bufEnd - 1 else bufEnd with hz
  have hhead : ∀ d, (block true (loadu S mem d) (d + S) S).map (· - S) = firstIn P d (d + S) := fun d => by
    rw [hfull, Option.map_map]
    exact (Option.map_congr fun x _ => Nat.add_sub_cancel x S).trans Option.map_id'
  have hloop : ∀ n d, dfwdLoop S block mem n d = firstIn P d (d + n * S) :=
    blockLoop_firstIn _ (fun _ => rfl) fun _ d => by rw [dfwdLoop, hhead]
  -- the tail: the first start before `buf_end - 1`, or the last byte, which is then the default
  have htl : ∀ d, d < bufEnd → bufEnd ≤ d + S → (dfwdTail S block mem bufEnd d).getD z = (firstIn P d (bufEnd - 1)).getD z := by
    intro d h1 h2
    have hL := htail d (bufEnd - d) (by omega)
    rw [Nat.add_sub_cancel' h1.le] at hL
    have hlow : firstIn (fun i => t1 (mem.getD i 0) &&
        if i + 1 < bufEnd then t2 (mem.getD (i + 1) 0) else decide (bufEnd - d < S) && t2 0) d (bufEnd - 1) =
        firstIn P d (bufEnd - 1) :=
      firstIn_congr fun i _ hi => by rw [if_pos (by omega)]
    rw [dfwdTail, if_neg (by omega), hL, firstIn_split (bufEnd - 1) (by omega) (by omega), hlow]
    cases hA : firstIn P d (bufEnd - 1) with
    | some r => rfl
    | none =>
      rw [Option.none_or, firstIn_of_lt (by omega), firstIn_of_le (show bufEnd ≤ bufEnd - 1 + 1 by omega),
        if_neg (show ¬ bufEnd - 1 + 1 < bufEnd by omega)]
      by_cases ht : t1 (mem.getD (bufEnd - 1) 0) = true
      · have hz' : z = bufEnd - 1 := by rw [hz, if_pos ht]
        rw [hz']
        split <;> rfl
      · rw [Bool.not_eq_true] at ht
        rw [ht, Bool.false_and, if_neg Bool.false_ne_true]
  unfold dfwdExecReal
  rw [← hz]
  by_cases hlong : buf + S < bufEnd
  · rw [if_pos hlong]
    dsimp only
    have hd1 : buf ≤ (buf + (S - 1)) / S * S := le_roundUp hS buf
    have hd2 : (bufEnd - 1 - (buf + (S - 1)) / S * S) / S * S ≤ bufEnd - 1 - (buf + (S - 1)) / S * S :=
      Nat.div_mul_le_self _ _
    have hd3 : bufEnd - 1 - (buf + (S - 1)) / S * S <
        (bufEnd - 1 - (buf + (S - 1)) / S * S) / S * S + S := Nat.lt_div_mul_add hS
    have hd4 : (buf + (S - 1)) / S * S < buf + S := roundUp_lt hS buf
    rw [Option.getD_or, htl _ (by omega) (by omega), hhead, hloop]
    -- the tail from where the aligned vectors stop is empty when they reach `buf_end - 1`
    have htail' : ∀ d2, firstIn P d2 (bufEnd - 1) = if d2 = bufEnd - 1 then none else firstIn P d2 (bufEnd - 1) := by
      intro d2
      split_ifs with h
      · rw [h, firstIn_of_le le_rfl]
      · rfl
    rw [htail']
    exact fwdScan_eq hS rfl rfl (by omega) (by omega) le_rfl
  · rw [if_neg hlong, htl buf hbuf (by omega)]

end Forward

/-- **A reverse double scan.**  When a whole vector reports the last end of
the pair in it, and the start of the buffer reports the last end in
`[buf + 1, buf + L)`: the scan returns the last end of the pair in
`[buf + 1, buf_end)`, else `buf - 1`. -/
theorem drevExecReal_eq (hS : 0 < S) {R : Nat → Bool} (hfull : ∀ p, block true (loadu S mem p) p S = lastIn R p (p + S))
    {buf bufEnd : Nat}
    (htail : ∀ L, 0 < L → L ≤ S →
      block false (if L < S then loadPadded S mem buf L else loadu S mem buf) buf L = lastIn R (buf + 1) (buf + L))
    (hbuf : buf < bufEnd) :
    drevExecReal S block mem buf bufEnd = (lastIn R (buf + 1) bufEnd).getD (buf - 1) := by
  have hloop : ∀ n d, n * S ≤ d → drevLoop S block mem n d = lastIn R (d - n * S) d :=
    blockLoop_lastIn _ (fun _ => rfl) fun _ d hd => by rw [drevLoop, hfull, Nat.sub_add_cancel hd]
  -- the start of the buffer, from any `d` in `(buf, buf + S]`
  have htl : ∀ d, buf < d → d ≤ buf + S → d ≤ bufEnd → drevTail S block mem buf bufEnd d = lastIn R (buf + 1) d := by
    intro d h1 h2 h3
    rw [drevTail, if_neg (by omega), htail (d - buf) (by omega) (by omega), Nat.add_sub_cancel' h1.le,
      lastIn_filter_lt h3]
  unfold drevExecReal
  by_cases hlong : buf + S < bufEnd
  · rw [if_pos hlong]
    dsimp only
    have h1 : bufEnd / S * S ≤ bufEnd := roundDown_le bufEnd
    have h2 : bufEnd < bufEnd / S * S + S := lt_roundDown_add hS bufEnd
    have h3 : (bufEnd / S * S - buf - 1) / S * S ≤ bufEnd / S * S - buf - 1 := Nat.div_mul_le_self _ _
    have h4 : bufEnd / S * S - buf - 1 < (bufEnd / S * S - buf - 1) / S * S + S := Nat.lt_div_mul_add hS
    -- the head vector ends at `buf_end`, so cutting at `buf_end` changes nothing
    have hhead : ((if bufEnd % S = 0 then none else block true (loadu S mem (bufEnd - S)) (bufEnd - S) S).filter
        fun rv => decide (rv < bufEnd)) = if bufEnd % S = 0 then none else lastIn R (bufEnd - S) bufEnd := by
      split_ifs
      · rfl
      · rw [hfull, Nat.sub_add_cancel (by omega), lastIn_filter_lt le_rfl]
    have htail' : lastIn R (buf + 1) (bufEnd / S * S - (bufEnd / S * S - buf - 1) / S * S) =
        if bufEnd / S * S - (bufEnd / S * S - buf - 1) / S * S = buf + 1 then none
        else lastIn R (buf + 1) (bufEnd / S * S - (bufEnd / S * S - buf - 1) / S * S) := by
      split_ifs with h
      · rw [h, lastIn_of_le le_rfl]
      · rfl
    rw [Option.getD_or, hhead, hloop _ _ (by omega), htl _ (by omega) (by omega) (by omega), htail', Nat.sub_sub]
    exact revScan_eq hS rfl rfl (by omega) le_rfl (by omega)
  · rw [if_neg hlong, htl bufEnd hbuf (by omega) le_rfl]

end Family

/-! ## The entry points against their specifications -/

section Entry

variable {S : Nat}

/-- **The masked double vermicelli is its specification.**  For every vector
size, memory and buffer, `vermicelliDoubleMaskedExec` returns the first `i`
before `buf_end - 1` where the byte under `m1` is `c1` and the next under `m2`
is `c2`; else `buf_end - 1` when the last byte under `m1` is `c1`; else
`buf_end`. -/
theorem vermicelliDoubleMaskedExec_eq (hS : 0 < S) (c1 c2 m1 m2 : Nat) (mem : List Nat) {buf bufEnd : Nat}
    (hbuf : buf < bufEnd) :
    vermicelliDoubleMaskedExec S c1 c2 m1 m2 mem buf bufEnd =
      (firstIn (dvermMaskedHit c1 c2 m1 m2 mem) buf (bufEnd - 1)).getD
        (if mem.getD (bufEnd - 1) 0 &&& m1 == c1 then bufEnd - 1 else bufEnd) := by
  unfold vermicelliDoubleMaskedExec vermicelliDoubleMaskedExecReal
  exact @dfwdExecReal_eq S _ mem (fun x => x &&& m1 == c1) (fun x => x &&& m2 == c2) hS
    (fun d => maskedBlock_full hS c1 c2 m1 m2 d) (fun d _ hL => maskedBlock_tail c1 c2 m1 m2 d hL) buf bufEnd hbuf

theorem caseByte_of_pos (hS : 0 < S) (nocase : Bool) :
    (caseMask S nocase).getD 0 0 = if nocase then caseClear else 0xff := by
  simp [caseMask, List.getD_eq_getElem?_getD, hS]

/-- Under the case byte, a byte of memory compares as `vermHit` does. -/
theorem caseByte_beq {mem : List Nat} (hmem : ∀ b ∈ mem, b < 256) (nocase : Bool) (i c : Nat) :
    (mem.getD i 0 &&& (if nocase then caseClear else 0xff) == c) = vermHit c nocase (mem.getD i 0) := by
  rw [vermHit, Nat.and_comm, caseMask_and nocase (getD_lt_of_bytes hmem i)]

/-- The double vermicelli is the masked one with the case byte on both bytes. -/
theorem vermicelliDoubleExec_eq_masked (hS : 0 < S) (c1 c2 : Nat) (nocase : Bool) (mem : List Nat) (buf bufEnd : Nat) :
    vermicelliDoubleExec S c1 c2 nocase mem buf bufEnd =
      vermicelliDoubleMaskedExec S c1 c2 (if nocase then caseClear else 0xff) (if nocase then caseClear else 0xff) mem
        buf bufEnd := by
  unfold vermicelliDoubleExec vermicelliDoubleExecReal vermicelliDoubleMaskedExec vermicelliDoubleMaskedExecReal
  rw [caseByte_of_pos hS]
  simp only [caseMask, vermicelliDoubleBlock_eq_masked]

/-- **The double vermicelli is its specification.**  For every pair, case
flag, memory of bytes, vector size and buffer, `vermicelliDoubleExec` is
`Accel.vermicelliDoubleExec`: the first start of the pair before
`buf_end - 1`, else `buf_end - 1` when the last byte is `c1`, else `buf_end`. -/
theorem vermicelliDoubleExec_eq (hS : 0 < S) (c1 c2 : Nat) (nocase : Bool) {mem : List Nat} (hmem : ∀ b ∈ mem, b < 256)
    {buf bufEnd : Nat} (hbuf : buf < bufEnd) :
    vermicelliDoubleExec S c1 c2 nocase mem buf bufEnd = Accel.vermicelliDoubleExec c1 c2 nocase mem buf bufEnd := by
  have hpair : dvermMaskedHit c1 c2 (if nocase then caseClear else 0xff) (if nocase then caseClear else 0xff) mem =
      dvermHit c1 c2 nocase mem :=
    funext fun i => by rw [dvermMaskedHit, dvermHit, caseByte_beq hmem, caseByte_beq hmem]
  rw [vermicelliDoubleExec_eq_masked hS, vermicelliDoubleMaskedExec_eq hS _ _ _ _ mem hbuf, hpair, caseByte_beq hmem,
    Accel.vermicelliDoubleExec]
  cases firstIn (dvermHit c1 c2 nocase mem) buf (bufEnd - 1) <;> rfl

/-- **The reverse double vermicelli, when the padding cannot pass for `c2`.**
With vectors of 64 bytes, whose helpers look only at the lanes of the bytes
left, or when the zero byte is not `c2`, `rvermicelliDoubleExec` returns the
last `i` in `[buf + 1, buf_end)` where the pair ends (`c1` at `i - 1` and `c2`
at `i`), else `buf - 1`. -/
theorem rvermicelliDoubleExec_eq (hS : 0 < S) (c1 c2 : Nat) (nocase : Bool) {mem : List Nat}
    (hmem : ∀ b ∈ mem, b < 256) (hpad : S = 64 ∨ vermHit c2 nocase 0 = false) {buf bufEnd : Nat} (hbuf : buf < bufEnd) :
    rvermicelliDoubleExec S c1 c2 nocase mem buf bufEnd =
      (lastIn (fun i => dvermHit c1 c2 nocase mem (i - 1)) (buf + 1) bufEnd).getD (buf - 1) := by
  have hpad' : S = 64 ∨ (0 &&& (if nocase then caseClear else 0xff) == c2) = false := by
    rcases hpad with h64 | hz
    · exact Or.inl h64
    · refine Or.inr ?_
      rw [Nat.zero_and]
      cases nocase <;> simpa [vermHit] using hz
  unfold rvermicelliDoubleExec rvermicelliDoubleExecReal
  rw [caseByte_of_pos hS, drevExecReal_eq hS (fun p => rblock_full c1 c2 _ p)
    (fun L hL0 hL => rblock_tail c1 c2 _ buf hL0 hL hpad') hbuf]
  congr 1
  -- a pair that ends at `i ≥ buf + 1` starts at `i - 1`
  apply lastIn_congr
  intro i h1 _
  rw [caseByte_beq hmem, caseByte_beq hmem, dvermHit, Nat.sub_add_cancel (by omega : 1 ≤ i)]

/-- **Otherwise the padding passes for `c2`.**  With vectors of 16 bytes and
`c2` the zero byte, the start of the buffer is scanned from a vector padded
with zeroes, whose first zero, after a byte `c1`, is taken for the end of the
pair: on `b…bab…b` the scan returns the position after the `a`, where the
pair does not end, and no end of the pair exists. -/
theorem rvermicelliDoubleExec_padding :
    rvermicelliDoubleExec 16 0x61 0 false ((List.replicate 40 0x62).set 15 0x61) 4 36 = 16 ∧
      lastIn (fun i => dvermHit 0x61 0 false ((List.replicate 40 0x62).set 15 0x61) (i - 1)) 5 36 = none := by
  constructor <;> decide

end Entry

/-- **The double vermicelli scans are their specifications.**  For every
pair `c1 c2`, case flag, memory of bytes, vector size and buffer of at least
one byte: `vermicelliDoubleExec` is `Accel.vermicelliDoubleExec`;
`vermicelliDoubleMaskedExec`, with any masks, returns the first start of the
masked pair before `buf_end - 1`, else `buf_end - 1` when the last byte under
`m1` is `c1`, else `buf_end`; and with vectors of 64 bytes or a `c2` other than
the zero byte, `rvermicelliDoubleExec` returns the last end of the pair, else
`buf - 1`. -/
theorem vermicelli_double_scans_exact (c1 c2 : Nat) (nocase : Bool) {mem : List Nat} (hmem : ∀ b ∈ mem, b < 256)
    {S : Nat} (hS : 0 < S) {buf bufEnd : Nat} (hbuf : buf < bufEnd) :
    vermicelliDoubleExec S c1 c2 nocase mem buf bufEnd = Accel.vermicelliDoubleExec c1 c2 nocase mem buf bufEnd ∧
      (∀ m1 m2, vermicelliDoubleMaskedExec S c1 c2 m1 m2 mem buf bufEnd =
        (firstIn (dvermMaskedHit c1 c2 m1 m2 mem) buf (bufEnd - 1)).getD
          (if mem.getD (bufEnd - 1) 0 &&& m1 == c1 then bufEnd - 1 else bufEnd)) ∧
      ((S = 64 ∨ vermHit c2 nocase 0 = false) → rvermicelliDoubleExec S c1 c2 nocase mem buf bufEnd =
        (lastIn (fun i => dvermHit c1 c2 nocase mem (i - 1)) (buf + 1) bufEnd).getD (buf - 1)) :=
  ⟨vermicelliDoubleExec_eq hS c1 c2 nocase hmem hbuf, fun m1 m2 => vermicelliDoubleMaskedExec_eq hS c1 c2 m1 m2 mem hbuf,
    fun hpad => rvermicelliDoubleExec_eq hS c1 c2 nocase hmem hpad hbuf⟩

theorem vermicelli_double_scans_exact_ab :
    (∀ b ∈ List.replicate 20 0x62 ++ [0x61, 0x62], b < 256) ∧ 0 < 16 ∧ 3 < 22 ∧
      vermicelliDoubleExec 16 0x61 0x62 false (List.replicate 20 0x62 ++ [0x61, 0x62]) 3 22 =
        Accel.vermicelliDoubleExec 0x61 0x62 false (List.replicate 20 0x62 ++ [0x61, 0x62]) 3 22 :=
  ⟨by decide, by decide, by decide,
    (vermicelli_double_scans_exact 0x61 0x62 false (by decide) (by decide) (by decide)).1⟩

end Vermicelli
end Accel
end Nfa
end Vectorscan
