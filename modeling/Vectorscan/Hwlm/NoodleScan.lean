import Vectorscan.Hwlm.NoodleBuild
import Vectorscan.Lib.BlockScan

/-!
# The vector scan is a scan of every position

The noodle scan of `noodle_engine_simd.hpp` compares vectors of `S` bytes
with the key, peels an unaligned head off up to an aligned address, runs the
aligned loop and finishes with an unaligned tail that overlaps the last
vector; the double-byte scan carries the last compare of one vector into the
next (`lastz1`).  This module shows that all of it hands `final` exactly the
positions of one interval whose key bytes match, in increasing order, each
once, at every vector size and every alignment of the buffer.

**Reference.**  `finalEach` calls `final` on a list of positions until the
callback stops; `noodScalar` is the byte-at-a-time scan: the candidates of
`[start + mskLen - 1, len)` (single byte key) or of the key pairs that leave
room for the literal (double byte key), filtered by the key compare `keyHit`.

**Results.**  `scanSingleMain_eq`, `scanDoubleMain_eq`: the head, the
aligned loop (with `lastz1` carried across, `scanDoubleLoop_last`) and the
tail together call `final` at the key matches of one interval, in order.
`noodExec_eq_noodScalar`: for every table, buffer, address and start, and every
vector size, the vector scan is the scalar scan.
-/

namespace Vectorscan
namespace Hwlm

open BlockScan

/-! ## Calling `final` on each candidate -/

/-- `final` at each candidate position in turn, until the callback stops. -/
def finalEach (n : NoodTable) (buf : List Nat) (needsConfirm : Bool) (halt : Nat → Bool) :
    List Nat → ScanRun → ScanRun
  | [], run => run
  | p :: ps, run =>
      if run.terminated then run else finalEach n buf needsConfirm halt ps (final n buf needsConfirm halt p run)

attribute [grind] finalEach

section FinalEach

variable {n : NoodTable} {buf : List Nat} {nc : Bool} {halt : Nat → Bool}

theorem finalEach_of_terminated {run : ScanRun} (h : run.terminated = true) (ps : List Nat) :
    finalEach n buf nc halt ps run = run := by
  cases ps with
  | nil => rfl
  | cons p ps => simp [finalEach, h]

theorem finalEach_append (ps qs : List Nat) (run : ScanRun) :
    finalEach n buf nc halt (ps ++ qs) run = finalEach n buf nc halt qs (finalEach n buf nc halt ps run) := by
  induction ps generalizing run with
  | nil => rfl
  | cons p ps ih =>
    by_cases h : run.terminated = true
    · simp [finalEach, h, finalEach_of_terminated h]
    · simp [finalEach, h, ih]

/-- A phase that is skipped once the callback has stopped the scan is the same
as running it: it does nothing then. -/
theorem ite_terminated_finalEach (ps : List Nat) (run : ScanRun) :
    (if run.terminated = true then run else finalEach n buf nc halt ps run) = finalEach n buf nc halt ps run := by
  split
  · rename_i h
    exact (finalEach_of_terminated h ps).symm
  · rfl

/-- The loop over the bits of a mask is `final` at the positions they stand for. -/
theorem zscan_eq_finalEach (d back : Nat) (js : List Nat) (run : ScanRun) :
    zscan n buf nc halt d back js run = finalEach n buf nc halt (js.map fun j => d + j - back) run := by
  induction js generalizing run with
  | nil => rfl
  | cons j js ih => simp [zscan, finalEach, ih]

end FinalEach

/-! ## Vector compares -/

/-- The key compare of one byte: the byte under the case mask is the key. -/
def keyHit (buf : List Nat) (cm k p : Nat) : Bool := buf.getD p 0 &&& cm == k

theorem testBit_eqMask (v : List Nat) (k j : Nat) :
    (eqMask v k).testBit j = (decide (j < v.length) && v.getD j 0 == k) := by
  rw [eqMask, testBit_foldr_or_shiftLeft, beq_eq_decide]
  simp

theorem eqMask_lt (v : List Nat) (k : Nat) : eqMask v k < 2 ^ v.length := by
  apply Nat.lt_pow_two_of_testBit
  intro i hi
  rw [testBit_eqMask]
  simp [show ¬ i < v.length by omega]

@[simp] theorem length_loadVec (S : Nat) (buf : List Nat) (cm p : Nat) : (loadVec S buf cm p).length = S := by
  simp [loadVec]

@[simp] theorem length_loadShort (S : Nat) (buf : List Nat) (cm p l : Nat) :
    (loadShort S buf cm p l).length = S := by
  simp [loadShort]

theorem getD_loadVec {S j : Nat} (hj : j < S) (buf : List Nat) (cm p : Nat) :
    (loadVec S buf cm p).getD j 0 = buf.getD (p + j) 0 &&& cm := by
  simp [loadVec, List.getD_eq_getElem?_getD, hj]

theorem getD_loadShort {S j l : Nat} (hj : j < S) (hl : j < l) (buf : List Nat) (cm p : Nat) :
    (loadShort S buf cm p l).getD j 0 = buf.getD (p + j) 0 &&& cm := by
  simp [loadShort, List.getD_eq_getElem?_getD, hj, hl]

/-- Bit `j` of a vector compare is the key compare at `p + j`. -/
theorem testBit_eqMask_loadVec {S j : Nat} (hj : j < S) (buf : List Nat) (cm p k : Nat) :
    (eqMask (loadVec S buf cm p) k).testBit j = keyHit buf cm k (p + j) := by
  rw [testBit_eqMask, length_loadVec, getD_loadVec hj]
  simp [keyHit, hj]

theorem testBit_eqMask_loadShort {S j l : Nat} (hj : j < S) (hl : j < l) (buf : List Nat) (cm p k : Nat) :
    (eqMask (loadShort S buf cm p l) k).testBit j = keyHit buf cm k (p + j) := by
  rw [testBit_eqMask, length_loadShort, getD_loadShort hj hl]
  simp [keyHit, hj]

/-! ## The single-byte scan -/

section Single

variable (S : Nat) (n : NoodTable) (buf : List Nat) (addr : Nat) (halt : Nat → Bool) (cm k : Nat)

/-- The positions of the single-byte scan. -/
abbrev singleHits (lo m : Nat) : List Nat := (List.range' lo m).filter (keyHit buf cm k)

/-- A single-byte compare whose bit `j` is set exactly on the lanes `[a, b)`
where the key matches hands `final` the key matches of `[d + a, d + b)`. -/
theorem singleZscan_eq {d a b z : Nat} (hab : a ≤ b) (hb : b ≤ S)
    (hz : ∀ j < S, z.testBit j = (decide (a ≤ j ∧ j < b) && keyHit buf cm k (d + j))) (run : ScanRun) :
    singleZscan S n buf halt d z run = finalEach n buf (n.mskLen != 1) halt (singleHits buf cm k (d + a) (b - a)) run := by
  rw [singleZscan, zscan_eq_finalEach, maskBits]
  congr 1
  have hpos := @map_filter_range_testBit S d a b 0 z (keyHit buf cm k) hab hb (Nat.zero_le _) (by simpa using hz)
  simpa using hpos

theorem scanSingleShort_eq {start endOff : Nat} (hl : endOff - start ≤ S) (run : ScanRun) :
    scanSingleShort S n buf halt cm k start endOff run =
      finalEach n buf (n.mskLen != 1) halt (singleHits buf cm k start (endOff - start)) run := by
  simp only [scanSingleShort]
  split
  · rename_i h0
    simp [h0, singleHits, finalEach]
  · -- the lanes past the copied bytes are masked off
    rw [singleZscan_eq S n buf halt cm k (Nat.zero_le _) hl, Nat.add_zero, Nat.sub_zero]
    intro j hj
    rw [Nat.testBit_and, Nat.testBit_two_pow_sub_one]
    by_cases hjl : j < endOff - start
    · rw [testBit_eqMask_loadShort hj hjl]
      simp [hjl]
    · simp [hjl]

theorem scanSingleUnaligned_eq {offset start endOff : Nat} (h1 : offset ≤ start) (h2 : endOff ≤ offset + S)
    (run : ScanRun) :
    scanSingleUnaligned S n buf halt cm k offset start endOff run =
      finalEach n buf (n.mskLen != 1) halt (singleHits buf cm k start (endOff - start)) run := by
  simp only [scanSingleUnaligned]
  split
  · rename_i h0
    simp [h0, singleHits, finalEach]
  · -- the lanes `[start - offset, endOff - offset)` of the vector at `offset`
    rw [singleZscan_eq S n buf halt cm k (a := start - offset) (b := endOff - offset) (by omega) (by omega),
      show offset + (start - offset) = start by omega, show endOff - offset - (start - offset) = endOff - start by omega]
    intro j hj
    rw [Nat.testBit_and, Nat.testBit_shiftLeft, Nat.testBit_two_pow_sub_one, testBit_eqMask_loadVec hj]
    have hwin : (decide (j ≥ start - offset) && decide (j - (start - offset) < endOff - start)) =
        decide (start - offset ≤ j ∧ j < endOff - offset) := by
      rw [Bool.eq_iff_iff]
      simp only [Bool.and_eq_true, decide_eq_true_eq]
      omega
    rw [hwin]

theorem scanSingleLoop_eq (loops d : Nat) (run : ScanRun) :
    scanSingleLoop S n buf halt cm k loops d run =
      finalEach n buf (n.mskLen != 1) halt (singleHits buf cm k d (loops * S)) run := by
  induction loops generalizing d run with
  | zero => simp [scanSingleLoop, singleHits, finalEach]
  | succ loops ih =>
    -- one aligned vector, then the rest of the loop
    have hvec : singleZscan S n buf halt d (eqMask (loadVec S buf cm d) k) run =
        finalEach n buf (n.mskLen != 1) halt (singleHits buf cm k d S) run := by
      rw [singleZscan_eq S n buf halt cm k (Nat.zero_le _) (Nat.le_refl S), Nat.add_zero, Nat.sub_zero]
      intro j hj
      rw [testBit_eqMask_loadVec hj]
      simp [hj]
    have hrange : List.range' d ((loops + 1) * S) = List.range' d S ++ List.range' (d + S) (loops * S) := by
      rw [List.range'_append_1, Nat.succ_mul, Nat.add_comm (loops * S)]
    simp only [scanSingleLoop]
    rw [hvec, ih, ← finalEach_append, ite_terminated_finalEach]
    simp only [singleHits]
    rw [hrange, List.filter_append]

/-- The positions of two adjacent intervals. -/
theorem singleHits_append {a b c : Nat} (hab : a ≤ b) (hbc : b ≤ c) :
    singleHits buf cm k a (b - a) ++ singleHits buf cm k b (c - b) = singleHits buf cm k a (c - a) := by
  simp only [singleHits]
  rw [← List.filter_append, range'_append_range' hab hbc]

/-- **The single-byte scan.**  The head up to an aligned address, the
aligned vectors and the tail together hand `final` the key matches of
`[offset + mskLen - 1, len)`, in order, at every alignment. -/
theorem scanSingleMain_eq (hS : 0 < S) (len offset : Nat) (run : ScanRun) :
    scanSingleMain S n buf addr halt len offset cm k run =
      finalEach n buf (n.mskLen != 1) halt
        (singleHits buf cm k (offset + n.mskLen - 1) (len - (offset + n.mskLen - 1))) run := by
  simp only [scanSingleMain]
  set lo := offset + n.mskLen - 1 with hlo
  split
  · exact scanSingleShort_eq S n buf halt cm k (by omega) run
  rename_i hlong
  set R := (addr + lo + (S - 1)) / S * S - addr with hR
  set s2End := (addr + len) / S * S - addr with hs2
  obtain ⟨h1, h2, h3, h4, h5⟩ := @aligned_split S addr lo len R s2End hS (by omega) hR hs2
  -- the tail is the key matches of `[s2End, len)`, none when `s2End = len`
  have htail : ∀ r : ScanRun, (if s2End = len then r else scanSingleUnaligned S n buf halt cm k (len - S) s2End len r) =
      finalEach n buf (n.mskLen != 1) halt (singleHits buf cm k s2End (len - s2End)) r := by
    intro r
    split
    · rename_i heq
      simp [heq, singleHits, finalEach]
    · exact scanSingleUnaligned_eq S n buf halt cm k (by omega) (by omega) r
  -- the loop and the tail, then the head before them
  rw [scanSingleUnaligned_eq S n buf halt cm k (Nat.le_refl lo) (by omega), scanSingleLoop_eq, htail,
    ite_terminated_finalEach, ← finalEach_append (singleHits buf cm k R _) (singleHits buf cm k s2End _),
    ite_terminated_finalEach, ← finalEach_append]
  congr 1
  rw [show (len - R) / S * S = s2End - R by omega, singleHits_append buf cm k (by omega) h4,
    singleHits_append buf cm k h1 (by omega)]

end Single


/-! ## The double-byte scan -/

/-- The key pair compare at `p`: the first key byte at `p`, the second at `p + 1`. -/
def pairHit (buf : List Nat) (cm k1 k2 p : Nat) : Bool := keyHit buf cm k1 p && keyHit buf cm k2 (p + 1)

theorem testBit_toNat (b : Bool) (j : Nat) : b.toNat.testBit j = (decide (j = 0) && b) := by
  cases b <;> cases j <;> simp [Nat.testBit_succ]

/-- The last lane of a compare, brought down to bit `0` (`lastz1`). -/
theorem shiftRight_pred_eq {S z : Nat} (hS : 0 < S) (hz : z < 2 ^ S) : z >>> (S - 1) = (z.testBit (S - 1)).toNat := by
  apply Nat.eq_of_testBit_eq
  intro i
  rw [Nat.testBit_shiftRight]
  cases i with
  | zero => cases z.testBit (S - 1) <;> simp
  | succ i =>
    rw [Nat.testBit_lt_two_pow (lt_of_lt_of_le hz (Nat.pow_le_pow_right (by omega) (by omega)))]
    cases z.testBit (S - 1) <;> simp [Nat.testBit_succ]

/-- Lane `j` of the pair compare of a vector: the first key at lane `j - 1`,
the second at lane `j`. -/
theorem testBit_pairMask {S j : Nat} (hj : j < S) (buf : List Nat) (cm k1 k2 p : Nat) :
    ((eqMask (loadVec S buf cm p) k1 <<< 1) &&& eqMask (loadVec S buf cm p) k2).testBit j =
      (decide (1 ≤ j) && pairHit buf cm k1 k2 (p + j - 1)) := by
  rw [Nat.testBit_and, Nat.testBit_shiftLeft, testBit_eqMask_loadVec hj]
  by_cases hj1 : 1 ≤ j
  · rw [testBit_eqMask_loadVec (by omega)]
    simp [hj1, pairHit, show p + j - 1 + 1 = p + j by omega, show p + (j - 1) = p + j - 1 by omega]
  · simp [hj1]

section Double

variable (S : Nat) (n : NoodTable) (buf : List Nat) (addr : Nat) (halt : Nat → Bool) (cm k1 k2 : Nat)

/-- The positions of the double-byte scan. -/
abbrev doubleHits (lo m : Nat) : List Nat := (List.range' lo m).filter (pairHit buf cm k1 k2)

/-- The pairs of two adjacent intervals. -/
theorem doubleHits_add {a m b m' : Nat} (h : a + m = b) :
    doubleHits buf cm k1 k2 a m ++ doubleHits buf cm k1 k2 b m' = doubleHits buf cm k1 k2 a (m + m') := by
  subst h
  simp only [doubleHits]
  rw [← List.filter_append, List.range'_append_1]

/-- A pair compare whose bit `j` is set exactly on the lanes `[a, b)` where
the key pair ends hands `final` the pairs that start in `[d + a - 1, d + b - 1)`. -/
theorem doubleZscan_eq {d a b z : Nat} (hback : 1 ≤ d + a) (hab : a ≤ b) (hb : b ≤ S)
    (hz : ∀ j < S, z.testBit j = (decide (a ≤ j ∧ j < b) && pairHit buf cm k1 k2 (d + j - 1))) (run : ScanRun) :
    doubleZscan S n buf halt d z run = finalEach n buf true halt (doubleHits buf cm k1 k2 (d + a - 1) (b - a)) run := by
  rw [doubleZscan, zscan_eq_finalEach, maskBits]
  congr 1
  exact @map_filter_range_testBit S d a b 1 z (pairHit buf cm k1 k2) hab hb hback hz

theorem scanDoubleShort_eq {start endOff : Nat} (hl : endOff - start ≤ S) (run : ScanRun) :
    scanDoubleShort S n buf halt cm k1 k2 start endOff run =
      finalEach n buf true halt (doubleHits buf cm k1 k2 start (endOff - start - 1)) run := by
  simp only [scanDoubleShort]
  split
  · rename_i h0
    simp [h0, doubleHits, finalEach]
  · -- lanes `[1, l)` of the copied bytes
    rw [@doubleZscan_eq S n buf halt cm k1 k2 start 1 (endOff - start) _ (by omega) (by omega) hl,
      show start + 1 - 1 = start by omega]
    intro j hj
    rw [Nat.testBit_and, Nat.testBit_and, Nat.testBit_two_pow_sub_one, Nat.testBit_shiftLeft]
    by_cases hjl : j < endOff - start
    · by_cases hj1 : 1 ≤ j
      · rw [testBit_eqMask_loadShort hj hjl, testBit_eqMask_loadShort (by omega) (by omega)]
        simp [hjl, hj1, pairHit, show start + j - 1 + 1 = start + j by omega,
          show start + (j - 1) = start + j - 1 by omega]
      · simp [hj1]
    · simp [hjl]

theorem scanDoubleUnaligned_eq {offset start endOff : Nat} (h1 : offset ≤ start) (h2 : endOff ≤ offset + S)
    (run : ScanRun) :
    scanDoubleUnaligned S n buf halt cm k1 k2 offset start endOff run =
      finalEach n buf true halt
        (doubleHits buf cm k1 k2 (max (offset + 1) start - 1) (endOff - max (offset + 1) start)) run := by
  simp only [scanDoubleUnaligned]
  split
  · rename_i h0
    simp [show endOff - max (offset + 1) start = 0 by omega, doubleHits, finalEach]
  · -- lanes `[start - offset, endOff - offset)` of the vector at `offset`, but not lane `0`
    rw [@doubleZscan_eq S n buf halt cm k1 k2 offset (max 1 (start - offset)) (endOff - offset) _ (by omega)
      (by omega) (by omega), show offset + max 1 (start - offset) - 1 = max (offset + 1) start - 1 by omega,
      show endOff - offset - max 1 (start - offset) = endOff - max (offset + 1) start by omega]
    intro j hj
    rw [Nat.and_assoc, Nat.testBit_and, testBit_pairMask hj, Nat.testBit_shiftLeft, Nat.testBit_two_pow_sub_one]
    rw [Bool.eq_iff_iff]
    simp only [Bool.and_eq_true, decide_eq_true_eq]
    constructor
    · rintro ⟨⟨hlo, hhi⟩, hge, hpair⟩
      exact ⟨⟨by omega, by omega⟩, hpair⟩
    · rintro ⟨⟨hlo, hhi⟩, hpair⟩
      exact ⟨⟨by omega, by omega⟩, by omega, hpair⟩

/-- One aligned vector of the loop, with `lastz1` the first key compare of
the byte before it: the pairs that start in `[d - 1, d + S - 1)`. -/
theorem doubleVector_last {d : Nat} (hS : 0 < S) (hd : 1 ≤ d) (run : ScanRun) :
    doubleZscan S n buf halt d (((eqMask (loadVec S buf cm d) k1 <<< 1) ||| (keyHit buf cm k1 (d - 1)).toNat) &&&
        eqMask (loadVec S buf cm d) k2) run =
      finalEach n buf true halt (doubleHits buf cm k1 k2 (d - 1) S) run := by
  rw [@doubleZscan_eq S n buf halt cm k1 k2 d 0 S _ (by omega) (Nat.zero_le _) (Nat.le_refl S), Nat.add_zero,
    Nat.sub_zero]
  intro j hj
  rw [Nat.testBit_and, Nat.testBit_or, Nat.testBit_shiftLeft, testBit_toNat, testBit_eqMask_loadVec hj]
  by_cases hj1 : 1 ≤ j
  · -- the pair lies within the vector
    rw [testBit_eqMask_loadVec (show j - 1 < S by omega)]
    simp [hj1, hj, pairHit, show j ≠ 0 by omega, show d + j - 1 + 1 = d + j by omega,
      show d + (j - 1) = d + j - 1 by omega]
  · -- lane `0`: the pair straddles the previous vector
    obtain rfl : j = 0 := by omega
    simp [hS, pairHit, show d - 1 + 1 = d by omega]

/-- One aligned vector with no `lastz1`: the pairs that start in `[d, d + S - 1)`. -/
theorem doubleVector_zero {d : Nat} (hS : 0 < S) (run : ScanRun) :
    doubleZscan S n buf halt d (((eqMask (loadVec S buf cm d) k1 <<< 1) ||| 0) &&& eqMask (loadVec S buf cm d) k2)
        run =
      finalEach n buf true halt (doubleHits buf cm k1 k2 d (S - 1)) run := by
  rw [@doubleZscan_eq S n buf halt cm k1 k2 d 1 S _ (by omega) (by omega) (Nat.le_refl S),
    show d + 1 - 1 = d by omega]
  intro j hj
  rw [Nat.or_zero, testBit_pairMask hj]
  simp [hj]

/-- The next `lastz1`: the first key compare of the last byte of the vector. -/
theorem lastz1_eq {d : Nat} (hS : 0 < S) :
    eqMask (loadVec S buf cm d) k1 >>> (S - 1) = (keyHit buf cm k1 (d + S - 1)).toNat := by
  have hlt : eqMask (loadVec S buf cm d) k1 < 2 ^ S := by
    simpa using eqMask_lt (loadVec S buf cm d) k1
  rw [shiftRight_pred_eq hS hlt, testBit_eqMask_loadVec (by omega), show d + (S - 1) = d + S - 1 by omega]

/-- The aligned loop carrying `lastz1` from the byte before `d`: the pairs
that start in `[d - 1, d + loops * S - 1)`. -/
theorem scanDoubleLoop_last (hS : 0 < S) (loops : Nat) :
    ∀ d, 1 ≤ d → ∀ run : ScanRun, scanDoubleLoop S n buf halt cm k1 k2 loops d (keyHit buf cm k1 (d - 1)).toNat run =
      finalEach n buf true halt (doubleHits buf cm k1 k2 (d - 1) (loops * S)) run := by
  -- induction on the vectors left; each hands its last first-key compare on
  induction loops with
  | zero => intro d _ run; simp [scanDoubleLoop, doubleHits, finalEach]
  | succ loops ih =>
    intro d hd run
    simp only [scanDoubleLoop]
    rw [lastz1_eq S buf cm k1 hS, doubleVector_last S n buf halt cm k1 k2 hS hd, ih (d + S) (by omega),
      ← finalEach_append, ite_terminated_finalEach]
    congr 1
    rw [doubleHits_add buf cm k1 k2 (show d - 1 + S = d + S - 1 by omega), Nat.add_one_mul, Nat.add_comm]

/-- The aligned loop from `lastz1 = 0`: the pairs that start in
`[d, d + loops * S - 1)`. -/
theorem scanDoubleLoop_zero (hS : 0 < S) (loops d : Nat) (run : ScanRun) :
    scanDoubleLoop S n buf halt cm k1 k2 loops d 0 run =
      finalEach n buf true halt (doubleHits buf cm k1 k2 d (loops * S - 1)) run := by
  cases loops with
  | zero => simp [scanDoubleLoop, doubleHits, finalEach]
  | succ loops =>
    -- the first vector, then the loop with `lastz1` set
    simp only [scanDoubleLoop]
    rw [lastz1_eq S buf cm k1 hS, doubleVector_zero S n buf halt cm k1 k2 hS,
      scanDoubleLoop_last S n buf halt cm k1 k2 hS loops (d + S) (by omega), ← finalEach_append,
      ite_terminated_finalEach]
    congr 1
    rw [doubleHits_add buf cm k1 k2 (show d + (S - 1) = d + S - 1 by omega), Nat.add_one_mul]
    congr 1
    omega

/-- **The double-byte scan.**  The head up to one past an aligned address,
the aligned vectors and the tail together hand `final` the key pairs that
start in `[offset + mskLen - keyOffset, len - keyOffset + 1)`, in order, at
every alignment. -/
theorem scanDoubleMain_eq (hS : 0 < S) (len offset : Nat) (run : ScanRun) :
    scanDoubleMain S n buf addr halt len offset cm k1 k2 run =
      finalEach n buf true halt
        (doubleHits buf cm k1 k2 (offset + n.mskLen - n.keyOffset)
          (len - n.keyOffset + 2 - (offset + n.mskLen - n.keyOffset) - 1)) run := by
  simp only [scanDoubleMain]
  set lo := offset + n.mskLen - n.keyOffset with hlo
  set hi := len - n.keyOffset + 2 with hhi
  split
  · exact scanDoubleShort_eq S n buf halt cm k1 k2 (by omega) run
  rename_i hlong
  set R := (addr + lo + (S - 1)) / S * S - addr with hR
  set s2End := (addr + hi) / S * S - addr with hs2
  obtain ⟨h1, h2, h3, h4, h5⟩ := @aligned_split S addr lo hi R s2End hS (by omega) hR hs2
  set q := (hi - R) / S with hq
  -- without a whole vector the tail starts right after the head
  have hq0 : q = 0 → R = s2End := by
    intro h0
    rw [h0, Nat.zero_mul, Nat.add_zero] at h3
    exact h3
  have hqS : q ≠ 0 → S ≤ q * S := fun h0 => Nat.le_mul_of_pos_left S (Nat.pos_of_ne_zero h0)
  -- the tail: the pairs that start in `[R + (q * S - 1), hi - 1)`
  have htail : ∀ r : ScanRun, (if s2End = hi then r
      else scanDoubleUnaligned S n buf halt cm k1 k2 (hi - S) (if q = 0 then R + 1 else R + q * S) hi r) =
      finalEach n buf true halt (doubleHits buf cm k1 k2 (R + (q * S - 1)) (hi - 1 - (R + (q * S - 1)))) r := by
    intro r
    split
    · rename_i heq
      have hne : q ≠ 0 := fun h0 => by have := hq0 h0; omega
      have := hqS hne
      simp [show hi - 1 - (R + (q * S - 1)) = 0 by omega, doubleHits, finalEach]
    · -- the tail vector starts right after the last pair the loop looked at
      have hstart : max (hi - S + 1) (if q = 0 then R + 1 else R + q * S) = R + (q * S - 1) + 1 := by
        by_cases h0 : q = 0
        · have := hq0 h0
          simp only [h0, if_true, Nat.zero_mul]
          omega
        · have := hqS h0
          simp only [h0, if_false]
          omega
      rw [scanDoubleUnaligned_eq S n buf halt cm k1 k2 (by split <;> omega) (by omega), hstart]
      congr 2
      omega
  -- the head, the loop and the tail
  rw [scanDoubleUnaligned_eq S n buf halt cm k1 k2 (Nat.le_refl lo) (by omega), scanDoubleLoop_zero S n buf halt cm k1 k2 hS,
    show R + 1 - 1 = R by omega, show max (lo + 1) lo - 1 = lo by omega, show R + 1 - max (lo + 1) lo = R - lo by omega,
    ← hq, htail, ite_terminated_finalEach, ← finalEach_append (doubleHits buf cm k1 k2 R _), ite_terminated_finalEach,
    ← finalEach_append]
  congr 1
  rw [doubleHits_add buf cm k1 k2 rfl, doubleHits_add buf cm k1 k2 (show lo + (R - lo) = R by omega)]
  congr 1
  omega

end Double

/-! ## The whole scan -/

/-- The byte-at-a-time noodle scan: `final` at each position of the interval
whose key bytes match, in increasing order. -/
def noodScalar (n : NoodTable) (buf : List Nat) (start : Nat) (halt : Nat → Bool) : ScanRun :=
  let len := buf.length
  if len - start < n.mskLen then ⟨[], false⟩
  else if n.single then
    let noCase := n.nocase && ourisalpha n.key0
    let cm := if noCase then caseClear else 0xff
    let lo := start + n.mskLen - 1
    finalEach n buf (n.mskLen != 1) halt (singleHits buf cm (caseClear8 n.key0 noCase) lo (len - lo)) ⟨[], false⟩
  else
    let cm := if n.nocase then caseClear else 0xff
    let lo := start + n.mskLen - n.keyOffset
    finalEach n buf true halt
      (doubleHits buf cm (caseClear8 n.key0 n.nocase) (caseClear8 n.key1 n.nocase) lo (len - n.keyOffset + 2 - lo - 1))
      ⟨[], false⟩

/-- **The vector scan is the scalar scan.**  For every table, buffer,
address of the buffer and start, and every vector size, `noodExec` makes the
calls to `final` of the byte-at-a-time scan. -/
theorem noodExec_eq_noodScalar {S : Nat} (hS : 0 < S) (n : NoodTable) (buf : List Nat) (addr start : Nat)
    (halt : Nat → Bool) :
    noodExec S n buf addr start halt = noodScalar n buf start halt := by
  simp only [noodExec, scan, noodScalar, scanSingle, scanDouble]
  by_cases hshort : buf.length - start < n.mskLen
  · simp only [hshort, if_true]
  by_cases hsingle : n.single = true
  · simp only [hshort, hsingle, if_false, if_true]
    exact scanSingleMain_eq S n buf addr halt _ _ hS buf.length start _
  · simp only [hshort, hsingle, if_false]
    exact scanDoubleMain_eq S n buf addr halt _ _ _ hS buf.length start _


end Hwlm
end Vectorscan
