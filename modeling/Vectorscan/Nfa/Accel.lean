import Vectorscan.Lib.BitSetMap
import Vectorscan.Hwlm.Noodle
import Vectorscan.Nfa.Scan

/-!
# Acceleration scanners

The scanners that acceleration runs (`src/nfa/vermicelli_simd.cpp`,
`shufti_simd.hpp`, `truffle_simd.hpp`) and the masks that their compilers
build (`shufticompile.cpp`, `trufflecompile.cpp`).  A scanner returns the first
position of `[ptr, end)` whose byte (or pair of bytes) it accepts, or `end`.

**Model.**  A scanner is the scalar scan that its vector loops compute:
`firstIn` over the positions of the range with the test of one lane
(`vermicelliExec` runs exactly this loop on small ranges).  These are the
specifications: the vector loops themselves are `Nfa.Vermicelli`,
`Nfa.VermicelliDouble`, `Nfa.Shufti` and `Nfa.Truffle`, each proved equal to
its scanner here (the forward single vermicelli with vectors of any size but
64).  The double
vermicelli also stops at `end - 1` when the last byte is the first of the pair
(its `check for partial match at end`).  A class of bytes is a `CharReach`
of `Repeat.Period`, bit `c` for the byte `c`.  The shufti masks are built as `shuftiBuildMasks` builds
them: the high nibbles grouped by their sets of low nibbles (two `std::map`s,
`Lib.BitSetMap`), one bit per group, at most eight groups.

**Results.**  `shuftiHit_eq_test`: the masks that `shuftiBuildMasks` builds
accept exactly the bytes of the class; `truffleHit_eq_test`: so do those of
`truffleBuildMasks`.  The double vermicelli stops at or before every start of
its pair (`vermicelliDoubleExec_le`), and at or before a last byte that may
start one (`vermicelliDoubleExec_le_last`); the other scanners are `firstIn`
scans, which `firstIn_getD_le` bounds.
-/

namespace Vectorscan
namespace Nfa
namespace Accel

open Word Hwlm Repeat

/-! ## Scanners -/

/-- The byte compare of a vermicelli: the byte, under `CASE_CLEAR` for a
case-insensitive scan, is `c`. -/
def vermHit (c : Nat) (nocase : Bool) (b : Nat) : Bool := (if nocase then b &&& caseClear else b) == c

/-- `vermicelliExec`: the first byte of `[ptr, end)` that is `c`, else `end`. -/
def vermicelliExec (c : Nat) (nocase : Bool) (buf : List Nat) (ptr endp : Nat) : Nat :=
  (firstIn (fun i => vermHit c nocase (buf.getD i 0)) ptr endp).getD endp

/-- The pair compare of a double vermicelli at `i`: `c1` there and `c2` next. -/
def dvermHit (c1 c2 : Nat) (nocase : Bool) (buf : List Nat) (i : Nat) : Bool :=
  vermHit c1 nocase (buf.getD i 0) && vermHit c2 nocase (buf.getD (i + 1) 0)

/-- `vermicelliDoubleExec`: the first position of `[ptr, end - 1)` where the
pair `c1 c2` starts; else `end - 1` when the last byte is `c1`, a pair that may
go on past `end`; else `end`. -/
def vermicelliDoubleExec (c1 c2 : Nat) (nocase : Bool) (buf : List Nat) (ptr endp : Nat) : Nat :=
  match firstIn (dvermHit c1 c2 nocase buf) ptr (endp - 1) with
  | some i => i
  | none => if vermHit c1 nocase (buf.getD (endp - 1) 0) then endp - 1 else endp

/-- The lane test of `shufti`: the low mask at the byte's low nibble and the
high mask at its high nibble share a bit. -/
def shuftiHit (lo hi : List Nat) (b : Nat) : Bool :=
  lo.getD (b &&& 0xf) 0 &&& hi.getD ((b >>> 4) &&& 0xf) 0 != 0

/-- `shuftiExec`: the first byte of `[ptr, end)` that the masks accept, else `end`. -/
def shuftiExec (lo hi : List Nat) (buf : List Nat) (ptr endp : Nat) : Nat :=
  (firstIn (fun i => shuftiHit lo hi (buf.getD i 0)) ptr endp).getD endp

/-- The lane test of `truffle`: the mask for the byte's top bit, at its low
nibble, has the bit that bits 4 to 6 of the byte name. -/
def truffleHit (highclear highset : List Nat) (b : Nat) : Bool :=
  (if b &&& 0x80 = 0 then highclear else highset).getD (b &&& 0xf) 0 &&& 1 <<< ((b >>> 4) &&& 7) != 0

/-- `truffleExec`: the first byte of `[ptr, end)` that the masks accept, else `end`. -/
def truffleExec (highclear highset : List Nat) (buf : List Nat) (ptr endp : Nat) : Nat :=
  (firstIn (fun i => truffleHit highclear highset (buf.getD i 0)) ptr endp).getD endp

/-! ## Where the double vermicelli stops -/

section Double

variable {c1 c2 : Nat} {nocase : Bool} {buf : List Nat} {ptr endp : Nat}

/-- The double vermicelli stops at or before every start of the pair. -/
theorem vermicelliDoubleExec_le {q : Nat} (h1 : ptr ≤ q) (h2 : q + 1 < endp) (hq : dvermHit c1 c2 nocase buf q = true) :
    vermicelliDoubleExec c1 c2 nocase buf ptr endp ≤ q := by
  unfold vermicelliDoubleExec
  split
  · rename_i i hi
    have := @firstIn_getD_le (dvermHit c1 c2 nocase buf) ptr (endp - 1) q h1 (by omega) hq
    rwa [hi, Option.getD_some] at this
  · rename_i hnone
    have := firstIn_eq_none_iff.1 hnone q h1 (by omega)
    simp_all

/-- It stops at or before the last byte when that byte starts the pair. -/
theorem vermicelliDoubleExec_le_last (hq : vermHit c1 nocase (buf.getD (endp - 1) 0) = true) :
    vermicelliDoubleExec c1 c2 nocase buf ptr endp ≤ endp - 1 := by
  unfold vermicelliDoubleExec
  split
  · rename_i i hi
    exact Nat.le_of_lt (firstIn_eq_some_iff.1 hi).2.1
  · rw [if_pos hq]

end Double

/-! ## Building the masks -/

/-- `by_hi` of `shuftiBuildMasks`: for each high nibble, the set of low
nibbles of the bytes of the class that have it. -/
def shuftiByHi (c : CharReach) : List (Nat × Nat) :=
  (crChars c).foldl (fun m i => BitSetMap.setBit m (i >>> 4) (i &&& 0xf)) []

/-- `by_lo_set`: the high nibbles grouped by their sets of low nibbles, taken
in the order of `by_hi`. -/
def shuftiByLoSet (c : CharReach) : List (Nat × Nat) :=
  (BitSetMap.entries (shuftiByHi c)).foldl (fun m e => BitSetMap.setBit m e.2 e.1) []

/-- Byte `j` of a shufti mask: bit `k` for each group `k` whose set `sel` has
`j` (what the loops over the groups or into `lo_a[j]` and `hi_a[j]`). -/
def shuftiMaskByte (groups : List (Nat × Nat)) (sel : Nat × Nat → Nat) (j : Nat) : Nat :=
  (groups.zipIdx.filter fun g => (sel g.1).testBit j).foldl (fun a g => a ||| 1 <<< g.2) 0

/-- `shuftiBuildMasks`: the low and the high mask, one bit per group in the
order of the map, or `none` (`-1`) for more than eight groups. -/
def shuftiBuildMasks (c : CharReach) : Option (List Nat × List Nat) :=
  let groups := BitSetMap.entries (shuftiByLoSet c)
  if groups.length > 8 then none
  else some ((List.range 16).map (shuftiMaskByte groups (·.1)), (List.range 16).map (shuftiMaskByte groups (·.2)))

/-- Byte `j` of a truffle mask: for each byte of the class with the top bit
`high` and the low nibble `j`, the bit that its bits 4 to 6 name. -/
def truffleMaskByte (c : CharReach) (high : Bool) (j : Nat) : Nat :=
  ((crChars c).filter fun v => (v &&& 0x80 != 0) == high && (v &&& 0xf) == j).foldl
    (fun a v => a ||| 1 <<< ((v &&& 0x70) >>> 4)) 0

/-- `truffleBuildMasks`: the masks for the bytes without and with the top bit. -/
def truffleBuildMasks (c : CharReach) : List Nat × List Nat :=
  ((List.range 16).map (truffleMaskByte c false), (List.range 16).map (truffleMaskByte c true))

/-! ## Bytes as nibbles -/

section Nibbles

theorem and_fifteen (b : Nat) : b &&& 0xf = b % 16 :=
  Nat.and_two_pow_sub_one_eq_mod b 4

theorem shiftRight_four (b : Nat) : b >>> 4 = b / 16 := by
  rw [Nat.shiftRight_eq_div_pow]

/-- A byte is its high nibble and its low nibble. -/
theorem eq_of_nibbles {a b : Nat} (hhi : a >>> 4 = b >>> 4) (hlo : a &&& 0xf = b &&& 0xf) : a = b := by
  rw [shiftRight_four, shiftRight_four] at hhi
  rw [and_fifteen, and_fifteen] at hlo
  have ha := Nat.div_add_mod a 16
  have hb := Nat.div_add_mod b 16
  omega

set_option maxRecDepth 4000 in
/-- A byte is its top bit, its bits 4 to 6 and its low nibble. -/
theorem truffle_split : ∀ b, b < 256 →
    b = (if b &&& 0x80 = 0 then 0 else 128) + 16 * ((b >>> 4) &&& 7) + (b &&& 0xf) ∧
      (b &&& 0x70) >>> 4 = (b >>> 4) &&& 7 := by
  decide

/-- Two bytes with the same top bit, bits 4 to 6 and low nibble are equal. -/
theorem eq_of_truffle_parts {v b : Nat} (hv : v < 256) (hb : b < 256) (htop : (v &&& 0x80 = 0) ↔ (b &&& 0x80 = 0))
    (hmid : (v >>> 4) &&& 7 = (b >>> 4) &&& 7) (hlo : v &&& 0xf = b &&& 0xf) : v = b := by
  obtain ⟨hv', -⟩ := truffle_split v hv
  obtain ⟨hb', -⟩ := truffle_split b hb
  have htop' : (if v &&& 0x80 = 0 then 0 else 128) = (if b &&& 0x80 = 0 then 0 else 128) := by
    by_cases h : b &&& 0x80 = 0
    · rw [if_pos h, if_pos (htop.mpr h)]
    · rw [if_neg h, if_neg (mt htop.mp h)]
  omega

theorem and_ne_zero_iff {x y : Nat} : x &&& y ≠ 0 ↔ ∃ k, x.testBit k = true ∧ y.testBit k = true := by
  constructor
  · intro h
    obtain ⟨k, hk⟩ := Nat.exists_testBit_of_ne_zero h
    rw [Nat.testBit_and, Bool.and_eq_true] at hk
    exact ⟨k, hk⟩
  · rintro ⟨k, hx, hy⟩ h0
    have := congrArg (fun z => z.testBit k) h0
    simp [Nat.testBit_and, hx, hy] at this

/-- A mask test against one bit reads that bit. -/
theorem and_one_shiftLeft_ne_zero (x t : Nat) : (x &&& 1 <<< t != 0) = x.testBit t := by
  rw [Nat.one_shiftLeft, Nat.and_two_pow]
  cases x.testBit t <;> simp

end Nibbles

/-! ## The truffle masks -/

/-- **The truffle masks are the class.**  A byte passes the lane test of the
masks that `truffleBuildMasks` builds exactly when it is in the class. -/
theorem truffleHit_eq_test (c : CharReach) {b : Nat} (hb : b < 256) :
    truffleHit (truffleBuildMasks c).1 (truffleBuildMasks c).2 b = c.testBit b := by
  have hlo : b &&& 0xf < 16 := by rw [and_fifteen]; omega
  have hmask : (if b &&& 0x80 = 0 then (truffleBuildMasks c).1 else (truffleBuildMasks c).2).getD (b &&& 0xf) 0 =
      truffleMaskByte c (b &&& 0x80 != 0) (b &&& 0xf) := by
    by_cases h8 : b &&& 0x80 = 0
    · simp [truffleBuildMasks, h8, hlo]
    · have h8' : (b &&& 0x80 != 0) = true := bne_iff_ne.mpr h8
      simp [truffleBuildMasks, h8, h8', hlo]
  rw [truffleHit, hmask, and_one_shiftLeft_ne_zero, truffleMaskByte, testBit_foldl_or_shiftLeft, Nat.zero_testBit,
    Bool.false_or]
  -- the byte of the class with the same top bit, bits 4 to 6 and low nibble is `b`
  have hsame : ∀ v ∈ crChars c, ((v &&& 0x80 != 0) == (b &&& 0x80 != 0) && (v &&& 0xf) == (b &&& 0xf)) = true →
      ((v &&& 0x70) >>> 4 == (b >>> 4) &&& 7) = true → v = b := by
    intro v hv hvb hvt
    obtain ⟨hv256, -⟩ := mem_crChars.1 hv
    simp only [Bool.and_eq_true, beq_iff_eq] at hvb hvt
    obtain ⟨htop, hlo⟩ := hvb
    rw [(truffle_split v hv256).2] at hvt
    refine eq_of_truffle_parts hv256 hb ?_ hvt hlo
    by_cases h1 : v &&& 0x80 = 0 <;> by_cases h2 : b &&& 0x80 = 0 <;> simp_all
  rw [Bool.eq_iff_iff, List.any_eq_true]
  constructor
  · rintro ⟨v, hv, hvt⟩
    obtain ⟨hvc, hvb⟩ := List.mem_filter.mp hv
    obtain rfl := hsame v hvc hvb hvt
    exact (mem_crChars.1 hvc).2
  · intro hc
    refine ⟨b, List.mem_filter.mpr ⟨mem_crChars.2 ⟨hb, hc⟩, by simp⟩, ?_⟩
    simp [(truffle_split b hb).2]

/-! ## The shufti masks -/

section Shufti

open BitSetMap

variable (c : CharReach)

/-- Bit `l` of the set of `h` in `by_hi` is the byte `16 h + l` of the class. -/
theorem testBit_get_shuftiByHi {h l : Nat} (hl : l < 16) :
    (get (shuftiByHi c) h).testBit l = true ↔ 16 * h + l ∈ crChars c := by
  rw [shuftiByHi, testBit_get_foldl, get_nil, Nat.zero_testBit, Bool.false_or, List.any_eq_true]
  simp only [Bool.and_eq_true, beq_iff_eq]
  constructor
  · rintro ⟨i, hi, hih, hil⟩
    have hi' : i = 16 * h + l := by
      rw [shiftRight_four] at hih
      rw [and_fifteen] at hil
      have := Nat.div_add_mod i 16
      omega
    exact hi' ▸ hi
  · intro hb
    refine ⟨16 * h + l, hb, ?_, ?_⟩
    · rw [shiftRight_four]
      omega
    · rw [and_fifteen]
      omega

theorem mem_keys_shuftiByHi {h : Nat} : h ∈ keys (shuftiByHi c) ↔ ∃ i ∈ crChars c, i >>> 4 = h := by
  rw [shuftiByHi, mem_keys_foldl]
  simp [keys]

theorem nodup_keys_shuftiByHi : (keys (shuftiByHi c)).Nodup :=
  nodup_keys_foldl _ _ _ List.nodup_nil

/-- High nibble `h` is in the group of the low-nibble set `ls` exactly when
`ls` is its set in `by_hi`. -/
theorem testBit_get_shuftiByLoSet {ls h : Nat} :
    (get (shuftiByLoSet c) ls).testBit h = true ↔ h ∈ keys (shuftiByHi c) ∧ get (shuftiByHi c) h = ls := by
  rw [shuftiByLoSet, testBit_get_foldl, get_nil, Nat.zero_testBit, Bool.false_or, List.any_eq_true]
  simp only [Bool.and_eq_true, beq_iff_eq]
  constructor
  · rintro ⟨e, he, hls, hh⟩
    obtain ⟨hk, hv⟩ := (mem_entries_iff (nodup_keys_shuftiByHi c) e).mp he
    rw [← hh]
    exact ⟨hk, by rw [← hv, hls]⟩
  · rintro ⟨hk, hv⟩
    exact ⟨(h, ls), (mem_entries_iff (nodup_keys_shuftiByHi c) _).mpr ⟨hk, hv.symm⟩, rfl, rfl⟩

theorem mem_keys_shuftiByLoSet {ls : Nat} :
    ls ∈ keys (shuftiByLoSet c) ↔ ∃ e ∈ entries (shuftiByHi c), e.2 = ls := by
  rw [shuftiByLoSet, mem_keys_foldl]
  simp [keys]

theorem nodup_keys_shuftiByLoSet : (keys (shuftiByLoSet c)).Nodup :=
  nodup_keys_foldl _ _ _ List.nodup_nil

/-- A byte is in the class exactly when some group has its low nibble in its
low-nibble set and its high nibble among its high nibbles. -/
theorem exists_group_iff {b : Nat} (hb : b < 256) :
    (∃ g ∈ entries (shuftiByLoSet c), g.1.testBit (b &&& 0xf) = true ∧ g.2.testBit (b >>> 4) = true) ↔
      c.testBit b = true := by
  have hsplit : 16 * (b >>> 4) + (b &&& 0xf) = b := by
    rw [shiftRight_four, and_fifteen]
    exact Nat.div_add_mod b 16
  have hlo : b &&& 0xf < 16 := by rw [and_fifteen]; omega
  constructor
  · rintro ⟨g, hg, hl, hh⟩
    obtain ⟨-, hv⟩ := (mem_entries_iff (nodup_keys_shuftiByLoSet c) g).mp hg
    rw [hv, testBit_get_shuftiByLoSet] at hh
    rw [← hh.2, testBit_get_shuftiByHi c hlo, hsplit] at hl
    exact (mem_crChars.1 hl).2
  · intro hc
    have hmem : b ∈ crChars c := mem_crChars.2 ⟨hb, hc⟩
    have hkey : b >>> 4 ∈ keys (shuftiByHi c) := (mem_keys_shuftiByHi c).mpr ⟨b, hmem, rfl⟩
    -- the group of the low-nibble set of `b`'s high nibble
    set ls := get (shuftiByHi c) (b >>> 4) with hls
    have hentry : (b >>> 4, ls) ∈ entries (shuftiByHi c) :=
      (mem_entries_iff (nodup_keys_shuftiByHi c) _).mpr ⟨hkey, rfl⟩
    have hgkey : ls ∈ keys (shuftiByLoSet c) := (mem_keys_shuftiByLoSet c).mpr ⟨_, hentry, rfl⟩
    refine ⟨(ls, get (shuftiByLoSet c) ls), (mem_entries_iff (nodup_keys_shuftiByLoSet c) _).mpr ⟨hgkey, rfl⟩,
      ?_, (testBit_get_shuftiByLoSet c).mpr ⟨hkey, rfl⟩⟩
    rw [hls, testBit_get_shuftiByHi c hlo, hsplit]
    exact hmem

/-- Bit `k` of byte `j` of a shufti mask: group `k` has `j` in its set `sel`. -/
theorem testBit_shuftiMaskByte (groups : List (Nat × Nat)) (sel : Nat × Nat → Nat) (j k : Nat) :
    (shuftiMaskByte groups sel j).testBit k = true ↔ ∃ g ∈ groups.zipIdx, (sel g.1).testBit j = true ∧ g.2 = k := by
  rw [shuftiMaskByte, testBit_foldl_or_shiftLeft, Nat.zero_testBit, Bool.false_or, List.any_eq_true]
  simp [List.mem_filter, and_assoc]

/-- Two bits set at the same index of a numbered list come from one entry. -/
theorem exists_zipIdx_same {α : Type*} (l : List α) (p q : α → Prop) :
    (∃ k, (∃ g ∈ l.zipIdx, p g.1 ∧ g.2 = k) ∧ ∃ g ∈ l.zipIdx, q g.1 ∧ g.2 = k) ↔ ∃ x ∈ l, p x ∧ q x := by
  constructor
  · rintro ⟨k, ⟨⟨x, i⟩, hx, hp, rfl⟩, ⟨⟨y, j⟩, hy, hq, hji⟩⟩
    simp only at hji
    subst hji
    rw [List.mk_mem_zipIdx_iff_getElem?] at hx hy
    obtain rfl : x = y := Option.some.inj (hx.symm.trans hy)
    exact ⟨x, List.mem_of_getElem? hx, hp, hq⟩
  · rintro ⟨x, hx, hp, hq⟩
    obtain ⟨i, hi⟩ := List.mem_iff_getElem?.mp hx
    have hmem : (x, i) ∈ l.zipIdx := List.mk_mem_zipIdx_iff_getElem?.mpr hi
    exact ⟨i, ⟨(x, i), hmem, hp, rfl⟩, ⟨(x, i), hmem, hq, rfl⟩⟩

/-- **The shufti masks are the class.**  When `shuftiBuildMasks` succeeds, a
byte passes the lane test of its masks exactly when it is in the class. -/
theorem shuftiHit_eq_test {lo hi : List Nat} (h : shuftiBuildMasks c = some (lo, hi)) {b : Nat} (hb : b < 256) :
    shuftiHit lo hi b = c.testBit b := by
  dsimp only [shuftiBuildMasks] at h
  split at h
  · exact absurd h (by simp)
  obtain ⟨rfl, rfl⟩ := Prod.mk.inj (Option.some.inj h)
  have hlo : b &&& 0xf < 16 := by rw [and_fifteen]; omega
  have hhi : (b >>> 4) &&& 0xf = b >>> 4 := by
    rw [and_fifteen, shiftRight_four]
    omega
  have hhi16 : b >>> 4 < 16 := by rw [shiftRight_four]; omega
  rw [shuftiHit, hhi, getD_map_range _ _ hlo, getD_map_range _ _ hhi16, Bool.eq_iff_iff, bne_iff_ne, and_ne_zero_iff,
    ← exists_group_iff c hb]
  simp only [testBit_shuftiMaskByte]
  exact exists_zipIdx_same _ (fun g : Nat × Nat => g.1.testBit (b &&& 0xf) = true)
    (fun g => g.2.testBit (b >>> 4) = true)

end Shufti

end Accel
end Nfa
end Vectorscan
