import Vectorscan.Lib.Word
import Vectorscan.Lib.BlockScan

/-!
# The shape of a vector scan

A forward vector scan of `[buf, buf_end)` with vectors of `S` bytes looks at
the vector at `buf` when `buf` is not aligned, then at the aligned vectors
from the next boundary `d1` while a whole vector fits, then at the last vector
of the buffer, which ends at `buf_end`, unless the aligned vectors reached it;
it returns the first hit that one of them reports, else `buf_end`.  A reverse
scan is the mirror image, from `buf_end` down, and returns `buf - 1` when
there is no hit.  The vectors overlap; the byte loops that scanners use below
a vector are `byteLoopFwd` and `byteLoopRev`.

**Results.**  `byteLoopFwd_eq`, `byteLoopRev_eq`: the byte loops return the first and
the last hit.  `fwdScan_eq`, `revScan_eq`: when each vector reports the first
(the last) hit of the bytes it covers, the scan returns the first (the last)
hit of the buffer; the last vector of a reverse scan may stop at any point of
the range that the aligned vectors left.

Nothing here names the program.
-/

namespace Vectorscan
namespace VectorScan

open Word BlockScan

/-! ## Byte loops -/

section Loops

variable (p : Nat → Bool)

/-- The byte loop forwards over the `n` positions from `i`: the first hit,
else the end. -/
def byteLoopFwd : Nat → Nat → Nat
  | 0, i => i
  | n + 1, i => if p i then i else byteLoopFwd n (i + 1)

/-- The byte loop backwards over the `n` positions below `top`: the last hit,
else the position before them. -/
def byteLoopRev : Nat → Nat → Nat
  | 0, top => top - 1
  | n + 1, top => if p (top - 1) then top - 1 else byteLoopRev n (top - 1)

theorem byteLoopFwd_eq : ∀ n i, byteLoopFwd p n i = (firstIn p i (i + n)).getD (i + n)
  | 0, i => by rw [byteLoopFwd, Nat.add_zero, firstIn_of_le le_rfl]; rfl
  | n + 1, i => by
    rw [byteLoopFwd, firstIn_of_lt (by omega), byteLoopFwd_eq n (i + 1), show i + 1 + n = i + (n + 1) by omega]
    cases p i
    · rfl
    · rw [if_pos rfl, if_pos rfl, Option.getD_some]

theorem byteLoopRev_eq : ∀ n top, n ≤ top → byteLoopRev p n top = (lastIn p (top - n) top).getD (top - n - 1)
  | 0, top, _ => by rw [byteLoopRev, Nat.sub_zero, lastIn_of_le le_rfl]; rfl
  | n + 1, top, h => by
    obtain ⟨t, rfl⟩ : ∃ t, top = t + 1 := ⟨top - 1, by omega⟩
    rw [byteLoopRev, Nat.add_sub_cancel, lastIn_succ (by omega), byteLoopRev_eq n t (by omega), Nat.add_sub_add_right]
    cases p t
    · rfl
    · rw [if_pos rfl, if_pos rfl, Option.getD_some]

end Loops

/-! ## Forwards -/

section Forward

variable {p : Nat → Bool} {S : Nat}

/-- The vector at an unaligned `buf` runs past the next boundary, into the
range of the aligned vectors: the two scan up to the further of their ends. -/
theorem head_or_blocks (hS : 0 < S) {buf d1 e : Nat} (hd1 : d1 = (buf + (S - 1)) / S * S)
    (haligned : buf % S = 0 → buf + S ≤ e) :
    (if buf % S = 0 then none else firstIn p buf (buf + S)).or (firstIn p d1 e) = firstIn p buf (max (buf + S) e) := by
  subst hd1
  split_ifs with h
  · rw [Option.none_or, roundUp_of_mod_eq_zero hS h, Nat.max_eq_right (haligned h)]
  · rw [firstIn_or_overlap (le_roundUp hS buf) (roundUp_lt hS buf).le]

/-- The last vector from `t`, after a scan of `[buf, E)` whose blocks stopped
at `d`: nothing when they reached `buf_end`, else a range that starts inside
`[buf, E)`. -/
theorem or_lastBlock {buf bufEnd d E t : Nat} (hd : d ≤ E) (hE : E ≤ bufEnd) (hbt : buf ≤ t) (htE : t ≤ E) :
    (firstIn p buf E).or (if d = bufEnd then none else firstIn p t bufEnd) = firstIn p buf bufEnd := by
  split_ifs with hdE
  · rw [Option.or_none, show E = bufEnd by omega]
  · rw [firstIn_or_overlap hbt htE, Nat.max_eq_right hE]

/-- **A forward vector scan finds the first hit.**  The head vector at an
unaligned `buf`, the aligned vectors from `d1`, and the last vector of the
buffer from `t`, where `t` is at most where the aligned vectors stop: the
first hit of the buffer, else the scan's default `z` (`buf_end`). -/
theorem fwdScan_eq (hS : 0 < S) {buf bufEnd d1 d2 t z : Nat} (hd1 : d1 = (buf + (S - 1)) / S * S)
    (hd2 : d2 = d1 + (bufEnd - d1) / S * S) (hlong : buf + S ≤ bufEnd) (hbt : buf ≤ t) (ht : t ≤ d2) :
    ((if buf % S = 0 then none else firstIn p buf (buf + S)).or (firstIn p d1 d2)).getD
        ((if d2 = bufEnd then none else firstIn p t bufEnd).getD z) =
      (firstIn p buf bufEnd).getD z := by
  have h1 : d1 < buf + S := hd1 ▸ roundUp_lt hS buf
  have h3 : (bufEnd - d1) / S * S ≤ bufEnd - d1 := Nat.div_mul_le_self _ _
  -- an aligned buffer has no head, and its blocks cover a whole vector
  have haligned : buf % S = 0 → buf + S ≤ d2 := fun h => by
    have hd : d1 = buf := hd1.trans (roundUp_of_mod_eq_zero hS h)
    have hl : 1 ≤ (bufEnd - d1) / S := (Nat.le_div_iff_mul_le hS).mpr (by omega)
    have : S ≤ (bufEnd - d1) / S * S := Nat.le_mul_of_pos_left S hl
    omega
  rw [head_or_blocks hS hd1 haligned, ← Option.getD_or,
    or_lastBlock (Nat.le_max_right _ _) (by omega) hbt (Nat.le_trans ht (Nat.le_max_right _ _))]

end Forward

/-! ## Backwards -/

section Reverse

variable {p : Nat → Bool} {S : Nat}

/-- The vector that ends at an unaligned `buf_end` runs below the last
boundary, into the range of the aligned vectors. -/
theorem head_or_blocks_rev (hS : 0 < S) {bufEnd d1 e : Nat} (hd1 : d1 = bufEnd / S * S) (hlong : S ≤ bufEnd)
    (haligned : bufEnd % S = 0 → e + S ≤ bufEnd) :
    (if bufEnd % S = 0 then none else lastIn p (bufEnd - S) bufEnd).or (lastIn p e d1) =
      lastIn p (min e (bufEnd - S)) bufEnd := by
  subst hd1
  split_ifs with h
  · rw [Option.none_or, roundDown_of_mod_eq_zero h, Nat.min_eq_left (by have := haligned h; omega)]
  · have hlt := lt_roundDown_add hS bufEnd
    rw [lastIn_or_overlap (by omega) (roundDown_le bufEnd)]

/-- The first vector of the buffer, up to `t`, after a scan of `[E, buf_end)`
whose blocks stopped at `d`: nothing when they reached `buf`, else a range
that ends inside `[E, buf_end)`. -/
theorem or_firstBlock {buf bufEnd d E t : Nat} (hbE : buf ≤ E) (hEd : E ≤ d) (hEt : E ≤ t) (ht : t ≤ bufEnd) :
    (lastIn p E bufEnd).or (if d = buf then none else lastIn p buf t) = lastIn p buf bufEnd := by
  split_ifs with hd
  · rw [Option.or_none, show E = buf by omega]
  · rw [lastIn_or_overlap hEt ht, Nat.min_eq_left hbE]

/-- **A reverse vector scan finds the last hit.**  The head vector that ends
at an unaligned `buf_end`, the aligned vectors down from `d1`, and the first
vector of the buffer up to `t`, where `t` is at least where the aligned
vectors stop: the last hit of the buffer, else the scan's default `z`
(`buf - 1`). -/
theorem revScan_eq (hS : 0 < S) {buf bufEnd d1 d3 t z : Nat} (hd1 : d1 = bufEnd / S * S)
    (hd3 : d3 = d1 - (d1 - buf) / S * S) (hlong : buf + S ≤ bufEnd) (ht : d3 ≤ t) (htE : t ≤ bufEnd) :
    ((if bufEnd % S = 0 then none else lastIn p (bufEnd - S) bufEnd).or (lastIn p d3 d1)).getD
        ((if d3 = buf then none else lastIn p buf t).getD z) =
      (lastIn p buf bufEnd).getD z := by
  have h1 : d1 ≤ bufEnd := hd1 ▸ roundDown_le bufEnd
  have h2 : bufEnd < d1 + S := hd1 ▸ lt_roundDown_add hS bufEnd
  have h3 : (d1 - buf) / S * S ≤ d1 - buf := Nat.div_mul_le_self _ _
  have h4 : d1 - buf < (d1 - buf) / S * S + S := Nat.lt_div_mul_add hS
  -- an aligned end has no head, and the blocks below it cover a whole vector
  have haligned : bufEnd % S = 0 → d3 + S ≤ bufEnd := fun h => by
    have hd : d1 = bufEnd := hd1.trans (roundDown_of_mod_eq_zero h)
    have hl : 1 ≤ (d1 - buf) / S := (Nat.le_div_iff_mul_le hS).mpr (by omega)
    have : S ≤ (d1 - buf) / S * S := Nat.le_mul_of_pos_left S hl
    omega
  rw [head_or_blocks_rev hS hd1 (by omega) haligned, ← Option.getD_or,
    or_firstBlock (by omega) (Nat.min_le_left _ _) (Nat.le_trans (Nat.min_le_left _ _) ht) htE]

end Reverse

end VectorScan
end Vectorscan
