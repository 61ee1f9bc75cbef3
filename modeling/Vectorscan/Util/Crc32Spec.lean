import Vectorscan.Util.Crc32
import Mathlib.Data.List.Basic

/-!
# The CRC32C builds against the bytewise loop

`crc32cSpec` is the CRC32C of a list of bytes, one byte at a time, each byte
eight steps of the reflected register.  The bytewise loop of the source,
`crc32c`, computes it on every buffer.  The two builds of `Crc32c_ComputeBuf`
compute it exactly when the buffer reaches the first alignment boundary: when
it ends before, the loop up to the boundary reads past the end of the buffer
(and `length - init_bytes` wraps in `size_t`).

**Results.**  `crcLoop_byteBody`, `crcLoop_byteBody_past_end` and
`crcLoop_words` are the three loops of `crcAligned`; `crcAligned_eq_some` and
`crcAligned_eq_none` are the whole function on the two sides of the boundary.
`crc32cSb8Body_eq` and `crc32cSse42Body_eq` are the main-loop passes of the two
builds.  `crc32cComputeBuf_reads_past_end`: on a buffer that ends before the
next 4-byte boundary both builds read outside it, while the bytewise loop does
not; no caller passes one, as the bytecode is aligned.
`crc32cComputeBuf_eq_crc32c_iff`: the bytewise loop is the CRC32C and the
tables are its steps; on every other buffer both builds return the bytewise
loop's value, and on no short one.
-/

namespace Vectorscan
namespace Crc32

open Crc
open Multibit (roundupN)

/-- The CRC32C of `bytes` from `crc`, a byte at a time: what every build is to
compute. -/
def crc32cSpec (crc : Nat) (bytes : List Nat) : Nat :=
  bytes.foldl (fun c b => (crcBit crc32cPoly)^[8] (c ^^^ b)) crc

theorem crc32cSpec_append (crc : Nat) (xs ys : List Nat) :
    crc32cSpec crc (xs ++ ys) = crc32cSpec (crc32cSpec crc xs) ys := List.foldl_append

theorem crc32cSpec_lt {bytes : List Nat} (hbytes : ∀ b ∈ bytes, b < 256) {crc : Nat} (hcrc : crc < 2 ^ 32) :
    crc32cSpec crc bytes < 2 ^ 32 := by
  induction bytes generalizing crc with
  | nil => exact hcrc
  | cons b bs ih =>
    have hb := hbytes b List.mem_cons_self
    have hin : crc ^^^ b < 2 ^ (32 + 8) :=
      Nat.lt_of_lt_of_le (Nat.xor_lt_two_pow hcrc (by omega)) (Nat.pow_le_pow_right (by decide) (by omega))
    exact ih (fun x hx => hbytes x (List.mem_cons_of_mem _ hx)) (crcBit_iterate_lt crc32cPoly_lt 8 hin)

/-- A fold whose step is the table step on bytes is the CRC. -/
theorem foldl_eq_crc32cSpec {step : Nat → Nat → Nat}
    (hstep : ∀ c b, b < 256 → step c b = (crcBit crc32cPoly)^[8] (c ^^^ b))
    {bytes : List Nat} (hbytes : ∀ b ∈ bytes, b < 256) (crc : Nat) :
    bytes.foldl step crc = crc32cSpec crc bytes :=
  List.foldl_ext _ _ _ fun c b hb => hstep c b (hbytes b hb)

/-! ## Slices of the buffer -/

section Slices

variable {bytes : List Nat}

/-- Bytes `i .. i + m + n` are bytes `i .. i + m`, then bytes `i + m .. i + m + n`. -/
theorem take_drop_add (i m n : Nat) :
    (bytes.drop i).take (m + n) = (bytes.drop i).take m ++ (bytes.drop (i + m)).take n := by
  rw [List.take_add, List.drop_drop]

theorem length_take_drop {i n : Nat} (h : i + n ≤ bytes.length) : ((bytes.drop i).take n).length = n := by
  rw [List.length_take, List.length_drop]
  omega

theorem lt_of_mem_take_drop (hbytes : ∀ b ∈ bytes, b < 256) {i n b : Nat} (hb : b ∈ (bytes.drop i).take n) :
    b < 256 :=
  hbytes b (List.mem_of_mem_drop (List.mem_of_mem_take hb))

/-- A slice of `n` bytes is below `2 ^ (8 * n)`. -/
theorem leValue_take_drop_lt (hbytes : ∀ b ∈ bytes, b < 256) (i n : Nat) :
    leValue ((bytes.drop i).take n) < 2 ^ (8 * n) := by
  have h := leValue_lt fun b hb => lt_of_mem_take_drop hbytes (i := i) (n := n) hb
  calc leValue ((bytes.drop i).take n) < 256 ^ ((bytes.drop i).take n).length := h
    _ ≤ 256 ^ n := Nat.pow_le_pow_right (by decide) (List.length_take_le _ _)
    _ = 2 ^ (8 * n) := by rw [Nat.pow_mul]

end Slices

/-! ## The loops -/

section Loops

variable {buf : Nat} {bytes : List Nat}

theorem readByte_of_lt {i : Nat} (hi : i < bytes.length) : readByte buf bytes (buf + i) = some bytes[i] := by
  simp [readByte, hi]

theorem readByte_length : readByte buf bytes (buf + bytes.length) = none := by
  simp [readByte]

/-- A little-endian load inside the buffer is the value of its bytes. -/
theorem loadLE_eq (n : Nat) :
    ∀ i, i + n ≤ bytes.length → loadLE buf bytes (buf + i) n = some (leValue ((bytes.drop i).take n)) := by
  induction n with
  | zero => intro i _; simp [loadLE, leValue]
  | succ n ih =>
    intro i hin
    have hi : i < bytes.length := by omega
    rw [loadLE, readByte_of_lt hi, Nat.add_assoc, ih (i + 1) (by omega), List.drop_eq_getElem_cons hi,
      List.take_succ_cons, leValue]
    rfl

/-- **The byte loop.**  `n` passes of a byte loop from byte `i` of the buffer,
all inside it, fold those bytes in with the loop's step. -/
theorem crcLoop_byteBody (step : Nat → Nat → Nat) (n : Nat) :
    ∀ i crc, i + n ≤ bytes.length →
      crcLoop 1 (byteBody step buf bytes) n crc (buf + i) = some (((bytes.drop i).take n).foldl step crc) := by
  induction n with
  | zero => intro i crc _; simp [crcLoop]
  | succ n ih =>
    intro i crc hin
    have hi : i < bytes.length := by omega
    rw [crcLoop, byteBody, readByte_of_lt hi, Option.map_some, Option.bind_eq_bind, Option.bind_some,
      Nat.add_assoc, ih (i + 1) _ (by omega), List.drop_eq_getElem_cons hi, List.take_succ_cons,
      List.foldl_cons]

/-- **Past the end.**  A byte loop that would pass the end of the buffer
reads the byte after it, and fails. -/
theorem crcLoop_byteBody_past_end (step : Nat → Nat → Nat) (n : Nat) :
    ∀ i crc, i ≤ bytes.length → bytes.length < i + n →
      crcLoop 1 (byteBody step buf bytes) n crc (buf + i) = none := by
  induction n with
  | zero => intro i crc hi hn; omega
  | succ n ih =>
    intro i crc hi hn
    rcases Nat.lt_or_ge i bytes.length with hlt | hge
    · -- the byte at `i` is inside: the loop goes on from `i + 1`
      rw [crcLoop, byteBody, readByte_of_lt hlt, Option.map_some, Option.bind_eq_bind, Option.bind_some,
        Nat.add_assoc]
      exact ih (i + 1) _ hlt (by omega)
    · -- the byte at `i` is the one after the end
      obtain rfl : i = bytes.length := by omega
      rw [crcLoop, byteBody, readByte_length]
      rfl

variable (hbytes : ∀ b ∈ bytes, b < 256)
include hbytes

/-- **The word loop.**  `k` passes of a loop whose pass folds in the next
`word` bytes, all inside the buffer, fold in those `word * k` bytes. -/
theorem crcLoop_words {word : Nat} {body : Nat → Nat → Option Nat}
    (hbody : ∀ c i, c < 2 ^ 32 → i + word ≤ bytes.length →
      body c (buf + i) = some (crc32cSpec c ((bytes.drop i).take word)))
    (k : Nat) :
    ∀ i crc, crc < 2 ^ 32 → i + word * k ≤ bytes.length →
      crcLoop word body k crc (buf + i) = some (crc32cSpec crc ((bytes.drop i).take (word * k))) := by
  induction k with
  | zero => intro i crc _ _; simp [crcLoop, crc32cSpec]
  | succ k ih =>
    intro i crc hcrc hik
    rw [Nat.mul_succ] at hik
    have hlt : crc32cSpec crc ((bytes.drop i).take word) < 2 ^ 32 :=
      crc32cSpec_lt (fun b hb => lt_of_mem_take_drop hbytes hb) hcrc
    rw [crcLoop, hbody crc i hcrc (by omega), Option.bind_eq_bind, Option.bind_some, Nat.add_assoc,
      ih (i + word) _ hlt (by omega), Nat.mul_succ, Nat.add_comm (word * k) word, take_drop_add,
      crc32cSpec_append]

/-- A pass of the slicing-by-8 loop inside the buffer folds in its eight bytes. -/
theorem crc32cSb8Body_eq (c i : Nat) (hc : c < 2 ^ 32) (hi : i + 8 ≤ bytes.length) :
    crc32cSb8Body buf bytes c (buf + i) = some (crc32cSpec c ((bytes.drop i).take 8)) := by
  have h1 := leValue_take_drop_lt hbytes i 4
  have h2 := leValue_take_drop_lt hbytes (i + 4) 4
  have hx : c ^^^ leValue ((bytes.drop i).take 4) < 2 ^ 32 := Nat.xor_lt_two_pow hc h1
  -- the eight bytes are the two words, the second above the first
  have hsplit : leValue ((bytes.drop i).take 8) =
      leValue ((bytes.drop i).take 4) ^^^ leValue ((bytes.drop (i + 4)).take 4) * 2 ^ 32 := by
    rw [show 8 = 4 + 4 from rfl, take_drop_add, leValue_append, length_take_drop (by omega),
      xor_mul_two_pow h1, Nat.mul_comm]
    rfl
  rw [crc32cSb8Body, loadLE_eq 4 i (by omega), Nat.add_assoc, loadLE_eq 4 (i + 4) (by omega)]
  simp only [Option.bind_eq_bind, Option.bind_some, Option.pure_def]
  -- the second word's sixty-four steps from its place are thirty-two of the word
  have hhigh : (crcBit crc32cPoly)^[64] (leValue ((bytes.drop (i + 4)).take 4) * 2 ^ 32) =
      (crcBit crc32cPoly)^[32] (leValue ((bytes.drop (i + 4)).take 4)) :=
    crcBit_iterate_mul_two_pow_add 32 32 _
  rw [crc32cSb8Block_eq hx h2, crc32cSpec, foldl_crcBit_eight _ (fun b hb => lt_of_mem_take_drop hbytes hb),
    length_take_drop hi, hsplit, ← Nat.xor_assoc, show 8 * 8 = 64 from rfl,
    crcBit_iterate_xor 64 _ (_ * 2 ^ 32), hhigh]

/-- A pass of the SSE4.2 loop inside the buffer folds in its eight bytes. -/
theorem crc32cSse42Body_eq (c i : Nat) (hc : c < 2 ^ 32) (hi : i + 8 ≤ bytes.length) :
    crc32cSse42Body buf bytes c (buf + i) = some (crc32cSpec c ((bytes.drop i).take 8)) := by
  have hv := leValue_take_drop_lt hbytes i 8
  have hin : c ^^^ leValue ((bytes.drop i).take 8) < 2 ^ (32 + 64) :=
    Nat.lt_of_lt_of_le (Nat.xor_lt_two_pow (Nat.lt_of_lt_of_le hc (Nat.pow_le_pow_right (by decide) (by omega))) hv)
      (Nat.pow_le_pow_right (by decide) (by omega))
  rw [crc32cSse42Body, loadLE_eq 8 i hi]
  simp only [Option.bind_eq_bind, Option.bind_some, Option.pure_def]
  rw [mmCrc32U64, Nat.mod_eq_of_lt (crcBit_iterate_lt crc32cPoly_lt 64 hin), crc32cSpec,
    foldl_crcBit_eight _ (fun b hb => lt_of_mem_take_drop hbytes hb), length_take_drop hi]

end Loops

/-! ## The aligned shape -/

theorem le_roundupN (a : Nat) {n : Nat} (hn : 0 < n) : a ≤ roundupN a n := by
  have hdiv := Nat.div_add_mod (a + (n - 1)) n
  have hmod := Nat.mod_lt (a + (n - 1)) hn
  rw [roundupN, Nat.mul_comm]
  omega

theorem roundupN_four_le_eight (a : Nat) : roundupN a 4 ≤ roundupN a 8 := by
  unfold roundupN
  omega

section Aligned

variable {align word : Nat} {byteStep : Nat → Nat → Nat} {wordBody : Nat → Nat → Option Nat}
  {buf : Nat} {bytes : List Nat}

/-- **Too short.**  When the buffer ends before the boundary, the loop up to
the boundary reads past its end. -/
theorem crcAligned_eq_none (crc : Nat) (hshort : bytes.length < roundupN buf align - buf) :
    crcAligned align word byteStep wordBody crc buf bytes = none := by
  have h : crcLoop 1 (byteBody byteStep buf bytes) (roundupN buf align - buf) crc (buf + 0) = none :=
    crcLoop_byteBody_past_end byteStep _ 0 crc (Nat.zero_le _) (by omega)
  rw [Nat.add_zero] at h
  simp only [crcAligned, h, Option.bind_eq_bind, Option.bind_none]

/-- **Long enough.**  When the buffer reaches the boundary, the three loops
cover it: the bytes before the boundary, whole words, and the rest. -/
theorem crcAligned_eq_some (hbytes : ∀ b ∈ bytes, b < 256) (halign : 0 < align) (hword : 0 < word)
    (hstep : ∀ c b, b < 256 → byteStep c b = (crcBit crc32cPoly)^[8] (c ^^^ b))
    (hbody : ∀ c i, c < 2 ^ 32 → i + word ≤ bytes.length →
      wordBody c (buf + i) = some (crc32cSpec c ((bytes.drop i).take word)))
    {crc : Nat} (hcrc : crc < 2 ^ 32) (hlen : bytes.length < 2 ^ 64)
    (hinit : roundupN buf align - buf ≤ bytes.length) :
    crcAligned align word byteStep wordBody crc buf bytes = some (crc32cSpec crc bytes) := by
  -- the counts of the three loops, as the source computes them
  obtain ⟨init, haligned⟩ : ∃ init, roundupN buf align = buf + init :=
    ⟨roundupN buf align - buf, by have := le_roundupN buf halign; omega⟩
  rw [haligned, Nat.add_sub_cancel_left] at hinit
  obtain ⟨q, hq⟩ : ∃ q, q = (bytes.length - init) / word := ⟨_, rfl⟩
  have hwq : word * q ≤ bytes.length - init := by
    rw [hq]
    exact Nat.mul_div_le _ _
  have hsub : sizeSub bytes.length init = bytes.length - init := by
    unfold sizeSub
    omega
  have hend : sizeSub (bytes.length - init) (q * word) = bytes.length - init - word * q := by
    unfold sizeSub
    rw [Nat.mul_comm]
    omega
  -- the three loops
  have hpre : crcLoop 1 (byteBody byteStep buf bytes) init crc (buf + 0) =
      some (crc32cSpec crc ((bytes.drop 0).take init)) := by
    rw [crcLoop_byteBody byteStep init 0 crc (by omega),
      foldl_eq_crc32cSpec hstep (fun b hb => lt_of_mem_take_drop hbytes hb)]
  rw [Nat.add_zero] at hpre
  have hpre_lt : crc32cSpec crc ((bytes.drop 0).take init) < 2 ^ 32 :=
    crc32cSpec_lt (fun b hb => lt_of_mem_take_drop hbytes hb) hcrc
  have hwords := crcLoop_words hbytes hbody q init _ hpre_lt (by omega)
  have hpost : ∀ c, crcLoop 1 (byteBody byteStep buf bytes) (bytes.length - init - word * q) c
      (buf + (init + word * q)) =
        some (crc32cSpec c ((bytes.drop (init + word * q)).take (bytes.length - init - word * q))) := by
    intro c
    rw [crcLoop_byteBody byteStep _ _ c (by omega),
      foldl_eq_crc32cSpec hstep (fun b hb => lt_of_mem_take_drop hbytes hb)]
  simp only [crcAligned, haligned, Nat.add_sub_cancel_left, hsub, ← hq, Nat.mul_div_cancel _ hword, hend]
  rw [hpre, Option.bind_eq_bind, Option.bind_some, hwords, Option.bind_some, Nat.mul_comm q word,
    Nat.add_assoc, hpost]
  -- the three slices make up the buffer
  rw [← crc32cSpec_append, ← crc32cSpec_append, ← take_drop_add, List.drop_zero, ← List.take_add,
    List.take_of_length_le (by omega)]

end Aligned

/-! ## The two builds -/

/-- The bytewise loop reads only inside the buffer. -/
theorem crc32c_eq_foldl (crc buf : Nat) (bytes : List Nat) :
    crc32c crc buf bytes = some (bytes.foldl crc32cByte crc) := by
  have h : crcLoop 1 (byteBody crc32cByte buf bytes) bytes.length crc (buf + 0) =
      some (((bytes.drop 0).take bytes.length).foldl crc32cByte crc) :=
    crcLoop_byteBody crc32cByte bytes.length 0 crc (by omega)
  rwa [Nat.add_zero, List.drop_zero, List.take_length] at h

/-- **Short buffers.**  On a buffer that ends before the next 4-byte boundary
(so also before the next 8-byte one), the bytewise loop returns a value, while
both builds of `Crc32c_ComputeBuf` read past the end of the buffer.  The
database never hands it such a buffer: its bytecode is cache-line aligned
(`ISALIGNED_CL` in `dbCreate`), so the boundary is the buffer's own address. -/
theorem crc32cComputeBuf_reads_past_end (haveSse42 : Bool) (crc buf : Nat) (bytes : List Nat)
    (hshort : bytes.length < roundupN buf 4 - buf) :
    (crc32c crc buf bytes).isSome ∧ crc32cComputeBuf haveSse42 crc buf bytes = none := by
  refine ⟨by rw [crc32c_eq_foldl]; rfl, ?_⟩
  cases haveSse42 with
  | false => exact crcAligned_eq_none crc hshort
  | true => exact crcAligned_eq_none crc (Nat.lt_of_lt_of_le hshort (Nat.sub_le_sub_right (roundupN_four_le_eight buf) buf))

/-- A one-byte buffer one past a 4-byte boundary, which no aligned bytecode
is: both builds read past it. -/
theorem crc32cComputeBuf_reads_past_end_one_byte :
    (1 : Nat) < roundupN 1 4 - 1 ∧
      ((crc32c 0 1 [0]).isSome ∧ crc32cComputeBuf false 0 1 [0] = none) ∧
      ((crc32c 0 1 [0]).isSome ∧ crc32cComputeBuf true 0 1 [0] = none) :=
  ⟨by decide, crc32cComputeBuf_reads_past_end false 0 1 [0] (by decide),
    crc32cComputeBuf_reads_past_end true 0 1 [0] (by decide)⟩

/-- The bytewise loop computes the CRC32C of the buffer. -/
theorem crc32c_eq_crc32cSpec (crc buf : Nat) {bytes : List Nat} (hbytes : ∀ b ∈ bytes, b < 256) :
    crc32c crc buf bytes = some (crc32cSpec crc bytes) := by
  rw [crc32c_eq_foldl, foldl_eq_crc32cSpec (fun c b hb => crc32cByte_eq c hb) hbytes]

/-- Each build computes the CRC32C of the buffer exactly when the buffer
reaches its alignment boundary. -/
theorem crc32cComputeBuf_eq_some_iff (haveSse42 : Bool) {crc buf : Nat} {bytes : List Nat}
    (hcrc : crc < 2 ^ 32) (hbytes : ∀ b ∈ bytes, b < 256) (hlen : bytes.length < 2 ^ 64) :
    crc32cComputeBuf haveSse42 crc buf bytes = some (crc32cSpec crc bytes) ↔
      roundupN buf (if haveSse42 then 8 else 4) - buf ≤ bytes.length := by
  constructor
  · -- on a short buffer the build gives `none`
    intro h
    by_contra hshort
    have hnone : crc32cComputeBuf haveSse42 crc buf bytes = none := by
      cases haveSse42 with
      | false => exact crcAligned_eq_none crc (by simp at hshort; omega)
      | true => exact crcAligned_eq_none crc (by simp at hshort; omega)
    rw [hnone] at h
    cases h
  · intro hinit
    cases haveSse42 with
    | false =>
      exact crcAligned_eq_some hbytes (by decide) (by decide) (fun c b hb => crc32cByte_eq c hb)
        (crc32cSb8Body_eq hbytes) hcrc hlen hinit
    | true =>
      exact crcAligned_eq_some hbytes (by decide) (by decide) (fun c b _ => rfl)
        (crc32cSse42Body_eq hbytes) hcrc hlen hinit

/-- **The builds against the bytewise loop.**  The bytewise loop is the
reflected CRC32C of the buffer, and the slicing tables hold the steps of a
byte followed by `0` to `7` zero bytes; each build of `Crc32c_ComputeBuf`
returns what the bytewise loop returns exactly when the buffer reaches its
alignment boundary (4 bytes without SSE4.2, 8 with it). -/
theorem crc32cComputeBuf_eq_crc32c_iff (haveSse42 : Bool) {crc buf : Nat} {bytes : List Nat}
    (hcrc : crc < 2 ^ 32) (hbytes : ∀ b ∈ bytes, b < 256) (hlen : bytes.length < 2 ^ 64) :
    crc32c crc buf bytes = some (crc32cSpec crc bytes) ∧
      [crcTableil8O32, crcTableil8O40, crcTableil8O48, crcTableil8O56, crcTableil8O64, crcTableil8O72,
          crcTableil8O80, crcTableil8O88] =
        [stepTable 8, stepTable 16, stepTable 24, stepTable 32, stepTable 40, stepTable 48, stepTable 56,
          stepTable 64] ∧
      (crc32cComputeBuf haveSse42 crc buf bytes = crc32c crc buf bytes ↔
        roundupN buf (if haveSse42 then 8 else 4) - buf ≤ bytes.length) := by
  have href := crc32c_eq_crc32cSpec crc buf hbytes
  refine ⟨href, ?_, ?_⟩
  · rw [crcTableil8O32_eq, crcTableil8O40_eq, crcTableil8O48_eq, crcTableil8O56_eq, crcTableil8O64_eq,
      crcTableil8O72_eq, crcTableil8O80_eq, crcTableil8O88_eq]
  · rw [href]
    exact crc32cComputeBuf_eq_some_iff haveSse42 hcrc hbytes hlen

/-- Sixteen bytes one past a 4-byte boundary: both builds run their word loop
and agree with the bytewise loop. -/
theorem crc32cComputeBuf_eq_crc32c_iff_sixteen :
    (0xffffffff : Nat) < 2 ^ 32 ∧ (∀ b ∈ List.range 16, b < 256) ∧ (List.range 16).length < 2 ^ 64 ∧
      (crc32cComputeBuf false 0xffffffff 1 (List.range 16) = crc32c 0xffffffff 1 (List.range 16) ↔
        roundupN 1 4 - 1 ≤ 16) ∧
      (crc32cComputeBuf true 0xffffffff 1 (List.range 16) = crc32c 0xffffffff 1 (List.range 16) ↔
        roundupN 1 8 - 1 ≤ 16) :=
  ⟨by decide, by decide, by decide,
    (crc32cComputeBuf_eq_crc32c_iff false (by decide) (by decide) (by decide)).2.2,
    (crc32cComputeBuf_eq_crc32c_iff true (by decide) (by decide) (by decide)).2.2⟩

end Crc32
end Vectorscan
