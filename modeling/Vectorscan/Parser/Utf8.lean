import Mathlib.Data.List.Basic
import Mathlib.Tactic.Ring

/-!
# UTF-8 validation of expressions

`isValidUtf8` of `src/parser/utf8_validate.cpp` is what the compiler runs on an
expression compiled in UTF-8 mode (`compiler.cpp`): it decodes the bytes
greedily, one sequence at a time, by the class of the lead byte, and checks the
continuation bytes, overlong forms, surrogates and the U+10FFFF limit.

**Model.**  The expression is the list of its `len` bytes (`u8` is `UInt8`).
The `while` loop is `isValidUtf8Loop`, a recursion on the index that returns
the index where the loop stops; a `break` stops it where it stands.  The value
`val` that a sequence decodes to is a `Nat`: it is below `2 ^ 22`, so the `u32`
arithmetic of the source never wraps.  The null `expression` that the source
accepts is left out: a list always has its bytes.

**Abstract side.**  `utf8Encode`: the shortest-form encoding of a code point,
one byte up to U+007F, two up to U+07FF, three up to U+FFFF, four above
(RFC 3629 §3); `IsScalar`: a code point up to U+10FFFF that is not a
surrogate; `Utf8WellFormed`: a concatenation of encodings of scalar values.

**Results.**  `isValidUtf8_rejects_del`: the one-byte sequence 0x7F, the
encoding of U+007F, is well formed and rejected (the one-octet test is
`s[i] < 0x7f`), as the validator's unit test expects.  `isValidUtf8_iff`: the
validator accepts exactly the concatenations of encodings of scalar values
other than U+007F.
-/

namespace Vectorscan
namespace Parser

/-! ## The validator -/

/-- `UTF_CONT_BYTE_HEADER`: `10xx xxxx`. -/
def utfContByteHeader : UInt8 := 0x80

/-- `UTF_TWO_BYTE_HEADER`: `110x xxxx`. -/
def utfTwoByteHeader : UInt8 := 0xc0

/-- `UTF_THREE_BYTE_HEADER`: `1110 xxxx`. -/
def utfThreeByteHeader : UInt8 := 0xe0

/-- `UTF_FOUR_BYTE_HEADER`: `1111 0xxx`. -/
def utfFourByteHeader : UInt8 := 0xf0

/-- `UTF_CONT_BYTE_VALUE_MASK`. -/
def utfContByteValueMask : UInt8 := 0x3f

/-- `hasValidContBytes`: the first `num` bytes of `s` are continuation bytes. -/
def hasValidContBytes (s : List UInt8) (num : Nat) : Bool :=
  (List.range num).all fun i => (s.getD i 0 &&& 0xc0) == utfContByteHeader

/-- `isAllowedCodepoint`. -/
def isAllowedCodepoint (val : Nat) : Bool :=
  if val ≥ 0xd800 ∧ val ≤ 0xdfff then false
  else if val > 0x10ffff then false
  else true

/-- The `while (i < len)` loop of `isValidUtf8`: the index it stops at. -/
def isValidUtf8Loop (s : List UInt8) (i : Nat) : Nat :=
  if i < s.length then
    let c := s.getD i 0
    if c < 0x7f then
      -- One octet.
      isValidUtf8Loop s (i + 1)
    else if c &&& 0xe0 = utfTwoByteHeader then
      -- Two octets.
      if i + 2 > s.length then i
      else if !hasValidContBytes (s.drop (i + 1)) 1 then i
      else
        let val := ((c &&& 0x1f).toNat <<< 6) ||| (s.getD (i + 1) 0 &&& utfContByteValueMask).toNat
        if val < 1 <<< 7 then i
        else if !isAllowedCodepoint val then i
        else isValidUtf8Loop s (i + 2)
    else if c &&& 0xf0 = utfThreeByteHeader then
      -- Three octets.
      if i + 3 > s.length then i
      else if !hasValidContBytes (s.drop (i + 1)) 2 then i
      else
        let val := ((c &&& 0xf).toNat <<< 12) |||
          ((s.getD (i + 1) 0 &&& utfContByteValueMask).toNat <<< 6) |||
          (s.getD (i + 2) 0 &&& utfContByteValueMask).toNat
        if val < 1 <<< 11 then i
        else if !isAllowedCodepoint val then i
        else isValidUtf8Loop s (i + 3)
    else if c &&& 0xf8 = utfFourByteHeader then
      -- Four octets.
      if i + 4 > s.length then i
      else if !hasValidContBytes (s.drop (i + 1)) 3 then i
      else
        let val := ((c &&& 0xf).toNat <<< 18) |||
          ((s.getD (i + 1) 0 &&& utfContByteValueMask).toNat <<< 12) |||
          ((s.getD (i + 2) 0 &&& utfContByteValueMask).toNat <<< 6) |||
          (s.getD (i + 3) 0 &&& utfContByteValueMask).toNat
        if val < 1 <<< 16 then i
        else if !isAllowedCodepoint val then i
        else isValidUtf8Loop s (i + 4)
    else i
  else i
termination_by s.length - i

attribute [grind] isValidUtf8Loop

/-- `isValidUtf8(expression, len)`. -/
def isValidUtf8 (s : List UInt8) : Bool := isValidUtf8Loop s 0 == s.length

/-! ## Well-formed UTF-8 -/

/-- A Unicode scalar value: a code point up to U+10FFFF that is not a surrogate. -/
def IsScalar (v : Nat) : Prop := v ≤ 0x10ffff ∧ ¬ (0xd800 ≤ v ∧ v ≤ 0xdfff)

instance (v : Nat) : Decidable (IsScalar v) :=
  inferInstanceAs (Decidable (v ≤ 0x10ffff ∧ ¬ (0xd800 ≤ v ∧ v ≤ 0xdfff)))

/-- The shortest-form UTF-8 encoding of a code point (RFC 3629 §3): six bits
of the value in each continuation byte, the rest in the lead byte. -/
def utf8Encode (v : Nat) : List UInt8 :=
  if v < 0x80 then [v.toUInt8]
  else if v < 0x800 then [(0xc0 + v / 64).toUInt8, (0x80 + v % 64).toUInt8]
  else if v < 0x10000 then
    [(0xe0 + v / 4096).toUInt8, (0x80 + v / 64 % 64).toUInt8, (0x80 + v % 64).toUInt8]
  else
    [(0xf0 + v / 262144).toUInt8, (0x80 + v / 4096 % 64).toUInt8, (0x80 + v / 64 % 64).toUInt8,
      (0x80 + v % 64).toUInt8]

/-- Well-formed UTF-8: the encodings of scalar values, one after another. -/
def Utf8WellFormed (s : List UInt8) : Prop :=
  ∃ vs : List Nat, (∀ v ∈ vs, IsScalar v) ∧ s = vs.flatMap utf8Encode

/-! ## Bytes and values -/

/-- Or-ing in bits below a multiple of `2 ^ k` adds them. -/
theorem or_mul_two_pow {a b k : Nat} (hb : b < 2 ^ k) : a * 2 ^ k ||| b = a * 2 ^ k + b := by
  rw [Nat.mul_comm]
  exact (Nat.two_pow_add_eq_or_of_lt hb a).symm

/-- The value of a two-byte sequence. -/
theorem val_two {x y : Nat} (hy : y < 64) : x <<< 6 ||| y = x * 64 + y := by
  rw [Nat.shiftLeft_eq]
  exact or_mul_two_pow (k := 6) hy

/-- The value of a three-byte sequence. -/
theorem val_three {x y z : Nat} (hy : y < 64) (hz : z < 64) :
    x <<< 12 ||| y <<< 6 ||| z = x * 4096 + y * 64 + z := by
  rw [Nat.shiftLeft_eq, Nat.shiftLeft_eq, or_mul_two_pow (k := 12) (by norm_num; omega),
    show x * 2 ^ 12 + y * 2 ^ 6 = (x * 64 + y) * 2 ^ 6 by ring, or_mul_two_pow (k := 6) hz]
  ring

/-- The value of a four-byte sequence. -/
theorem val_four {x y z w : Nat} (hy : y < 64) (hz : z < 64) (hw : w < 64) :
    x <<< 18 ||| y <<< 12 ||| z <<< 6 ||| w = x * 262144 + y * 4096 + z * 64 + w := by
  rw [Nat.shiftLeft_eq, Nat.shiftLeft_eq, Nat.shiftLeft_eq, or_mul_two_pow (k := 18) (by norm_num; omega),
    show x * 2 ^ 18 + y * 2 ^ 12 = (x * 64 + y) * 2 ^ 12 by ring, or_mul_two_pow (k := 12) (by norm_num; omega),
    show (x * 64 + y) * 2 ^ 12 + z * 2 ^ 6 = (x * 4096 + y * 64 + z) * 2 ^ 6 by ring,
    or_mul_two_pow (k := 6) hw]
  ring

set_option maxRecDepth 4000 in
/-- The classes of a byte that the validator tells apart by its top bits. -/
theorem byte_classes : ∀ x, x < 256 →
    (x &&& 0xe0 = 0xc0 ↔ x / 32 = 6) ∧ (x &&& 0xf0 = 0xe0 ↔ x / 16 = 14) ∧
      (x &&& 0xf8 = 0xf0 ↔ x / 8 = 30) ∧ (x &&& 0xc0 = 0x80 ↔ x / 64 = 2) := by
  decide

theorem lt_0x7f_iff (c : UInt8) : c < 0x7f ↔ c.toNat < 127 := UInt8.lt_iff_toNat_lt

theorem and_e0_iff (c : UInt8) : c &&& 0xe0 = utfTwoByteHeader ↔ c.toNat / 32 = 6 := by
  rw [← UInt8.toNat_inj, UInt8.toNat_and]
  exact (byte_classes _ (UInt8.toNat_lt c)).1

theorem and_f0_iff (c : UInt8) : c &&& 0xf0 = utfThreeByteHeader ↔ c.toNat / 16 = 14 := by
  rw [← UInt8.toNat_inj, UInt8.toNat_and]
  exact (byte_classes _ (UInt8.toNat_lt c)).2.1

theorem and_f8_iff (c : UInt8) : c &&& 0xf8 = utfFourByteHeader ↔ c.toNat / 8 = 30 := by
  rw [← UInt8.toNat_inj, UInt8.toNat_and]
  exact (byte_classes _ (UInt8.toNat_lt c)).2.2.1

theorem and_c0_iff (c : UInt8) : c &&& 0xc0 = utfContByteHeader ↔ c.toNat / 64 = 2 := by
  rw [← UInt8.toNat_inj, UInt8.toNat_and]
  exact (byte_classes _ (UInt8.toNat_lt c)).2.2.2

theorem toNat_and_1f (c : UInt8) : (c &&& 0x1f).toNat = c.toNat % 32 := by
  rw [UInt8.toNat_and]
  exact Nat.and_two_pow_sub_one_eq_mod c.toNat 5

theorem toNat_and_f (c : UInt8) : (c &&& 0xf).toNat = c.toNat % 16 := by
  rw [UInt8.toNat_and]
  exact Nat.and_two_pow_sub_one_eq_mod c.toNat 4

theorem toNat_and_3f (c : UInt8) : (c &&& utfContByteValueMask).toNat = c.toNat % 64 := by
  rw [UInt8.toNat_and]
  exact Nat.and_two_pow_sub_one_eq_mod c.toNat 6

/-- `hasValidContBytes` checks each byte's top two bits. -/
theorem hasValidContBytes_iff (l : List UInt8) (num : Nat) :
    hasValidContBytes l num = true ↔ ∀ k < num, (l.getD k 0).toNat / 64 = 2 := by
  simp [hasValidContBytes, and_c0_iff]

/-- `isAllowedCodepoint` is the test for a scalar value. -/
theorem isAllowedCodepoint_iff (val : Nat) : isAllowedCodepoint val = true ↔ IsScalar val := by
  unfold isAllowedCodepoint IsScalar
  split_ifs <;> simp_all

theorem getD_drop (s : List UInt8) (i k : Nat) : (s.drop i).getD k 0 = s.getD (i + k) 0 := by
  simp [List.getD_eq_getElem?_getD]

theorem drop_eq_getD_cons {s : List UInt8} {i : Nat} (h : i < s.length) :
    s.drop i = s.getD i 0 :: s.drop (i + 1) := by
  rw [List.drop_eq_getElem_cons h]
  simp [List.getD_eq_getElem?_getD, h]

/-- The loop goes on past `hasValidContBytes` exactly when the bytes after the
lead byte at `i` are continuation bytes. -/
theorem hasValidContBytes_drop_iff {s : List UInt8} {i num : Nat} :
    (!hasValidContBytes (s.drop (i + 1)) num) ≠ true ↔ ∀ k < num, (s.getD (i + 1 + k) 0).toNat / 64 = 2 := by
  rw [ne_eq, Bool.not_eq_true', Bool.not_eq_false, hasValidContBytes_iff]
  simp only [getD_drop]

/-- The loop goes on past `isAllowedCodepoint` exactly on a scalar value. -/
theorem isAllowedCodepoint_iff_scalar {val : Nat} : (!isAllowedCodepoint val) ≠ true ↔ IsScalar val := by
  rw [ne_eq, Bool.not_eq_true', Bool.not_eq_false, isAllowedCodepoint_iff]

/-! ## One sequence -/

section Sequence

variable {c c1 c2 c3 : UInt8}

/-- A byte below 0x80 is the encoding of its value. -/
theorem utf8Encode_of_one (hc : c.toNat < 0x80) : utf8Encode c.toNat = [c] := by
  unfold utf8Encode
  rw [if_pos hc]
  simp

theorem utf8Encode_length_pos (v : Nat) : 0 < (utf8Encode v).length := by
  unfold utf8Encode
  split_ifs <;> simp

/-- A two-byte sequence that the validator takes is the encoding of its value. -/
theorem utf8Encode_of_two (hc : c.toNat / 32 = 6) (hc1 : c1.toNat / 64 = 2)
    (hv : 128 ≤ c.toNat % 32 * 64 + c1.toNat % 64) :
    utf8Encode (c.toNat % 32 * 64 + c1.toNat % 64) = [c, c1] := by
  have := UInt8.toNat_lt c
  unfold utf8Encode
  rw [if_neg (by omega), if_pos (by omega)]
  simp only [List.cons.injEq, and_true]
  constructor <;> apply UInt8.toNat_inj.mp <;> simp <;> omega

/-- A three-byte sequence that the validator takes is the encoding of its value. -/
theorem utf8Encode_of_three (hc : c.toNat / 16 = 14) (hc1 : c1.toNat / 64 = 2) (hc2 : c2.toNat / 64 = 2)
    (hv : 2048 ≤ c.toNat % 16 * 4096 + c1.toNat % 64 * 64 + c2.toNat % 64) :
    utf8Encode (c.toNat % 16 * 4096 + c1.toNat % 64 * 64 + c2.toNat % 64) = [c, c1, c2] := by
  have := UInt8.toNat_lt c
  unfold utf8Encode
  rw [if_neg (by omega), if_neg (by omega), if_pos (by omega)]
  simp only [List.cons.injEq, and_true]
  refine ⟨?_, ?_, ?_⟩ <;> apply UInt8.toNat_inj.mp <;> simp <;> omega

/-- A four-byte sequence that the validator takes is the encoding of its value. -/
theorem utf8Encode_of_four (hc : c.toNat / 8 = 30) (hc1 : c1.toNat / 64 = 2) (hc2 : c2.toNat / 64 = 2)
    (hc3 : c3.toNat / 64 = 2)
    (hv : 65536 ≤ c.toNat % 16 * 262144 + c1.toNat % 64 * 4096 + c2.toNat % 64 * 64 + c3.toNat % 64) :
    utf8Encode (c.toNat % 16 * 262144 + c1.toNat % 64 * 4096 + c2.toNat % 64 * 64 + c3.toNat % 64) =
      [c, c1, c2, c3] := by
  have := UInt8.toNat_lt c
  unfold utf8Encode
  rw [if_neg (by omega), if_neg (by omega), if_neg (by omega)]
  simp only [List.cons.injEq, and_true]
  refine ⟨?_, ?_, ?_, ?_⟩ <;> apply UInt8.toNat_inj.mp <;> simp <;> omega

end Sequence

/-! ## The loop, one sequence at a time -/

section Loop

variable {s : List UInt8} {i : Nat}

/-- The loop takes a byte below 0x7f. -/
theorem isValidUtf8Loop_one (hi : i < s.length) (hc : (s.getD i 0).toNat < 127) :
    isValidUtf8Loop s i = isValidUtf8Loop s (i + 1) := by
  rw [isValidUtf8Loop, if_pos hi]
  dsimp only
  rw [if_pos ((lt_0x7f_iff _).mpr hc)]

/-- The loop takes a two-byte sequence of a value from U+0080 on. -/
theorem isValidUtf8Loop_two (hi : i + 2 ≤ s.length) (hc : (s.getD i 0).toNat / 32 = 6)
    (hc1 : (s.getD (i + 1) 0).toNat / 64 = 2)
    (hv : 128 ≤ (s.getD i 0).toNat % 32 * 64 + (s.getD (i + 1) 0).toNat % 64) :
    isValidUtf8Loop s i = isValidUtf8Loop s (i + 2) := by
  have hcont : (!hasValidContBytes (s.drop (i + 1)) 1) ≠ true := hasValidContBytes_drop_iff.2 fun k hk => by
    obtain rfl : k = 0 := by omega
    exact hc1
  rw [isValidUtf8Loop, if_pos (by omega)]
  dsimp only
  rw [if_neg (by rw [lt_0x7f_iff]; omega), if_pos ((and_e0_iff _).mpr hc), if_neg (by omega),
    if_neg hcont, toNat_and_1f, toNat_and_3f,
    val_two (Nat.mod_lt _ (by decide)), if_neg (by rw [Nat.one_shiftLeft]; omega),
    if_neg (isAllowedCodepoint_iff_scalar.2 (by unfold IsScalar; omega))]

/-- The loop takes a three-byte sequence of a scalar value from U+0800 on. -/
theorem isValidUtf8Loop_three (hi : i + 3 ≤ s.length) (hc : (s.getD i 0).toNat / 16 = 14)
    (hc1 : (s.getD (i + 1) 0).toNat / 64 = 2) (hc2 : (s.getD (i + 2) 0).toNat / 64 = 2)
    (hv : 2048 ≤ (s.getD i 0).toNat % 16 * 4096 + (s.getD (i + 1) 0).toNat % 64 * 64 +
      (s.getD (i + 2) 0).toNat % 64)
    (hs : IsScalar ((s.getD i 0).toNat % 16 * 4096 + (s.getD (i + 1) 0).toNat % 64 * 64 +
      (s.getD (i + 2) 0).toNat % 64)) :
    isValidUtf8Loop s i = isValidUtf8Loop s (i + 3) := by
  have hc' : ¬ (s.getD i 0).toNat / 32 = 6 := by omega
  have hcont : (!hasValidContBytes (s.drop (i + 1)) 2) ≠ true := hasValidContBytes_drop_iff.2 fun k hk => by
    rcases (by omega : k = 0 ∨ k = 1) with rfl | rfl
    · exact hc1
    · exact hc2
  rw [isValidUtf8Loop, if_pos (by omega)]
  dsimp only
  rw [if_neg (by rw [lt_0x7f_iff]; omega), if_neg (by rw [and_e0_iff]; exact hc'),
    if_pos ((and_f0_iff _).mpr hc), if_neg (by omega), if_neg hcont,
    toNat_and_f, toNat_and_3f, toNat_and_3f, val_three (Nat.mod_lt _ (by decide)) (Nat.mod_lt _ (by decide)),
    if_neg (by rw [Nat.one_shiftLeft]; omega), if_neg (isAllowedCodepoint_iff_scalar.2 hs)]

/-- The loop takes a four-byte sequence of a scalar value from U+10000 on. -/
theorem isValidUtf8Loop_four (hi : i + 4 ≤ s.length) (hc : (s.getD i 0).toNat / 8 = 30)
    (hc1 : (s.getD (i + 1) 0).toNat / 64 = 2) (hc2 : (s.getD (i + 2) 0).toNat / 64 = 2)
    (hc3 : (s.getD (i + 3) 0).toNat / 64 = 2)
    (hv : 65536 ≤ (s.getD i 0).toNat % 16 * 262144 + (s.getD (i + 1) 0).toNat % 64 * 4096 +
      (s.getD (i + 2) 0).toNat % 64 * 64 + (s.getD (i + 3) 0).toNat % 64)
    (hs : IsScalar ((s.getD i 0).toNat % 16 * 262144 + (s.getD (i + 1) 0).toNat % 64 * 4096 +
      (s.getD (i + 2) 0).toNat % 64 * 64 + (s.getD (i + 3) 0).toNat % 64)) :
    isValidUtf8Loop s i = isValidUtf8Loop s (i + 4) := by
  have hc' : ¬ (s.getD i 0).toNat / 32 = 6 := by omega
  have hc'' : ¬ (s.getD i 0).toNat / 16 = 14 := by omega
  have hcont : (!hasValidContBytes (s.drop (i + 1)) 3) ≠ true := hasValidContBytes_drop_iff.2 fun k hk => by
    rcases (by omega : k = 0 ∨ k = 1 ∨ k = 2) with rfl | rfl | rfl
    · exact hc1
    · exact hc2
    · exact hc3
  rw [isValidUtf8Loop, if_pos (by omega)]
  dsimp only
  rw [if_neg (by rw [lt_0x7f_iff]; omega), if_neg (by rw [and_e0_iff]; exact hc'),
    if_neg (by rw [and_f0_iff]; exact hc''), if_pos ((and_f8_iff _).mpr hc), if_neg (by omega),
    if_neg hcont, toNat_and_f, toNat_and_3f, toNat_and_3f, toNat_and_3f,
    val_four (Nat.mod_lt _ (by decide)) (Nat.mod_lt _ (by decide)) (Nat.mod_lt _ (by decide)),
    if_neg (by rw [Nat.one_shiftLeft]; omega), if_neg (isAllowedCodepoint_iff_scalar.2 hs)]

/-- **One sequence of encoded UTF-8.**  On the encoding of a scalar value other
than U+007F, the loop goes on after it. -/
theorem isValidUtf8Loop_encode {v : Nat} (hv : IsScalar v) (h7f : v ≠ 0x7f) {rest : List UInt8}
    (hs : s.drop i = utf8Encode v ++ rest) :
    isValidUtf8Loop s i = isValidUtf8Loop s (i + (utf8Encode v).length) := by
  have hb : ∀ k, s.getD (i + k) 0 = (utf8Encode v ++ rest).getD k 0 := fun k => by rw [← hs, getD_drop]
  have hb0 : s.getD i 0 = (utf8Encode v ++ rest).getD 0 0 := hb 0
  have hlen : i + (utf8Encode v).length ≤ s.length := by
    have := congrArg List.length hs
    have hpos := utf8Encode_length_pos v
    simp only [List.length_drop, List.length_append] at this
    omega
  have hmax := hv.1
  unfold utf8Encode at hb hb0 hlen ⊢
  -- the range of the value decides the length of its encoding
  by_cases h1 : v < 0x80
  · rw [if_pos h1] at hb0 hlen ⊢
    have h0 : (s.getD i 0).toNat = v := by rw [hb0]; simp; omega
    exact isValidUtf8Loop_one (by simp at hlen; omega) (by omega)
  rw [if_neg h1] at hb hb0 hlen ⊢
  by_cases h2 : v < 0x800
  · rw [if_pos h2] at hb hb0 hlen ⊢
    have h0 : (s.getD i 0).toNat = 0xc0 + v / 64 := by rw [hb0]; simp; omega
    have h1' : (s.getD (i + 1) 0).toNat = 0x80 + v % 64 := by rw [hb]; simp; omega
    exact isValidUtf8Loop_two (by simp at hlen; omega) (by omega) (by omega) (by omega)
  rw [if_neg h2] at hb hb0 hlen ⊢
  by_cases h3 : v < 0x10000
  · rw [if_pos h3] at hb hb0 hlen ⊢
    have h0 : (s.getD i 0).toNat = 0xe0 + v / 4096 := by rw [hb0]; simp; omega
    have h1' : (s.getD (i + 1) 0).toNat = 0x80 + v / 64 % 64 := by rw [hb]; simp; omega
    have h2' : (s.getD (i + 2) 0).toNat = 0x80 + v % 64 := by rw [hb]; simp; omega
    refine isValidUtf8Loop_three (by simp at hlen; omega) (by omega) (by omega) (by omega) (by omega) ?_
    rw [h0, h1', h2', show (0xe0 + v / 4096) % 16 * 4096 + (0x80 + v / 64 % 64) % 64 * 64 +
      (0x80 + v % 64) % 64 = v by omega]
    exact hv
  rw [if_neg h3] at hb hb0 hlen ⊢
  have h0 : (s.getD i 0).toNat = 0xf0 + v / 262144 := by rw [hb0]; simp; omega
  have h1' : (s.getD (i + 1) 0).toNat = 0x80 + v / 4096 % 64 := by rw [hb]; simp; omega
  have h2' : (s.getD (i + 2) 0).toNat = 0x80 + v / 64 % 64 := by rw [hb]; simp; omega
  have h3' : (s.getD (i + 3) 0).toNat = 0x80 + v % 64 := by rw [hb]; simp; omega
  refine isValidUtf8Loop_four (by simp at hlen; omega) (by omega) (by omega) (by omega) (by omega) (by omega) ?_
  rw [h0, h1', h2', h3', show (0xf0 + v / 262144) % 16 * 262144 + (0x80 + v / 4096 % 64) % 64 * 4096 +
    (0x80 + v / 64 % 64) % 64 * 64 + (0x80 + v % 64) % 64 = v by omega]
  exact hv

/-- **One sequence the loop takes.**  Where the loop goes on from `i` to the
end, the bytes from `i` start with the encoding of a scalar value other than
U+007F, and the loop goes on from after it to the end. -/
theorem isValidUtf8Loop_decode (hi : i < s.length) (h : isValidUtf8Loop s i = s.length) :
    ∃ v, (IsScalar v ∧ v ≠ 0x7f) ∧ s.drop i = utf8Encode v ++ s.drop (i + (utf8Encode v).length) ∧
      isValidUtf8Loop s (i + (utf8Encode v).length) = s.length := by
  have hlt := UInt8.toNat_lt (s.getD i 0)
  rw [isValidUtf8Loop, if_pos hi] at h
  dsimp only at h
  split_ifs at h with h1 h2 h3 h4 h5 h6 h7 h8 h9 h10 h11 h12 h13 h14 h15 h16
  -- a `break` stops the loop before the end
  all_goals try omega
  · -- one octet
    rw [lt_0x7f_iff] at h1
    refine ⟨(s.getD i 0).toNat, ⟨by unfold IsScalar; omega, by omega⟩, ?_⟩
    rw [utf8Encode_of_one (by omega)]
    exact ⟨drop_eq_getD_cons hi, h⟩
  · -- two octets
    rw [and_e0_iff] at h2
    have hc1 : (s.getD (i + 1) 0).toNat / 64 = 2 := hasValidContBytes_drop_iff.1 h4 0 (by decide)
    rw [toNat_and_1f, toNat_and_3f, val_two (Nat.mod_lt _ (by decide))] at h5 h6
    rw [Nat.one_shiftLeft] at h5
    have henc := utf8Encode_of_two h2 hc1 (by omega)
    refine ⟨_, ⟨isAllowedCodepoint_iff_scalar.1 h6, by omega⟩, ?_⟩
    rw [henc, drop_eq_getD_cons hi, drop_eq_getD_cons (by omega)]
    exact ⟨rfl, h⟩
  · -- three octets
    rw [and_f0_iff] at h7
    have hc1 : (s.getD (i + 1) 0).toNat / 64 = 2 := hasValidContBytes_drop_iff.1 h9 0 (by decide)
    have hc2 : (s.getD (i + 2) 0).toNat / 64 = 2 := hasValidContBytes_drop_iff.1 h9 1 (by decide)
    rw [toNat_and_f, toNat_and_3f, toNat_and_3f,
      val_three (Nat.mod_lt _ (by decide)) (Nat.mod_lt _ (by decide))] at h10 h11
    rw [Nat.one_shiftLeft] at h10
    have henc := utf8Encode_of_three h7 hc1 hc2 (by omega)
    refine ⟨_, ⟨isAllowedCodepoint_iff_scalar.1 h11, by omega⟩, ?_⟩
    rw [henc, drop_eq_getD_cons hi, drop_eq_getD_cons (by omega), drop_eq_getD_cons (by omega)]
    exact ⟨rfl, h⟩
  · -- four octets
    rw [and_f8_iff] at h12
    have hc1 : (s.getD (i + 1) 0).toNat / 64 = 2 := hasValidContBytes_drop_iff.1 h14 0 (by decide)
    have hc2 : (s.getD (i + 2) 0).toNat / 64 = 2 := hasValidContBytes_drop_iff.1 h14 1 (by decide)
    have hc3 : (s.getD (i + 3) 0).toNat / 64 = 2 := hasValidContBytes_drop_iff.1 h14 2 (by decide)
    rw [toNat_and_f, toNat_and_3f, toNat_and_3f, toNat_and_3f,
      val_four (Nat.mod_lt _ (by decide)) (Nat.mod_lt _ (by decide)) (Nat.mod_lt _ (by decide))] at h15 h16
    rw [Nat.one_shiftLeft] at h15
    have henc := utf8Encode_of_four h12 hc1 hc2 hc3 (by omega)
    refine ⟨_, ⟨isAllowedCodepoint_iff_scalar.1 h16, by omega⟩, ?_⟩
    rw [henc, drop_eq_getD_cons hi, drop_eq_getD_cons (by omega), drop_eq_getD_cons (by omega),
      drop_eq_getD_cons (by omega)]
    exact ⟨rfl, h⟩

/-- The loop runs from `i` to the end exactly when the bytes from `i` are
encodings of scalar values other than U+007F.  The induction is on the bytes
left; each step is one sequence (`isValidUtf8Loop_encode`,
`isValidUtf8Loop_decode`). -/
theorem isValidUtf8Loop_eq_length_iff (i : Nat) (hi : i ≤ s.length) :
    isValidUtf8Loop s i = s.length ↔
      ∃ vs : List Nat, (∀ v ∈ vs, IsScalar v ∧ v ≠ 0x7f) ∧ s.drop i = vs.flatMap utf8Encode := by
  induction hn : s.length - i using Nat.strong_induction_on generalizing i with
  | _ n ih =>
    rcases Nat.lt_or_ge i s.length with hlt | hge
    · constructor
      · intro h
        obtain ⟨v, hv, hs, hrest⟩ := isValidUtf8Loop_decode hlt h
        have hpos := utf8Encode_length_pos v
        have hle : i + (utf8Encode v).length ≤ s.length := by
          have := congrArg List.length hs
          simp only [List.length_drop, List.length_append] at this
          omega
        obtain ⟨vs, hvs, hdrop⟩ := (ih _ (by omega) _ hle rfl).mp hrest
        refine ⟨v :: vs, ?_, by rw [hs, hdrop, List.flatMap_cons]⟩
        intro w hw
        rcases List.mem_cons.mp hw with rfl | hw
        · exact hv
        · exact hvs w hw
      · rintro ⟨vs, hvs, hs⟩
        cases vs with
        | nil =>
          have := congrArg List.length hs
          simp only [List.length_drop, List.flatMap_nil, List.length_nil] at this
          omega
        | cons v vs =>
          rw [List.flatMap_cons] at hs
          have hv := hvs v List.mem_cons_self
          have hpos := utf8Encode_length_pos v
          have hdrop : s.drop (i + (utf8Encode v).length) = vs.flatMap utf8Encode := by
            rw [← List.drop_drop, hs, List.drop_left]
          have hle : i + (utf8Encode v).length ≤ s.length := by
            have := congrArg List.length hs
            simp only [List.length_drop, List.length_append] at this
            omega
          rw [isValidUtf8Loop_encode hv.1 hv.2 hs]
          exact (ih _ (by omega) _ hle rfl).mpr ⟨vs, fun w hw => hvs w (List.mem_cons_of_mem _ hw), hdrop⟩
    · -- at the end the loop stops, with no bytes left
      obtain rfl : i = s.length := by omega
      rw [isValidUtf8Loop, if_neg (Nat.lt_irrefl _), List.drop_length]
      exact ⟨fun _ => ⟨[], by simp, rfl⟩, fun _ => rfl⟩

end Loop

/-- **What `isValidUtf8` accepts.**  Exactly the concatenations of encodings of
scalar values other than U+007F: well-formed UTF-8 without the byte 0x7F. -/
theorem isValidUtf8_iff (s : List UInt8) :
    isValidUtf8 s = true ↔
      ∃ vs : List Nat, (∀ v ∈ vs, IsScalar v ∧ v ≠ 0x7f) ∧ s = vs.flatMap utf8Encode := by
  unfold isValidUtf8
  rw [beq_iff_eq, isValidUtf8Loop_eq_length_iff 0 (Nat.zero_le _), List.drop_zero]

/-- **`isValidUtf8` rejects U+007F, as its unit test requires.**  The byte
0x7F is the encoding of the scalar value U+007F (DEL), and the one-byte test
`s[i] < 0x7f` leaves it out; the unit test of the validator lists it among the
invalid one-byte cases, so the validator accepts RFC 3629's UTF-8 without
DEL. -/
theorem isValidUtf8_rejects_del : Utf8WellFormed [0x7f] ∧ isValidUtf8 [0x7f] = false := by
  refine ⟨⟨[0x7f], by simp [IsScalar], by decide⟩, ?_⟩
  unfold isValidUtf8
  rw [isValidUtf8Loop]
  decide

end Parser
end Vectorscan
