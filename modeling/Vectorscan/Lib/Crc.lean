import Mathlib.Data.Nat.Bitwise
import Mathlib.Logic.Function.Iterate
import Mathlib.Tactic.Ring
import Mathlib.Tactic.Linarith

/-!
# Reflected CRCs, bit by bit

A reflected CRC with generator `poly` (bit-reversed) runs its register one
message bit at a time: the bit shifted out at the bottom, when set, xors the
generator into what remains (`crcBit`).  A byte of message is eight such steps
after xoring the byte into the register; the table-driven and the sliced
implementations all compute iterates of `crcBit`.

**Results.**  `crcBit_iterate_xor`: the iterates are linear over xor.
`crcBit_iterate_mul_two_pow_add`: `k` steps shift out `k` zero bits.
`crcBit_iterate_lt`: the register ends within the generator's width.
`crcBit_iterate_eight`: eight steps of a word are eight steps of its low byte,
xor the rest shifted down (what a byte table computes).
`foldl_crcBit_eight`: bytes processed one at a time are the steps of their
little-endian value (`leValue`), so that a word loaded at once may replace its
bytes.  `crcBit_iterate_word`: four byte lookups of a 32-bit word, each a table
of the steps of a byte followed by zero bytes, are the steps of the word.

Nothing here names the program.
-/

namespace Vectorscan
namespace Crc

/-- One message bit of a reflected CRC with generator `poly`. -/
def crcBit (poly c : Nat) : Nat := if c % 2 = 1 then c >>> 1 ^^^ poly else c >>> 1

/-- The little-endian value of a list of bytes. -/
def leValue : List Nat → Nat
  | [] => 0
  | b :: bs => b + 256 * leValue bs

attribute [grind] leValue

variable {poly : Nat}

/-! ## Bits -/

/-- Xor-ing in bits above `k` adds them, when the low part is below `2 ^ k`. -/
theorem xor_mul_two_pow {a b k : Nat} (hb : b < 2 ^ k) : b ^^^ a * 2 ^ k = b + a * 2 ^ k := by
  rw [Nat.add_comm, Nat.mul_comm, Nat.two_pow_add_eq_or_of_lt hb a]
  apply Nat.eq_of_testBit_eq
  intro i
  rw [Nat.testBit_xor, Nat.testBit_or, Nat.testBit_two_pow_mul]
  by_cases hi : k ≤ i
  · rw [Nat.testBit_eq_false_of_lt (Nat.lt_of_lt_of_le hb (Nat.pow_le_pow_right (by decide) hi))]
    simp
  · simp [hi]

/-- A word is its three low bytes, each in place, and the rest above them. -/
theorem eq_xor_bytes (x : Nat) :
    x = x &&& 0xff ^^^ ((x >>> 8) &&& 0xff) * 2 ^ 8 ^^^ ((x >>> 16) &&& 0xff) * 2 ^ 16 ^^^
      (x >>> 24) * 2 ^ 24 := by
  have h0 : x &&& 0xff = x % 256 := Nat.and_two_pow_sub_one_eq_mod x 8
  have h1 : (x >>> 8) &&& 0xff = x / 256 % 256 := by
    rw [Nat.shiftRight_eq_div_pow]
    exact Nat.and_two_pow_sub_one_eq_mod _ 8
  have h2 : (x >>> 16) &&& 0xff = x / 65536 % 256 := by
    rw [Nat.shiftRight_eq_div_pow]
    exact Nat.and_two_pow_sub_one_eq_mod _ 8
  have h3 : x >>> 24 = x / 16777216 := Nat.shiftRight_eq_div_pow _ _
  -- join the bytes from the bottom: each xor is an addition above the bits so far
  have e1 : x % 256 ^^^ x / 256 % 256 * 2 ^ 8 = x % 65536 := by
    rw [xor_mul_two_pow (by omega)]
    omega
  have e2 : x % 65536 ^^^ x / 65536 % 256 * 2 ^ 16 = x % 16777216 := by
    rw [xor_mul_two_pow (by omega)]
    omega
  have e3 : x % 16777216 ^^^ x / 16777216 * 2 ^ 24 = x := by
    rw [xor_mul_two_pow (by omega)]
    omega
  rw [h0, h1, h2, h3, e1, e2, e3]

/-! ## The bit step -/

/-- **Linearity.**  One bit step of a xor is the xor of the steps. -/
theorem crcBit_xor (a b : Nat) : crcBit poly (a ^^^ b) = crcBit poly a ^^^ crcBit poly b := by
  unfold crcBit
  rw [Nat.shiftRight_xor_distrib, Nat.xor_mod_two_eq]
  -- the bottom bit of the xor is the sum of the bottom bits: four cases
  rcases Nat.mod_two_eq_zero_or_one a with ha | ha <;> rcases Nat.mod_two_eq_zero_or_one b with hb | hb
  · rw [if_neg (by omega), if_neg (by omega), if_neg (by omega)]
  · rw [if_pos (by omega), if_neg (by omega), if_pos (by omega), Nat.xor_assoc]
  · rw [if_pos (by omega), if_pos (by omega), if_neg (by omega), Nat.xor_right_comm]
  · rw [if_neg (by omega), if_pos (by omega), if_pos (by omega), Nat.xor_assoc, Nat.xor_comm poly,
      Nat.xor_assoc, Nat.xor_self, Nat.xor_zero]

theorem crcBit_iterate_xor (n a b : Nat) :
    (crcBit poly)^[n] (a ^^^ b) = (crcBit poly)^[n] a ^^^ (crcBit poly)^[n] b := by
  induction n generalizing a b with
  | zero => rfl
  | succ n ih => rw [Function.iterate_succ_apply, Function.iterate_succ_apply,
      Function.iterate_succ_apply, crcBit_xor, ih]

/-- A step of an even register shifts it down. -/
theorem crcBit_two_mul (y : Nat) : crcBit poly (2 * y) = y := by
  unfold crcBit
  rw [if_neg (by omega), Nat.shiftRight_one]
  omega

/-- `n + k` steps of a register with `k` zero bits at the bottom are `n` steps
of what is above them. -/
theorem crcBit_iterate_mul_two_pow_add (n k y : Nat) :
    (crcBit poly)^[n + k] (y * 2 ^ k) = (crcBit poly)^[n] y := by
  induction k generalizing y with
  | zero => rw [Nat.add_zero, Nat.pow_zero, Nat.mul_one]
  | succ k ih =>
    rw [← Nat.add_assoc, Function.iterate_succ_apply, Nat.pow_succ, ← Nat.mul_assoc, Nat.mul_comm _ 2,
      crcBit_two_mul, ih]

theorem crcBit_iterate_mul_two_pow (k y : Nat) : (crcBit poly)^[k] (y * 2 ^ k) = y := by
  have h := @crcBit_iterate_mul_two_pow_add poly 0 k y
  rwa [Nat.zero_add] at h

/-- The register ends below `2 ^ w` when the generator is: each step takes a
bit off the top, so `n` steps bring a register below `2 ^ (w + n)` under `2 ^ w`. -/
theorem crcBit_iterate_lt {w : Nat} (hp : poly < 2 ^ w) (n : Nat) {c : Nat} (hc : c < 2 ^ (w + n)) :
    (crcBit poly)^[n] c < 2 ^ w := by
  induction n generalizing c with
  | zero => exact hc
  | succ n ih =>
    rw [Function.iterate_succ_apply]
    apply ih
    have hs : c >>> 1 < 2 ^ (w + n) := by
      rw [Nat.shiftRight_one]
      rw [← Nat.add_assoc, Nat.pow_succ] at hc
      omega
    unfold crcBit
    split
    · exact Nat.xor_lt_two_pow hs (Nat.lt_of_lt_of_le hp (Nat.pow_le_pow_right (by decide) (by omega)))
    · exact hs

/-! ## Bytes -/

/-- **The byte table.**  Eight steps of a register are eight steps of its low
byte, xor the register shifted down by a byte. -/
theorem crcBit_iterate_eight (x : Nat) :
    (crcBit poly)^[8] x = (crcBit poly)^[8] (x &&& 0xff) ^^^ x >>> 8 := by
  have hsplit : x = x &&& 0xff ^^^ (x >>> 8) * 2 ^ 8 := by
    rw [xor_mul_two_pow (Nat.lt_of_le_of_lt Nat.and_le_right (by decide)), Nat.shiftRight_eq_div_pow,
      show x &&& 0xff = x % 2 ^ 8 from Nat.and_two_pow_sub_one_eq_mod x 8]
    omega
  conv_lhs => rw [hsplit]
  rw [crcBit_iterate_xor, crcBit_iterate_mul_two_pow]

/-- **Bytes one at a time.**  Xor-ing each byte into the register and running
eight steps, byte after byte, runs the steps of the bytes' little-endian
value. -/
theorem foldl_crcBit_eight (bs : List Nat) (hbs : ∀ b ∈ bs, b < 256) (crc : Nat) :
    bs.foldl (fun c b => (crcBit poly)^[8] (c ^^^ b)) crc =
      (crcBit poly)^[8 * bs.length] (crc ^^^ leValue bs) := by
  induction bs generalizing crc with
  | nil => simp [leValue]
  | cons b bs ih =>
    have hb := hbs b List.mem_cons_self
    have hsplit : b + 256 * leValue bs = b ^^^ leValue bs * 2 ^ 8 := by
      rw [xor_mul_two_pow (by omega), Nat.mul_comm]
      rfl
    -- the first byte's eight steps, then the rest's, split the register's steps at the byte
    rw [List.foldl_cons, ih (fun x hx => hbs x (List.mem_cons_of_mem _ hx)), leValue, hsplit,
      ← Nat.xor_assoc, List.length_cons, Nat.mul_succ, Function.iterate_add_apply,
      crcBit_iterate_xor _ (crc ^^^ b), crcBit_iterate_mul_two_pow, crcBit_iterate_xor]

/-- **A word a byte at a time.**  Four table lookups of the bytes of a 32-bit
word, with `n + 24`, `n + 16`, `n + 8` and `n` steps, are `n + 24` steps of the
word: the slicing step. -/
theorem crcBit_iterate_word (n : Nat) {x : Nat} (hx : x < 2 ^ 32) :
    (crcBit poly)^[n + 24] (x &&& 0xff) ^^^ (crcBit poly)^[n + 16] ((x >>> 8) &&& 0xff) ^^^
        (crcBit poly)^[n + 8] ((x >>> 16) &&& 0xff) ^^^ (crcBit poly)^[n] ((x >>> 16 >>> 8) &&& 0xff) =
      (crcBit poly)^[n + 24] x := by
  have htop : (x >>> 16 >>> 8) &&& 0xff = x >>> 24 := by
    rw [← Nat.shiftRight_add, Nat.shiftRight_eq_div_pow,
      show (0xff : Nat) = 2 ^ 8 - 1 from rfl, Nat.and_two_pow_sub_one_eq_mod]
    omega
  -- each byte's steps are the word's steps of the byte in its place
  have hmove : ∀ m k y, m + k = n + 24 → (crcBit poly)^[m] y = (crcBit poly)^[n + 24] (y * 2 ^ k) :=
    fun m k y hmk => by rw [← hmk, crcBit_iterate_mul_two_pow_add]
  rw [htop, hmove (n + 16) 8 _ (by omega), hmove (n + 8) 16 _ (by omega), hmove n 24 _ (by omega),
    ← crcBit_iterate_xor, ← crcBit_iterate_xor, ← crcBit_iterate_xor, ← eq_xor_bytes]

/-- The little-endian value of two lists one after the other. -/
theorem leValue_append (xs ys : List Nat) :
    leValue (xs ++ ys) = leValue xs + 256 ^ xs.length * leValue ys := by
  induction xs with
  | nil => simp [leValue]
  | cons x xs ih =>
    rw [List.cons_append, leValue, leValue, ih, List.length_cons, Nat.pow_succ]
    ring

theorem leValue_lt {bs : List Nat} (hbs : ∀ b ∈ bs, b < 256) : leValue bs < 256 ^ bs.length := by
  induction bs with
  | nil => simp [leValue]
  | cons b bs ih =>
    have hb := hbs b List.mem_cons_self
    have hrest := ih (fun x hx => hbs x (List.mem_cons_of_mem _ hx))
    rw [leValue, List.length_cons, Nat.pow_succ]
    nlinarith

end Crc
end Vectorscan
