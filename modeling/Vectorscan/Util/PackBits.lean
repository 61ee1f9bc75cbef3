import Vectorscan.Lib.Word

/-!
# Bit packing: `pack_bits` and `unpack_bits`

`pack_bits_32` and `pack_bits_64` (`util/pack_bits.h`) store an array of
values, each in its own number of bits, one after the other from the low bit
of the first byte; `unpack_bits_32` and `unpack_bits_64` read them back.  The
packer gathers bits in a word-sized accumulator, stores it whenever it is
full and keeps the high bits of a value that straddles the boundary; the
unpacker reads a byte at a time.

**Model.**  The accumulator is `W` bits wide (32 or 64), and each pair of
functions is one definition at `W`.  A packed buffer is the list of bytes the
packer stores, in address order: each `unaligned_store` of the accumulator
appends its `W / 8` little-endian bytes and the final `partial_store` its low
`(idx + 7) / 8` (`Word.storeLE`; each case of the switch of `partial_store`
stores that many low bytes).  The unpacker reads the list from the front, and
a read past its end is `none`.  Its `while (b)` loop takes at least one bit a
pass, so it runs with `b` passes of fuel.  Shifts of `u32` and `u64a` values
are cut to `W` bits.  The arrays `v` and `bits` are lists, `elements` long.

**Results.**  The values' packed value is `packedValue`: each value above the
bits of the ones before it.  `packBits_eq`: the packer stores the
`(Σ bits + 7) / 8` little-endian bytes of it (`PackInv.step` is one pass of its
loop).  `unpackBitsLoop_eq`: the inner loop of the unpacker reads the next `b`
bits.  `unpackBits_packBits`: unpacking what was packed gives the values back.
-/

namespace Vectorscan
namespace PackBits

open Word (storeLE)

/-! ## `pack_bits` -/

/-- The state of the loop of `pack_bits_W`: the accumulator `write`, the
number `idx` of bits it holds, the bytes stored so far. -/
structure PackState where
  write : Nat
  idx : Nat
  out : List Nat

/-- One pass of the loop of `pack_bits_W`, for the value `vi` of `bi` bits. -/
def packBitsStep (W : Nat) (s : PackState) (vi bi : Nat) : PackState :=
  let write := s.write ||| (vi <<< s.idx) % 2 ^ W
  let idx := s.idx + bi
  if idx ≥ W then
    -- the accumulator is full: store it, keep the bits of `vi` that did not fit
    let idx := idx - W
    let leftover := bi - idx
    ⟨if leftover = W then 0 else vi >>> leftover, idx, s.out ++ storeLE (W / 8) write⟩
  else ⟨write, idx, s.out⟩

/-- `pack_bits_W`: the bytes stored from `out` on. -/
def packBits (W : Nat) (v bits : List Nat) : List Nat :=
  let s := (v.zip bits).foldl (fun s e => packBitsStep W s e.1 e.2) ⟨0, 0, []⟩
  -- the last word, stored in part
  s.out ++ storeLE ((s.idx + 7) / 8) s.write

/-- `pack_bits_32`. -/
def packBits32 (v bits : List Nat) : List Nat := packBits 32 v bits

/-- `pack_bits_64`. -/
def packBits64 (v bits : List Nat) : List Nat := packBits 64 v bits

/-! ## `unpack_bits` -/

/-- The `while (b)` loop of `unpack_bits_W` for one value, with `fuel` passes
left.  Of the bytes `input`, the first `used` bits are taken; it reads `b`
more into `vOut`, above its `vidx` bits, and returns the bytes left, the bits
taken of the first of them and the value. -/
def unpackBitsLoop (W : Nat) (fuel : Nat) (input : List Nat) (used b vOut vidx : Nat) :
    Option (List Nat × Nat × Nat) :=
  if b = 0 then some (input, used, vOut)
  else
    match fuel, input with
    | 0, _ => none
    | _ + 1, [] => none
    | fuel + 1, byte :: rest =>
      let read := byte >>> used
      let bitsRead := 8 - used
      if b ≤ bitsRead then
        let mask := read &&& ((1 <<< b) - 1)
        let vOut := vOut ||| (mask <<< vidx) % 2 ^ W
        let used := used + b
        -- `b` is now zero: the loop ends, on the next byte if this one is used up
        if used < 8 then some (byte :: rest, used, vOut) else some (rest, 0, vOut)
      else
        unpackBitsLoop W fuel rest 0 (b - bitsRead) (vOut ||| (read <<< vidx) % 2 ^ W) (vidx + bitsRead)

attribute [grind] unpackBitsLoop

/-- The loop of `unpack_bits_W` over the elements, from `input` with `used`
bits of its first byte taken. -/
def unpackBitsFrom (W : Nat) : List Nat → List Nat → Nat → Option (List Nat)
  | [], _, _ => some []
  | b :: bits, input, used => do
    let (input, used, vOut) ← unpackBitsLoop W b input used b 0 0
    let rest ← unpackBitsFrom W bits input used
    pure (vOut :: rest)

/-- `unpack_bits_W`: the values of `bits[0]`, `bits[1]`, … bits read from
`input`. -/
def unpackBits (W : Nat) (input bits : List Nat) : Option (List Nat) := unpackBitsFrom W bits input 0

/-- `unpack_bits_32`. -/
def unpackBits32 (input bits : List Nat) : Option (List Nat) := unpackBits 32 input bits

/-- `unpack_bits_64`. -/
def unpackBits64 (input bits : List Nat) : Option (List Nat) := unpackBits 64 input bits

/-! ## The packed value -/

/-- The packed value: `v[0]` in the low `bits[0]` bits, `v[1]` in the
`bits[1]` bits above them, and so on. -/
def packedValue : List Nat → List Nat → Nat
  | x :: v, b :: bits => x + packedValue v bits * 2 ^ b
  | _, _ => 0

attribute [grind] packedValue

/-- The values fit their widths, and the widths the accumulator. -/
def Fits (W : Nat) (v bits : List Nat) : Prop := List.Forall₂ (fun x b => b ≤ W ∧ x < 2 ^ b) v bits

theorem packedValue_lt {W : Nat} {v bits : List Nat} (h : Fits W v bits) :
    packedValue v bits < 2 ^ bits.sum := by
  induction h with
  | nil => simp [packedValue]
  | @cons x b v bits hxb _ ih =>
    rw [packedValue, List.sum_cons, Nat.pow_add, Nat.mul_comm (2 ^ b)]
    calc x + packedValue v bits * 2 ^ b < 2 ^ b + packedValue v bits * 2 ^ b := by omega
      _ = (packedValue v bits + 1) * 2 ^ b := by rw [Nat.add_mul, Nat.one_mul, Nat.add_comm]
      _ ≤ 2 ^ bits.sum * 2 ^ b := Nat.mul_le_mul_right _ ih

/-! ## The packer stores the packed value -/

/-- What the packer holds after values of `S` bits in all, with packed value
`P`: the bytes stored are those of `P` below the accumulator, and the
accumulator holds the rest of `P`. -/
structure PackInv (W : Nat) (s : PackState) (P S : Nat) : Prop where
  idx_lt : s.idx < W
  idx_le : s.idx ≤ S
  dvd : W ∣ S - s.idx
  out_eq : s.out = storeLE ((S - s.idx) / 8) P
  write_eq : s.write = P / 2 ^ (S - s.idx)
  lt : P < 2 ^ S

theorem packInv_init (W : Nat) (hW0 : 0 < W) : PackInv W ⟨0, 0, []⟩ 0 0 :=
  ⟨hW0, le_rfl, dvd_zero W, rfl, rfl, Nat.one_pos⟩

/-- The next value goes above the bits so far. -/
theorem add_mul_two_pow_lt {P S x b : Nat} (hP : P < 2 ^ S) (hx : x < 2 ^ b) :
    P + x * 2 ^ S < 2 ^ (S + b) := by
  calc P + x * 2 ^ S < 2 ^ S + x * 2 ^ S := by omega
    _ = (x + 1) * 2 ^ S := by rw [Nat.add_mul, Nat.one_mul, Nat.add_comm]
    _ ≤ 2 ^ b * 2 ^ S := Nat.mul_le_mul_right _ hx
    _ = 2 ^ (S + b) := by rw [Nat.pow_add, Nat.mul_comm]

section Invariant

variable {W : Nat} {s : PackState} {P S : Nat} (h : PackInv W s P S)
include h

theorem PackInv.write_lt : s.write < 2 ^ s.idx := by
  have hS : S = S - s.idx + s.idx := by have := h.idx_le; omega
  have hP := h.lt
  rw [hS, Nat.pow_add] at hP
  rw [h.write_eq, Nat.div_lt_iff_lt_mul (Nat.two_pow_pos _), Nat.mul_comm]
  exact hP

/-- A value above the `S` bits is above the accumulator's base. -/
theorem PackInv.mul_two_pow (x : Nat) : x * 2 ^ S = x * 2 ^ s.idx * 2 ^ (S - s.idx) := by
  rw [Nat.mul_assoc, ← Nat.pow_add, Nat.add_sub_cancel' h.idx_le]

/-- With a value `x` put above the `S` bits, the bits from the accumulator's
base on are the accumulator with `x` above it. -/
theorem PackInv.div_base (x : Nat) : (P + x * 2 ^ S) / 2 ^ (S - s.idx) = s.write + x * 2 ^ s.idx := by
  rw [h.mul_two_pow x, Nat.add_mul_div_right _ _ (Nat.two_pow_pos _), ← h.write_eq]

/-- Putting a value above the `S` bits changes none of the bytes stored. -/
theorem PackInv.storeLE_base (hW : 8 ∣ W) (x : Nat) :
    storeLE ((S - s.idx) / 8) (P + x * 2 ^ S) = s.out := by
  rw [h.out_eq]
  apply Word.storeLE_congr
  rw [← Word.two_pow_eq_256_pow (Nat.dvd_trans hW h.dvd), h.mul_two_pow x, Nat.add_mul_mod_self_right]

end Invariant

/-- **One pass of the packer.**  Packing a value `x` of `b ≤ W` bits keeps the
invariant, with `x` above the bits so far. -/
theorem PackInv.step {W : Nat} (hW : 8 ∣ W) {s : PackState} {P S x b : Nat} (h : PackInv W s P S)
    (hb : b ≤ W) (hx : x < 2 ^ b) :
    PackInv W (packBitsStep W s x b) (P + x * 2 ^ S) (S + b) := by
  have hwlt := h.write_lt
  have hidx := h.idx_lt
  have hle := h.idx_le
  have hlt := add_mul_two_pow_lt h.lt hx
  unfold packBitsStep
  dsimp only
  by_cases hfull : s.idx + b ≥ W
  · -- the accumulator is stored whole, with the low bits of `x` on top
    rw [if_pos hfull]
    have hword : s.write ||| (x <<< s.idx) % 2 ^ W = (s.write + x * 2 ^ s.idx) % 2 ^ W := by
      have hW' : W = s.idx + (W - s.idx) := by omega
      have hlow := Word.add_mul_two_pow_mod (y := x) (Nat.two_pow_pos s.idx) (W - s.idx)
      rw [Nat.zero_add, Nat.zero_add] at hlow
      rw [Nat.shiftLeft_eq, hW', hlow, Word.or_mul_two_pow hwlt, Word.add_mul_two_pow_mod hwlt]
    -- what is left of `x` above the stored word
    have hleft : (if b - (s.idx + b - W) = W then 0 else x >>> (b - (s.idx + b - W))) =
        (P + x * 2 ^ S) / 2 ^ (S + b - (s.idx + b - W)) := by
      have hdiv : S + b - (s.idx + b - W) = (S - s.idx) + W := by omega
      rw [hdiv, Nat.pow_add, ← Nat.div_div_eq_div_mul, h.div_base x,
        Word.add_mul_two_pow_div hwlt hidx.le, show b - (s.idx + b - W) = W - s.idx by omega]
      split_ifs with h0
      · rw [h0, Nat.div_eq_of_lt (lt_of_lt_of_le hx (Nat.pow_le_pow_right (by decide) hb))]
      · rw [Nat.shiftRight_eq_div_pow]
    have hbytes : (S + b - (s.idx + b - W)) / 8 = (S - s.idx) / 8 + W / 8 := by
      have := Nat.dvd_trans hW h.dvd
      omega
    refine ⟨by simp only; omega, by simp only; omega, ?_, ?_, hleft, hlt⟩
    · simp only
      rw [show S + b - (s.idx + b - W) = (S - s.idx) + W by omega]
      exact Nat.dvd_add h.dvd (dvd_refl W)
    · simp only
      rw [hbytes, Word.storeLE_add, h.storeLE_base hW x, hword]
      congr 1
      apply Word.storeLE_congr
      rw [← Word.two_pow_eq_256_pow (Nat.dvd_trans hW h.dvd), h.div_base x, ← Word.two_pow_eq_256_pow hW,
        Nat.mod_mod]
  · -- the value fits under the top of the accumulator
    rw [if_neg hfull]
    have hword : s.write ||| (x <<< s.idx) % 2 ^ W = s.write + x * 2 ^ s.idx := by
      have hfit : x * 2 ^ s.idx < 2 ^ W := by
        calc x * 2 ^ s.idx < 2 ^ b * 2 ^ s.idx := Nat.mul_lt_mul_of_pos_right hx (Nat.two_pow_pos _)
          _ = 2 ^ (b + s.idx) := by rw [Nat.pow_add]
          _ ≤ 2 ^ W := Nat.pow_le_pow_right (by decide) (by omega)
      rw [Nat.shiftLeft_eq, Nat.mod_eq_of_lt hfit, Word.or_mul_two_pow hwlt]
    have hbase : S + b - (s.idx + b) = S - s.idx := by omega
    refine ⟨by simp only; omega, by simp only; omega, ?_, ?_, ?_, hlt⟩
    · simp only
      rw [hbase]
      exact h.dvd
    · simp only
      rw [hbase, h.storeLE_base hW x]
    · simp only
      rw [hbase, h.div_base x, hword]

/-- **The loop of the packer.**  From a state that holds `P` of `S` bits, the
values `v` of widths `bits` give a state that holds them above `P`. -/
theorem PackInv.foldl {W : Nat} (hW : 8 ∣ W) {v bits : List Nat} (hfit : Fits W v bits) :
    ∀ {s : PackState} {P S : Nat}, PackInv W s P S →
      PackInv W ((v.zip bits).foldl (fun s e => packBitsStep W s e.1 e.2) s)
        (P + packedValue v bits * 2 ^ S) (S + bits.sum) := by
  induction hfit with
  | nil =>
    intro s P S h
    simpa [packedValue] using h
  | @cons x b v bits hxb _ ih =>
    intro s P S h
    have hnext := ih (h.step hW hxb.1 hxb.2)
    rw [List.zip_cons_cons, List.foldl_cons]
    have hP : P + x * 2 ^ S + packedValue v bits * 2 ^ (S + b) = P + packedValue (x :: v) (b :: bits) * 2 ^ S := by
      rw [packedValue, Nat.pow_add]
      ring
    rw [hP, Nat.add_assoc] at hnext
    rw [List.sum_cons]
    exact hnext

/-- **What the packer stores.**  `pack_bits_W` stores the `(Σ bits + 7) / 8`
little-endian bytes of the packed value. -/
theorem packBits_eq {W : Nat} (hW : 8 ∣ W) (hW0 : 0 < W) {v bits : List Nat} (hfit : Fits W v bits) :
    packBits W v bits = storeLE ((bits.sum + 7) / 8) (packedValue v bits) := by
  have h := PackInv.foldl hW hfit (packInv_init W hW0)
  rw [Nat.zero_add, Nat.zero_add, Nat.pow_zero, Nat.mul_one] at h
  unfold packBits
  dsimp only
  generalize (v.zip bits).foldl (fun s e => packBitsStep W s e.1 e.2) ⟨0, 0, []⟩ = s at h ⊢
  have h8 : 8 ∣ bits.sum - s.idx := Nat.dvd_trans hW h.dvd
  have hbytes : (bits.sum + 7) / 8 = (bits.sum - s.idx) / 8 + (s.idx + 7) / 8 := by
    have := h.idx_le
    omega
  rw [hbytes, Word.storeLE_add, ← h.out_eq, h.write_eq, ← Word.two_pow_eq_256_pow h8]

/-! ## The unpacker reads the stored bits -/

/-- From bit `used` of its first byte on, a value is that byte's bits above
`used` with the value of the other bytes above them. -/
theorem div_two_pow_byte {Q used : Nat} (hused : used ≤ 8) :
    Q / 2 ^ used = Q % 256 / 2 ^ used + Q / 256 * 2 ^ (8 - used) := by
  have hQ : Q = Q % 256 + Q / 256 * 2 ^ 8 := by
    rw [show (2 : Nat) ^ 8 = 256 from rfl]
    omega
  conv_lhs => rw [hQ]
  exact Word.add_mul_two_pow_div_of_le hused

/-- With no bits to read the loop ends at once. -/
theorem unpackBitsLoop_zero_bits (W fuel : Nat) {m Q used : Nat} (hused : used < 8) (vOut vidx : Nat) :
    unpackBitsLoop W fuel (storeLE m Q) used 0 vOut vidx =
      some (storeLE (m - (used + 0) / 8) (Q / 256 ^ ((used + 0) / 8)), (used + 0) % 8,
        vOut + Q / 2 ^ used % 2 ^ 0 * 2 ^ vidx) := by
  rw [unpackBitsLoop.eq_def, if_pos rfl]
  simp [Nat.div_eq_of_lt hused, Nat.mod_eq_of_lt hused, Nat.mod_one]

/-- **The inner loop of the unpacker.**  Reading `b` bits from the bytes of
`Q`, of whose first byte `used` bits are taken, puts the bits of `Q` from
`used` on into `vOut` above its `vidx` bits, and ends `used + b` bits further
on.  With `b` passes of fuel the loop always ends. -/
theorem unpackBitsLoop_eq {W : Nat} (fuel : Nat) :
    ∀ {m Q used b vOut vidx : Nat}, used < 8 → used + b ≤ 8 * m → b ≤ fuel → vidx + b ≤ W →
      vOut < 2 ^ vidx →
      unpackBitsLoop W fuel (storeLE m Q) used b vOut vidx =
        some (storeLE (m - (used + b) / 8) (Q / 256 ^ ((used + b) / 8)), (used + b) % 8,
          vOut + Q / 2 ^ used % 2 ^ b * 2 ^ vidx) := by
  induction fuel with
  | zero =>
    intro m Q used b vOut vidx hused hm hfuel hW hv
    -- no bits to read
    obtain rfl : b = 0 := by omega
    exact unpackBitsLoop_zero_bits W 0 hused vOut vidx
  | succ fuel ih =>
    intro m Q used b vOut vidx hused hm hfuel hW hv
    by_cases hb0 : b = 0
    · subst hb0
      exact unpackBitsLoop_zero_bits W (fuel + 1) hused vOut vidx
    obtain ⟨m, rfl⟩ : ∃ m', m = m' + 1 := ⟨m - 1, by omega⟩
    have hsplit := div_two_pow_byte (Q := Q) hused.le
    have hbyte : (Q % 256) >>> used < 2 ^ (8 - used) := by
      rw [Nat.shiftRight_eq_div_pow, Nat.div_lt_iff_lt_mul (Nat.two_pow_pos _), ← Nat.pow_add,
        Nat.sub_add_cancel hused.le]
      exact Nat.mod_lt Q (by decide)
    rw [unpackBitsLoop.eq_def, if_neg hb0, Word.storeLE]
    dsimp only
    by_cases hlast : b ≤ 8 - used
    · -- the bits end in this byte
      rw [if_pos hlast]
      have hmask : ((Q % 256) >>> used) &&& ((1 <<< b) - 1) = Q / 2 ^ used % 2 ^ b := by
        rw [Nat.one_shiftLeft, Nat.and_two_pow_sub_one_eq_mod, hsplit, Nat.shiftRight_eq_div_pow,
          show 8 - used = (8 - used - b) + b by omega, Nat.pow_add, ← Nat.mul_assoc,
          Nat.add_mul_mod_self_right]
      have hfit : Q / 2 ^ used % 2 ^ b * 2 ^ vidx < 2 ^ W := by
        calc Q / 2 ^ used % 2 ^ b * 2 ^ vidx < 2 ^ b * 2 ^ vidx :=
              Nat.mul_lt_mul_of_pos_right (Nat.mod_lt _ (Nat.two_pow_pos b)) (Nat.two_pow_pos _)
          _ = 2 ^ (b + vidx) := by rw [Nat.pow_add]
          _ ≤ 2 ^ W := Nat.pow_le_pow_right (by decide) (by omega)
      rw [hmask, Nat.shiftLeft_eq, Nat.mod_eq_of_lt hfit, Word.or_mul_two_pow hv]
      by_cases hmore : used + b < 8
      · rw [if_pos hmore, Nat.div_eq_of_lt hmore, Nat.mod_eq_of_lt hmore, Nat.pow_zero, Nat.div_one,
          Nat.sub_zero, Word.storeLE]
      · -- the byte is used up: the next one comes first
        have h8 : used + b = 8 := by omega
        rw [if_neg hmore, h8]
        rfl
    · -- all of this byte's bits above `used`, then the rest from the next bytes
      rw [if_neg hlast]
      have hacc : vOut ||| (((Q % 256) >>> used) <<< vidx) % 2 ^ W =
          vOut + Q % 256 / 2 ^ used * 2 ^ vidx := by
        have hfit : ((Q % 256) >>> used) * 2 ^ vidx < 2 ^ W := by
          calc ((Q % 256) >>> used) * 2 ^ vidx < 2 ^ (8 - used) * 2 ^ vidx :=
                Nat.mul_lt_mul_of_pos_right hbyte (Nat.two_pow_pos _)
            _ = 2 ^ (8 - used + vidx) := by rw [Nat.pow_add]
            _ ≤ 2 ^ W := Nat.pow_le_pow_right (by decide) (by omega)
        rw [Nat.shiftLeft_eq, Nat.mod_eq_of_lt hfit, Word.or_mul_two_pow hv, Nat.shiftRight_eq_div_pow]
      have hv' : vOut + Q % 256 / 2 ^ used * 2 ^ vidx < 2 ^ (vidx + (8 - used)) := by
        rw [← Nat.shiftRight_eq_div_pow]
        calc vOut + ((Q % 256) >>> used) * 2 ^ vidx < 2 ^ vidx + ((Q % 256) >>> used) * 2 ^ vidx := by
              omega
          _ = (((Q % 256) >>> used) + 1) * 2 ^ vidx := by rw [Nat.add_mul, Nat.one_mul, Nat.add_comm]
          _ ≤ 2 ^ (8 - used) * 2 ^ vidx := Nat.mul_le_mul_right _ hbyte
          _ = 2 ^ (vidx + (8 - used)) := by rw [Nat.pow_add, Nat.mul_comm]
      rw [hacc, ih (by decide) (by omega) (by omega) (by omega) hv']
      -- the two reads are the bits of `Q` from `used` on
      have hpos : (used + b) / 8 = (b - (8 - used)) / 8 + 1 := by omega
      have hval : Q / 2 ^ used % 2 ^ b = Q % 256 / 2 ^ used + Q / 256 % 2 ^ (b - (8 - used)) * 2 ^ (8 - used) := by
        rw [hsplit, show b = (8 - used) + (b - (8 - used)) by omega,
          Word.add_mul_two_pow_mod (by rwa [← Nat.shiftRight_eq_div_pow]), Nat.add_sub_cancel_left]
      rw [hpos, hval, Nat.zero_add, Nat.pow_zero, Nat.div_one, Nat.pow_succ, Nat.mul_comm _ 256,
        ← Nat.div_div_eq_div_mul, show m + 1 - ((b - (8 - used)) / 8 + 1) = m - (b - (8 - used)) / 8 by omega,
        show (used + b) % 8 = (b - (8 - used)) % 8 by omega, Nat.pow_add]
      congr 3
      ring

/-- **The loop over the elements.**  From the bytes of `Q`, `used` bits of the
first taken, the unpacker reads back every value whose packed value is the
bits of `Q` from `used` on. -/
theorem unpackBitsFrom_eq {W : Nat} {v bits : List Nat} (hfit : Fits W v bits) :
    ∀ {m Q used : Nat}, used < 8 → used + bits.sum ≤ 8 * m →
      Q / 2 ^ used % 2 ^ bits.sum = packedValue v bits →
      unpackBitsFrom W bits (storeLE m Q) used = some v := by
  induction hfit with
  | nil =>
    intro m Q used _ _ _
    rfl
  | @cons x b v bits hxb _ ih =>
    intro m Q used hused hm hQ
    rw [List.sum_cons] at hm hQ
    rw [packedValue] at hQ
    -- the first value: the low `b` bits
    have hx : Q / 2 ^ used % 2 ^ b = x := by
      have hlow := congrArg (· % 2 ^ b) hQ
      simp only [Nat.mod_mod_of_dvd _ (Nat.pow_dvd_pow 2 (Nat.le_add_right b bits.sum)),
        Nat.add_mul_mod_self_right, Nat.mod_eq_of_lt hxb.2] at hlow
      exact hlow
    -- the rest: the bits from `used + b` on
    have hrest : Q / 256 ^ ((used + b) / 8) / 2 ^ ((used + b) % 8) % 2 ^ bits.sum = packedValue v bits := by
      have hpos : Q / 256 ^ ((used + b) / 8) / 2 ^ ((used + b) % 8) = Q / 2 ^ used / 2 ^ b := by
        have h256 : (256 : Nat) ^ ((used + b) / 8) = 2 ^ (8 * ((used + b) / 8)) := by
          rw [Nat.pow_mul]
        rw [h256, Nat.div_div_eq_div_mul, ← Nat.pow_add, Nat.div_add_mod, Nat.div_div_eq_div_mul,
          ← Nat.pow_add]
      rw [hpos, ← Nat.mod_mul_right_div_self, ← Nat.pow_add, hQ,
        Word.add_mul_two_pow_div_of_le le_rfl, Nat.div_eq_of_lt hxb.2, Nat.sub_self, Nat.pow_zero,
        Nat.mul_one, Nat.zero_add]
    unfold unpackBitsFrom
    rw [unpackBitsLoop_eq b hused (by omega) le_rfl (by omega) (Nat.two_pow_pos 0)]
    simp only [Option.bind_eq_bind, Option.bind_some, Nat.zero_add, Nat.pow_zero, Nat.mul_one, hx]
    rw [ih (Nat.mod_lt _ (by decide)) (by omega) hrest]
    rfl

/-- **Unpacking what was packed.**  `unpack_bits_W` of the bytes `pack_bits_W`
stores gives the values back. -/
theorem unpackBits_packBits {W : Nat} (hW : 8 ∣ W) (hW0 : 0 < W) {v bits : List Nat} (hfit : Fits W v bits) :
    unpackBits W (packBits W v bits) bits = some v := by
  rw [packBits_eq hW hW0 hfit]
  apply unpackBitsFrom_eq hfit (by decide) (by omega)
  rw [Nat.pow_zero, Nat.div_one, Nat.mod_eq_of_lt (packedValue_lt hfit)]

/-- **Bit packing round-trips.**  For 32-bit and 64-bit accumulators alike,
unpacking the bytes that `pack_bits` stores for values that fit their widths
gives the values back, and it stores `⌈Σ bits / 8⌉` bytes. -/
theorem packBits_roundTrip :
    (∀ v bits : List Nat, Fits 32 v bits →
      unpackBits32 (packBits32 v bits) bits = some v ∧ (packBits32 v bits).length = (bits.sum + 7) / 8) ∧
    (∀ v bits : List Nat, Fits 64 v bits →
      unpackBits64 (packBits64 v bits) bits = some v ∧ (packBits64 v bits).length = (bits.sum + 7) / 8) := by
  constructor
  · intro v bits hfit
    exact ⟨unpackBits_packBits (by decide) (by decide) hfit,
      by rw [packBits32, packBits_eq (by decide) (by decide) hfit, Word.length_storeLE]⟩
  · intro v bits hfit
    exact ⟨unpackBits_packBits (by decide) (by decide) hfit,
      by rw [packBits64, packBits_eq (by decide) (by decide) hfit, Word.length_storeLE]⟩

/-- A 64-bit example with a value of no bits and one of all 64. -/
theorem packBits_roundTrip_widths :
    Fits 64 [5, 0, 2 ^ 64 - 1] [3, 0, 64] ∧
      (unpackBits64 (packBits64 [5, 0, 2 ^ 64 - 1] [3, 0, 64]) [3, 0, 64] = some [5, 0, 2 ^ 64 - 1] ∧
        (packBits64 [5, 0, 2 ^ 64 - 1] [3, 0, 64]).length = ([3, 0, 64].sum + 7) / 8) :=
  have hfit : Fits 64 [5, 0, 2 ^ 64 - 1] [3, 0, 64] :=
    .cons ⟨by decide, by decide⟩ (.cons ⟨by decide, by decide⟩ (.cons ⟨by decide, by decide⟩ .nil))
  ⟨hfit, packBits_roundTrip.2 _ _ hfit⟩

end PackBits
end Vectorscan
