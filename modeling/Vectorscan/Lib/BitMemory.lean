import Vectorscan.Lib.Word

/-!
# Byte-addressed memory, seen bit by bit

A little-endian byte-addressed memory is modelled as a function from bit
addresses to bits: bit `8 * a + j` is bit `j` of the byte at address `a`, so
that bit `j` of a `w`-bit value loaded from byte `a` is the memory bit
`8 * a + j`.  Unaligned and partial loads and stores are then the same
operation at different addresses and widths.

**Operations.**  `Mem.load m a w` reads the `w`-bit value whose bit `i` is
`m (a + i)`; `Mem.store m a w v` writes the low `w` bits of `v` there;
`Mem.copy m a src b w` is `memcpy` of `w` bits from `src` at `b` to `a`;
`Mem.shift m a` is the memory seen through a pointer to bit `a`, and
`Mem.unshift m a r` puts back what was written through it; `Mem.ofBytes bs` is
a buffer holding the bytes `bs`.

**Results.**  `testBit_load` (what a load sees bit by bit), `load_store_self`
(a load of the stored range returns the stored value truncated to `w` bits),
`load_store_of_disjoint` and `store_apply_of_not_mem` (stores outside a range
leave it unchanged), `load_congr` (a load depends only on its own range),
`load_copy_of_le` and `load_copy_of_disjoint` (what a load sees after a copy).
-/

namespace Vectorscan

/-- Memory seen bit by bit (little-endian: bit `8 * a + j` is bit `j` of byte `a`). -/
abbrev Mem := Nat → Bool

namespace Mem

/-- The `w`-bit little-endian value stored from bit address `a`. -/
def load (m : Mem) (a : Nat) : Nat → Nat
  | 0 => 0
  | w + 1 => (m a).toNat + 2 * load m (a + 1) w

/-- Write the low `w` bits of `v` from bit address `a`. -/
def store (m : Mem) (a w v : Nat) : Mem :=
  fun b => if a ≤ b ∧ b < a + w then v.testBit (b - a) else m b

@[simp] theorem load_zero (m : Mem) (a : Nat) : m.load a 0 = 0 := rfl

theorem testBit_load (m : Mem) (a w i : Nat) :
    (m.load a w).testBit i = (decide (i < w) && m (a + i)) := by
  induction w generalizing a i with
  | zero => simp
  | succ w ih =>
      unfold load
      cases i with
      | zero => cases m a <;> simp
      | succ i =>
          have e : ((m a).toNat + 2 * m.load (a + 1) w) / 2 = m.load (a + 1) w := by
            cases m a <;> simp; omega
          rw [Nat.testBit_succ, e, ih]
          simp [Nat.add_assoc, Nat.add_comm 1 i]

theorem load_lt (m : Mem) (a w : Nat) : m.load a w < 2 ^ w :=
  Nat.lt_pow_two_of_testBit _ fun i hi => by
    rw [testBit_load]
    simp [Nat.not_lt.mpr hi]

/-- Two loads agree when their ranges hold the same bits. -/
theorem load_eq_load {m m' : Mem} {a a' w : Nat} (h : ∀ i, i < w → m (a + i) = m' (a' + i)) :
    m.load a w = m'.load a' w := by
  apply Nat.eq_of_testBit_eq
  intro i
  rw [testBit_load, testBit_load]
  by_cases hi : i < w
  · simp [hi, h i hi]
  · simp [hi]

/-- A load depends only on the bits of its own range. -/
theorem load_congr {m m' : Mem} {a w : Nat} (h : ∀ i, i < w → m (a + i) = m' (a + i)) :
    m.load a w = m'.load a w :=
  load_eq_load h

/-- A loaded value is non-zero exactly when one of its bits is set in memory. -/
theorem load_ne_zero_iff (m : Mem) (a w : Nat) : m.load a w ≠ 0 ↔ ∃ i, i < w ∧ m (a + i) = true := by
  constructor
  · intro h
    by_contra hno
    apply h
    apply Nat.eq_of_testBit_eq
    intro i
    rw [testBit_load, Nat.zero_testBit]
    by_cases hi : i < w
    · simp only [hi, decide_true, Bool.true_and]
      exact Bool.eq_false_iff.mpr fun hm => hno ⟨i, hi, hm⟩
    · simp [hi]
  · rintro ⟨i, hi, hm⟩ h
    have := testBit_load m a w i
    rw [h, Nat.zero_testBit] at this
    simp [hi, hm] at this

/-- A loaded value is all ones exactly when all its bits are set in memory. -/
theorem load_eq_lowMask_iff (m : Mem) (a w : Nat) :
    m.load a w = Word.lowMask w ↔ ∀ i, i < w → m (a + i) = true := by
  constructor
  · intro h i hi
    have := testBit_load m a w i
    rw [h, Word.testBit_lowMask] at this
    simpa [hi] using this.symm
  · intro h
    apply Nat.eq_of_testBit_eq
    intro i
    rw [testBit_load, Word.testBit_lowMask]
    by_cases hi : i < w
    · simp [hi, h i hi]
    · simp [hi]

theorem store_apply_of_mem {m : Mem} {a w v b : Nat} (h1 : a ≤ b) (h2 : b < a + w) :
    m.store a w v b = v.testBit (b - a) := by
  simp [store, h1, h2]

theorem store_apply_of_not_mem {m : Mem} {a w v b : Nat} (h : b < a ∨ a + w ≤ b) :
    m.store a w v b = m b := by
  unfold store
  rw [if_neg (by omega)]

/-- A store keeps only the low `w` bits of its value. -/
theorem store_mod_two_pow (m : Mem) (a w v : Nat) : m.store a w (v % 2 ^ w) = m.store a w v := by
  funext b
  unfold store
  split
  · rw [Nat.testBit_mod_two_pow, decide_eq_true (by omega), Bool.true_and]
  · rfl

/-- A store of the low `w₁` bits of a value, then of the next `w₂` bits just
above them, is one store of `w₁ + w₂` bits. -/
theorem store_store_shiftRight (m : Mem) (a w₁ w₂ v : Nat) :
    (m.store a w₁ v).store (a + w₁) w₂ (v >>> w₁) = m.store a (w₁ + w₂) v := by
  funext b
  by_cases hhigh : a + w₁ ≤ b ∧ b < a + w₁ + w₂
  · rw [store_apply_of_mem hhigh.1 hhigh.2, store_apply_of_mem (by omega) (by omega), Nat.testBit_shiftRight]
    congr 1
    omega
  · rw [store_apply_of_not_mem (by omega)]
    by_cases hlow : a ≤ b ∧ b < a + w₁
    · rw [store_apply_of_mem hlow.1 hlow.2, store_apply_of_mem hlow.1 (by omega)]
    · rw [store_apply_of_not_mem (by omega), store_apply_of_not_mem (by omega)]

theorem load_store_self (m : Mem) (a w v : Nat) : (m.store a w v).load a w = v % 2 ^ w := by
  apply Nat.eq_of_testBit_eq
  intro i
  rw [testBit_load, Nat.testBit_mod_two_pow]
  by_cases hi : i < w
  · simp [hi, store_apply_of_mem (Nat.le_add_right a i) (by omega : a + i < a + w)]
  · simp [hi]

theorem load_store_of_disjoint (m : Mem) {a w a' w' : Nat} (v : Nat)
    (h : a' + w' ≤ a ∨ a + w ≤ a') : (m.store a w v).load a' w' = m.load a' w' :=
  load_congr fun i hi => store_apply_of_not_mem (by omega)

/-- A load inside a stored range reads the matching bits of the stored value. -/
theorem load_store_of_le (m : Mem) {a w a' w' : Nat} (v : Nat) (h1 : a ≤ a')
    (h2 : a' + w' ≤ a + w) : (m.store a w v).load a' w' = (v >>> (a' - a)) % 2 ^ w' := by
  apply Nat.eq_of_testBit_eq
  intro i
  rw [testBit_load, Nat.testBit_mod_two_pow, Nat.testBit_shiftRight]
  by_cases hi : i < w'
  · rw [store_apply_of_mem (by omega) (by omega)]
    simp [hi, show a' + i - a = a' - a + i by omega]
  · simp [hi]

/-- Read-modify-write with `|||`: the bits of `x` are added to the range. -/
theorem store_load_or (m : Mem) (a w x b : Nat) :
    m.store a w (m.load a w ||| x) b =
      if a ≤ b ∧ b < a + w then (m b || x.testBit (b - a)) else m b := by
  unfold store
  split
  · rw [Nat.testBit_or, testBit_load, show a + (b - a) = b by omega]
    simp [show b - a < w by omega]
  · rfl

/-- Read-modify-write with `&&&`: the range keeps the bits that `x` keeps. -/
theorem store_load_and (m : Mem) (a w x b : Nat) :
    m.store a w (m.load a w &&& x) b =
      if a ≤ b ∧ b < a + w then (m b && x.testBit (b - a)) else m b := by
  unfold store
  split
  · rw [Nat.testBit_and, testBit_load, show a + (b - a) = b by omega]
    simp [show b - a < w by omega]
  · rfl

/-- Read-modify-write with a complemented mask (`c` is the width the complement
is taken in): the range loses the bits of `x`. -/
theorem store_load_and_compl (m : Mem) {a w c : Nat} (x b : Nat) (hw : w ≤ c) :
    m.store a w (m.load a w &&& Word.compl c x) b =
      (m b && !(decide (a ≤ b ∧ b < a + w) && x.testBit (b - a))) := by
  rw [store_load_and]
  split
  · rename_i hin
    rw [Word.testBit_compl_of_lt (by omega)]
    simp [hin]
  · rename_i hout
    simp [hout]

/-- Testing one bit of a loaded value. -/
theorem load_and_bit_ne_zero (m : Mem) {a w j : Nat} (hj : j < w) :
    (m.load a w &&& 1 <<< j != 0) = m (a + j) := by
  rw [Nat.one_shiftLeft, Nat.and_two_pow, testBit_load]
  cases m (a + j) <;> simp [hj]

/-- Setting one bit by read-modify-write. -/
theorem store_or_bit (m : Mem) {a w j : Nat} (hj : j < w) :
    m.store a w (m.load a w ||| 1 <<< j) = fun b => b = a + j || m b := by
  funext b
  rw [store_load_or, Nat.one_shiftLeft]
  split
  · rw [Nat.testBit_two_pow]
    by_cases hb : b = a + j
    · simp [hb]
    · simp [hb, show j ≠ b - a by omega, Bool.or_comm]
  · simp [show b ≠ a + j by omega]

/-- Clearing one bit by read-modify-write with a complemented single-bit mask
(`c` is the width the complement is taken in). -/
theorem store_and_compl_bit (m : Mem) {a w c j : Nat} (hj : j < w) (hc : w ≤ c) :
    m.store a w (m.load a w &&& Word.compl c (1 <<< j)) = fun b => b ≠ a + j && m b := by
  funext b
  have hlt : 1 <<< j < 2 ^ c := by
    rw [Nat.one_shiftLeft]
    exact Nat.pow_lt_pow_right (by decide) (by omega)
  rw [store_load_and]
  split
  · rw [Word.testBit_compl hlt, Nat.one_shiftLeft, Nat.testBit_two_pow]
    by_cases hb : b = a + j
    · simp [hb]
    · simp [hb, show j ≠ b - a by omega, show b - a < c by omega, Bool.and_comm]
  · simp [show b ≠ a + j by omega]

/-- `memcpy`: the `w` bits from bit address `b` of `src`, written from bit address `a`. -/
def copy (m : Mem) (a : Nat) (src : Mem) (b w : Nat) : Mem :=
  fun i => if a ≤ i ∧ i < a + w then src (b + (i - a)) else m i

/-- A copy stores the value it loads. -/
theorem copy_eq_store (m : Mem) (a : Nat) (src : Mem) (b w : Nat) :
    m.copy a src b w = m.store a w (src.load b w) := by
  funext i
  unfold copy store
  split
  · rename_i h
    rw [testBit_load]
    simp [show i - a < w by omega]
  · rfl

theorem copy_apply_of_mem {m src : Mem} {a b w i : Nat} (h1 : a ≤ i) (h2 : i < a + w) :
    m.copy a src b w i = src (b + (i - a)) := by
  simp [copy, h1, h2]

theorem copy_apply_of_not_mem {m src : Mem} {a b w i : Nat} (h : i < a ∨ a + w ≤ i) :
    m.copy a src b w i = m i := by
  unfold copy
  rw [if_neg (by omega)]

/-- A load inside the range of a copy reads the source. -/
theorem load_copy_of_le {m src : Mem} {a b w a' w' : Nat} (h1 : a ≤ a') (h2 : a' + w' ≤ a + w) :
    (m.copy a src b w).load a' w' = src.load (b + (a' - a)) w' :=
  load_eq_load fun i hi => by
    rw [copy_apply_of_mem (by omega) (by omega), Nat.add_assoc]
    congr 2
    omega

/-- A load outside the range of a copy reads the memory as it was. -/
theorem load_copy_of_disjoint {m src : Mem} {a b w a' w' : Nat} (h : a' + w' ≤ a ∨ a + w ≤ a') :
    (m.copy a src b w).load a' w' = m.load a' w' :=
  load_congr fun i hi => copy_apply_of_not_mem (by omega)

/-- The memory seen through a pointer to bit address `a`. -/
def shift (m : Mem) (a : Nat) : Mem := fun i => m (a + i)

/-- The memory after the writes `r` made through a pointer to bit address `a`. -/
def unshift (m : Mem) (a : Nat) (r : Mem) : Mem := fun i => if a ≤ i then r (i - a) else m i

theorem unshift_apply_of_lt {m r : Mem} {a i : Nat} (h : i < a) : m.unshift a r i = m i := by
  simp [unshift, Nat.not_le.mpr h]

theorem unshift_apply_of_le {m r : Mem} {a i : Nat} (h : a ≤ i) : m.unshift a r i = r (i - a) := by
  simp [unshift, h]

theorem load_shift (m : Mem) (a b w : Nat) : (m.shift a).load b w = m.load (a + b) w :=
  load_eq_load fun i _ => by simp [shift, Nat.add_assoc]

/-- Putting back an unchanged view changes nothing. -/
@[simp] theorem unshift_shift (m : Mem) (a : Nat) : m.unshift a (m.shift a) = m := by
  funext i
  unfold unshift shift
  split
  · congr 1
    omega
  · rfl

@[simp] theorem shift_unshift (m r : Mem) (a : Nat) : (m.unshift a r).shift a = r := by
  funext i
  simp [shift, unshift]

/-- A buffer of bytes: byte `j` of the list at byte address `j`, zero past its end. -/
def ofBytes (bs : List Nat) : Mem := fun k => (bs.getD (k / 8) 0).testBit (k % 8)

/-- A byte of a buffer of bytes reads back. -/
theorem load_ofBytes {bs : List Nat} (hbs : ∀ v ∈ bs, v < 256) (j : Nat) :
    (ofBytes bs).load (8 * j) 8 = bs.getD j 0 := by
  have hbyte : bs.getD j 0 < 2 ^ 8 := by
    rw [List.getD_eq_getElem?_getD]
    cases h : bs[j]? with
    | none => simp
    | some v => simpa using hbs v (List.mem_of_getElem? h)
  apply Nat.eq_of_testBit_eq
  intro i
  rw [testBit_load]
  by_cases hi : i < 8
  · simp [ofBytes, hi, show (8 * j + i) / 8 = j by omega, show (8 * j + i) % 8 = i by omega]
  · have hlt : bs.getD j 0 < 2 ^ i := lt_of_lt_of_le hbyte (Nat.pow_le_pow_right (by omega) (by omega))
    rw [Nat.testBit_lt_two_pow hlt]
    simp [hi]

end Mem
end Vectorscan
