import Vectorscan.Multibit.Layout

/-!
# Multibit: the tree model, single keys

`mmbit_isset_big`, `mmbit_set_big` and `mmbit_unset_big` of
`src/util/multibit.h` follow the path of a key from the root block down to its
leaf block, one block per level.

**Geometry.**  Level `l` occupies the memory bits from `nodeAddr l 0` to
`nodeAddr (l + 1) 0 = nodeAddr l 0 + 64 ^ (l + 1)`, so nodes of different
levels never share a bit (`nodeAddr_inj`) and a block store on one level
leaves every other level alone (`levelBit_mmbStore`).

**Results.**  `mmbitIssetBig_eq` (a key is set iff its whole path is set),
`pathSet_mmbitSetBig` (setting a key adds exactly the nodes of its path to the
path-set nodes: the blocks below the first clear summary bit are overwritten,
so whatever they held before is cut off), `pathSet_mmbitUnsetBig` (the lazy
unset removes only the leaf), and from them `mmbitValid_mmbitSetBig` and
`mmbitValid_mmbitUnsetBig`.
-/

namespace Vectorscan
namespace Multibit

open Word

/-! ## Level regions -/

theorem rootOffset_add_le {l l' : Nat} (h : l < l') (h' : l' ≤ 6) :
    mmbitRootOffsetFromLevel.getD l 0 + 64 ^ l ≤ mmbitRootOffsetFromLevel.getD l' 0 := by
  induction l' with
  | zero => omega
  | succ l' ih =>
      rw [rootOffset_succ (by omega)]
      rcases Nat.lt_succ_iff_lt_or_eq.mp h with h | h
      · exact Nat.le_add_right_of_le (ih h (by omega))
      · subst h
        omega

/-- Every node of a level lies below every node of a later level. -/
theorem nodeAddr_lt {l l' n n' : Nat} (h : l < l') (h' : l' ≤ 6) (hn : n < 64 ^ (l + 1)) :
    nodeAddr l n < nodeAddr l' n' := by
  have := rootOffset_add_le h h'
  rw [Nat.pow_succ] at hn
  unfold nodeAddr
  omega

theorem nodeAddr_inj {l l' n n' : Nat} (hl : l ≤ 5) (hl' : l' ≤ 5) (hn : n < 64 ^ (l + 1))
    (hn' : n' < 64 ^ (l' + 1)) : nodeAddr l n = nodeAddr l' n' ↔ l = l' ∧ n = n' := by
  constructor
  · intro h
    rcases Nat.lt_trichotomy l l' with hlt | rfl | hgt
    · exact absurd h (Nat.ne_of_lt (nodeAddr_lt hlt (by omega) hn))
    · unfold nodeAddr at h
      exact ⟨rfl, by omega⟩
    · exact absurd h (Nat.ne_of_gt (nodeAddr_lt hgt (by omega) hn'))
  · rintro ⟨rfl, rfl⟩
    rfl

/-- A block store on level `l'` changes the 64 nodes of that block only. -/
theorem levelBit_mmbStore {bits : Mem} {l l' b n v : Nat} (hl : l ≤ 5) (hl' : l' ≤ 5)
    (hn : n < 64 ^ (l + 1)) (hb : b < 64 ^ l') :
    levelBit (mmbStore bits (mmbitGetLevelRoot l' + b * 8) v) l n =
      if l = l' ∧ n / 64 = b then v.testBit (n % 64) else levelBit bits l n := by
  unfold levelBit mmbStore
  have ha : 8 * (mmbitGetLevelRoot l' + b * 8) = nodeAddr l' (64 * b) := by
    unfold mmbitGetLevelRoot nodeAddr
    omega
  rw [ha]
  by_cases hsame : l = l'
  · subst hsame
    by_cases hblk : n / 64 = b
    · rw [if_pos ⟨rfl, hblk⟩,
        Mem.store_apply_of_mem (by unfold nodeAddr; omega) (by unfold nodeAddr; omega)]
      congr 1
      unfold nodeAddr
      omega
    · rw [if_neg (by omega), Mem.store_apply_of_not_mem (by unfold nodeAddr; omega)]
  · rw [if_neg (by omega), Mem.store_apply_of_not_mem]
    rcases Nat.lt_or_gt_of_ne hsame with hlt | hgt
    · exact Or.inl (nodeAddr_lt hlt (by omega) hn)
    · right
      have hb' : 64 * b + 64 ≤ 64 ^ l' * 64 := by omega
      have := rootOffset_add_le hgt (by omega)
      unfold nodeAddr
      omega

/-! ## The path of a key -/

section Path

variable {bits : Mem}

theorem mmbitGetKs_succ {maxLevel l : Nat} (h : l < maxLevel) :
    mmbitGetKs maxLevel l = mmbitGetKs maxLevel (l + 1) + 6 := by
  unfold mmbitGetKs mmbKeyShift
  omega

/-- A node of level `l` covers `2 ^ ks(l)` keys, so the `64 ^ (l + 1)` nodes of
the level cover the whole key space. -/
theorem pow_level_mul_ks {maxLevel l : Nat} (hl : l ≤ maxLevel) :
    64 ^ (l + 1) * 2 ^ mmbitGetKs maxLevel l = 64 ^ (maxLevel + 1) := by
  unfold mmbitGetKs mmbKeyShift
  rw [show (64 : Nat) = 2 ^ 6 from rfl, ← Nat.pow_mul, ← Nat.pow_mul, ← Nat.pow_add]
  congr 1
  omega

/-- The node of `key` on level `l` is a node of that level. -/
theorem keyNode_lt {maxLevel key l : Nat} (hkey : key < 64 ^ (maxLevel + 1)) (hl : l ≤ maxLevel) :
    key >>> mmbitGetKs maxLevel l < 64 ^ (l + 1) := by
  rw [Nat.shiftRight_eq_div_pow, Nat.div_lt_iff_lt_mul (Nat.two_pow_pos _), pow_level_mul_ks hl]
  exact hkey

/-- The parent of the node of `key` on level `l + 1` is its node on level `l`. -/
theorem keyNode_parent {maxLevel key l : Nat} (h : l < maxLevel) :
    key >>> mmbitGetKs maxLevel (l + 1) >>> 6 = key >>> mmbitGetKs maxLevel l := by
  rw [← Nat.shiftRight_add, ← mmbitGetKs_succ h]

/-- The ancestor on level `l'` of the node of `key` on level `l` is its node on `l'`. -/
theorem keyNode_shiftRight {maxLevel key l l' : Nat} (h : l' ≤ l) (hl : l ≤ maxLevel) :
    key >>> mmbitGetKs maxLevel l >>> (6 * (l - l')) = key >>> mmbitGetKs maxLevel l' := by
  rw [← Nat.shiftRight_add]
  unfold mmbitGetKs mmbKeyShift
  congr 1
  rw [Nat.mul_comm 6 (l - l'), ← Nat.add_mul]
  congr 1
  omega

@[simp] theorem mmbitGetKs_self (maxLevel : Nat) : mmbitGetKs maxLevel maxLevel = 0 := by
  simp [mmbitGetKs]

/-- An ancestor of a node of level `l` is a node of its own level. -/
theorem node_shiftRight_lt {l l' n : Nat} (hn : n < 64 ^ (l + 1)) (h : l' ≤ l) :
    n >>> (6 * (l - l')) < 64 ^ (l' + 1) := by
  rw [Nat.shiftRight_eq_div_pow, Nat.div_lt_iff_lt_mul (Nat.two_pow_pos _)]
  have e : (64 : Nat) ^ (l + 1) = 64 ^ (l' + 1) * 2 ^ (6 * (l - l')) := by
    rw [show (64 : Nat) = 2 ^ 6 from rfl, ← Nat.pow_mul, ← Nat.pow_mul, ← Nat.pow_add]
    congr 1
    omega
  rwa [← e]

/-- The first key under node `key >> ks` is at most `key`. -/
theorem keyNode_shiftLeft_le (key s : Nat) : key >>> s <<< s ≤ key := by
  rw [Nat.shiftRight_eq_div_pow, Nat.shiftLeft_eq]
  exact Nat.div_mul_le_self key _

theorem pathSet_zero {n : Nat} : PathSet bits 0 n ↔ levelBit bits 0 n = true := by
  constructor
  · intro h
    simpa using h 0 le_rfl
  · intro h l' hl'
    obtain rfl : l' = 0 := by omega
    simpa using h

theorem pathSet_succ {l n : Nat} :
    PathSet bits (l + 1) n ↔ PathSet bits l (n >>> 6) ∧ levelBit bits (l + 1) n = true := by
  constructor
  · intro h
    refine ⟨fun l' hl' => ?_, by simpa using h (l + 1) le_rfl⟩
    rw [← Nat.shiftRight_add, show 6 + 6 * (l - l') = 6 * (l + 1 - l') by omega]
    exact h l' (by omega)
  · rintro ⟨h1, h2⟩ l' hl'
    by_cases hl : l' = l + 1
    · subst hl
      simpa using h2
    · have := h1 l' (by omega)
      rwa [← Nat.shiftRight_add, show 6 + 6 * (l - l') = 6 * (l + 1 - l') by omega] at this

/-- The path of `key` down to level `l` is set iff its node on each level up
to `l` is set. -/
theorem pathSet_keyNode {maxLevel key l : Nat} (hl : l ≤ maxLevel) :
    PathSet bits l (key >>> mmbitGetKs maxLevel l) ↔
      ∀ l', l' ≤ l → levelBit bits l' (key >>> mmbitGetKs maxLevel l') = true := by
  unfold PathSet
  constructor
  · intro h l' hl'
    rw [← keyNode_shiftRight hl' hl]
    exact h l' hl'
  · intro h l' hl'
    rw [keyNode_shiftRight hl' hl]
    exact h l' hl'

end Path

/-! ## Block access on the path of a key -/

/-- The block and bit that `mmbit_*_big` test on `level` are the key's node there. -/
theorem testBit_keyBlock (bits : Mem) (maxLevel level key : Nat) :
    (mmbLoad bits (mmbitGetBlockPtr maxLevel level key)).testBit
        (mmbitGetKeyVal maxLevel level key) =
      levelBit bits level (key >>> mmbitGetKs maxLevel level) := by
  rw [blockPtr_eq, keyVal_eq, testBit_levelBlock, Nat.div_add_mod]
  simp [Nat.mod_lt]

/-- A block store at the key's block on `level'`, seen on a level. -/
theorem levelBit_store_keyBlock {bits : Mem} {maxLevel key level l n v : Nat}
    (hM : maxLevel ≤ 5) (hkey : key < 64 ^ (maxLevel + 1)) (hlevel : level ≤ maxLevel)
    (hl : l ≤ maxLevel) (hn : n < 64 ^ (l + 1)) :
    levelBit (mmbStore bits (mmbitGetBlockPtr maxLevel level key) v) l n =
      if l = level ∧ n / 64 = key >>> mmbitGetKs maxLevel level / 64 then v.testBit (n % 64)
      else levelBit bits l n := by
  have hb : key >>> mmbitGetKs maxLevel level / 64 < 64 ^ level := by
    have := keyNode_lt hkey hlevel
    rw [Nat.pow_succ] at this
    exact Nat.div_lt_of_lt_mul (by rwa [Nat.mul_comm])
  rw [blockPtr_eq, levelBit_mmbStore (by omega) (by omega) hn hb]

/-! ## `mmbit_isset_big` -/

/-- The loop of `mmbit_isset_big` from `level` on. -/
def mmbitIssetBigLoop (bits : Mem) (maxLevel key level : Nat) : Bool :=
  let block := mmbLoad bits (mmbitGetBlockPtr maxLevel level key)
  if !mmbTest block (mmbitGetKeyVal maxLevel level key) then false
  -- `while (level++ != max_level)`
  else if level < maxLevel then mmbitIssetBigLoop bits maxLevel key (level + 1)
  else true
termination_by maxLevel - level

/-- `mmbit_isset_big`. -/
def mmbitIssetBig (bits : Mem) (totalBits key : Nat) : Bool :=
  mmbitIssetBigLoop bits (mmbitMaxlevel totalBits) key 0

theorem mmbitIssetBigLoop_eq (bits : Mem) (maxLevel key level : Nat) (hlevel : level ≤ maxLevel) :
    mmbitIssetBigLoop bits maxLevel key level = true ↔
      ∀ l, level ≤ l → l ≤ maxLevel → levelBit bits l (key >>> mmbitGetKs maxLevel l) = true := by
  fun_induction mmbitIssetBigLoop bits maxLevel key level with
  | case1 level block hclear =>
      rw [mmbTest_eq, testBit_keyBlock] at hclear
      simp only [Bool.false_eq_true, false_iff, not_forall]
      exact ⟨level, le_rfl, hlevel, by simpa using hclear⟩
  | case2 level block hset hlt ih =>
      rw [ih (by omega)]
      rw [mmbTest_eq, testBit_keyBlock] at hset
      constructor
      · intro h l h1 h2
        by_cases hl : l = level
        · subst hl
          simpa using hset
        · exact h l (by omega) h2
      · intro h l h1 h2
        exact h l (by omega) h2
  | case3 level block hset hge =>
      rw [mmbTest_eq, testBit_keyBlock] at hset
      simp only [true_iff]
      intro l h1 h2
      obtain rfl : l = level := by omega
      simpa using hset

/-- **`mmbit_isset_big`** tests whether the whole path of the key is set. -/
theorem mmbitIssetBig_eq (bits : Mem) (totalBits key : Nat) :
    mmbitIssetBig bits totalBits key = decide (PathSet bits (mmbitMaxlevel totalBits) key) := by
  have h := mmbitIssetBigLoop_eq bits (mmbitMaxlevel totalBits) key 0 (Nat.zero_le _)
  have hkey := @pathSet_keyNode bits (mmbitMaxlevel totalBits) key (mmbitMaxlevel totalBits) le_rfl
  unfold mmbitGetKs at hkey
  rw [Nat.sub_self, Nat.zero_mul, Nat.shiftRight_zero] at hkey
  unfold mmbitIssetBig
  rw [Bool.eq_iff_iff, h, decide_eq_true_iff, hkey]
  exact ⟨fun h l hl => h l (Nat.zero_le l) hl, fun h l _ hl => h l hl⟩

/-! ## `mmbit_set_big` -/

/-- The inner loop of `mmbit_set_big`: every block below `level` on the key's
path is overwritten with the key's single bit. -/
def mmbitSetBigFill (bits : Mem) (maxLevel key level : Nat) : Mem :=
  -- `while (level++ != max_level)`
  if level < maxLevel then
    mmbitSetBigFill (mmbStore bits (mmbitGetBlockPtr maxLevel (level + 1) key)
      (mmbSingleBit (mmbitGetKeyVal maxLevel (level + 1) key))) maxLevel key (level + 1)
  else bits
termination_by maxLevel - level

/-- The loop of `mmbit_set_big` from `level` on; the flag says whether the key
was already set. -/
def mmbitSetBigLoop (bits : Mem) (maxLevel key level : Nat) : Mem × Bool :=
  let bytePtr := mmbitGetBytePtr maxLevel level key
  let keymask := 1 <<< mmbitGetKeyValByte maxLevel level key
  let byte := bits.load (8 * bytePtr) 8
  if byte &&& keymask = 0 then
    (mmbitSetBigFill (bits.store (8 * bytePtr) 8 (byte ||| keymask)) maxLevel key level, false)
  else if level < maxLevel then mmbitSetBigLoop bits maxLevel key (level + 1)
  else (bits, true)
termination_by maxLevel - level

/-- `mmbit_set_big`. -/
def mmbitSetBig (bits : Mem) (totalBits key : Nat) : Mem × Bool :=
  mmbitSetBigLoop bits (mmbitMaxlevel totalBits) key 0

theorem mmbitGetKeyValByte_lt (maxLevel level key : Nat) : mmbitGetKeyValByte maxLevel level key < 8 :=
  Nat.lt_succ_of_le Nat.and_le_right

section SetBig

variable {bits : Mem} {maxLevel key : Nat}

/-- The byte test of `mmbit_set_big` reads the key's node on `level`. -/
theorem setByte_eq_zero_iff (level : Nat) :
    bits.load (8 * mmbitGetBytePtr maxLevel level key) 8 &&&
        1 <<< mmbitGetKeyValByte maxLevel level key = 0 ↔
      levelBit bits level (key >>> mmbitGetKs maxLevel level) = false := by
  have h := Mem.load_and_bit_ne_zero bits (a := 8 * mmbitGetBytePtr maxLevel level key)
    (mmbitGetKeyValByte_lt maxLevel level key)
  rw [bytePtr_bit] at h
  unfold levelBit
  rw [← h]
  simp

/-- The byte update of `mmbit_set_big` sets the key's node on `level`. -/
theorem setByte_store (level : Nat) :
    bits.store (8 * mmbitGetBytePtr maxLevel level key) 8
        (bits.load (8 * mmbitGetBytePtr maxLevel level key) 8 |||
          1 <<< mmbitGetKeyValByte maxLevel level key) =
      fun b => b = nodeAddr level (key >>> mmbitGetKs maxLevel level) || bits b := by
  rw [Mem.store_or_bit bits (mmbitGetKeyValByte_lt maxLevel level key), bytePtr_bit]

/-- Switching on the node of `key` on level `l0`, whose ancestors are set, and
overwriting the blocks below with the key's single bit adds exactly the key's
path to the path-set nodes. -/
theorem pathSet_setPath {bits' : Mem} {l0 : Nat}
    (habove : ∀ l, l < l0 → levelBit bits l (key >>> mmbitGetKs maxLevel l) = true)
    (hclear : levelBit bits l0 (key >>> mmbitGetKs maxLevel l0) = false)
    (hbits : ∀ l n, l ≤ maxLevel → n < 64 ^ (l + 1) → levelBit bits' l n =
      if l0 < l ∧ n / 64 = key >>> mmbitGetKs maxLevel l / 64 then
        decide (n = key >>> mmbitGetKs maxLevel l)
      else (decide (l = l0 ∧ n = key >>> mmbitGetKs maxLevel l0) || levelBit bits l n)) :
    ∀ l n, l ≤ maxLevel → n < 64 ^ (l + 1) →
      (PathSet bits' l n ↔ PathSet bits l n ∨ n = key >>> mmbitGetKs maxLevel l) := by
  intro l
  induction l with
  | zero =>
      intro n hl hn
      rw [pathSet_zero, pathSet_zero, hbits 0 n hl hn, if_neg (by omega)]
      by_cases h0 : l0 = 0
      · subst h0
        simp [or_comm]
      · have hroot := habove 0 (by omega)
        by_cases hn0 : n = key >>> mmbitGetKs maxLevel 0
        · subst hn0
          simp [hroot]
        · simp [hn0, Ne.symm h0]
  | succ l ih =>
      intro n hl hn
      have hpar : n >>> 6 < 64 ^ (l + 1) := by
        rw [Nat.shiftRight_eq_div_pow]
        rw [Nat.pow_succ] at hn
        exact Nat.div_lt_of_lt_mul (by simpa [Nat.mul_comm] using hn)
      have hdiv : n / 64 = n >>> 6 := by rw [Nat.shiftRight_eq_div_pow]
      have hkpar := @keyNode_parent maxLevel key l (by omega)
      have hkdiv : key >>> mmbitGetKs maxLevel (l + 1) / 64 = key >>> mmbitGetKs maxLevel l := by
        rw [← hkpar, Nat.shiftRight_eq_div_pow (key >>> mmbitGetKs maxLevel (l + 1)) 6]
      rw [pathSet_succ, pathSet_succ, ih (n >>> 6) (by omega) hpar, hbits (l + 1) n hl hn]
      by_cases hA : l0 < l + 1 ∧ n / 64 = key >>> mmbitGetKs maxLevel (l + 1) / 64
      · -- inside the overwritten block: only the key's node survives, and the
        -- old path through the key's node on `l0` was cut there
        rw [if_pos hA]
        have hup : n >>> 6 = key >>> mmbitGetKs maxLevel l := by rw [← hdiv, hA.2, hkdiv]
        constructor
        · rintro ⟨-, h⟩
          exact Or.inr (by simpa using h)
        · rintro (⟨hp, -⟩ | h)
          · exfalso
            have hanc := hp l0 (by omega)
            rw [hup, keyNode_shiftRight (by omega) (by omega)] at hanc
            rw [hanc] at hclear
            exact Bool.noConfusion hclear
          · exact ⟨Or.inr hup, by simpa using h⟩
      · rw [if_neg hA]
        by_cases hl0 : l + 1 ≤ l0
        · -- above the switched-on node the key's path was already set
          have hkset : PathSet bits l (key >>> mmbitGetKs maxLevel l) :=
            (pathSet_keyNode (by omega)).mpr fun l' hl' => habove l' (by omega)
          by_cases hn1 : n = key >>> mmbitGetKs maxLevel (l + 1)
          · subst hn1
            rw [hkpar]
            have hbit : (decide (l + 1 = l0 ∧ key >>> mmbitGetKs maxLevel (l + 1) =
                key >>> mmbitGetKs maxLevel l0) || levelBit bits (l + 1)
                  (key >>> mmbitGetKs maxLevel (l + 1))) = true := by
              by_cases he : l + 1 = l0
              · subst he
                simp
              · simp [habove (l + 1) (by omega)]
            exact iff_of_true ⟨Or.inr rfl, hbit⟩ (Or.inr rfl)
          · have hne : ¬ (l + 1 = l0 ∧ n = key >>> mmbitGetKs maxLevel l0) := by
              rintro ⟨rfl, h⟩
              exact hn1 h
            simp only [hne, decide_false, Bool.false_or, hn1, or_false]
            constructor
            · rintro ⟨hp | hp, hb⟩
              · exact ⟨hp, hb⟩
              · exact ⟨hp ▸ hkset, hb⟩
            · rintro ⟨hp, hb⟩
              exact ⟨Or.inl hp, hb⟩
        · -- outside the overwritten blocks nothing changed
          have hne : n >>> 6 ≠ key >>> mmbitGetKs maxLevel l := by
            intro h
            exact hA ⟨by omega, by rw [hdiv, h, hkdiv]⟩
          have hn1 : n ≠ key >>> mmbitGetKs maxLevel (l + 1) := by
            intro h
            exact hA ⟨by omega, by rw [h]⟩
          simp [hne, hn1, show l + 1 ≠ l0 by omega]

/-- Setting one node, seen on the levels. -/
theorem levelBit_or_node {l0 k l n : Nat} (hl0 : l0 ≤ 5) (hk : k < 64 ^ (l0 + 1)) (hl : l ≤ 5)
    (hn : n < 64 ^ (l + 1)) :
    levelBit (fun b => b = nodeAddr l0 k || bits b) l n = (decide (l = l0 ∧ n = k) || levelBit bits l n) := by
  unfold levelBit
  dsimp only
  rw [decide_eq_decide.mpr (nodeAddr_inj hl hl0 hn hk)]

variable (hM : maxLevel ≤ 5) (hkey : key < 64 ^ (maxLevel + 1))
include hM hkey

/-- The fill loop leaves, in each block it writes, only the key's node. -/
theorem levelBit_mmbitSetBigFill {level l n : Nat} (hl : l ≤ maxLevel) (hn : n < 64 ^ (l + 1)) :
    levelBit (mmbitSetBigFill bits maxLevel key level) l n =
      if level < l ∧ n / 64 = key >>> mmbitGetKs maxLevel l / 64 then
        decide (n = key >>> mmbitGetKs maxLevel l)
      else levelBit bits l n := by
  fun_induction mmbitSetBigFill bits maxLevel key level with
  | case1 bits level hlt ih =>
      rw [ih, levelBit_store_keyBlock hM hkey (by omega) hl hn, testBit_mmbSingleBit, keyVal_eq]
      by_cases hl1 : l = level + 1
      · subst hl1
        by_cases h3 : n / 64 = key >>> mmbitGetKs maxLevel (level + 1) / 64
        · rw [if_neg (by omega), if_pos ⟨rfl, h3⟩, if_pos ⟨by omega, h3⟩]
          exact decide_eq_decide.mpr (by omega)
        · rw [if_neg (by omega), if_neg (by omega), if_neg (by omega)]
      · by_cases h1 : level + 1 < l
        · by_cases h3 : n / 64 = key >>> mmbitGetKs maxLevel l / 64
          · rw [if_pos ⟨h1, h3⟩, if_pos ⟨by omega, h3⟩]
          · rw [if_neg (by omega), if_neg (by omega), if_neg (by omega)]
        · rw [if_neg (by omega), if_neg (by omega), if_neg (by omega)]
  | case2 bits level hge =>
      rw [if_neg (by omega)]

/-- The loop of `mmbit_set_big`, started below a set prefix of the key's path:
it reports whether the whole path was set, and adds the path. -/
theorem mmbitSetBigLoop_spec {level : Nat} (hlevel : level ≤ maxLevel)
    (habove : ∀ l, l < level → levelBit bits l (key >>> mmbitGetKs maxLevel l) = true) :
    (mmbitSetBigLoop bits maxLevel key level).2 =
        decide (PathSet bits maxLevel (key >>> mmbitGetKs maxLevel maxLevel)) ∧
      ∀ l n, l ≤ maxLevel → n < 64 ^ (l + 1) →
        (PathSet (mmbitSetBigLoop bits maxLevel key level).1 l n ↔
          PathSet bits l n ∨ n = key >>> mmbitGetKs maxLevel l) := by
  fun_induction mmbitSetBigLoop bits maxLevel key level with
  | case1 level bytePtr keymask byte hzero =>
      have hclear := (setByte_eq_zero_iff level).mp hzero
      refine ⟨?_, ?_⟩
      · refine (decide_eq_false fun h => ?_).symm
        rw [(pathSet_keyNode le_rfl).mp h level hlevel] at hclear
        exact Bool.noConfusion hclear
      · refine pathSet_setPath habove hclear fun l n hl hn => ?_
        rw [levelBit_mmbitSetBigFill hM hkey hl hn, setByte_store,
          levelBit_or_node (by omega) (keyNode_lt hkey hlevel) (by omega) hn]
  | case2 level bytePtr keymask byte hset hlt ih =>
      have hbit : levelBit bits level (key >>> mmbitGetKs maxLevel level) = true := by
        simpa using mt (setByte_eq_zero_iff level).mpr hset
      exact ih (by omega) fun l hl => by
        by_cases h : l = level
        · subst h
          exact hbit
        · exact habove l (by omega)
  | case3 level bytePtr keymask byte hset hge =>
      have hbit : levelBit bits level (key >>> mmbitGetKs maxLevel level) = true := by
        simpa using mt (setByte_eq_zero_iff level).mpr hset
      have hall : ∀ l, l ≤ maxLevel → levelBit bits l (key >>> mmbitGetKs maxLevel l) = true := by
        intro l hl
        by_cases h : l = level
        · subst h
          exact hbit
        · exact habove l (by omega)
      refine ⟨(decide_eq_true ((pathSet_keyNode le_rfl).mpr fun l hl => hall l hl)).symm, ?_⟩
      intro l n hl hn
      constructor
      · exact Or.inl
      · rintro (h | rfl)
        · exact h
        · exact (pathSet_keyNode hl).mpr fun l' hl' => hall l' (by omega)

end SetBig

/-! ## `mmbit_unset_big` -/

/-- The loop of `mmbit_unset_big` from `level` on.  The unset is lazy: only the
leaf bit is cleared, the summary bits stay on. -/
def mmbitUnsetBigLoop (bits : Mem) (maxLevel key level : Nat) : Mem :=
  let blockPtr := mmbitGetBlockPtr maxLevel level key
  let keyVal := mmbitGetKeyVal maxLevel level key
  let block := mmbLoad bits blockPtr
  if !mmbTest block keyVal then bits
  -- `while (level++ != max_level)`
  else if level < maxLevel then mmbitUnsetBigLoop bits maxLevel key (level + 1)
  -- on `max_level`: `mmb_clear(&block, key_val); mmb_store(block_ptr, block)`
  else mmbStore bits blockPtr (block &&& compl 64 (mmbSingleBit keyVal))
termination_by maxLevel - level

/-- `mmbit_unset_big`. -/
def mmbitUnsetBig (bits : Mem) (totalBits key : Nat) : Mem :=
  mmbitUnsetBigLoop bits (mmbitMaxlevel totalBits) key 0

section UnsetBig

variable {bits : Mem} {maxLevel key : Nat}

/-- Clearing one node, seen on the levels. -/
theorem levelBit_and_node {l0 k l n : Nat} (hl0 : l0 ≤ 5) (hk : k < 64 ^ (l0 + 1)) (hl : l ≤ 5)
    (hn : n < 64 ^ (l + 1)) :
    levelBit (fun b => b ≠ nodeAddr l0 k && bits b) l n =
      (decide (¬ (l = l0 ∧ n = k)) && levelBit bits l n) := by
  unfold levelBit
  dsimp only
  rw [decide_eq_decide.mpr (not_congr (nodeAddr_inj hl hl0 hn hk))]

/-- The loop of `mmbit_unset_big`, started below a set prefix of the key's
path: if the rest of the path is set, the leaf bit is cleared. -/
theorem mmbitUnsetBigLoop_eq {level : Nat} (hlevel : level ≤ maxLevel)
    (habove : ∀ l, l < level → levelBit bits l (key >>> mmbitGetKs maxLevel l) = true) :
    mmbitUnsetBigLoop bits maxLevel key level =
      if PathSet bits maxLevel key then fun b => b ≠ nodeAddr maxLevel key && bits b
      else bits := by
  have hpath := @pathSet_keyNode bits maxLevel key maxLevel le_rfl
  simp only [mmbitGetKs_self, Nat.shiftRight_zero] at hpath
  fun_induction mmbitUnsetBigLoop bits maxLevel key level with
  | case1 level blockPtr keyVal block hclear =>
      rw [mmbTest_eq, testBit_keyBlock] at hclear
      rw [if_neg fun h => by simp [(hpath.mp h) level hlevel] at hclear]
  | case2 level blockPtr keyVal block hset hlt ih =>
      rw [mmbTest_eq, testBit_keyBlock] at hset
      exact ih (by omega) fun l hl => by
        by_cases h : l = level
        · subst h
          simpa using hset
        · exact habove l (by omega)
  | case3 level blockPtr keyVal block hset hge =>
      rw [mmbTest_eq, testBit_keyBlock] at hset
      obtain rfl : level = maxLevel := by omega
      have hall : PathSet bits level key := hpath.mpr fun l hl => by
        by_cases h : l = level
        · subst h
          simpa using hset
        · exact habove l (by omega)
      rw [if_pos hall]
      have hkv : keyVal < 64 := by
        simp only [keyVal, keyVal_eq]
        exact Nat.mod_lt _ (by decide)
      simp only [mmbStore, mmbSingleBit, block, mmbLoad]
      rw [Mem.store_and_compl_bit bits hkv le_rfl, blockPtr_bit, mmbitGetKs_self,
        Nat.shiftRight_zero]

/-- **`mmbit_unset_big`** removes the key's leaf from the path-set nodes and
nothing else. -/
theorem pathSet_mmbitUnsetBigLoop (hM : maxLevel ≤ 5) (hkey : key < 64 ^ (maxLevel + 1))
    {l n : Nat} (hl : l ≤ maxLevel) (hn : n < 64 ^ (l + 1)) :
    PathSet (mmbitUnsetBigLoop bits maxLevel key 0) l n ↔
      PathSet bits l n ∧ ¬ (l = maxLevel ∧ n = key) := by
  rw [mmbitUnsetBigLoop_eq (Nat.zero_le _) fun l hl => absurd hl (Nat.not_lt_zero l)]
  split
  · rename_i hset
    unfold PathSet
    constructor
    · intro h
      refine ⟨fun l' hl' => ?_, fun ⟨hlM, hnk⟩ => ?_⟩
      · have := h l' hl'
        rw [levelBit_and_node (by omega) hkey (by omega) (node_shiftRight_lt hn hl')] at this
        simp only [Bool.and_eq_true] at this
        exact this.2
      · have := h l le_rfl
        rw [levelBit_and_node (by omega) hkey (by omega) (node_shiftRight_lt hn le_rfl)] at this
        simp [hlM, hnk] at this
    · rintro ⟨h, hne⟩ l' hl'
      rw [levelBit_and_node (by omega) hkey (by omega) (node_shiftRight_lt hn hl'), h l' hl']
      have : ¬ (l' = maxLevel ∧ n >>> (6 * (l - l')) = key) := by
        rintro ⟨rfl, h2⟩
        obtain rfl : l = l' := by omega
        simp only [Nat.sub_self, Nat.mul_zero, Nat.shiftRight_zero] at h2
        exact hne ⟨rfl, h2⟩
      simp [this]
  · rename_i hclear
    constructor
    · intro h
      refine ⟨h, fun ⟨hlM, hnk⟩ => hclear ?_⟩
      rw [← hlM, ← hnk]
      exact h
    · exact fun h => h.1

end UnsetBig

/-! ## Tree multibits: keys and invariant -/

/-- A tree multibit has between one and five summary levels, and its keys fit
the pyramid of `64 ^ (max_level + 1)` leaves. -/
theorem treeGeometry {totalBits : Nat} (htree : mmbFlatMaxBits < totalBits)
    (hmax : totalBits ≤ mmbMaxBits) :
    1 ≤ mmbitMaxlevel totalBits ∧ mmbitMaxlevel totalBits ≤ 5 ∧
      totalBits ≤ 64 ^ (mmbitMaxlevel totalBits + 1) := by
  obtain ⟨h1, -, -, h4⟩ := mmbitMaxlevel_spec (by unfold mmbFlatMaxBits at htree; omega) hmax
  refine ⟨mmbitMaxlevel_pos htree hmax, h1, ?_⟩
  rwa [show (64 : Nat) = 2 ^ 6 from rfl, ← Nat.pow_mul, Nat.mul_add, Nat.mul_one]

section TreeKeys

variable {bits : Mem} {totalBits key : Nat} (htree : mmbFlatMaxBits < totalBits)
include htree

theorem mmbitMember_tree_iff :
    MmbitMember totalBits bits key ↔ key < totalBits ∧ PathSet bits (mmbitMaxlevel totalBits) key := by
  unfold MmbitMember
  rw [if_neg (by omega)]

theorem mmbitValid_tree_iff :
    MmbitValid totalBits bits ↔
      ∀ l n, l ≤ mmbitMaxlevel totalBits → n < 64 ^ (l + 1) → PathSet bits l n →
        n <<< mmbitGetKs (mmbitMaxlevel totalBits) l < totalBits := by
  unfold MmbitValid
  rw [if_neg (by omega)]

variable (hmax : totalBits ≤ mmbMaxBits) (hk : key < totalBits)
include hmax hk

/-- **`mmbit_set_big`** adds the key's path to the path-set nodes. -/
theorem pathSet_mmbitSetBig {l n : Nat} (hl : l ≤ mmbitMaxlevel totalBits) (hn : n < 64 ^ (l + 1)) :
    PathSet (mmbitSetBig bits totalBits key).1 l n ↔
      PathSet bits l n ∨ n = key >>> mmbitGetKs (mmbitMaxlevel totalBits) l := by
  obtain ⟨-, hM, hcap⟩ := treeGeometry htree hmax
  exact (mmbitSetBigLoop_spec hM (by omega) (Nat.zero_le _)
    fun l hl => absurd hl (Nat.not_lt_zero l)).2 l n hl hn

/-- `mmbit_set_big` returns whether the key was already in the multibit. -/
theorem mmbitSetBig_ret :
    (mmbitSetBig bits totalBits key).2 = decide (MmbitMember totalBits bits key) := by
  obtain ⟨-, hM, hcap⟩ := treeGeometry htree hmax
  unfold mmbitSetBig
  rw [(mmbitSetBigLoop_spec hM (by omega) (Nat.zero_le _)
    fun l hl => absurd hl (Nat.not_lt_zero l)).1, mmbitGetKs_self, Nat.shiftRight_zero]
  exact decide_eq_decide.mpr (by rw [mmbitMember_tree_iff htree]; exact ⟨fun h => ⟨hk, h⟩, And.right⟩)

theorem mmbitKeys_mmbitSetBig :
    mmbitKeys totalBits (mmbitSetBig bits totalBits key).1 = insert key (mmbitKeys totalBits bits) := by
  obtain ⟨-, -, hcap⟩ := treeGeometry htree hmax
  ext k
  simp only [mmbitKeys, Set.mem_ofPred_eq, Set.mem_insert_iff, mmbitMember_tree_iff htree]
  constructor
  · rintro ⟨hkt, hp⟩
    rw [pathSet_mmbitSetBig htree hmax hk le_rfl (by omega), mmbitGetKs_self,
      Nat.shiftRight_zero] at hp
    rcases hp with hp | rfl
    · exact Or.inr ⟨hkt, hp⟩
    · exact Or.inl rfl
  · rintro (rfl | ⟨hkt, hp⟩)
    · refine ⟨hk, ?_⟩
      rw [pathSet_mmbitSetBig htree hmax hk le_rfl (by omega), mmbitGetKs_self, Nat.shiftRight_zero]
      exact Or.inr rfl
    · refine ⟨hkt, ?_⟩
      rw [pathSet_mmbitSetBig htree hmax hk le_rfl (by omega)]
      exact Or.inl hp

theorem mmbitValid_mmbitSetBig (hv : MmbitValid totalBits bits) :
    MmbitValid totalBits (mmbitSetBig bits totalBits key).1 := by
  rw [mmbitValid_tree_iff htree] at hv ⊢
  intro l n hl hn hp
  rcases (pathSet_mmbitSetBig htree hmax hk hl hn).mp hp with hp | rfl
  · exact hv l n hl hn hp
  · exact lt_of_le_of_lt (keyNode_shiftLeft_le _ _) hk

/-- **`mmbit_unset_big`** removes the key's leaf from the path-set nodes. -/
theorem pathSet_mmbitUnsetBig {l n : Nat} (hl : l ≤ mmbitMaxlevel totalBits) (hn : n < 64 ^ (l + 1)) :
    PathSet (mmbitUnsetBig bits totalBits key) l n ↔
      PathSet bits l n ∧ ¬ (l = mmbitMaxlevel totalBits ∧ n = key) := by
  obtain ⟨-, hM, hcap⟩ := treeGeometry htree hmax
  exact pathSet_mmbitUnsetBigLoop hM (by omega) hl hn

theorem mmbitKeys_mmbitUnsetBig :
    mmbitKeys totalBits (mmbitUnsetBig bits totalBits key) = mmbitKeys totalBits bits \ {key} := by
  obtain ⟨-, -, hcap⟩ := treeGeometry htree hmax
  ext k
  simp only [mmbitKeys, Set.mem_ofPred_eq, Set.mem_sdiff, Set.mem_singleton_iff,
    mmbitMember_tree_iff htree]
  constructor
  · rintro ⟨hkt, hp⟩
    rw [pathSet_mmbitUnsetBig htree hmax hk le_rfl (by omega)] at hp
    exact ⟨⟨hkt, hp.1⟩, fun h => hp.2 ⟨rfl, h⟩⟩
  · rintro ⟨⟨hkt, hp⟩, hne⟩
    refine ⟨hkt, ?_⟩
    rw [pathSet_mmbitUnsetBig htree hmax hk le_rfl (by omega)]
    exact ⟨hp, fun h => hne h.2⟩

theorem mmbitValid_mmbitUnsetBig (hv : MmbitValid totalBits bits) :
    MmbitValid totalBits (mmbitUnsetBig bits totalBits key) := by
  rw [mmbitValid_tree_iff htree] at hv ⊢
  intro l n hl hn hp
  exact hv l n hl hn ((pathSet_mmbitUnsetBig htree hmax hk hl hn).mp hp).1

end TreeKeys

end Multibit
end Vectorscan
