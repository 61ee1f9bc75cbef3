import Vectorscan.Multibit.Tree
import Mathlib.Tactic.Ring

/-!
# Multibit: iteration over the tree model

`mmbit_iterate_big` and `mmbit_iterate_bounded_big` of `src/util/multibit.h`
are depth-first walks over the pyramid: on each level they look for the next
set bit of the current block, go down into the block it stands for, and go
back up (rootwards) when a block has no set bit left.

**Model.**  The source loops with `while (1)` / `for (;;)`.  The model runs the
loop body on a fuel argument; every pass lowers a measure (`iterMeasure`,
`boundedMeasure`: how far the walk still has to go, then where it stands in
the pyramid), and the fuel the wrappers pass exceeds its initial value, so the
fuel is never exhausted.

**Invariant.**  The walk stands in a *reached* block (the root block, or the
child block of a path-set node) and no member lies between the start of the
search and the walk's position.  A summary bit means "the child block is
valid", not "the child block has a member", so the walk may go down into a
block without members and come back up; the invariant does not mind.

**Results.**  `mmbitIterateBig_eq`: continuing from a member `it_in`, or
starting over from `MMB_INVALID`, the walk returns the least member after
`it_in`, or `MMB_INVALID`.  `mmbitIterateBoundedBig_eq`: the least member of
`[it_start, it_end)`, or `MMB_INVALID`.  Both rest on `MmbitValid`: a
path-set leaf is below `total_bits`.
-/

namespace Vectorscan
namespace Multibit

open Word

/-! ## Reached blocks and members -/

/-- Block `key` of `level` is reached by a walk from the root: it is the root
block, or the child block of a path-set node. -/
def BlockReached (bits : Mem) : Nat → Nat → Prop
  | 0, key => key = 0
  | l + 1, key => PathSet bits l key

/-- The members of a tree multibit, as a predicate to search with `firstIn`. -/
def treeMember (bits : Mem) (totalBits maxLevel k : Nat) : Bool :=
  decide (k < totalBits ∧ PathSet bits maxLevel k)

section Walk

variable {bits : Mem} {totalBits maxLevel : Nat}

/-- A set bit of a reached block is a path-set node. -/
theorem pathSet_of_reached {level key j : Nat} (h : BlockReached bits level key) (hj : j < 64)
    (hbit : levelBit bits level (64 * key + j) = true) : PathSet bits level (64 * key + j) := by
  cases level with
  | zero =>
      have hk : key = 0 := h
      subst hk
      exact pathSet_zero.2 hbit
  | succ l =>
      have hpar : (64 * key + j) >>> 6 = key := by
        rw [Nat.shiftRight_eq_div_pow]
        omega
      refine pathSet_succ.2 ⟨?_, hbit⟩
      rw [hpar]
      exact h

/-- Going rootwards from a reached block reaches the parent's block. -/
theorem reached_parent {level key : Nat} (h : BlockReached bits (level + 1) key)
    (hkey : key < 64 ^ (level + 1)) : BlockReached bits level (key >>> 6) := by
  cases level with
  | zero =>
      show key >>> 6 = 0
      rw [Nat.shiftRight_eq_div_pow]
      simp only [Nat.zero_add, Nat.pow_one] at hkey
      omega
  | succ l => exact (pathSet_succ.1 h).1

/-- The parent of a node of level `l + 1` is a node of level `l`. -/
theorem shiftRight_six_lt {key l : Nat} (hkey : key < 64 ^ (l + 1)) : key >>> 6 < 64 ^ l := by
  rw [Nat.shiftRight_eq_div_pow]
  rw [Nat.pow_succ] at hkey
  exact Nat.div_lt_of_lt_mul (by simpa [Nat.mul_comm] using hkey)

/-- A key whose node on some level is clear is not a member. -/
theorem treeMember_of_node_clear {level k : Nat} (hl : level ≤ maxLevel)
    (h : levelBit bits level (k >>> mmbitGetKs maxLevel level) = false) :
    treeMember bits totalBits maxLevel k = false := by
  unfold treeMember
  refine decide_eq_false fun ⟨_, hp⟩ => ?_
  have := hp level hl
  rw [show 6 * (maxLevel - level) = mmbitGetKs maxLevel level by
    unfold mmbitGetKs mmbKeyShift; omega] at this
  rw [this] at h
  exact Bool.noConfusion h

/-- The keys under a run of clear nodes of one block hold no member. -/
theorem firstIn_treeMember_clear {level key a b : Nat} (hl : level ≤ maxLevel)
    (hz : ∀ i, a ≤ i → i < b → levelBit bits level (64 * key + i) = false) :
    firstIn (treeMember bits totalBits maxLevel) ((64 * key + a) * 2 ^ mmbitGetKs maxLevel level)
      ((64 * key + b) * 2 ^ mmbitGetKs maxLevel level) = none := by
  refine firstIn_eq_none_iff.2 fun m h1 h2 => treeMember_of_node_clear hl ?_
  have hpos := Nat.two_pow_pos (mmbitGetKs maxLevel level)
  have hlo : 64 * key + a ≤ m / 2 ^ mmbitGetKs maxLevel level := (Nat.le_div_iff_mul_le hpos).mpr h1
  have hhi : m / 2 ^ mmbitGetKs maxLevel level < 64 * key + b := (Nat.div_lt_iff_lt_mul hpos).mpr h2
  have := hz (m / 2 ^ mmbitGetKs maxLevel level - 64 * key) (by omega) (by omega)
  rwa [show 64 * key + (m / 2 ^ mmbitGetKs maxLevel level - 64 * key) =
    m / 2 ^ mmbitGetKs maxLevel level by omega, ← Nat.shiftRight_eq_div_pow] at this

/-- A block masked with a window of bits `[lo, hi]`, seen node by node. -/
theorem testBit_windowBlock {level key x lo hi : Nat}
    (hx : ∀ j, x.testBit j = decide (lo ≤ j ∧ j ≤ hi ∧ j < 64)) (j : Nat) :
    (mmbLoad bits (mmbitGetLevelRoot level + key * 8) &&& x).testBit j =
      (decide (lo ≤ j ∧ j ≤ hi ∧ j < 64) && levelBit bits level (64 * key + j)) := by
  rw [Nat.testBit_and, testBit_levelBlock, hx]
  by_cases h : lo ≤ j ∧ j ≤ hi ∧ j < 64
  · simp [h]
  · simp [h]

/-- A non-zero window of a reached block: its least bit is a set node of the
window, and the nodes of the window before it are clear. -/
theorem windowBlock_ctz {level key x lo hi : Nat}
    (hx : ∀ j, x.testBit j = decide (lo ≤ j ∧ j ≤ hi ∧ j < 64))
    (hne : mmbLoad bits (mmbitGetLevelRoot level + key * 8) &&& x ≠ 0) :
    let j := mmbCtz (mmbLoad bits (mmbitGetLevelRoot level + key * 8) &&& x)
    j < 64 ∧ lo ≤ j ∧ j ≤ hi ∧ levelBit bits level (64 * key + j) = true ∧
      ∀ i, lo ≤ i → i < j → levelBit bits level (64 * key + i) = false := by
  intro j
  have hlt : (mmbLoad bits (mmbitGetLevelRoot level + key * 8) &&& x) < 2 ^ 64 :=
    lt_of_le_of_lt Nat.and_le_left (mmbLoad_lt bits (mmbitGetLevelRoot level + key * 8))
  obtain ⟨hj, hset, hmin⟩ := mmbCtz_spec hne hlt
  rw [testBit_windowBlock hx] at hset
  simp only [Bool.and_eq_true, decide_eq_true_eq] at hset
  refine ⟨hj, hset.1.1, hset.1.2.1, hset.2, fun i h1 h2 => ?_⟩
  have := hmin i h2
  rw [testBit_windowBlock hx] at this
  simpa [h1, show i ≤ hi by omega, show i < 64 by omega] using this

/-- A zero window: all its nodes are clear. -/
theorem windowBlock_clear {level key x lo hi : Nat}
    (hx : ∀ j, x.testBit j = decide (lo ≤ j ∧ j ≤ hi ∧ j < 64))
    (hzero : mmbLoad bits (mmbitGetLevelRoot level + key * 8) &&& x = 0) :
    ∀ i, lo ≤ i → i ≤ hi → i < 64 → levelBit bits level (64 * key + i) = false := by
  intro i h1 h2 h3
  have h : (mmbLoad bits (mmbitGetLevelRoot level + key * 8) &&& x).testBit i = _ :=
    testBit_windowBlock hx i
  rw [hzero, Nat.zero_testBit] at h
  simpa [h1, h2, h3] using h.symm

end Walk

/-! ## `mmbit_iterate_big` -/

/-- The walk of `mmbit_iterate_big`: on `level`, in block `key`, from bit
`key_rem` on; `fuel` bounds the passes of the source's `while (1)`. -/
def mmbitIterateBigLoop (bits : Mem) (maxLevel : Nat) : Nat → Nat → Nat → Nat → Nat
  | 0, _, _, _ => mmbInvalid
  | fuel + 1, level, key, keyRem =>
      let block := mmbLoad bits (mmbitGetLevelRoot level + key * 8) &&&
        compl 64 (mmbMaskZeroToNocheck keyRem)
      if keyRem < mmbKeyBits ∧ block ≠ 0 then
        let key := (key <<< mmbKeyShift) + mmbCtz block
        if level = maxLevel then key
        else mmbitIterateBigLoop bits maxLevel fuel (level + 1) key 0
      -- rootwards step: the block is zero, or `key_rem == MMB_KEY_BITS`
      else if level = 0 then mmbInvalid
      else
        mmbitIterateBigLoop bits maxLevel fuel (level - 1) (key >>> mmbKeyShift)
          ((key &&& (mmbKeyBits - 1)) + 1)

/-- A bound on the passes of `mmbit_iterate_big` (it exceeds `iterMeasure`). -/
def mmbitIterateBigFuel (maxLevel : Nat) : Nat :=
  (64 ^ (maxLevel + 1) + 1) * (2 * maxLevel + 2)

/-- `mmbit_iterate_big`. -/
def mmbitIterateBig (bits : Mem) (totalBits itIn : Nat) : Nat :=
  let maxLevel := mmbitMaxlevel totalBits
  if itIn ≠ mmbInvalid then
    -- continuing a previous iteration: pick up on `max_level` after `it_in`
    mmbitIterateBigLoop bits maxLevel (mmbitIterateBigFuel maxLevel) maxLevel
      (itIn >>> mmbKeyShift) ((itIn &&& (mmbKeyBits - 1)) + 1)
  else mmbitIterateBigLoop bits maxLevel (mmbitIterateBigFuel maxLevel) 0 0 0

/-- The first key not yet passed by the walk: bit `key_rem` of block `key` of `level`. -/
def walkPos (maxLevel level key keyRem : Nat) : Nat :=
  (64 * key + keyRem) * 2 ^ mmbitGetKs maxLevel level

/-- The measure of the walk: how far it is from the end of the key space, then
where it stands (going down while inside a block, up once a block is done). -/
def iterMeasure (maxLevel level key keyRem : Nat) : Nat :=
  (64 ^ (maxLevel + 1) - walkPos maxLevel level key keyRem) * (2 * maxLevel + 2) +
    if keyRem < 64 then maxLevel - level else maxLevel + 1 + level

/-- The invariant of the walk of `mmbit_iterate_big`, for a search from `start`. -/
structure IterInv (bits : Mem) (totalBits maxLevel start level key keyRem : Nat) : Prop where
  level_le : level ≤ maxLevel
  key_lt : key < 64 ^ level
  rem_le : keyRem ≤ 64
  reached : BlockReached bits level key
  start_le : start ≤ walkPos maxLevel level key keyRem
  clear_before :
    firstIn (treeMember bits totalBits maxLevel) start (walkPos maxLevel level key keyRem) = none

section IterateBig

variable {bits : Mem} {totalBits maxLevel start : Nat}

theorem walkPos_le {level key keyRem : Nat} (hl : level ≤ maxLevel) (hkey : key < 64 ^ level)
    (hrem : keyRem ≤ 64) : walkPos maxLevel level key keyRem ≤ 64 ^ (maxLevel + 1) := by
  unfold walkPos
  rw [← pow_level_mul_ks hl]
  apply Nat.mul_le_mul_right
  rw [Nat.pow_succ]
  omega

/-- Going down into the block of node `64 * key + j` keeps the position at
that node's first key. -/
theorem walkPos_down {level key j : Nat} (hl : level < maxLevel) :
    walkPos maxLevel (level + 1) (64 * key + j) 0 = (64 * key + j) * 2 ^ mmbitGetKs maxLevel level := by
  unfold walkPos
  rw [mmbitGetKs_succ hl, Nat.pow_add]
  simp only [Nat.add_zero]
  ring_nf

/-- Going up moves the position to the end of the block just left. -/
theorem walkPos_up {level key : Nat} (hl : level + 1 ≤ maxLevel) :
    walkPos maxLevel level (key >>> 6) ((key &&& 63) + 1) =
      (64 * key + 64) * 2 ^ mmbitGetKs maxLevel (level + 1) := by
  unfold walkPos
  rw [mmbitGetKs_succ (by omega : level < maxLevel), Nat.pow_add, Nat.shiftRight_eq_div_pow,
    show (63 : Nat) = 2 ^ 6 - 1 from rfl, Nat.and_two_pow_sub_one_eq_mod]
  have := Nat.div_add_mod key (2 ^ 6)
  simp only [Nat.reducePow] at this ⊢
  rw [show 64 * (key / 64) + (key % 64 + 1) = key + 1 by omega]
  ring

/-- Going down into the block of node `64 * key + j`: that block ends where the node ends. -/
theorem walkPos_down_end {level key j : Nat} (hl : level < maxLevel) :
    walkPos maxLevel (level + 1) (64 * key + j) 64 =
      (64 * key + j + 1) * 2 ^ mmbitGetKs maxLevel level := by
  unfold walkPos
  rw [mmbitGetKs_succ hl, Nat.pow_add]
  ring

/-- Going up: the parent block starts at or before the block just left ... -/
theorem walkPos_parent_base {level key : Nat} (hl : level + 1 ≤ maxLevel) :
    walkPos maxLevel level (key >>> 6) 0 ≤ walkPos maxLevel (level + 1) key 0 := by
  unfold walkPos
  rw [mmbitGetKs_succ (by omega : level < maxLevel), Nat.pow_add, Nat.shiftRight_eq_div_pow]
  have h : 64 * (key / 2 ^ 6) ≤ key := Nat.mul_div_le key _
  calc (64 * (key / 2 ^ 6) + 0) * (2 ^ mmbitGetKs maxLevel (level + 1) * 2 ^ 6)
      = 64 * (key / 2 ^ 6) * (64 * 2 ^ mmbitGetKs maxLevel (level + 1)) := by ring
    _ ≤ key * (64 * 2 ^ mmbitGetKs maxLevel (level + 1)) := Nat.mul_le_mul_right _ h
    _ = (64 * key + 0) * 2 ^ mmbitGetKs maxLevel (level + 1) := by ring

/-- ... and ends at or after it. -/
theorem walkPos_parent_end {level key : Nat} (hl : level + 1 ≤ maxLevel) :
    walkPos maxLevel (level + 1) key 64 ≤ walkPos maxLevel level (key >>> 6) 64 := by
  unfold walkPos
  rw [mmbitGetKs_succ (by omega : level < maxLevel), Nat.pow_add, Nat.shiftRight_eq_div_pow]
  have h : key + 1 ≤ 64 * (key / 2 ^ 6) + 64 := by
    have := Nat.lt_mul_div_succ key (show 0 < 2 ^ 6 by decide)
    simp only [Nat.reducePow] at this ⊢
    omega
  calc (64 * key + 64) * 2 ^ mmbitGetKs maxLevel (level + 1)
      = (key + 1) * (64 * 2 ^ mmbitGetKs maxLevel (level + 1)) := by ring
    _ ≤ (64 * (key / 2 ^ 6) + 64) * (64 * 2 ^ mmbitGetKs maxLevel (level + 1)) :=
      Nat.mul_le_mul_right _ h
    _ = (64 * (key / 2 ^ 6) + 64) * (2 ^ mmbitGetKs maxLevel (level + 1) * 2 ^ 6) := by ring

/-- The mask of `mmbit_iterate_big`: the bits from `key_rem` on. -/
theorem testBit_remMask {keyRem : Nat} (hrem : keyRem ≤ 64) (j : Nat) :
    (compl 64 (mmbMaskZeroToNocheck keyRem)).testBit j = decide (keyRem ≤ j ∧ j ≤ 63 ∧ j < 64) := by
  rw [mmbMaskZeroToNocheck_eq, testBit_compl (lowMask_lt_of_le hrem), testBit_lowMask]
  by_cases h1 : j < 64 <;> by_cases h2 : j < keyRem <;> simp [h1, h2]
  omega

/-- A masked block that the walk leaves: its nodes from `key_rem` on are clear. -/
theorem iterBlock_clear {level key keyRem : Nat} (hrem : keyRem ≤ 64)
    (h : ¬ (keyRem < mmbKeyBits ∧
      mmbLoad bits (mmbitGetLevelRoot level + key * 8) &&& compl 64 (mmbMaskZeroToNocheck keyRem) ≠ 0)) :
    ∀ i, keyRem ≤ i → i < 64 → levelBit bits level (64 * key + i) = false := by
  intro i h1 h2
  have hzero : mmbLoad bits (mmbitGetLevelRoot level + key * 8) &&&
      compl 64 (mmbMaskZeroToNocheck keyRem) = 0 := by
    unfold mmbKeyBits at h
    by_contra hne
    exact h ⟨by omega, hne⟩
  exact windowBlock_clear (testBit_remMask hrem) hzero i h1 (by omega) h2

/-- Every measure of the walk is below the fuel of the wrapper. -/
theorem iterMeasure_lt_fuel {level key keyRem : Nat} (hl : level ≤ maxLevel) :
    iterMeasure maxLevel level key keyRem < mmbitIterateBigFuel maxLevel := by
  unfold iterMeasure mmbitIterateBigFuel
  rw [Nat.add_mul, Nat.one_mul]
  have := Nat.mul_le_mul_right (2 * maxLevel + 2)
    (Nat.sub_le (64 ^ (maxLevel + 1)) (walkPos maxLevel level key keyRem))
  split <;> omega

/-- Going down into node `64 * key + j`, at or after `key_rem`, lowers the measure. -/
theorem iterMeasure_down_lt {level key keyRem j : Nat} (hl : level < maxLevel) (hj : keyRem ≤ j)
    (hrem : keyRem < 64) :
    iterMeasure maxLevel (level + 1) (64 * key + j) 0 < iterMeasure maxLevel level key keyRem := by
  unfold iterMeasure
  rw [walkPos_down hl, if_pos (by omega), if_pos hrem]
  apply lex_lt_of_le_of_lt
  · exact Nat.sub_le_sub_left (Nat.mul_le_mul_right _ (by omega)) _
  · omega

/-- Going up from block `key` of level `l + 1` lowers the measure: past a
block scanned from `key_rem < 64` the position moves on, and past a finished
block it stays and the walk is one level higher. -/
theorem iterMeasure_up_lt {l key keyRem : Nat} (hl : l + 1 ≤ maxLevel) (hkey : key < 64 ^ (l + 1))
    (hrem : keyRem ≤ 64) :
    iterMeasure maxLevel l (key >>> 6) ((key &&& 63) + 1) < iterMeasure maxLevel (l + 1) key keyRem := by
  have hparent : key >>> 6 < 64 ^ l := by
    rw [Nat.shiftRight_eq_div_pow]
    rw [Nat.pow_succ] at hkey
    exact Nat.div_lt_of_lt_mul (by simpa [Nat.mul_comm] using hkey)
  have hup' := @walkPos_le maxLevel l (key >>> 6) ((key &&& 63) + 1) (by omega) hparent
    (by have : key &&& 63 ≤ 63 := Nat.and_le_right; omega)
  unfold iterMeasure
  rw [walkPos_up hl] at hup' ⊢
  by_cases hfresh : keyRem < 64
  · apply lex_lt_of_lt
    · have hlt : walkPos maxLevel (l + 1) key keyRem <
          (64 * key + 64) * 2 ^ mmbitGetKs maxLevel (l + 1) := by
        unfold walkPos
        exact Nat.mul_lt_mul_of_pos_right (by omega) (Nat.two_pow_pos _)
      omega
    · split <;> omega
  · obtain rfl : keyRem = 64 := by omega
    apply lex_lt_of_le_of_lt
    · unfold walkPos
      exact le_refl _
    · rw [if_neg hfresh]
      split <;> omega

variable (hM : maxLevel ≤ 5) (hcap : totalBits ≤ 64 ^ (maxLevel + 1))
  (hvalid : ∀ l n, l ≤ maxLevel → n < 64 ^ (l + 1) → PathSet bits l n →
    n <<< mmbitGetKs maxLevel l < totalBits)
include hM hcap hvalid

/-- The run of the walk of `mmbit_iterate_big`: from any state satisfying the
invariant, with more fuel than its measure, it returns the least member from
`start` on, or `MMB_INVALID`. -/
theorem mmbitIterateBigLoop_eq (fuel : Nat) :
    ∀ level key keyRem, IterInv bits totalBits maxLevel start level key keyRem →
      iterMeasure maxLevel level key keyRem < fuel →
      mmbitIterateBigLoop bits maxLevel fuel level key keyRem =
        (firstIn (treeMember bits totalBits maxLevel) start totalBits).getD mmbInvalid := by
  induction fuel with
  | zero =>
      intro level key keyRem _ hμ
      exact absurd hμ (Nat.not_lt_zero _)
  | succ fuel ih =>
      intro level key keyRem hinv hμ
      have hposle := walkPos_le hinv.level_le hinv.key_lt hinv.rem_le
      unfold mmbitIterateBigLoop
      dsimp only
      split
      · -- a set bit from `key_rem` on: go down, or finish on the leaf level
        rename_i hfound
        obtain ⟨hj, hjrem, -, hjbit, hjmin⟩ := windowBlock_ctz (testBit_remMask hinv.rem_le) hfound.2
        generalize mmbCtz (mmbLoad bits (mmbitGetLevelRoot level + key * 8) &&&
          compl 64 (mmbMaskZeroToNocheck keyRem)) = j at hj hjrem hjbit hjmin
        have hnode := pathSet_of_reached hinv.reached hj hjbit
        have hkey' : key <<< mmbKeyShift + j = 64 * key + j := by
          unfold mmbKeyShift
          rw [Nat.shiftLeft_eq]
          omega
        have hskip : firstIn (treeMember bits totalBits maxLevel) _ _ = none :=
          firstIn_treeMember_clear hinv.level_le hjmin
        have hclear : firstIn (treeMember bits totalBits maxLevel) start
            ((64 * key + j) * 2 ^ mmbitGetKs maxLevel level) = none :=
          firstIn_none_trans hinv.start_le (Nat.mul_le_mul_right _ (by omega)) hinv.clear_before hskip
        rw [hkey']
        split
        · -- on the leaf level the node is a member
          rename_i hleaf
          subst hleaf
          have hlt : 64 * key + j < 64 ^ (level + 1) := by
            have := hinv.key_lt
            rw [Nat.pow_succ]
            omega
          have hmem := hvalid level (64 * key + j) le_rfl hlt hnode
          simp only [mmbitGetKs_self, Nat.shiftLeft_zero] at hmem
          simp only [mmbitGetKs_self, Nat.pow_zero, Nat.mul_one] at hclear
          have hstart : start ≤ 64 * key + j := by
            have := hinv.start_le
            simp only [walkPos, mmbitGetKs_self, Nat.pow_zero, Nat.mul_one] at this
            omega
          have hfirst : firstIn (treeMember bits totalBits level) start totalBits =
              some (64 * key + j) := by
            refine firstIn_eq_some_iff.2 ⟨hstart, hmem, by simp [treeMember, hmem, hnode],
              fun i h1 h2 => firstIn_eq_none_iff.1 hclear i h1 h2⟩
          rw [hfirst]
          rfl
        · -- go down into the block of the node
          rename_i hinner
          have hl : level < maxLevel := by have := hinv.level_le; omega
          refine ih (level + 1) (64 * key + j) 0 ⟨by omega, ?_, by omega, hnode, ?_, ?_⟩ ?_
          · have := hinv.key_lt
            rw [Nat.pow_succ]
            omega
          · rw [walkPos_down hl]
            exact le_trans hinv.start_le (Nat.mul_le_mul_right _ (by omega))
          · rw [walkPos_down hl]
            exact hclear
          · exact lt_of_lt_of_le (iterMeasure_down_lt hl hjrem hfound.1) (Nat.le_of_lt_succ hμ)
      · -- the block is done: go up, or give up on the root
        rename_i hnone
        have hblk := iterBlock_clear hinv.rem_le hnone
        have hskip : firstIn (treeMember bits totalBits maxLevel) _ _ = none :=
          firstIn_treeMember_clear hinv.level_le hblk
        have hclear : firstIn (treeMember bits totalBits maxLevel) start
            ((64 * key + 64) * 2 ^ mmbitGetKs maxLevel level) = none :=
          firstIn_none_trans hinv.start_le (Nat.mul_le_mul_right _ (by have := hinv.rem_le; omega))
            hinv.clear_before hskip
        split
        · -- the root block is done: no member from `start` on
          rename_i hroot
          subst hroot
          have hk0 : key = 0 := hinv.reached
          subst hk0
          have hend : totalBits ≤ (64 * 0 + 64) * 2 ^ mmbitGetKs maxLevel 0 := by
            rw [show 64 * 0 + 64 = 64 ^ (0 + 1) by rfl, pow_level_mul_ks (Nat.zero_le _)]
            exact hcap
          rw [firstIn_none_of_le hend hclear]
          rfl
        · rename_i hup
          obtain ⟨l, rfl⟩ : ∃ l, level = l + 1 := ⟨level - 1, by omega⟩
          have hl : l + 1 ≤ maxLevel := hinv.level_le
          have hkey := hinv.key_lt
          refine ih l (key >>> mmbKeyShift) ((key &&& (mmbKeyBits - 1)) + 1)
            ⟨by omega, ?_, ?_, reached_parent hinv.reached hkey, ?_, ?_⟩ ?_
          · unfold mmbKeyShift
            rw [Nat.shiftRight_eq_div_pow]
            rw [Nat.pow_succ] at hkey
            exact Nat.div_lt_of_lt_mul (by simpa [Nat.mul_comm] using hkey)
          · have : key &&& (mmbKeyBits - 1) ≤ 63 := Nat.and_le_right
            omega
          · unfold mmbKeyShift mmbKeyBits
            rw [walkPos_up hl]
            exact le_trans hinv.start_le (Nat.mul_le_mul_right _ (by have := hinv.rem_le; omega))
          · unfold mmbKeyShift mmbKeyBits
            rw [walkPos_up hl]
            exact hclear
          · exact lt_of_lt_of_le (iterMeasure_up_lt hl hkey hinv.rem_le) (Nat.le_of_lt_succ hμ)

end IterateBig

/-- Continuing after key `k`: the walk stands just after `k` on the leaf level. -/
theorem walkPos_after (maxLevel k : Nat) :
    walkPos maxLevel maxLevel (k >>> mmbKeyShift) ((k &&& (mmbKeyBits - 1)) + 1) = k + 1 := by
  unfold walkPos mmbKeyShift mmbKeyBits
  rw [mmbitGetKs_self, Nat.pow_zero, Nat.mul_one, Nat.shiftRight_eq_div_pow,
    show (64 - 1 : Nat) = 2 ^ 6 - 1 from rfl, Nat.and_two_pow_sub_one_eq_mod]
  have := Nat.div_add_mod k (2 ^ 6)
  simp only [Nat.reducePow] at this ⊢
  omega

/-- The members of a tree multibit are `treeMember`. -/
theorem mmbitMember_eq_treeMember {bits : Mem} {totalBits : Nat} (htree : mmbFlatMaxBits < totalBits) :
    (fun k => decide (MmbitMember totalBits bits k)) =
      treeMember bits totalBits (mmbitMaxlevel totalBits) :=
  funext fun _ => decide_eq_decide.mpr (mmbitMember_tree_iff htree)

/-- **`mmbit_iterate_big`**, started over (`MMB_INVALID`) or continued from a
member, returns the least member after `it_in`, or `MMB_INVALID`. -/
theorem mmbitIterateBig_eq {bits : Mem} {totalBits itIn : Nat} (htree : mmbFlatMaxBits < totalBits)
    (hmax : totalBits ≤ mmbMaxBits) (hv : MmbitValid totalBits bits)
    (hit : itIn = mmbInvalid ∨ MmbitMember totalBits bits itIn) :
    mmbitIterateBig bits totalBits itIn =
      (firstIn (fun k => decide (MmbitMember totalBits bits k))
        (if itIn = mmbInvalid then 0 else itIn + 1) totalBits).getD mmbInvalid := by
  obtain ⟨hpos, hM, hcap⟩ := treeGeometry htree hmax
  have hvalid := (mmbitValid_tree_iff htree).mp hv
  rw [mmbitMember_eq_treeMember htree]
  unfold mmbitIterateBig
  dsimp only
  rcases hit with rfl | hmem
  · -- a fresh iteration starts at the root block
    rw [if_neg (not_not.mpr rfl), if_pos rfl]
    have hpos0 : walkPos (mmbitMaxlevel totalBits) 0 0 0 = 0 := by simp [walkPos]
    refine mmbitIterateBigLoop_eq hM hcap hvalid _ 0 0 0
      ⟨Nat.zero_le _, by simp, by omega, rfl, by omega, ?_⟩ (iterMeasure_lt_fuel (Nat.zero_le _))
    rw [hpos0]
    exact firstIn_eq_none_iff.2 fun j h1 h2 => by omega
  · -- a continued iteration starts on the leaf level, after `it_in`
    obtain ⟨hlt, hpath⟩ := (mmbitMember_tree_iff htree).mp hmem
    have hne : itIn ≠ mmbInvalid := by
      unfold mmbInvalid
      unfold mmbMaxBits at hmax
      omega
    rw [if_pos hne, if_neg hne]
    obtain ⟨m, hm⟩ : ∃ m, mmbitMaxlevel totalBits = m + 1 := ⟨mmbitMaxlevel totalBits - 1, by omega⟩
    have hreached : BlockReached bits (mmbitMaxlevel totalBits) (itIn >>> mmbKeyShift) := by
      rw [hm] at hpath ⊢
      exact (pathSet_succ.1 hpath).1
    have hkey : itIn >>> mmbKeyShift < 64 ^ mmbitMaxlevel totalBits := by
      unfold mmbKeyShift
      rw [Nat.shiftRight_eq_div_pow]
      have := lt_of_lt_of_le hlt hcap
      rw [Nat.pow_succ] at this
      exact Nat.div_lt_of_lt_mul (by simpa [Nat.mul_comm] using this)
    have hrem : (itIn &&& (mmbKeyBits - 1)) + 1 ≤ 64 := by
      have : itIn &&& (mmbKeyBits - 1) ≤ 63 := Nat.and_le_right
      omega
    refine mmbitIterateBigLoop_eq hM hcap hvalid _ _ _ _
      ⟨le_rfl, hkey, hrem, hreached, by rw [walkPos_after], ?_⟩ (iterMeasure_lt_fuel le_rfl)
    rw [walkPos_after]
    exact firstIn_eq_none_iff.2 fun j h1 h2 => by omega

/-! ## `mmbit_iterate_bounded_big` -/

/-- `get_lowhi_masks`: the bits of a block on `level` (of base key
`block_base`) whose nodes meet `[block_min, block_max]`. -/
def getLowhiMasks (level maxLevel blockMin blockMax blockBase : Nat) : Nat :=
  let levelShift := (maxLevel - level) * mmbKeyShift
  let lshift := (blockMin - blockBase) >>> levelShift
  let ushift := (blockMax - blockBase) >>> levelShift
  let lmask := if lshift < 64 then compl 64 (mmbMaskZeroToNocheck lshift) else 0
  let umask := if ushift < 63 then mmbMaskZeroToNocheck (ushift + 1) else mmbAllOnes
  lmask &&& umask

theorem testBit_getLowhiMasks (level maxLevel blockMin blockMax blockBase j : Nat) :
    (getLowhiMasks level maxLevel blockMin blockMax blockBase).testBit j =
      decide ((blockMin - blockBase) >>> mmbitGetKs maxLevel level ≤ j ∧
        j ≤ (blockMax - blockBase) >>> mmbitGetKs maxLevel level ∧ j < 64) := by
  unfold getLowhiMasks mmbitGetKs
  dsimp only
  generalize (blockMin - blockBase) >>> ((maxLevel - level) * mmbKeyShift) = lo
  generalize (blockMax - blockBase) >>> ((maxLevel - level) * mmbKeyShift) = hi
  rw [Nat.testBit_and]
  have hl : (if lo < 64 then compl 64 (mmbMaskZeroToNocheck lo) else 0).testBit j =
      decide (lo ≤ j ∧ j < 64) := by
    split
    · rw [testBit_remMask (by omega)]
      exact decide_eq_decide.mpr (by omega)
    · rw [Nat.zero_testBit]
      exact (decide_eq_false (by omega)).symm
  have hh : (if hi < 63 then mmbMaskZeroToNocheck (hi + 1) else mmbAllOnes).testBit j =
      decide (j ≤ hi ∧ j < 64) := by
    split
    · rw [mmbMaskZeroToNocheck_eq, testBit_lowMask]
      exact decide_eq_decide.mpr (by omega)
    · unfold mmbAllOnes
      rw [testBit_lowMask]
      exact decide_eq_decide.mpr (by omega)
  rw [hl, hh]
  by_cases h1 : lo ≤ j <;> by_cases h2 : j ≤ hi <;> by_cases h3 : j < 64 <;> simp [h1, h2, h3]

/-- The walk of `mmbit_iterate_bounded_big` on `level`, in block `key`, with
key shift `ks`; `it_end` is inclusive (the source decrements it first), and
`fuel` bounds the passes of the source's `for (;;)`.  The differences
`block_min - block_base` and `block_max - block_base` are 64-bit in the
source; the walk keeps `block_base ≤ block_min, block_max`, so they do not
wrap and agree with the truncated subtraction of the model. -/
def mmbitIterateBoundedBigLoop (bits : Mem) (maxLevel itEnd : Nat) :
    Nat → Nat → Nat → Nat → Nat → Nat
  | 0, _, _, _, _ => mmbInvalid
  | fuel + 1, key, ks, level, itStart =>
      let blockWidth := mmbKeyBits <<< ks
      let blockBase := key * blockWidth
      let blockMin := max itStart blockBase
      let blockMax := min itEnd (blockBase + blockWidth - 1)
      let block := mmbLoad bits (mmbitGetLevelRoot level + key * 8) &&&
        getLowhiMasks level maxLevel blockMin blockMax blockBase
      if block ≠ 0 then
        -- found a bit: go down a level
        let key := (key <<< mmbKeyShift) + mmbCtz block
        if level = maxLevel then key
        else mmbitIterateBoundedBigLoop bits maxLevel itEnd fuel key (ks - mmbKeyShift) (level + 1)
          itStart
      else
        -- no bit found: go up a level, the start pushed past this block
        let nextStart := blockBase + blockWidth
        if nextStart > itEnd then mmbInvalid
        else if level = 0 then mmbInvalid
        else
          mmbitIterateBoundedBigLoop bits maxLevel itEnd fuel (key >>> mmbKeyShift)
            (ks + mmbKeyShift) (level - 1) nextStart

/-- A bound on the passes of `mmbit_iterate_bounded_big` (it exceeds
`boundedMeasure`). -/
def mmbitIterateBoundedBigFuel (maxLevel itEnd : Nat) : Nat := (itEnd + 1) * (2 * maxLevel + 2)

/-- `mmbit_iterate_bounded_big`. -/
def mmbitIterateBoundedBig (bits : Mem) (totalBits itStart itEnd : Nat) : Nat :=
  let ks := mmbitKeyshift totalBits
  let maxLevel := mmbitMaxlevelFromKeyshift ks
  -- `--it_end`: the end limit is inclusive from here on
  mmbitIterateBoundedBigLoop bits maxLevel (itEnd - 1) (mmbitIterateBoundedBigFuel maxLevel itEnd)
    0 ks 0 itStart

/-- The measure of the bounded walk: how much of the range is left, then
where the walk stands (down while the start is inside the block, up once it
has passed it). -/
def boundedMeasure (maxLevel itEnd level key itStart : Nat) : Nat :=
  (itEnd + 1 - itStart) * (2 * maxLevel + 2) +
    if itStart < walkPos maxLevel level key 64 then maxLevel - level else maxLevel + 1 + level

/-- The invariant of the bounded walk, for a search of `[start, it_end]`. -/
structure BoundedInv (bits : Mem) (totalBits maxLevel start itEnd key ks level itStart : Nat) :
    Prop where
  level_le : level ≤ maxLevel
  ks_eq : ks = mmbitGetKs maxLevel level
  key_lt : key < 64 ^ level
  reached : BlockReached bits level key
  base_le : walkPos maxLevel level key 0 ≤ itEnd
  start_ge : start ≤ itStart
  start_le : itStart ≤ walkPos maxLevel level key 64
  clear_before : firstIn (treeMember bits totalBits maxLevel) start
    (max itStart (walkPos maxLevel level key 0)) = none

section IterateBoundedBig

variable {bits : Mem} {totalBits maxLevel start itEnd : Nat}

/-- The node of a block (of base `base`, nodes of `2 ^ s` keys) holding the
key `x` is at most `j` iff `x` lies before the end of node `j`. -/
theorem shiftRight_sub_le_iff {x base s j : Nat} (hx : base ≤ x) :
    (x - base) >>> s ≤ j ↔ x < base + j * 2 ^ s + 2 ^ s := by
  rw [Nat.shiftRight_eq_div_pow, ← Nat.lt_add_one_iff, Nat.div_lt_iff_lt_mul (Nat.two_pow_pos s),
    Nat.add_mul, Nat.one_mul]
  omega

/-- ... and at least `j` iff `x` lies at or after the start of node `j`. -/
theorem le_shiftRight_sub_iff {x base s j : Nat} (hx : base ≤ x) :
    j ≤ (x - base) >>> s ↔ base + j * 2 ^ s ≤ x := by
  rw [Nat.shiftRight_eq_div_pow, Nat.le_div_iff_mul_le (Nat.two_pow_pos s)]
  omega

/-- The block width and base of the source are the walk's positions. -/
theorem blockBase_eq (maxLevel level key : Nat) :
    key * (mmbKeyBits <<< mmbitGetKs maxLevel level) = walkPos maxLevel level key 0 := by
  unfold walkPos mmbKeyBits
  rw [Nat.shiftLeft_eq]
  ring

theorem walkPos_add (maxLevel level key j : Nat) :
    walkPos maxLevel level key j = walkPos maxLevel level key 0 + j * 2 ^ mmbitGetKs maxLevel level := by
  unfold walkPos
  ring

theorem blockWidth_eq (maxLevel level : Nat) :
    mmbKeyBits <<< mmbitGetKs maxLevel level = 64 * 2 ^ mmbitGetKs maxLevel level := by
  unfold mmbKeyBits
  rw [Nat.shiftLeft_eq]

/-- Every measure of the bounded walk is below the fuel of the wrapper. -/
theorem boundedMeasure_lt_fuel {level key itStart : Nat} (hl : level ≤ maxLevel) (hend : 0 < itEnd) :
    boundedMeasure maxLevel (itEnd - 1) level key itStart <
      mmbitIterateBoundedBigFuel maxLevel itEnd := by
  unfold boundedMeasure mmbitIterateBoundedBigFuel
  have := Nat.mul_le_mul_right (2 * maxLevel + 2) (show itEnd - 1 + 1 - itStart ≤ itEnd by omega)
  rw [Nat.add_mul, Nat.one_mul]
  split <;> omega

variable (hM : maxLevel ≤ 5) (hcap : totalBits ≤ 64 ^ (maxLevel + 1))
  (hvalid : ∀ l n, l ≤ maxLevel → n < 64 ^ (l + 1) → PathSet bits l n →
    n <<< mmbitGetKs maxLevel l < totalBits)
include hM hcap hvalid

/-- The run of the bounded walk: from any state satisfying the invariant, with
more fuel than its measure, it returns the least member of `[start, it_end]`,
or `MMB_INVALID`. -/
theorem mmbitIterateBoundedBigLoop_eq (fuel : Nat) :
    ∀ key ks level itStart, BoundedInv bits totalBits maxLevel start itEnd key ks level itStart →
      boundedMeasure maxLevel itEnd level key itStart < fuel →
      mmbitIterateBoundedBigLoop bits maxLevel itEnd fuel key ks level itStart =
        (firstIn (treeMember bits totalBits maxLevel) start (itEnd + 1)).getD mmbInvalid := by
  induction fuel with
  | zero =>
      intro key ks level itStart _ hμ
      exact absurd hμ (Nat.not_lt_zero _)
  | succ fuel ih =>
      intro key ks level itStart hinv hμ
      obtain ⟨hlev, hks, hkey, hreach, hbase, hsge, hsle, hclear⟩ := hinv
      subst hks
      have hPpos := Nat.two_pow_pos (mmbitGetKs maxLevel level)
      have hend := walkPos_add maxLevel level key 64
      have hpos : ∀ m, (64 * key + m) * 2 ^ mmbitGetKs maxLevel level =
          walkPos maxLevel level key 0 + m * 2 ^ mmbitGetKs maxLevel level := fun m => by
        rw [← walkPos_add]
        rfl
      have hcl : ∀ a b, (∀ i, a ≤ i → i < b → levelBit bits level (64 * key + i) = false) →
          firstIn (treeMember bits totalBits maxLevel)
            (walkPos maxLevel level key 0 + a * 2 ^ mmbitGetKs maxLevel level)
            (walkPos maxLevel level key 0 + b * 2 ^ mmbitGetKs maxLevel level) = none := by
        intro a b hz
        rw [← hpos, ← hpos]
        exact firstIn_treeMember_clear hlev hz
      have hkey' : ∀ j, key <<< mmbKeyShift + j = 64 * key + j := fun j => by
        unfold mmbKeyShift
        rw [Nat.shiftLeft_eq]
        omega
      unfold mmbitIterateBoundedBigLoop
      dsimp only
      rw [blockBase_eq, blockWidth_eq]
      have hx := testBit_getLowhiMasks level maxLevel (max itStart (walkPos maxLevel level key 0))
        (min itEnd (walkPos maxLevel level key 0 + 64 * 2 ^ mmbitGetKs maxLevel level - 1))
        (walkPos maxLevel level key 0)
      generalize hbdef : walkPos maxLevel level key 0 = base at *
      -- the window of the block: the nodes `lo ..= hi`, which meet `[block_min, block_max]`
      have hmin : base ≤ max itStart base := le_max_right _ _
      have hmax : base ≤ min itEnd (base + 64 * 2 ^ mmbitGetKs maxLevel level - 1) :=
        le_min hbase (by omega)
      generalize hlo : (max itStart base - base) >>> mmbitGetKs maxLevel level = lo at hx
      generalize hhi : (min itEnd (base + 64 * 2 ^ mmbitGetKs maxLevel level - 1) - base) >>>
        mmbitGetKs maxLevel level = hi at hx
      have hlo1 := (le_shiftRight_sub_iff hmin).mp hlo.ge
      have hlo2 : ∀ j, lo ≤ j →
          max itStart base < base + j * 2 ^ mmbitGetKs maxLevel level + 2 ^ mmbitGetKs maxLevel level :=
        fun j hj => (shiftRight_sub_le_iff hmin).mp (by rw [hlo]; exact hj)
      have hhi1 := (shiftRight_sub_le_iff hmax).mp hhi.le
      have hhi2 : ∀ j, j ≤ hi → base + j * 2 ^ mmbitGetKs maxLevel level ≤
          min itEnd (base + 64 * 2 ^ mmbitGetKs maxLevel level - 1) :=
        fun j hj => (le_shiftRight_sub_iff hmax).mp (by rw [hhi]; exact hj)
      generalize hPdef : 2 ^ mmbitGetKs maxLevel level = P at *
      split
      · -- a set node in the window: go down, or finish on the leaf level
        rename_i hne
        obtain ⟨hj, hjlo, hjhi, hjbit, hjmin⟩ := windowBlock_ctz hx hne
        generalize mmbCtz (mmbLoad bits (mmbitGetLevelRoot level + key * 8) &&& getLowhiMasks level
          maxLevel (max itStart base) (min itEnd (base + 64 * P - 1)) base) = j at *
        have hnode := pathSet_of_reached hreach hj hjbit
        have hj1 := hlo2 j hjlo
        have hj2 := hhi2 j hjhi
        -- no member from `start` up to the node
        have hnone := firstIn_none_extend hclear hlo1 (hcl lo j hjmin)
        rw [hkey']
        split
        · -- on the leaf level the node is the least member of the range
          rename_i hleaf
          subst hleaf
          have hP1 : P = 1 := by rw [← hPdef, mmbitGetKs_self, Nat.pow_zero]
          subst hP1
          simp only [Nat.mul_one] at hpos hj1 hj2 hnone
          have hk := hpos j
          have hlt : 64 * key + j < 64 ^ (level + 1) := by
            rw [Nat.pow_succ]
            omega
          have hmem := hvalid level (64 * key + j) le_rfl hlt hnode
          simp only [mmbitGetKs_self, Nat.shiftLeft_zero] at hmem
          rw [show max (max itStart base) (base + j) = 64 * key + j by omega] at hnone
          rw [firstIn_eq_some_of_none (by omega) (by omega) (by simp [treeMember, hmem, hnode]) hnone]
          rfl
        · -- go down into the block of the node, the start unchanged
          rename_i hinner
          have hl : level < maxLevel := by omega
          have hks := mmbitGetKs_succ hl
          have hd0 : walkPos maxLevel (level + 1) (64 * key + j) 0 = base + j * P := by
            rw [walkPos_down hl, hPdef, hpos]
          have hd64 : walkPos maxLevel (level + 1) (64 * key + j) 64 = base + j * P + P := by
            rw [walkPos_down_end hl, hPdef, Nat.add_assoc, hpos, Nat.add_mul, Nat.one_mul,
              Nat.add_assoc]
          have hjP := Nat.mul_le_mul_right P (show j ≤ 63 by omega)
          refine ih (64 * key + j) (mmbitGetKs maxLevel level - mmbKeyShift) (level + 1) itStart
            ⟨by omega, by unfold mmbKeyShift; omega, ?_, hnode, by omega, hsge, by omega, ?_⟩ ?_
          · rw [Nat.pow_succ]
            omega
          · exact firstIn_none_of_le (by omega) hnone
          · refine lt_of_lt_of_le ?_ (Nat.le_of_lt_succ hμ)
            have hin1 : itStart < base + j * P + P := by omega
            have hin2 : itStart < base + 64 * P := by omega
            unfold boundedMeasure
            rw [hend, hd64, if_pos hin1, if_pos hin2]
            exact Nat.add_lt_add_left (by omega) _
      · -- the window is clear: no member up to its end
        rename_i hzero
        have hz := windowBlock_clear hx (not_not.mp hzero)
        have hhi64 : hi < 64 := by
          by_contra h
          have := Nat.mul_le_mul_right P (show 64 ≤ hi by omega)
          have := hhi2 hi le_rfl
          omega
        have hnone := firstIn_none_extend hclear hlo1
          (hcl lo (hi + 1) fun i h1 h2 => hz i h1 (by omega) (by omega))
        rw [Nat.add_mul, Nat.one_mul] at hnone
        split
        · -- the range ends inside this block
          rename_i hpast
          have hdone : firstIn (treeMember bits totalBits maxLevel) start (itEnd + 1) = none :=
            firstIn_none_of_le (by omega) hnone
          rw [hdone]
          rfl
        · rename_i hin
          -- the window reached the end of the block
          have hhi63 : 63 * P ≤ hi * P := Nat.mul_le_mul_right P (by
            by_contra h
            have := Nat.mul_le_mul_right P (show hi ≤ 62 by omega)
            omega)
          have hdone : firstIn (treeMember bits totalBits maxLevel) start (base + 64 * P) = none :=
            firstIn_none_of_le (by omega) hnone
          split
          · -- the root block is done: the keys after it are past the multibit
            rename_i hroot
            subst hroot
            have hk0 : key = 0 := hreach
            subst hk0
            have hb0 : base = 0 := by
              rw [← hbdef]
              simp [walkPos]
            have h64 := pow_level_mul_ks (Nat.zero_le maxLevel)
            simp only [Nat.zero_add, Nat.pow_one, hPdef] at h64
            have hpast : ∀ k, base + 64 * P ≤ k → k < itEnd + 1 →
                treeMember bits totalBits maxLevel k = false := fun k h1 _ =>
              decide_eq_false fun h => by have := h.1; omega
            rw [firstIn_extend (by omega) hpast, hdone]
            rfl
          · -- go up, the start pushed past this block
            rename_i hup
            obtain ⟨l, rfl⟩ : ∃ l, level = l + 1 := ⟨level - 1, by omega⟩
            have hl : l + 1 ≤ maxLevel := hlev
            have hks := mmbitGetKs_succ (show l < maxLevel by omega)
            have hpb : walkPos maxLevel l (key >>> 6) 0 ≤ walkPos maxLevel (l + 1) key 0 :=
              walkPos_parent_base hl
            have hpe : walkPos maxLevel (l + 1) key 64 ≤ walkPos maxLevel l (key >>> 6) 64 :=
              walkPos_parent_end hl
            rw [hbdef] at hpb
            rw [hend] at hpe
            unfold mmbKeyShift
            rw [Nat.add_sub_cancel]
            refine ih (key >>> 6) (mmbitGetKs maxLevel (l + 1) + 6) l (base + 64 * P)
              ⟨by omega, by omega, shiftRight_six_lt hkey, reached_parent hreach hkey, by omega,
                by omega, hpe, firstIn_none_of_le (by omega) hdone⟩ ?_
            refine lt_of_lt_of_le ?_ (Nat.le_of_lt_succ hμ)
            unfold boundedMeasure
            rw [hend]
            by_cases hfresh : itStart < base + 64 * P
            · -- a block the start was inside: the range left shrinks
              rw [if_pos hfresh]
              apply lex_lt_of_lt (by omega)
              split <;> omega
            · -- a block already passed: the walk moves up
              rw [if_neg hfresh]
              apply lex_lt_of_le_of_lt (by omega)
              split <;> omega

end IterateBoundedBig

/-- **`mmbit_iterate_bounded_big`** returns the least member of
`[it_start, it_end)`, or `MMB_INVALID`. -/
theorem mmbitIterateBoundedBig_eq {bits : Mem} {totalBits itStart itEnd : Nat}
    (htree : mmbFlatMaxBits < totalBits) (hmax : totalBits ≤ mmbMaxBits) (hv : MmbitValid totalBits bits)
    (hlt : itStart < itEnd) (hend : itEnd ≤ totalBits) :
    mmbitIterateBoundedBig bits totalBits itStart itEnd =
      (firstIn (fun k => decide (MmbitMember totalBits bits k)) itStart itEnd).getD mmbInvalid := by
  obtain ⟨-, hM, hcap⟩ := treeGeometry htree hmax
  obtain ⟨-, hks, hml, -⟩ := mmbitMaxlevel_spec (by unfold mmbFlatMaxBits at htree; omega) hmax
  have hvalid := (mmbitValid_tree_iff htree).mp hv
  rw [mmbitMember_eq_treeMember htree]
  unfold mmbitIterateBoundedBig
  dsimp only
  rw [hml]
  -- the walk starts on the root block, whose keys are the whole key space
  have hpos0 : walkPos (mmbitMaxlevel totalBits) 0 0 0 = 0 := by simp [walkPos]
  have hpos64 : walkPos (mmbitMaxlevel totalBits) 0 0 64 = 64 ^ (mmbitMaxlevel totalBits + 1) := by
    rw [walkPos, ← pow_level_mul_ks (Nat.zero_le _)]
    rfl
  have hinv : BoundedInv bits totalBits (mmbitMaxlevel totalBits) itStart (itEnd - 1) 0
      (mmbitKeyshift totalBits) 0 itStart := by
    refine ⟨Nat.zero_le _, ?_, by simp, rfl, by omega, le_rfl, by omega, ?_⟩
    · rw [hks]
      unfold mmbitGetKs mmbKeyShift
      omega
    · rw [hpos0, Nat.max_zero]
      exact firstIn_eq_none_iff.2 fun j h1 h2 => by omega
  rw [mmbitIterateBoundedBigLoop_eq hM hcap hvalid _ _ _ _ _ hinv
    (boundedMeasure_lt_fuel (Nat.zero_le _) (by omega)), Nat.sub_add_cancel (by omega)]

end Multibit
end Vectorscan
