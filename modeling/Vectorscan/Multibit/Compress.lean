import Vectorscan.Multibit.SparseIter

/-!
# Multibit: compression

`mmbit_compsize`, `mmbit_compress` and `mmbit_decompress` of
`src/util/multibit_compress.h` store a tree multibit in stream state as the
blocks a depth-first walk reaches: the root block, and the child block of
every set bit of a summary block.  Blocks under clear bits are never read, so
they are not stored.

**Model.**  The three walks keep the source's iterative DFS, with the path
held in `key` and the resume point in `key_rem`, on a fuel argument
(`mmbitIterateBigFuel`, the fuel of `mmbit_iterate_big`, whose measure the
walk lowers in the same way).  The size and compression walks are one
walk, `mmbitCompressWalk`, that hands each block to `emit` on its first
visit: `mmbit_compsize` counts the blocks, `mmbit_compress` copies them to
the buffer.  A walk that runs out of fuel returns `none`, as does a
compression into too small a buffer and a decompression that reads past the
end of its buffer (the source's `return 0`).

**Abstraction.**  `subtreeBlocks` lists the blocks under a block in the order
the walk first visits them; `walkRest` is what a walk standing at
`(level, key, key_rem)` still has to visit.  Every pass of a walk keeps
"visited ++ walkRest = subtreeBlocks 0 0".

**Results.**  `mmbitCompress_tree`: the compression writes the blocks of the
walk at consecutive 8-byte slots and nothing after them, and `mmbitCompsize`
counts them (`mmbitCompsize_tree`).  `mmbitDecompress_mmbitCompress`:
decompressing the output of a compression over any prior contents gives back
every reached block, hence the same set of keys and the same validity
(`mmbitKeys_eq_of_reached`, `mmbitValid_iff_of_reached`), and reports the size
the compression reported.  `mmbitCompress_roundTrip`: `mmbit_compsize` always
answers, and a buffer of that many bytes is enough for the whole round trip.
-/

namespace Vectorscan
namespace Multibit

open Word

/-! ## The walks -/

/-- The walk of `mmbit_compsize` and `mmbit_compress` from block `key` of
`level`, bit `key_rem` on.  A block is handed to `emit` when masking off its
bits below `key_rem` keeps its popcount: on the first visit (`key_rem = 0`),
and never on a return from a child, whose bit lies below `key_rem`. -/
def mmbitCompressWalk {σ : Type} (emit : Nat → σ → σ) (bits : Mem) (maxLevel : Nat) :
    Nat → Nat → Nat → Nat → σ → Option σ
  | 0, _, _, _, _ => none
  | fuel + 1, level, key, keyRem, acc =>
      -- `if (level-- == 0) ...; key_rem = (key & MMB_KEY_MASK) + 1; key >>= MMB_KEY_SHIFT`
      let up (acc : σ) : Option σ :=
        if level = 0 then some acc
        else
          mmbitCompressWalk emit bits maxLevel fuel (level - 1) (key >>> mmbKeyShift)
            ((key &&& (mmbKeyBits - 1)) + 1) acc
      if keyRem < mmbKeyBits then
        let block := mmbLoad bits (mmbitGetLevelRoot level + key * 8)
        let block1 := block &&& compl 64 (mmbMaskZeroToNocheck keyRem)
        let acc := if mmbPopcount block = mmbPopcount block1 then emit block acc else acc
        if level < maxLevel ∧ block1 ≠ 0 then
          mmbitCompressWalk emit bits maxLevel fuel (level + 1) ((key <<< mmbKeyShift) + mmbCtz block1) 0 acc
        else up acc
      else up acc

/-- `mmbit_compsize`: the bytes of the compressed multibit. -/
def mmbitCompsize (bits : Mem) (totalBits : Nat) : Option Nat :=
  if totalBits ≤ mmbFlatMaxBits then some (roundupN totalBits 8 / 8)
  -- all cleared: the root block only
  else if mmbLoad bits 0 = 0 then some 8
  else
    let maxLevel := mmbitMaxlevel totalBits
    (mmbitCompressWalk (fun _ n => n + 1) bits maxLevel (mmbitIterateBigFuel maxLevel) 0 0 0 0).map
      (8 * ·)

/-- `mmbit_compress` into the buffer `comp`: the new buffer and `comp_space`. -/
def mmbitCompress (bits : Mem) (totalBits : Nat) (comp : Mem) (maxCompSpace : Nat) : Option (Mem × Nat) := do
  let compSize ← mmbitCompsize bits totalBits
  if compSize > maxCompSpace then none
  else if totalBits ≤ mmbFlatMaxBits then some (comp.copy 0 bits 0 (8 * compSize), compSize)
  else if mmbLoad bits 0 = 0 then some (comp.copy 0 bits 0 64, compSize)
  else
    let maxLevel := mmbitMaxlevel totalBits
    -- each emitted block is copied to the next 8 bytes of the buffer
    let (comp, _) ← mmbitCompressWalk (fun block c => (mmbStore c.1 c.2 block, c.2 + 8)) bits maxLevel
      (mmbitIterateBigFuel maxLevel) 0 0 0 (comp, 0)
    some (comp, compSize)

/-- The walk of `mmbit_decompress` over the blocks it has itself written: on
going down into a child block, the child is the next block of `comp`, at
byte `p`; the walk fails once it has read past `comp_end`. -/
def mmbitDecompressWalk (comp : Mem) (maxLevel compEnd : Nat) :
    Nat → Nat → Nat → Nat → Nat → Mem → Option (Mem × Nat)
  | 0, _, _, _, _, _ => none
  | fuel + 1, level, key, keyRem, p, bits =>
      let up : Option (Mem × Nat) :=
        if level = 0 then some (bits, p)
        else
          mmbitDecompressWalk comp maxLevel compEnd fuel (level - 1) (key >>> mmbKeyShift)
            ((key &&& (mmbKeyBits - 1)) + 1) p bits
      if keyRem < mmbKeyBits then
        let block := mmbLoad bits (mmbitGetLevelRoot level + key * 8)
        let block1 := block &&& compl 64 (mmbMaskZeroToNocheck keyRem)
        if level < maxLevel ∧ block1 ≠ 0 then
          let key := (key <<< mmbKeyShift) + mmbCtz block1
          let bits := bits.copy (8 * (mmbitGetLevelRoot (level + 1) + key * 8)) comp (8 * p) 64
          if compEnd < p + 8 then none
          else mmbitDecompressWalk comp maxLevel compEnd fuel (level + 1) key 0 (p + 8) bits
        else up
      else up

/-- `mmbit_decompress` from the buffer `comp`: the new multibit and `comp_space`. -/
def mmbitDecompress (bits : Mem) (totalBits : Nat) (comp : Mem) (maxCompSpace : Nat) : Option (Mem × Nat) :=
  if totalBits ≤ mmbFlatMaxBits then
    let compSize := roundupN totalBits 8 / 8
    some (bits.copy 0 comp 0 (8 * compSize), compSize)
  else if mmbLoad comp 0 = 0 then some (bits.copy 0 comp 0 64, 8)
  else
    let maxLevel := mmbitMaxlevel totalBits
    -- the root block first
    mmbitDecompressWalk comp maxLevel maxCompSpace (mmbitIterateBigFuel maxLevel) 0 0 0 8
      (bits.copy 0 comp 0 64)

/-! ## The first visit of a block -/

/-- A 64-bit word's popcount is the count of its bits below `r` plus the
popcount of the word with them masked off. -/
theorem mmbPopcount_split (x : Nat) {r : Nat} (hr : r ≤ 64) :
    mmbPopcount x = (List.range r).countP (fun i => x.testBit i) +
      mmbPopcount (x &&& compl 64 (mmbMaskZeroToNocheck r)) := by
  unfold mmbPopcount popcount64
  have hsplit : List.range 64 = List.range r ++ (List.range (64 - r)).map (r + ·) := by
    rw [← List.range_add, Nat.add_sub_cancel' hr]
  rw [hsplit, List.countP_append, List.countP_append]
  have hlow : (List.range r).countP
      (fun i => (x &&& compl 64 (mmbMaskZeroToNocheck r)).testBit i) = 0 :=
    List.countP_eq_zero.mpr fun i hi => by
      rw [List.mem_range] at hi
      simp [Nat.testBit_and, testBit_remMask hr, Nat.not_le.mpr hi]
  have hhigh : ((List.range (64 - r)).map (r + ·)).countP
      (fun i => (x &&& compl 64 (mmbMaskZeroToNocheck r)).testBit i) =
      ((List.range (64 - r)).map (r + ·)).countP (fun i => x.testBit i) :=
    List.countP_congr fun i hi => by
      obtain ⟨j, hj, rfl⟩ := List.mem_map.mp hi
      rw [List.mem_range] at hj
      simp [Nat.testBit_and, testBit_remMask hr, show r + j < 64 by omega, show r + j ≤ 63 by omega]
  rw [hlow, hhigh]
  omega

/-- Masking off the bits below `key_rem` keeps the popcount iff none of them is set. -/
theorem mmbPopcount_masked_eq_iff (x : Nat) {r : Nat} (hr : r ≤ 64) :
    mmbPopcount x = mmbPopcount (x &&& compl 64 (mmbMaskZeroToNocheck r)) ↔
      ∀ i, i < r → x.testBit i = false := by
  rw [mmbPopcount_split x hr, Nat.add_eq_right, List.countP_eq_zero]
  simp only [List.mem_range, Bool.not_eq_true]

/-! ## The blocks of a walk -/

section Blocks

variable (bits : Mem) (maxLevel : Nat)

/-- The value of block `b.2` of level `b.1`. -/
def blockVal (b : Nat × Nat) : Nat := mmbLoad bits (mmbitGetLevelRoot b.1 + b.2 * 8)

/-- The blocks under block `key` of `level`, in the order of their first
visit: the block, then the subtrees under its set bits. -/
def subtreeBlocks (level key : Nat) : List (Nat × Nat) :=
  (level, key) ::
    if h : level < maxLevel then
      (List.range 64).flatMap fun j =>
        if levelBit bits level (64 * key + j) then subtreeBlocks (level + 1) (64 * key + j) else []
    else []
termination_by maxLevel - level

attribute [grind] subtreeBlocks

/-- The subtrees under the set bits of block `key` of `level` from bit `j` on. -/
def childBlocks (level key j : Nat) : List (Nat × Nat) :=
  if level < maxLevel then
    (List.range' j (64 - j)).flatMap fun i =>
      if levelBit bits level (64 * key + i) then subtreeBlocks bits maxLevel (level + 1) (64 * key + i)
      else []
  else []

/-- What is left of the ancestors of block `key` of `level` once the walk
leaves it: the rest of each ancestor block, the parent's first. -/
def ancestorBlocks : Nat → Nat → List (Nat × Nat)
  | 0, _ => []
  | l + 1, key => childBlocks bits maxLevel l (key / 64) (key % 64 + 1) ++ ancestorBlocks l (key / 64)

attribute [grind] ancestorBlocks

/-- The blocks a walk at bit `key_rem` of block `key` of `level` has still to
go down into. -/
def walkTodo (level key keyRem : Nat) : List (Nat × Nat) :=
  childBlocks bits maxLevel level key keyRem ++ ancestorBlocks bits maxLevel level key

/-- The blocks a walk at bit `key_rem` of block `key` of `level` has still to
visit for the first time: the block itself on its first visit, then the
blocks to go down into. -/
def walkRest (level key keyRem : Nat) : List (Nat × Nat) :=
  (if keyRem = 0 then [(level, key)] else []) ++ walkTodo bits maxLevel level key keyRem

theorem subtreeBlocks_eq (level key : Nat) :
    subtreeBlocks bits maxLevel level key = (level, key) :: childBlocks bits maxLevel level key 0 := by
  rw [subtreeBlocks, childBlocks]
  by_cases hl : level < maxLevel
  · rw [dif_pos hl, if_pos hl, List.range_eq_range']
  · rw [dif_neg hl, if_neg hl]

/-- The walk starts at the root, with the whole pyramid to visit. -/
theorem walkRest_root : walkRest bits maxLevel 0 0 0 = subtreeBlocks bits maxLevel 0 0 := by
  rw [walkRest, walkTodo, subtreeBlocks_eq]
  simp [ancestorBlocks]

/-- Going down through the first set bit `j` from `key_rem` on: its subtree
comes first, then the rest of the block. -/
theorem childBlocks_descend {level key keyRem j : Nat} (hl : level < maxLevel) (hj : keyRem ≤ j)
    (hj64 : j < 64) (hclear : ∀ i, keyRem ≤ i → i < j → levelBit bits level (64 * key + i) = false)
    (hset : levelBit bits level (64 * key + j) = true) :
    childBlocks bits maxLevel level key keyRem =
      subtreeBlocks bits maxLevel (level + 1) (64 * key + j) ++ childBlocks bits maxLevel level key (j + 1) := by
  unfold childBlocks
  rw [if_pos hl, if_pos hl]
  have hsplit : List.range' keyRem (64 - keyRem) =
      List.range' keyRem (j - keyRem) ++ j :: List.range' (j + 1) (64 - (j + 1)) := by
    rw [show 64 - keyRem = (j - keyRem) + (64 - (j + 1) + 1) by omega, ← List.range'_append_1,
      show keyRem + (j - keyRem) = j by omega, List.range'_succ]
  rw [hsplit, List.flatMap_append, List.flatMap_cons, if_pos hset]
  have hnil : (List.range' keyRem (j - keyRem)).flatMap (fun i =>
      if levelBit bits level (64 * key + i) then subtreeBlocks bits maxLevel (level + 1) (64 * key + i)
      else []) = [] :=
    List.flatMap_eq_nil_iff.mpr fun i hi => by
      rw [List.mem_range'_1] at hi
      rw [hclear i hi.1 (by omega)]
      rfl
  rw [hnil, List.nil_append]

/-- A block with no set bit from `key_rem` on, or a leaf block, has no child left. -/
theorem childBlocks_eq_nil {level key keyRem : Nat}
    (h : level < maxLevel → ∀ i, keyRem ≤ i → i < 64 → levelBit bits level (64 * key + i) = false) :
    childBlocks bits maxLevel level key keyRem = [] := by
  unfold childBlocks
  split
  · rename_i hl
    refine List.flatMap_eq_nil_iff.mpr fun i hi => ?_
    rw [List.mem_range'_1] at hi
    rw [h hl i hi.1 (by omega)]
    rfl
  · rfl

/-- After going down into node `64 * key + j`, the rest of the walk is that
node's subtree, then the rest of block `key`, then the ancestors' rests. -/
theorem walkRest_descend (level key j : Nat) (hj : j < 64) :
    walkRest bits maxLevel (level + 1) (64 * key + j) 0 =
      subtreeBlocks bits maxLevel (level + 1) (64 * key + j) ++ walkTodo bits maxLevel level key (j + 1) := by
  rw [walkRest, walkTodo, walkTodo, subtreeBlocks_eq, ancestorBlocks, if_pos rfl,
    show (64 * key + j) / 64 = key by omega, show (64 * key + j) % 64 = j by omega]
  simp

/-- Going up from block `key` of level `l + 1` continues with the ancestors' rests. -/
theorem walkRest_up (l key : Nat) :
    walkRest bits maxLevel l (key / 64) (key % 64 + 1) = ancestorBlocks bits maxLevel (l + 1) key := by
  rw [walkRest, walkTodo, ancestorBlocks, if_neg (by omega)]
  simp

/-- Going down through the first set bit `j` from `key_rem` on: the child is
the next block to go down into. -/
theorem walkTodo_descend {level key keyRem j : Nat} (hl : level < maxLevel) (hj : keyRem ≤ j)
    (hj64 : j < 64) (hclear : ∀ i, keyRem ≤ i → i < j → levelBit bits level (64 * key + i) = false)
    (hset : levelBit bits level (64 * key + j) = true) :
    walkTodo bits maxLevel level key keyRem =
      (level + 1, 64 * key + j) :: walkTodo bits maxLevel (level + 1) (64 * key + j) 0 := by
  rw [walkTodo, walkTodo, childBlocks_descend bits maxLevel hl hj hj64 hclear hset, subtreeBlocks_eq,
    ancestorBlocks, show (64 * key + j) / 64 = key by omega, show (64 * key + j) % 64 = j by omega]
  simp

end Blocks

/-! ## The walk's moves -/

theorem shiftRight_keyShift (key : Nat) : key >>> mmbKeyShift = key / 64 := by
  rw [mmbKeyShift, Nat.shiftRight_eq_div_pow]

theorem and_keyMask (key : Nat) : key &&& (mmbKeyBits - 1) = key % 64 :=
  Nat.and_two_pow_sub_one_eq_mod key 6

theorem shiftLeft_keyShift_add (key j : Nat) : (key <<< mmbKeyShift) + j = 64 * key + j := by
  rw [mmbKeyShift, Nat.shiftLeft_eq]
  omega

/-- Where a walk may stand: on a reached block, and, after a return from a
child, just past the set bit it went down through. -/
structure WalkInv (bits : Mem) (maxLevel level key keyRem : Nat) : Prop where
  level_le : level ≤ maxLevel
  key_lt : key < 64 ^ level
  rem_le : keyRem ≤ 64
  reached : BlockReached bits level key
  returned : 0 < keyRem → levelBit bits level (64 * key + (keyRem - 1)) = true

section Moves

variable {bits : Mem} {maxLevel level key keyRem : Nat}

theorem WalkInv.root : WalkInv bits maxLevel 0 0 0 :=
  ⟨Nat.zero_le _, by simp, by omega, rfl, by omega⟩

/-- The popcount test of the walk holds exactly on the first visit of a block. -/
theorem WalkInv.popcount_eq_iff (h : WalkInv bits maxLevel level key keyRem) :
    mmbPopcount (blockVal bits (level, key)) =
        mmbPopcount (blockVal bits (level, key) &&& compl 64 (mmbMaskZeroToNocheck keyRem)) ↔
      keyRem = 0 := by
  rw [mmbPopcount_masked_eq_iff _ h.rem_le]
  constructor
  · intro hclear
    by_contra hne
    have hbit := hclear (keyRem - 1) (by omega)
    rw [blockVal, testBit_levelBlock, h.returned (by omega)] at hbit
    simp [show keyRem - 1 < 64 by have := h.rem_le; omega] at hbit
  · rintro rfl i hi
    omega

/-- The bits of the current block from `key_rem` on. -/
theorem testBit_blockRest (h : WalkInv bits maxLevel level key keyRem) (j : Nat) :
    (compl 64 (mmbMaskZeroToNocheck keyRem)).testBit j = decide (keyRem ≤ j ∧ j ≤ 63 ∧ j < 64) :=
  testBit_remMask h.rem_le j

/-- Going down through the first set bit `j` from `key_rem` on. -/
theorem WalkInv.descend (h : WalkInv bits maxLevel level key keyRem) (hl : level < maxLevel)
    (hne : blockVal bits (level, key) &&& compl 64 (mmbMaskZeroToNocheck keyRem) ≠ 0) :
    let j := mmbCtz (blockVal bits (level, key) &&& compl 64 (mmbMaskZeroToNocheck keyRem))
    j < 64 ∧ keyRem ≤ j ∧ levelBit bits level (64 * key + j) = true ∧
      (∀ i, keyRem ≤ i → i < j → levelBit bits level (64 * key + i) = false) ∧
      WalkInv bits maxLevel (level + 1) (64 * key + j) 0 := by
  intro j
  obtain ⟨hj, hjrem, -, hjbit, hjmin⟩ := windowBlock_ctz (testBit_blockRest h) hne
  have hj' : j < 64 := hj
  refine ⟨hj, hjrem, hjbit, hjmin, by omega, ?_, by omega, pathSet_of_reached h.reached hj hjbit, by omega⟩
  have := h.key_lt
  rw [Nat.pow_succ]
  omega

/-- A block left without going down has no subtree left from `key_rem` on. -/
theorem WalkInv.childBlocks_eq_nil (h : WalkInv bits maxLevel level key keyRem)
    (hleave : ¬ (keyRem < mmbKeyBits ∧ level < maxLevel ∧
      blockVal bits (level, key) &&& compl 64 (mmbMaskZeroToNocheck keyRem) ≠ 0)) :
    childBlocks bits maxLevel level key keyRem = [] := by
  refine Vectorscan.Multibit.childBlocks_eq_nil bits maxLevel fun hl i h1 h2 => ?_
  have hzero : blockVal bits (level, key) &&& compl 64 (mmbMaskZeroToNocheck keyRem) = 0 := by
    unfold mmbKeyBits at hleave
    by_contra hne
    exact hleave ⟨by omega, hl, hne⟩
  exact windowBlock_clear (testBit_blockRest h) hzero i h1 (by omega) h2

/-- Going up from block `key` of level `l + 1`. -/
theorem WalkInv.up {l : Nat} (h : WalkInv bits maxLevel (l + 1) key keyRem) :
    WalkInv bits maxLevel l (key / 64) (key % 64 + 1) := by
  have hkey := h.key_lt
  refine ⟨by have := h.level_le; omega, ?_, by omega, ?_, fun _ => ?_⟩
  · rw [Nat.pow_succ] at hkey
    exact Nat.div_lt_of_lt_mul (by simpa [Nat.mul_comm] using hkey)
  · rw [← Nat.shiftRight_eq_div_pow (n := 6)]
    exact reached_parent h.reached hkey
  · have hpath : PathSet bits l key := h.reached
    have := hpath l le_rfl
    rwa [Nat.sub_self, Nat.mul_zero, Nat.shiftRight_zero,
      show key = 64 * (key / 64) + (key % 64 + 1 - 1) by omega] at this

/-- Going up lowers the measure. -/
theorem WalkInv.up_measure_lt {l : Nat} (h : WalkInv bits maxLevel (l + 1) key keyRem) :
    iterMeasure maxLevel l (key / 64) (key % 64 + 1) < iterMeasure maxLevel (l + 1) key keyRem := by
  have := iterMeasure_up_lt h.level_le h.key_lt h.rem_le
  rwa [Nat.shiftRight_eq_div_pow, show (63 : Nat) = 2 ^ 6 - 1 from rfl,
    Nat.and_two_pow_sub_one_eq_mod] at this

end Moves

/-! ## The compression walk -/

section CompressWalk

variable {bits : Mem} {maxLevel : Nat}

/-- The run of the compression walk: from any state of the invariant, with
more fuel than its measure, it emits the blocks of `walkRest` in order. -/
theorem mmbitCompressWalk_eq {σ : Type} (emit : Nat → σ → σ) (fuel : Nat) :
    ∀ level key keyRem acc, WalkInv bits maxLevel level key keyRem →
      iterMeasure maxLevel level key keyRem < fuel →
      mmbitCompressWalk emit bits maxLevel fuel level key keyRem acc =
        some ((walkRest bits maxLevel level key keyRem).foldl (fun a b => emit (blockVal bits b) a) acc) := by
  induction fuel with
  | zero =>
      intro level key keyRem acc _ hμ
      exact absurd hμ (Nat.not_lt_zero _)
  | succ fuel ih =>
      intro level key keyRem acc hinv hμ
      -- leaving the block: the ancestors' rests are what is left
      have hleave : ∀ acc', childBlocks bits maxLevel level key keyRem = [] →
          (if level = 0 then some acc'
            else mmbitCompressWalk emit bits maxLevel fuel (level - 1) (key >>> mmbKeyShift)
              ((key &&& (mmbKeyBits - 1)) + 1) acc') =
          some ((childBlocks bits maxLevel level key keyRem ++ ancestorBlocks bits maxLevel level key).foldl
            (fun a b => emit (blockVal bits b) a) acc') := by
        intro acc' hnil
        rw [hnil, List.nil_append]
        cases level with
        | zero => rfl
        | succ l =>
            rw [if_neg (Nat.succ_ne_zero l), Nat.add_sub_cancel, shiftRight_keyShift, and_keyMask,
              ih l (key / 64) (key % 64 + 1) acc' hinv.up
                (lt_of_lt_of_le hinv.up_measure_lt (Nat.le_of_lt_succ hμ)), walkRest_up]
      -- the block is emitted exactly on its first visit
      have hhead : ∀ (hrem : keyRem < 64),
          (if mmbPopcount (blockVal bits (level, key)) =
              mmbPopcount (blockVal bits (level, key) &&& compl 64 (mmbMaskZeroToNocheck keyRem))
            then emit (blockVal bits (level, key)) acc else acc) =
          (if keyRem = 0 then [(level, key)] else []).foldl (fun a b => emit (blockVal bits b) a) acc := by
        intro _
        by_cases h0 : keyRem = 0
        · rw [if_pos (hinv.popcount_eq_iff.mpr h0), if_pos h0]
          rfl
        · rw [if_neg (mt hinv.popcount_eq_iff.mp h0), if_neg h0]
          rfl
      unfold mmbitCompressWalk
      dsimp only
      rw [walkRest, walkTodo, List.foldl_append, List.foldl_append]
      by_cases hrem : keyRem < mmbKeyBits
      · rw [if_pos hrem]
        have hrem64 : keyRem < 64 := hrem
        rw [show mmbLoad bits (mmbitGetLevelRoot level + key * 8) = blockVal bits (level, key) from rfl,
          hhead hrem64]
        by_cases hdown : level < maxLevel ∧
            blockVal bits (level, key) &&& compl 64 (mmbMaskZeroToNocheck keyRem) ≠ 0
        · -- go down through the first set bit
          rw [if_pos hdown]
          obtain ⟨hj, hjrem, hjbit, hjmin, hinv'⟩ := hinv.descend hdown.1 hdown.2
          generalize mmbCtz (blockVal bits (level, key) &&& compl 64 (mmbMaskZeroToNocheck keyRem)) = j
            at hj hjrem hjbit hjmin hinv'
          rw [shiftLeft_keyShift_add,
            ih (level + 1) (64 * key + j) 0 _ hinv'
              (lt_of_lt_of_le (iterMeasure_down_lt hdown.1 hjrem hrem64) (Nat.le_of_lt_succ hμ)),
            walkRest_descend _ _ _ _ _ hj, childBlocks_descend bits maxLevel hdown.1 hjrem hj hjmin hjbit]
          simp only [walkTodo, List.foldl_append]
        · rw [if_neg hdown]
          have hnil := hinv.childBlocks_eq_nil fun h => hdown ⟨h.2.1, h.2.2⟩
          rw [hleave _ hnil, List.foldl_append]
      · rw [if_neg hrem]
        have hnil := hinv.childBlocks_eq_nil fun h => hrem h.1
        have h0 : keyRem ≠ 0 := by unfold mmbKeyBits at hrem; omega
        rw [if_neg h0, hleave _ hnil, List.foldl_append]
        rfl

end CompressWalk

/-! ## Blocks in memory -/

/-- A block of the pyramid of `max_level`: `key < 64 ^ level`. -/
def IsBlock (maxLevel : Nat) (b : Nat × Nat) : Prop := b.1 ≤ maxLevel ∧ b.2 < 64 ^ b.1

/-- A block's value is its 64 nodes. -/
theorem blockVal_congr {m m' : Mem} {l k : Nat}
    (h : ∀ j, j < 64 → levelBit m l (64 * k + j) = levelBit m' l (64 * k + j)) :
    blockVal m (l, k) = blockVal m' (l, k) := by
  apply Nat.eq_of_testBit_eq
  intro j
  simp only [blockVal, testBit_levelBlock]
  by_cases hj : j < 64
  · rw [h j hj]
  · simp [hj]

theorem blockVal_lt (m : Mem) (b : Nat × Nat) : blockVal m b < 2 ^ 64 := mmbLoad_lt _ _

theorem blockVal_mmbStore_self (m : Mem) (l k v : Nat) :
    blockVal (mmbStore m (mmbitGetLevelRoot l + k * 8) v) (l, k) = v % 2 ^ 64 :=
  Mem.load_store_self _ _ _ _

/-- A block store leaves every other block alone. -/
theorem blockVal_mmbStore_ne {m : Mem} {l k l' k' v : Nat} (hl : l ≤ 5) (hl' : l' ≤ 5) (hk : k < 64 ^ l)
    (hk' : k' < 64 ^ l') (hne : (l', k') ≠ (l, k)) :
    blockVal (mmbStore m (mmbitGetLevelRoot l + k * 8) v) (l', k') = blockVal m (l', k') := by
  apply blockVal_congr
  intro j hj
  have hn : 64 * k' + j < 64 ^ (l' + 1) := by
    rw [Nat.pow_succ]
    omega
  rw [levelBit_mmbStore hl' hl hn hk, if_neg]
  rintro ⟨rfl, hkk⟩
  exact hne (by rw [show k' = k by omega])

/-- The ancestor on level `l` of block `key` of `level` is a block of level `l`. -/
theorem div_pow_lt {level key l : Nat} (hkey : key < 64 ^ level) (hl : l ≤ level) :
    key / 64 ^ (level - l) < 64 ^ l := by
  apply Nat.div_lt_of_lt_mul
  rwa [← Nat.pow_add, Nat.sub_add_cancel hl]

/-! ## The decompression walk -/

/-- The buffer holds the 8-byte blocks `vals` from byte `p` on. -/
def HoldsBlocks (comp : Mem) : Nat → List Nat → Prop
  | _, [] => True
  | p, v :: vs => mmbLoad comp p = v ∧ HoldsBlocks comp (p + 8) vs

/-- The blocks on the path from the root down to block `key` of `level` have
in `out` the values they have in `bits`. -/
def PathAgree (out bits : Mem) (level key : Nat) : Prop :=
  ∀ l, l ≤ level → blockVal out (l, key / 64 ^ (level - l)) = blockVal bits (l, key / 64 ^ (level - l))

theorem PathAgree.self {out bits : Mem} {level key : Nat} (h : PathAgree out bits level key) :
    blockVal out (level, key) = blockVal bits (level, key) := by
  simpa using h level le_rfl

theorem PathAgree.up {out bits : Mem} {l key : Nat} (h : PathAgree out bits (l + 1) key) :
    PathAgree out bits l (key / 64) := by
  intro l' hl'
  have := h l' (by omega)
  rwa [show l + 1 - l' = (l - l') + 1 by omega, Nat.pow_succ', ← Nat.div_div_eq_div_mul] at this

section DecompressWalk

variable {bits comp : Mem} {maxLevel compEnd : Nat}

/-- The copy of the next buffer block into the child block is a block store. -/
theorem copy_child_eq (out : Mem) (l k p : Nat) :
    out.copy (8 * (mmbitGetLevelRoot l + k * 8)) comp (8 * p) 64 =
      mmbStore out (mmbitGetLevelRoot l + k * 8) (mmbLoad comp p) :=
  Mem.copy_eq_store _ _ _ _ _

/-- Writing the child block of a walk keeps the path agreement, one level deeper. -/
theorem PathAgree.descend {out : Mem} {level key j v : Nat} (hM : maxLevel ≤ 5)
    (hinv : WalkInv bits maxLevel level key keyRem) (hl : level < maxLevel) (hj : j < 64)
    (h : PathAgree out bits level key) (hv : v = blockVal bits (level + 1, 64 * key + j)) :
    PathAgree (mmbStore out (mmbitGetLevelRoot (level + 1) + (64 * key + j) * 8) v) bits
      (level + 1) (64 * key + j) := by
  have hchild : 64 * key + j < 64 ^ (level + 1) := by
    have := hinv.key_lt
    rw [Nat.pow_succ]
    omega
  intro l' hl'
  by_cases hl'eq : l' = level + 1
  · subst hl'eq
    rw [Nat.sub_self, Nat.pow_zero, Nat.div_one, blockVal_mmbStore_self, hv,
      Nat.mod_eq_of_lt (blockVal_lt _ _)]
  · have hpar : (64 * key + j) / 64 ^ (level + 1 - l') = key / 64 ^ (level - l') := by
      rw [show level + 1 - l' = (level - l') + 1 by omega, Nat.pow_succ', ← Nat.div_div_eq_div_mul,
        show (64 * key + j) / 64 = key by omega]
    rw [hpar, blockVal_mmbStore_ne (by omega) (by omega) hchild
      (div_pow_lt hinv.key_lt (by omega)) (by simp; omega)]
    exact h l' (by omega)

/-- The run of the decompression walk: from any state of the invariant whose
path agrees with `bits`, over a buffer that holds the blocks still to go down
into, it writes each of them and leaves every other block as it was or with
its value in `bits`. -/
theorem mmbitDecompressWalk_eq (hM : maxLevel ≤ 5) (fuel : Nat) :
    ∀ level key keyRem p out, WalkInv bits maxLevel level key keyRem →
      iterMeasure maxLevel level key keyRem < fuel →
      PathAgree out bits level key →
      HoldsBlocks comp p ((walkTodo bits maxLevel level key keyRem).map (blockVal bits)) →
      p + 8 * (walkTodo bits maxLevel level key keyRem).length ≤ compEnd →
      ∃ out', mmbitDecompressWalk comp maxLevel compEnd fuel level key keyRem p out =
          some (out', p + 8 * (walkTodo bits maxLevel level key keyRem).length) ∧
        (∀ b ∈ walkTodo bits maxLevel level key keyRem, blockVal out' b = blockVal bits b) ∧
        (∀ b, IsBlock maxLevel b → blockVal out' b = blockVal out b ∨ blockVal out' b = blockVal bits b) := by
  induction fuel with
  | zero =>
      intro level key keyRem p out _ hμ
      exact absurd hμ (Nat.not_lt_zero _)
  | succ fuel ih =>
      intro level key keyRem p out hinv hμ hpath hholds hroom
      -- leaving the block: the ancestors' rests are what is left
      have hleave : childBlocks bits maxLevel level key keyRem = [] →
          ∃ out', (if level = 0 then some (out, p)
              else mmbitDecompressWalk comp maxLevel compEnd fuel (level - 1) (key >>> mmbKeyShift)
                ((key &&& (mmbKeyBits - 1)) + 1) p out) =
            some (out', p + 8 * (walkTodo bits maxLevel level key keyRem).length) ∧
            (∀ b ∈ walkTodo bits maxLevel level key keyRem, blockVal out' b = blockVal bits b) ∧
            (∀ b, IsBlock maxLevel b → blockVal out' b = blockVal out b ∨
              blockVal out' b = blockVal bits b) := by
        intro hnil
        cases level with
        | zero =>
            have htodo : walkTodo bits maxLevel 0 key keyRem = [] := by
              rw [walkTodo, hnil]
              rfl
            rw [htodo]
            exact ⟨out, rfl, by simp, fun b _ => Or.inl rfl⟩
        | succ l =>
            have htodo : walkTodo bits maxLevel (l + 1) key keyRem =
                walkTodo bits maxLevel l (key / 64) (key % 64 + 1) := by
              rw [walkTodo, hnil, List.nil_append, ← walkRest_up, walkRest, if_neg (by omega),
                List.nil_append]
            rw [htodo] at hholds hroom ⊢
            rw [if_neg (Nat.succ_ne_zero l), Nat.add_sub_cancel, shiftRight_keyShift, and_keyMask]
            exact ih l (key / 64) (key % 64 + 1) p out hinv.up
              (lt_of_lt_of_le hinv.up_measure_lt (Nat.le_of_lt_succ hμ)) hpath.up hholds hroom
      unfold mmbitDecompressWalk
      dsimp only
      rw [show mmbLoad out (mmbitGetLevelRoot level + key * 8) = blockVal bits (level, key) from hpath.self]
      by_cases hrem : keyRem < mmbKeyBits
      · rw [if_pos hrem]
        by_cases hdown : level < maxLevel ∧
            blockVal bits (level, key) &&& compl 64 (mmbMaskZeroToNocheck keyRem) ≠ 0
        · -- go down: the child block is the next block of the buffer
          rw [if_pos hdown]
          obtain ⟨hj, hjrem, hjbit, hjmin, hinv'⟩ := hinv.descend hdown.1 hdown.2
          generalize mmbCtz (blockVal bits (level, key) &&& compl 64 (mmbMaskZeroToNocheck keyRem)) = j
            at hj hjrem hjbit hjmin hinv'
          have htodo := walkTodo_descend bits maxLevel hdown.1 hjrem hj hjmin hjbit
          rw [htodo] at hholds hroom ⊢
          obtain ⟨hhead, htail⟩ := hholds
          rw [List.length_cons] at hroom ⊢
          rw [shiftLeft_keyShift_add, if_neg (by omega), copy_child_eq]
          have hchild : IsBlock maxLevel (level + 1, 64 * key + j) := ⟨hinv'.level_le, hinv'.key_lt⟩
          have hpath' := hpath.descend hM hinv hdown.1 hj hhead
          obtain ⟨out', hrun, hdone, hkeep⟩ := ih (level + 1) (64 * key + j) 0 (p + 8) _ hinv'
            (lt_of_lt_of_le (iterMeasure_down_lt hdown.1 hjrem hrem) (Nat.le_of_lt_succ hμ)) hpath' htail
            (by omega)
          refine ⟨out', by rw [hrun, Nat.mul_succ, Nat.add_assoc, Nat.add_comm 8], ?_, ?_⟩
          · intro b hb
            rcases List.mem_cons.mp hb with rfl | hb
            · rcases hkeep _ hchild with h | h
              · rw [h]
                exact hpath'.self
              · exact h
            · exact hdone b hb
          · intro b hb
            rcases hkeep b hb with h | h
            · by_cases hbc : b = (level + 1, 64 * key + j)
              · subst hbc
                right
                rw [h]
                exact hpath'.self
              · left
                rw [h]
                obtain ⟨l', k'⟩ := b
                exact blockVal_mmbStore_ne (by have := hchild.1; omega) (by have := hb.1; omega)
                  hchild.2 hb.2 hbc
            · exact Or.inr h
        · rw [if_neg hdown]
          exact hleave (hinv.childBlocks_eq_nil fun h => hdown ⟨h.2.1, h.2.2⟩)
      · rw [if_neg hrem]
        exact hleave (hinv.childBlocks_eq_nil fun h => hrem h.1)

end DecompressWalk

/-! ## What the walks compute -/

theorem mmbitMaxlevel_le_five (n : Nat) : mmbitMaxlevel n ≤ 5 := by
  unfold mmbitMaxlevel
  generalize clz32 (n - 1) = i
  by_cases hi : i < 32
  · interval_cases i <;> decide
  · rw [List.getD_eq_default _ _ (by simp [mmbitMaxlevelDirectLut]; omega)]
    omega

theorem foldl_succ_eq_length {α : Type} (l : List α) (n : Nat) :
    l.foldl (fun a _ => a + 1) n = n + l.length := by
  induction l generalizing n with
  | nil => rfl
  | cons x l ih =>
      rw [List.foldl_cons, ih, List.length_cons]
      omega

/-- Copying blocks to consecutive 8-byte slots from byte `p`: the buffer holds
them, and nothing before byte `p` or after the last slot changes. -/
theorem foldl_mmbStore_holds (vals : List Nat) (hvals : ∀ v ∈ vals, v < 2 ^ 64) :
    ∀ (c : Mem) (p : Nat),
      (vals.foldl (fun a v => (mmbStore a.1 a.2 v, a.2 + 8)) (c, p)).2 = p + 8 * vals.length ∧
      HoldsBlocks (vals.foldl (fun a v => (mmbStore a.1 a.2 v, a.2 + 8)) (c, p)).1 p vals ∧
      (∀ i, i < 8 * p → (vals.foldl (fun a v => (mmbStore a.1 a.2 v, a.2 + 8)) (c, p)).1 i = c i) ∧
      ∀ i, 8 * (p + 8 * vals.length) ≤ i →
        (vals.foldl (fun a v => (mmbStore a.1 a.2 v, a.2 + 8)) (c, p)).1 i = c i := by
  induction vals with
  | nil => intro c p; exact ⟨by simp, trivial, fun _ _ => rfl, fun _ _ => rfl⟩
  | cons v vs ih =>
      intro c p
      obtain ⟨hpos, hholds, hframe, habove⟩ := ih (fun w hw => hvals w (List.mem_cons_of_mem v hw))
        (mmbStore c p v) (p + 8)
      simp only [List.foldl_cons] at hpos hholds hframe habove ⊢
      have hstored : mmbLoad (vs.foldl (fun a v => (mmbStore a.1 a.2 v, a.2 + 8)) (mmbStore c p v, p + 8)).1 p = v := by
        unfold mmbLoad
        rw [@Mem.load_congr _ (mmbStore c p v) _ _ fun i hi => hframe _ (by omega)]
        unfold mmbStore
        rw [Mem.load_store_self, Nat.mod_eq_of_lt (hvals v (List.mem_cons_self ..))]
      refine ⟨by rw [hpos, List.length_cons]; omega, ⟨hstored, hholds⟩, fun i hi => ?_, fun i hi => ?_⟩
      · rw [hframe i (by omega)]
        unfold mmbStore
        exact Mem.store_apply_of_not_mem (by omega)
      · rw [List.length_cons] at hi
        rw [habove i (by omega)]
        unfold mmbStore
        exact Mem.store_apply_of_not_mem (by omega)

section Whole

variable {bits : Mem} {totalBits : Nat}

/-- A compression that succeeds reports the size that `mmbit_compsize` counts. -/
theorem mmbitCompress_compsize {comp comp' : Mem} {maxCompSpace n : Nat}
    (h : mmbitCompress bits totalBits comp maxCompSpace = some (comp', n)) :
    mmbitCompsize bits totalBits = some n := by
  unfold mmbitCompress at h
  cases hs : mmbitCompsize bits totalBits with
  | none => simp [hs] at h
  | some k =>
      simp only [hs, Option.bind_eq_bind, Option.bind_some] at h
      -- every branch that succeeds returns the size it was given
      split_ifs at h
      · simp only [Option.some.injEq, Prod.mk.injEq] at h
        rw [h.2]
      · simp only [Option.some.injEq, Prod.mk.injEq] at h
        rw [h.2]
      · obtain ⟨r, -, hr⟩ := Option.bind_eq_some_iff.mp h
        simp only [Option.some.injEq, Prod.mk.injEq] at hr
        rw [hr.2]

/-- `mmbit_compsize` of a tree multibit with a non-zero root counts the blocks of the walk. -/
theorem mmbitCompsize_tree (htree : mmbFlatMaxBits < totalBits) (hroot : mmbLoad bits 0 ≠ 0) :
    mmbitCompsize bits totalBits =
      some (8 * (subtreeBlocks bits (mmbitMaxlevel totalBits) 0 0).length) := by
  rw [mmbitCompsize, if_neg (by omega), if_neg hroot]
  dsimp only
  rw [mmbitCompressWalk_eq _ _ 0 0 0 0 WalkInv.root (iterMeasure_lt_fuel (Nat.zero_le _)), walkRest_root,
    foldl_succ_eq_length, Nat.zero_add]
  rfl

/-- `mmbit_compress` of a tree multibit with a non-zero root writes the blocks
of the walk, in order, from the start of the buffer, and nothing after them. -/
theorem mmbitCompress_tree {comp : Mem} {maxCompSpace : Nat} (htree : mmbFlatMaxBits < totalBits)
    (hroot : mmbLoad bits 0 ≠ 0)
    (hroom : 8 * (subtreeBlocks bits (mmbitMaxlevel totalBits) 0 0).length ≤ maxCompSpace) :
    ∃ comp', mmbitCompress bits totalBits comp maxCompSpace =
        some (comp', 8 * (subtreeBlocks bits (mmbitMaxlevel totalBits) 0 0).length) ∧
      HoldsBlocks comp' 0 ((subtreeBlocks bits (mmbitMaxlevel totalBits) 0 0).map (blockVal bits)) ∧
      ∀ i, 8 * (8 * (subtreeBlocks bits (mmbitMaxlevel totalBits) 0 0).length) ≤ i → comp' i = comp i := by
  have hwalk := @mmbitCompressWalk_eq bits (mmbitMaxlevel totalBits) _
    (fun block c => (mmbStore c.1 c.2 block, c.2 + 8)) _ 0 0 0 (comp, 0) WalkInv.root
    (iterMeasure_lt_fuel (Nat.zero_le _))
  have hmap : (subtreeBlocks bits (mmbitMaxlevel totalBits) 0 0).foldl
      (fun a b => (mmbStore a.1 a.2 (blockVal bits b), a.2 + 8)) (comp, 0) =
      ((subtreeBlocks bits (mmbitMaxlevel totalBits) 0 0).map (blockVal bits)).foldl
        (fun a v => (mmbStore a.1 a.2 v, a.2 + 8)) (comp, 0) := by
    rw [List.foldl_map]
  rw [walkRest_root, hmap] at hwalk
  obtain ⟨-, hholds, -, habove⟩ := foldl_mmbStore_holds
    ((subtreeBlocks bits (mmbitMaxlevel totalBits) 0 0).map (blockVal bits))
    (fun v hv => by obtain ⟨b, -, rfl⟩ := List.mem_map.mp hv; exact blockVal_lt _ _) comp 0
  refine ⟨_, ?_, hholds, fun i hi => habove i (by rwa [List.length_map, Nat.zero_add])⟩
  simp only [mmbitCompress, mmbitCompsize_tree htree hroot, Option.bind_eq_bind, Option.bind_some]
  rw [if_neg (by omega), if_neg (by omega), if_neg hroot, hwalk]
  rfl

/-- `mmbit_compsize` always answers: a flat multibit is its bytes, a clear
tree its root block, and the walk of any other tree has fuel enough. -/
theorem mmbitCompsize_exists : ∃ n, mmbitCompsize bits totalBits = some n := by
  by_cases hflat : totalBits ≤ mmbFlatMaxBits
  · exact ⟨_, by rw [mmbitCompsize, if_pos hflat]⟩
  · by_cases hroot : mmbLoad bits 0 = 0
    · exact ⟨8, by rw [mmbitCompsize, if_neg hflat, if_pos hroot]⟩
    · exact ⟨_, mmbitCompsize_tree (by omega) hroot⟩

/-- A compression into a buffer of at least `mmbit_compsize` bytes succeeds,
reports that size and writes no byte after it. -/
theorem mmbitCompress_of_compsize {comp : Mem} {maxCompSpace n : Nat}
    (hs : mmbitCompsize bits totalBits = some n) (hroom : n ≤ maxCompSpace) :
    ∃ comp', mmbitCompress bits totalBits comp maxCompSpace = some (comp', n) ∧
      ∀ i, 8 * n ≤ i → comp' i = comp i := by
  by_cases hflat : totalBits ≤ mmbFlatMaxBits
  · rw [mmbitCompsize, if_pos hflat] at hs
    obtain rfl := Option.some.inj hs
    refine ⟨comp.copy 0 bits 0 (8 * (roundupN totalBits 8 / 8)), ?_,
      fun i hi => Mem.copy_apply_of_not_mem (Or.inr (by omega))⟩
    simp only [mmbitCompress, mmbitCompsize, if_pos hflat, Option.bind_eq_bind, Option.bind_some,
      if_neg (show ¬ roundupN totalBits 8 / 8 > maxCompSpace by omega)]
  by_cases hroot : mmbLoad bits 0 = 0
  · rw [mmbitCompsize, if_neg hflat, if_pos hroot] at hs
    obtain rfl := Option.some.inj hs
    refine ⟨comp.copy 0 bits 0 64, ?_, fun i hi => Mem.copy_apply_of_not_mem (Or.inr (by omega))⟩
    simp only [mmbitCompress, mmbitCompsize, if_neg hflat, if_pos hroot, Option.bind_eq_bind,
      Option.bind_some, if_neg (show ¬ 8 > maxCompSpace by omega)]
  · rw [mmbitCompsize_tree (by omega) hroot] at hs
    obtain rfl := Option.some.inj hs
    obtain ⟨comp', hc, -, habove⟩ := @mmbitCompress_tree bits totalBits comp maxCompSpace (by omega) hroot hroom
    exact ⟨comp', hc, habove⟩

end Whole

/-! ## The round trip -/

/-- A node is a bit of its block's value. -/
theorem levelBit_eq_of_blockVal_eq {m m' : Mem} {l n : Nat}
    (h : blockVal m (l, n / 64) = blockVal m' (l, n / 64)) : levelBit m l n = levelBit m' l n := by
  have hm := testBit_levelBlock m l (n / 64) (n % 64)
  have hm' := testBit_levelBlock m' l (n / 64) (n % 64)
  rw [show 64 * (n / 64) + n % 64 = n by omega] at hm hm'
  have e : mmbLoad m (mmbitGetLevelRoot l + n / 64 * 8) = mmbLoad m' (mmbitGetLevelRoot l + n / 64 * 8) := h
  rw [e] at hm
  simpa [Nat.mod_lt n (by decide : 64 > 0)] using hm.symm.trans hm'

section RoundTrip

variable {bits : Mem} {maxLevel : Nat}

/-- The root block of a multibit is its first 8 bytes. -/
theorem blockVal_root (m : Mem) : blockVal m (0, 0) = mmbLoad m 0 := rfl

/-- Memories that agree on every block reached in `bits` have the same
path-set nodes, level by level from the root. -/
theorem pathSet_iff_of_reached {out : Mem}
    (h : ∀ l k, IsBlock maxLevel (l, k) → BlockReached bits l k → blockVal out (l, k) = blockVal bits (l, k)) :
    ∀ l n, l ≤ maxLevel → n < 64 ^ (l + 1) → (PathSet out l n ↔ PathSet bits l n) := by
  intro l
  induction l with
  | zero =>
      intro n _ hn
      have hn' : n < 64 := by simpa using hn
      have hblk : blockVal out (0, n / 64) = blockVal bits (0, n / 64) := by
        rw [Nat.div_eq_of_lt hn']
        exact h 0 0 ⟨Nat.zero_le _, by simp⟩ rfl
      rw [pathSet_zero, pathSet_zero, levelBit_eq_of_blockVal_eq hblk]
  | succ l ih =>
      intro n hl hn
      have hdiv : n >>> 6 = n / 64 := by
        rw [Nat.shiftRight_eq_div_pow]
      have hpar : n / 64 < 64 ^ (l + 1) := by
        rw [← hdiv]
        exact shiftRight_six_lt hn
      have hiff := ih (n / 64) (by omega) hpar
      -- the node's block is reached once its parent's path is set
      have hnode : PathSet bits l (n / 64) → levelBit out (l + 1) n = levelBit bits (l + 1) n :=
        fun hp => levelBit_eq_of_blockVal_eq (h (l + 1) (n / 64) ⟨hl, hpar⟩ hp)
      rw [pathSet_succ, pathSet_succ, hdiv]
      constructor
      · rintro ⟨hp, hb⟩
        have hp' := hiff.mp hp
        exact ⟨hp', by rwa [← hnode hp']⟩
      · rintro ⟨hp, hb⟩
        exact ⟨hiff.mpr hp, by rwa [hnode hp]⟩

/-- The subtree under the set bit `i` of block `k` is among the block's children. -/
theorem subtreeBlocks_subset_childBlocks {l k i : Nat} (hl : l < maxLevel) (hi : i < 64)
    (hbit : levelBit bits l (64 * k + i) = true) {b : Nat × Nat}
    (hb : b ∈ subtreeBlocks bits maxLevel (l + 1) (64 * k + i)) :
    b ∈ childBlocks bits maxLevel l k 0 := by
  rw [childBlocks, if_pos hl, List.mem_flatMap]
  exact ⟨i, by rw [List.mem_range'_1]; omega, by rwa [if_pos hbit]⟩

/-- The subtree of a reached block lies within the walk from the root. -/
theorem subtreeBlocks_subset_of_reached :
    ∀ l k, IsBlock maxLevel (l, k) → BlockReached bits l k →
      ∀ b ∈ subtreeBlocks bits maxLevel l k, b ∈ subtreeBlocks bits maxLevel 0 0 := by
  intro l
  induction l with
  | zero =>
      intro k _ hk b hb
      rw [show k = 0 from hk] at hb
      exact hb
  | succ l ih =>
      intro k hblk hk b hb
      -- block `k` of level `l + 1` hangs under bit `k % 64` of its parent
      have hpath : PathSet bits l k := hk
      have hbit : levelBit bits l (64 * (k / 64) + k % 64) = true := by
        rw [show 64 * (k / 64) + k % 64 = k by omega]
        simpa using hpath l le_rfl
      have hparent : BlockReached bits l (k / 64) := by
        have := reached_parent hk hblk.2
        rwa [Nat.shiftRight_eq_div_pow] at this
      have hparblk : IsBlock maxLevel (l, k / 64) := by
        have := hblk.2
        refine ⟨by have := hblk.1; omega, Nat.div_lt_of_lt_mul ?_⟩
        rw [Nat.pow_succ] at this
        simpa [Nat.mul_comm] using this
      refine ih (k / 64) hparblk hparent b ?_
      rw [subtreeBlocks_eq]
      refine List.mem_cons_of_mem _ (subtreeBlocks_subset_childBlocks (by have := hblk.1; omega)
        (Nat.mod_lt k (by decide)) hbit ?_)
      rwa [show 64 * (k / 64) + k % 64 = k by omega]

theorem mem_subtreeBlocks_of_reached {l k : Nat} (hblk : IsBlock maxLevel (l, k)) (hk : BlockReached bits l k) :
    (l, k) ∈ subtreeBlocks bits maxLevel 0 0 :=
  subtreeBlocks_subset_of_reached l k hblk hk (l, k) (by rw [subtreeBlocks_eq]; exact List.mem_cons_self ..)

/-- With a clear root no block below the root is reached. -/
theorem not_reached_of_root_zero (hroot : mmbLoad bits 0 = 0) {l k : Nat} (hk : k < 64 ^ (l + 1)) :
    ¬ BlockReached bits (l + 1) k := by
  intro hreach
  have hpath : PathSet bits l k := hreach
  have hnode := hpath 0 (Nat.zero_le _)
  rw [Nat.sub_zero] at hnode
  have hlt : k >>> (6 * l) < 64 := by simpa using node_shiftRight_lt hk (Nat.zero_le l)
  have hbit := testBit_levelBlock bits 0 0 (k >>> (6 * l))
  rw [show mmbitGetLevelRoot 0 + 0 * 8 = 0 from rfl, hroot, Nat.zero_testBit, Nat.mul_zero, Nat.zero_add,
    hnode] at hbit
  simp [hlt] at hbit

end RoundTrip

section Whole

variable {bits : Mem} {totalBits : Nat}

/-- The round trip of a tree multibit: decompressing what `mmbit_compress`
wrote, over any prior contents and from a buffer with room for it, gives back
every reached block and reports the size the compression reported. -/
theorem mmbitDecompress_mmbitCompress_tree (htree : mmbFlatMaxBits < totalBits)
    {bits0 comp comp' : Mem} {maxCompSpace maxCompSpace' compSize : Nat}
    (hc : mmbitCompress bits totalBits comp maxCompSpace = some (comp', compSize))
    (hroom : compSize ≤ maxCompSpace') :
    ∃ out, mmbitDecompress bits0 totalBits comp' maxCompSpace' = some (out, compSize) ∧
      ∀ l k, IsBlock (mmbitMaxlevel totalBits) (l, k) → BlockReached bits l k →
        blockVal out (l, k) = blockVal bits (l, k) := by
  by_cases hroot : mmbLoad bits 0 = 0
  · -- a clear multibit is its root block
    have hcomp : mmbitCompress bits totalBits comp maxCompSpace =
        if 8 > maxCompSpace then none else some (comp.copy 0 bits 0 64, 8) := by
      simp only [mmbitCompress, mmbitCompsize, if_neg (show ¬ totalBits ≤ mmbFlatMaxBits by omega),
        if_pos hroot, Option.bind_eq_bind, Option.bind_some]
    rw [hcomp] at hc
    split at hc
    · exact absurd hc (by simp)
    obtain ⟨rfl, rfl⟩ := Prod.mk.inj (Option.some.inj hc)
    have hload : ∀ m : Mem, mmbLoad (m.copy 0 bits 0 64) 0 = mmbLoad bits 0 := fun m => by
      rw [Mem.copy_eq_store]
      exact (Mem.load_store_self _ _ _ _).trans (Nat.mod_eq_of_lt (Mem.load_lt _ _ _))
    refine ⟨bits0.copy 0 (comp.copy 0 bits 0 64) 0 64, ?_, ?_⟩
    · rw [mmbitDecompress, if_neg (by omega), if_pos (by rw [hload, hroot])]
    · intro l k hblk hk
      cases l with
      | zero =>
          rw [show k = 0 from hk, blockVal_root, blockVal_root, Mem.copy_eq_store]
          unfold mmbLoad
          rw [Mem.load_store_self, Nat.mod_eq_of_lt (Mem.load_lt _ _ _)]
          exact hload comp
      | succ l =>
          exact absurd hk (not_reached_of_root_zero hroot (by
            have := hblk.2
            rw [Nat.pow_succ] at this ⊢
            omega))
  · -- the blocks of the walk, root first
    have hsub := subtreeBlocks_eq bits (mmbitMaxlevel totalBits) 0 0
    have hfits : 8 * (subtreeBlocks bits (mmbitMaxlevel totalBits) 0 0).length ≤ maxCompSpace := by
      by_contra hbig
      simp only [mmbitCompress, mmbitCompsize_tree htree hroot, Option.bind_eq_bind, Option.bind_some,
        if_pos (show 8 * (subtreeBlocks bits (mmbitMaxlevel totalBits) 0 0).length > maxCompSpace by omega)]
        at hc
      exact absurd hc (by simp)
    obtain ⟨comp'', hc', hholds, -⟩ := @mmbitCompress_tree bits totalBits comp maxCompSpace htree hroot hfits
    rw [hc'] at hc
    obtain ⟨rfl, rfl⟩ := Prod.mk.inj (Option.some.inj hc)
    rw [hsub, List.map_cons] at hholds
    obtain ⟨hroot', htail⟩ := hholds
    have hM := mmbitMaxlevel_le_five totalBits
    have htodo : walkTodo bits (mmbitMaxlevel totalBits) 0 0 0 = childBlocks bits (mmbitMaxlevel totalBits) 0 0 0 := by
      rw [walkTodo, ancestorBlocks, List.append_nil]
    have hpath : PathAgree (bits0.copy 0 comp'' 0 64) bits 0 0 := by
      intro l hl
      obtain rfl : l = 0 := by omega
      rw [Nat.zero_div, blockVal_root, Mem.copy_eq_store]
      unfold mmbLoad
      rw [Mem.load_store_self, Nat.mod_eq_of_lt (Mem.load_lt _ _ _)]
      exact hroot'
    rw [hsub, List.length_cons] at hroom
    obtain ⟨out, hrun, hdone, hkeep⟩ := @mmbitDecompressWalk_eq bits comp'' _ maxCompSpace' hM
      _ 0 0 0 8 _ WalkInv.root (iterMeasure_lt_fuel (Nat.zero_le _)) hpath (by rwa [htodo])
      (by rw [htodo]; omega)
    refine ⟨out, ?_, fun l k hblk hk => ?_⟩
    · rw [mmbitDecompress, if_neg (by omega), if_neg (by rw [hroot', blockVal_root]; exact hroot), hrun, htodo,
        hsub, List.length_cons, Nat.mul_succ, Nat.add_comm _ 8]
    · have hmem := mem_subtreeBlocks_of_reached hblk hk
      rw [hsub, List.mem_cons] at hmem
      rcases hmem with heq | hmem
      · rcases hkeep (l, k) hblk with h | h
        · rw [h, heq]
          exact hpath.self
        · exact h
      · exact hdone (l, k) (by rwa [htodo])

/-- The round trip of a flat multibit copies its bytes back. -/
theorem mmbitDecompress_mmbitCompress_flat (hflat : totalBits ≤ mmbFlatMaxBits)
    {bits0 comp comp' : Mem} {maxCompSpace maxCompSpace' compSize : Nat}
    (hc : mmbitCompress bits totalBits comp maxCompSpace = some (comp', compSize)) :
    ∃ out, mmbitDecompress bits0 totalBits comp' maxCompSpace' = some (out, compSize) ∧
      compSize = mmbitFlatSize totalBits ∧ ∀ i, i < 8 * mmbitFlatSize totalBits → out i = bits i := by
  simp only [mmbitCompress, mmbitCompsize, if_pos hflat, Option.bind_eq_bind, Option.bind_some] at hc
  split at hc
  · exact absurd hc (by simp)
  obtain ⟨rfl, rfl⟩ := Prod.mk.inj (Option.some.inj hc)
  refine ⟨bits0.copy 0 (comp.copy 0 bits 0 (8 * (roundupN totalBits 8 / 8))) 0
    (8 * (roundupN totalBits 8 / 8)), by rw [mmbitDecompress, if_pos hflat], rfl, fun i hi => ?_⟩
  have hi' : i < 8 * (roundupN totalBits 8 / 8) := hi
  rw [Mem.copy_apply_of_mem (Nat.zero_le _) (by omega), Mem.copy_apply_of_mem (Nat.zero_le _) (by omega)]
  simp

/-- A flat multibit that agrees with another on its bytes has its keys. -/
theorem mmbitKeys_eq_of_flat (hflat : totalBits ≤ mmbFlatMaxBits) {out : Mem}
    (hsame : ∀ i, i < 8 * mmbitFlatSize totalBits → out i = bits i) :
    mmbitKeys totalBits out = mmbitKeys totalBits bits := by
  -- every key lies in the bytes
  have hcover : totalBits ≤ 8 * mmbitFlatSize totalBits := by
    unfold mmbitFlatSize roundupN
    omega
  ext k
  simp only [mmbitKeys, Set.mem_ofPred_eq, MmbitMember, if_pos hflat]
  constructor
  · rintro ⟨hk, hb⟩
    exact ⟨hk, by rwa [← hsame k (by omega)]⟩
  · rintro ⟨hk, hb⟩
    exact ⟨hk, by rwa [hsame k (by omega)]⟩

/-- ... and its validity, which reads the padding bits of the same bytes. -/
theorem mmbitValid_iff_of_flat (hflat : totalBits ≤ mmbFlatMaxBits) {out : Mem}
    (hsame : ∀ i, i < 8 * mmbitFlatSize totalBits → out i = bits i) :
    (MmbitValid totalBits out ↔ MmbitValid totalBits bits) := by
  unfold MmbitValid
  rw [if_pos hflat, if_pos hflat]
  exact forall_congr' fun b => imp_congr_right fun _ => imp_congr_right fun hb => by rw [hsame b hb]

/-- The pyramid of a tree multibit covers its keys. -/
theorem le_pow_mmbitMaxlevel (hmax : totalBits ≤ mmbMaxBits) (htree : mmbFlatMaxBits < totalBits) :
    totalBits ≤ 64 ^ (mmbitMaxlevel totalBits + 1) := by
  have := (mmbitMaxlevel_spec (by unfold mmbFlatMaxBits at htree; omega) hmax).2.2.2
  rwa [show 6 * mmbitMaxlevel totalBits + 6 = 6 * (mmbitMaxlevel totalBits + 1) by ring, Nat.pow_mul] at this

/-- A tree multibit that agrees with another on every block the other reaches
has its keys. -/
theorem mmbitKeys_eq_of_reached (hmax : totalBits ≤ mmbMaxBits) (htree : mmbFlatMaxBits < totalBits)
    {out : Mem} (hblocks : ∀ l k, IsBlock (mmbitMaxlevel totalBits) (l, k) → BlockReached bits l k →
      blockVal out (l, k) = blockVal bits (l, k)) :
    mmbitKeys totalBits out = mmbitKeys totalBits bits := by
  have hiff := pathSet_iff_of_reached hblocks
  have hcap := le_pow_mmbitMaxlevel hmax htree
  ext k
  simp only [mmbitKeys, Set.mem_ofPred_eq, MmbitMember, if_neg (show ¬ totalBits ≤ mmbFlatMaxBits by omega)]
  constructor
  · rintro ⟨hk, hp⟩
    exact ⟨hk, (hiff _ k le_rfl (by omega)).mp hp⟩
  · rintro ⟨hk, hp⟩
    exact ⟨hk, (hiff _ k le_rfl (by omega)).mpr hp⟩

/-- ... and its validity. -/
theorem mmbitValid_iff_of_reached (htree : mmbFlatMaxBits < totalBits) {out : Mem}
    (hblocks : ∀ l k, IsBlock (mmbitMaxlevel totalBits) (l, k) → BlockReached bits l k →
      blockVal out (l, k) = blockVal bits (l, k)) :
    (MmbitValid totalBits out ↔ MmbitValid totalBits bits) := by
  have hiff := pathSet_iff_of_reached hblocks
  unfold MmbitValid
  rw [if_neg (show ¬ totalBits ≤ mmbFlatMaxBits by omega), if_neg (show ¬ totalBits ≤ mmbFlatMaxBits by omega)]
  exact forall_congr' fun l => forall_congr' fun n => imp_congr_right fun hl =>
    imp_congr_right fun hn => imp_congr_left (hiff l n hl hn)

/-- The round trip from a compression that succeeded: a flat multibit comes
back bit for bit, a tree multibit block for block over the blocks its keys
reach; in both, the keys and the validity are those of the original. -/
theorem mmbitDecompress_of_compress (hmax : totalBits ≤ mmbMaxBits)
    {bits0 comp comp' : Mem} {maxCompSpace maxCompSpace' compSize : Nat}
    (hc : mmbitCompress bits totalBits comp maxCompSpace = some (comp', compSize))
    (hroom : compSize ≤ maxCompSpace') :
    ∃ out, mmbitDecompress bits0 totalBits comp' maxCompSpace' = some (out, compSize) ∧
      mmbitKeys totalBits out = mmbitKeys totalBits bits ∧
      (MmbitValid totalBits out ↔ MmbitValid totalBits bits) := by
  by_cases hflat : totalBits ≤ mmbFlatMaxBits
  · obtain ⟨out, hrun, -, hsame⟩ := @mmbitDecompress_mmbitCompress_flat bits totalBits hflat bits0 comp comp'
      maxCompSpace maxCompSpace' compSize hc
    exact ⟨out, hrun, mmbitKeys_eq_of_flat hflat hsame, mmbitValid_iff_of_flat hflat hsame⟩
  · have htree : mmbFlatMaxBits < totalBits := by omega
    obtain ⟨out, hrun, hblocks⟩ := @mmbitDecompress_mmbitCompress_tree bits totalBits htree bits0 comp comp'
      maxCompSpace maxCompSpace' compSize hc hroom
    exact ⟨out, hrun, mmbitKeys_eq_of_reached hmax htree hblocks, mmbitValid_iff_of_reached htree hblocks⟩

/-- Decompressing what `mmbit_compress` wrote, over any prior contents and
from a buffer with room for it, gives a multibit with the same keys and the
same validity, and reports the size the compression reported. -/
theorem mmbitDecompress_mmbitCompress (hmax : totalBits ≤ mmbMaxBits)
    {bits0 comp comp' : Mem} {maxCompSpace maxCompSpace' compSize : Nat}
    (hc : mmbitCompress bits totalBits comp maxCompSpace = some (comp', compSize))
    (hroom : compSize ≤ maxCompSpace') :
    ∃ out, mmbitDecompress bits0 totalBits comp' maxCompSpace' = some (out, compSize) ∧
      mmbitKeys totalBits out = mmbitKeys totalBits bits ∧
      (MmbitValid totalBits out ↔ MmbitValid totalBits bits) :=
  mmbitDecompress_of_compress hmax hc hroom

/-- The multibit of 300 keys holding key 299. -/
def mmbitKey299 : Mem := (mmbitSet (fun _ => false) 300 299).1

/-- Its root and one leaf block go through a buffer of 16 bytes and come back
over a multibit of all ones. -/
theorem mmbitDecompress_mmbitCompress_key299 :
    ∃ comp' compSize out, mmbitCompress mmbitKey299 300 (fun _ => false) 16 = some (comp', compSize) ∧
      compSize = 16 ∧ mmbitDecompress (fun _ => true) 300 comp' 16 = some (out, compSize) ∧
      mmbitKeys 300 out = mmbitKeys 300 mmbitKey299 ∧
      (MmbitValid 300 out ↔ MmbitValid 300 mmbitKey299) := by
  obtain ⟨⟨comp', compSize⟩, hc⟩ : ∃ r, mmbitCompress mmbitKey299 300 (fun _ => false) 16 = some r :=
    Option.isSome_iff_exists.mp (by decide +kernel)
  have hsize : compSize = 16 := by
    have hmap := congrArg (Option.map Prod.snd) hc
    rw [show (mmbitCompress mmbitKey299 300 (fun _ => false) 16).map Prod.snd = some 16 by
      decide +kernel] at hmap
    exact (Option.some.inj hmap).symm
  obtain ⟨out, hrun, hkeys, hvalid⟩ := @mmbitDecompress_mmbitCompress mmbitKey299 300 (by decide)
    (fun _ => true) (fun _ => false) comp' 16 16 compSize hc (by omega)
  exact ⟨comp', compSize, out, hc, hsize, hrun, hkeys, hvalid⟩

/-- **The round trip through `mmbit_compsize` bytes.**  `mmbit_compsize` gives
a size `n`; a compression into any buffer of at least `n` bytes succeeds,
reports `n` and writes no byte after the first `n`; decompressing them over
any prior contents, from a buffer of at least `n` bytes, succeeds, consumes
`n` bytes and gives a multibit with the same keys. -/
theorem mmbitCompress_roundTrip (hmax : totalBits ≤ mmbMaxBits) :
    ∃ n, mmbitCompsize bits totalBits = some n ∧
      ∀ comp maxCompSpace, n ≤ maxCompSpace →
        ∃ comp', mmbitCompress bits totalBits comp maxCompSpace = some (comp', n) ∧
          (∀ i, 8 * n ≤ i → comp' i = comp i) ∧
          ∀ bits0 maxCompSpace', n ≤ maxCompSpace' →
            ∃ out, mmbitDecompress bits0 totalBits comp' maxCompSpace' = some (out, n) ∧
              mmbitKeys totalBits out = mmbitKeys totalBits bits := by
  obtain ⟨n, hs⟩ := @mmbitCompsize_exists bits totalBits
  refine ⟨n, hs, fun comp maxCompSpace hroom => ?_⟩
  obtain ⟨comp', hc, habove⟩ := @mmbitCompress_of_compsize bits totalBits comp maxCompSpace n hs hroom
  refine ⟨comp', hc, habove, fun bits0 maxCompSpace' hroom' => ?_⟩
  obtain ⟨out, hrun, hkeys, -⟩ := @mmbitDecompress_of_compress bits totalBits hmax bits0 comp comp' maxCompSpace
    maxCompSpace' n hc hroom'
  exact ⟨out, hrun, hkeys⟩

/-- The multibit of 300 keys holding key 299 goes through a buffer of its own
size and comes back over a multibit of all ones. -/
theorem mmbitCompress_roundTrip_key299 :
    ∃ n, mmbitCompsize mmbitKey299 300 = some n ∧
      ∃ comp', mmbitCompress mmbitKey299 300 (fun _ => false) n = some (comp', n) ∧
        ∃ out, mmbitDecompress (fun _ => true) 300 comp' n = some (out, n) ∧
          mmbitKeys 300 out = mmbitKeys 300 mmbitKey299 := by
  obtain ⟨n, hs, hrt⟩ := @mmbitCompress_roundTrip mmbitKey299 300 (by decide)
  obtain ⟨comp', hc, -, hdec⟩ := hrt (fun _ => false) n le_rfl
  exact ⟨n, hs, comp', hc, hdec (fun _ => true) n le_rfl⟩

end Whole

end Multibit
end Vectorscan
