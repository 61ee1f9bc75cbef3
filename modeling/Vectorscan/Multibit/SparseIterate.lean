import Vectorscan.Multibit.SparseExec
import Vectorscan.Multibit.SparseBuild

/-!
# Multibit: iterating with a sparse iterator

`mmbit_sparse_iter_begin` and `mmbit_sparse_iter_next` of `src/util/multibit.h`
enumerate the keys that a sparse iterator holds and the multibit has on, in
increasing order, each with its rank; the engines run them as

    for (i = mmbit_sparse_iter_begin(bits, n, &idx, it, s); i != MMB_INVALID;
         i = mmbit_sparse_iter_next(bits, n, i, &idx, it, s)) { ... }

A flat multibit of at most 64 keys keeps everything in the root record's mask
(`s[0]` holds the keys still to come); a flat multibit of up to 256 keys walks
the root record's bits as blocks (`s[0]` the blocks from the current one on,
`s[1]` the keys left in it); a tree multibit runs `mmbit_sparse_iter_exec`
(`Multibit/SparseExec.lean`).

**Model.**  The loops of the flat specialisations over the root bits are
recursions on the root mask, which every pass shrinks.  The block that both
loops load is `mmbitSparseIterFlatBlock`.  `mmbitSparseIterRun` is the
caller's loop above, with the fuel of `total_bits` keys.

**Results.**  Each of `mmbitSparseIterBegin_spec` and `mmbitSparseIterNext_spec`
returns the first *target* (a key of the iterator that is in the multibit,
`sparseIterTarget`) from where it searches, with its rank
(`sparseIterIdx`), and the state to resume from after it
(`SparseIterResume`).  `mmbitSparseIterRun_eq`: the loop yields every target
in increasing order with its rank.  `sparseIter_build_enumerates`: over an
iterator that `mmbBuildSparseIterator` built from a sorted key list, the loop
yields the keys of the list that are on, each with its position in the list,
and `mmbit_sparse_iter_unset` switches exactly those keys off.
-/

namespace Vectorscan
namespace Multibit

open Word
open SparseUnsetState

/-! ## The flat specialisations -/

/-- Clearing the lowest bit of a word leaves a smaller one. -/
theorem and_sub_one_lt {x : Nat} (h : ¬ x &&& (x - 1) = 0) : x &&& (x - 1) < x := by
  have hle : x &&& (x - 1) ≤ x - 1 := Nat.and_le_right
  have hx : x ≠ 0 := by
    rintro rfl
    exact h rfl
  omega

/-- Block `bit` of a flat multibit of more than 64 keys, masked with the
iterator record of that block, and the record's index: the body that the loops
of `mmbit_sparse_iter_begin_flat` and `mmbit_sparse_iter_next_flat` share. -/
def mmbitSparseIterFlatBlock (bits : Mem) (totalBits : Nat) (itRoot : List MmbitSparseIter) (bit : Nat) :
    Nat × Nat :=
  let bitIdx := mmbitMaskIndex bit (mmbitSparseIterAt itRoot 0).mask
  let iterKey := (mmbitSparseIterAt itRoot 0).val + bitIdx
  let it := mmbitSparseIterAt itRoot iterKey
  let blockKeyMin := bit * mmbKeyBits
  let blockKeyMax := blockKeyMin + mmbKeyBits
  let block :=
    if blockKeyMax > totalBits then mmbitGetFlatBlock bits (bit * 8) (totalBits - blockKeyMin)
    else mmbLoad bits (bit * 8)
  (block &&& it.mask, iterKey)

/-- The loop of `mmbit_sparse_iter_begin_flat` over the root bits still in
`root`: the first block with a key of the iterator on gives the key. -/
def mmbitSparseIterBeginFlatLoop (bits : Mem) (totalBits idx : Nat) (itRoot : List MmbitSparseIter)
    (s : Nat → MmbitSparseState) (root : Nat) : Nat × Nat × (Nat → MmbitSparseState) :=
  if root = 0 then (mmbInvalid, idx, s)
  else
    let bit := mmbCtz root
    let blk := mmbitSparseIterFlatBlock bits totalBits itRoot bit
    if blk.1 ≠ 0 then
      let s := Function.update (Function.update s 0 ⟨root, (s 0).itkey⟩) 1 ⟨blk.1, blk.2⟩
      let key := mmbCtz blk.1
      let it := mmbitSparseIterAt itRoot blk.2
      (key + bit * mmbKeyBits, it.val + mmbitMaskIndex key it.mask, s)
    else mmbitSparseIterBeginFlatLoop bits totalBits idx itRoot s (root &&& (root - 1))
termination_by root
decreasing_by
  have : root &&& (root - 1) ≤ root - 1 := Nat.and_le_right
  omega

/-- `mmbit_sparse_iter_begin_flat`. -/
def mmbitSparseIterBeginFlat (bits : Mem) (totalBits idx : Nat) (itRoot : List MmbitSparseIter)
    (s : Nat → MmbitSparseState) : Nat × Nat × (Nat → MmbitSparseState) :=
  if totalBits ≤ mmbKeyBits then
    -- small cases have everything in the root iterator mask
    let block := mmbitGetFlatBlock bits 0 totalBits &&& (mmbitSparseIterAt itRoot 0).mask
    if block = 0 then (mmbInvalid, idx, s)
    else
      let s := Function.update s 0 ⟨block, (s 0).itkey⟩
      let key := mmbCtz block
      (key, mmbitMaskIndex key (mmbitSparseIterAt itRoot 0).mask, s)
  else mmbitSparseIterBeginFlatLoop bits totalBits idx itRoot s (mmbitSparseIterAt itRoot 0).mask

/-- The `for (;;)` loop of `mmbit_sparse_iter_next_flat`: `s[1]` holds the keys
left in block `bit`, `s[0]` the root bits from `bit` on. -/
def mmbitSparseIterNextFlatLoop (bits : Mem) (totalBits idx : Nat) (itRoot : List MmbitSparseIter)
    (s : Nat → MmbitSparseState) (bit : Nat) : Nat × Nat × (Nat → MmbitSparseState) :=
  if (s 1).mask ≠ 0 then
    let key := mmbCtz (s 1).mask
    let it := mmbitSparseIterAt itRoot (s 1).itkey
    (key + bit * mmbKeyBits, it.val + mmbitMaskIndex key it.mask, s)
  else
    -- no keys left in this block: consult the root mask and find the next one
    let s := Function.update s 0 ⟨(s 0).mask &&& ((s 0).mask - 1), (s 0).itkey⟩
    if (s 0).mask = 0 then (mmbInvalid, idx, s)
    else
      let bit := mmbCtz (s 0).mask
      let blk := mmbitSparseIterFlatBlock bits totalBits itRoot bit
      mmbitSparseIterNextFlatLoop bits totalBits idx itRoot (Function.update s 1 ⟨blk.1, blk.2⟩) bit
termination_by (s 0).mask
decreasing_by
  rename_i h
  simp only [s, Function.update_of_ne (show (0 : Nat) ≠ 1 by decide), Function.update_self] at h ⊢
  exact and_sub_one_lt h

/-- `mmbit_sparse_iter_next_flat`. -/
def mmbitSparseIterNextFlat (bits : Mem) (totalBits idx : Nat) (itRoot : List MmbitSparseIter)
    (s : Nat → MmbitSparseState) : Nat × Nat × (Nat → MmbitSparseState) :=
  if totalBits ≤ mmbKeyBits then
    -- all of our data is already in the s->mask, so we just need to scrape off the next match
    let s := Function.update s 0 ⟨(s 0).mask &&& ((s 0).mask - 1), (s 0).itkey⟩
    if (s 0).mask ≠ 0 then
      let key := mmbCtz (s 0).mask
      (key, mmbitMaskIndex key (mmbitSparseIterAt itRoot 0).mask, s)
    else (mmbInvalid, idx, s)
  else
    -- remove the previous key from the iterator state
    let s := Function.update s 1 ⟨(s 1).mask &&& ((s 1).mask - 1), (s 1).itkey⟩
    mmbitSparseIterNextFlatLoop bits totalBits idx itRoot s (mmbCtz (s 0).mask)

/-- `mmbit_sparse_iter_begin`: the first key, `*idx` and the state array. -/
def mmbitSparseIterBegin (bits : Mem) (totalBits idx : Nat) (itRoot : List MmbitSparseIter)
    (s : Nat → MmbitSparseState) : Nat × Nat × (Nat → MmbitSparseState) :=
  if mmbitIsFlatModel totalBits then mmbitSparseIterBeginFlat bits totalBits idx itRoot s
  else mmbitSparseIterBeginBig bits totalBits idx itRoot s

/-- `mmbit_sparse_iter_next`: the key after `last_key`, `*idx` and the state array. -/
def mmbitSparseIterNext (bits : Mem) (totalBits lastKey idx : Nat) (itRoot : List MmbitSparseIter)
    (s : Nat → MmbitSparseState) : Nat × Nat × (Nat → MmbitSparseState) :=
  if mmbitIsFlatModel totalBits then mmbitSparseIterNextFlat bits totalBits idx itRoot s
  else mmbitSparseIterNextBig bits totalBits lastKey idx itRoot s

/-- The caller's loop from a key and `idx` on: each key with its `idx`, at most
`fuel` of them. -/
def mmbitSparseIterRunFrom (bits : Mem) (totalBits : Nat) (itRoot : List MmbitSparseIter) :
    Nat → Nat × Nat × (Nat → MmbitSparseState) → List (Nat × Nat)
  | 0, _ => []
  | fuel + 1, (i, idx, s) =>
    if i = mmbInvalid then []
    else (i, idx) :: mmbitSparseIterRunFrom bits totalBits itRoot fuel
      (mmbitSparseIterNext bits totalBits i idx itRoot s)

/-- The caller's loop `for (i = mmbit_sparse_iter_begin(...); i != MMB_INVALID;
i = mmbit_sparse_iter_next(..., i, ...))`: at most `total_bits` keys. -/
def mmbitSparseIterRun (bits : Mem) (totalBits : Nat) (itRoot : List MmbitSparseIter)
    (s : Nat → MmbitSparseState) : List (Nat × Nat) :=
  mmbitSparseIterRunFrom bits totalBits itRoot totalBits (mmbitSparseIterBegin bits totalBits 0 itRoot s)

/-! ## What the iteration visits -/

/-- The keys the iteration visits: the iterator's keys that are in the multibit. -/
def sparseIterTarget (itRoot : List MmbitSparseIter) (totalBits : Nat) (bits : Mem) (k : Nat) : Bool :=
  sparseIterNode itRoot (mmbitMaxlevel totalBits) k && decide (MmbitMember totalBits bits k)

/-- The index reported with key `k`: its rank in the root record for at most
64 keys, the rank through the records above. -/
def sparseIterIdx (itRoot : List MmbitSparseIter) (totalBits k : Nat) : Nat :=
  if totalBits ≤ mmbKeyBits then mmbitMaskIndex k (mmbitSparseIterAt itRoot 0).mask
  else sparseIterRank itRoot (mmbitMaxlevel totalBits) k

/-- The state after key `k` of at most 64 keys: `s[0]` holds the targets from
`k` on. -/
def SparseRootResume (itRoot : List MmbitSparseIter) (totalBits : Nat) (bits : Mem) (k : Nat)
    (s : Nat → MmbitSparseState) : Prop :=
  (s 0).mask < 2 ^ 64 ∧ sparseIterTarget itRoot totalBits bits k = true ∧
    ∀ j, (s 0).mask.testBit j = (sparseIterTarget itRoot totalBits bits j && decide (k ≤ j))

/-- The state of the walk of a flat multibit of more than 64 keys over block
`bit`, searching from `lo`: `s[0]` holds the root bits from `bit` on, `s[1]` the
targets of the block from `lo` on and the block's record, and no target lies
between `lo` and the block. -/
structure SparseFlatWalk (itRoot : List MmbitSparseIter) (totalBits : Nat) (bits : Mem) (lo bit : Nat)
    (s : Nat → MmbitSparseState) : Prop where
  root_lt : (s 0).mask < 2 ^ 64
  root_bits : ∀ j, (s 0).mask.testBit j = ((mmbitSparseIterAt itRoot 0).mask.testBit j && decide (bit ≤ j))
  root_set : (mmbitSparseIterAt itRoot 0).mask.testBit bit = true
  block_lt : (s 1).mask < 2 ^ 64
  block_bits : ∀ j, j < 64 →
    (s 1).mask.testBit j = (sparseIterTarget itRoot totalBits bits (64 * bit + j) && decide (lo ≤ 64 * bit + j))
  itkey : (s 1).itkey = mmbitSparseIterChild itRoot 0 bit
  lo_le : lo ≤ 64 * bit + 64
  none_before : firstIn (sparseIterTarget itRoot totalBits bits) lo (64 * bit) = none

/-- The state after key `k` of a flat multibit of more than 64 keys: the walk
over the key's block from the key on. -/
def SparseFlatResume (itRoot : List MmbitSparseIter) (totalBits : Nat) (bits : Mem) (k : Nat)
    (s : Nat → MmbitSparseState) : Prop :=
  SparseFlatWalk itRoot totalBits bits k (k / 64) s ∧ sparseIterTarget itRoot totalBits bits k = true

/-- The state from which `mmbit_sparse_iter_next` resumes after key `k`. -/
def SparseIterResume (itRoot : List MmbitSparseIter) (totalBits : Nat) (bits : Mem) (k : Nat)
    (s : Nat → MmbitSparseState) : Prop :=
  if totalBits ≤ mmbKeyBits then SparseRootResume itRoot totalBits bits k s
  else if totalBits ≤ mmbFlatMaxBits then SparseFlatResume itRoot totalBits bits k s
  else SparseResume itRoot (mmbitMaxlevel totalBits) bits k s

/-! ## Masks of targets -/

section Masks

variable {p : Nat → Bool} {m base lo : Nat}

/-- The lowest set bit of a word is the one with no set bit below it. -/
theorem mmbCtz_eq_of {k : Nat} (hm : m < 2 ^ 64) (hk : m.testBit k = true)
    (hbelow : ∀ j, j < k → m.testBit j = false) : mmbCtz m = k := by
  have hne : m ≠ 0 := by
    intro h0
    rw [h0, Nat.zero_testBit] at hk
    cases hk
  obtain ⟨-, hset, hmin⟩ := mmbCtz_spec hne hm
  rcases Nat.lt_trichotomy (mmbCtz m) k with h | h | h
  · rw [hbelow _ h] at hset
    cases hset
  · exact h
  · rw [hmin _ h] at hk
    cases hk

variable (hm : m < 2 ^ 64) (hbits : ∀ j, j < 64 → m.testBit j = (p (base + j) && decide (lo ≤ base + j)))
include hm hbits

/-- **A block of targets.**  A word whose bit `j` says that `base + j` is a hit
from `lo` on finds the first hit of the block: its lowest bit, or none. -/
theorem firstIn_mask :
    firstIn p (max lo base) (base + 64) = if m = 0 then none else some (base + mmbCtz m) := by
  split
  · rename_i h0
    refine firstIn_eq_none_iff.2 fun i hi hib => ?_
    have := hbits (i - base) (by omega)
    rw [h0, Nat.zero_testBit, show base + (i - base) = i by omega, decide_eq_true (by omega),
      Bool.and_true] at this
    exact this.symm
  · rename_i h0
    obtain ⟨hc, hset, hmin⟩ := mmbCtz_spec h0 hm
    rw [hbits _ hc, Bool.and_eq_true, decide_eq_true_iff] at hset
    refine firstIn_eq_some_iff.2 ⟨by omega, by omega, hset.1, fun i hi hic => ?_⟩
    have := hbits (i - base) (by omega)
    rw [hmin _ (by omega), show base + (i - base) = i by omega, decide_eq_true (by omega),
      Bool.and_true] at this
    exact this.symm

/-- Dropping the lowest bit of a block of targets leaves the targets after it. -/
theorem testBit_mask_drop (hne : m ≠ 0) (j : Nat) (hj : j < 64) :
    (m &&& (m - 1)).testBit j = (p (base + j) && decide (base + mmbCtz m + 1 ≤ base + j)) := by
  obtain ⟨hc, hset, hmin⟩ := mmbCtz_spec hne hm
  rw [hbits _ hc, Bool.and_eq_true, decide_eq_true_iff] at hset
  rw [testBit_and_sub_one (by rwa [Nat.mod_eq_of_lt hm]), show lowestBit 64 m = mmbCtz m from rfl]
  rcases Nat.lt_trichotomy j (mmbCtz m) with h | rfl | h
  · rw [hmin _ h, Bool.false_and]
    simp only [decide_eq_false (show ¬ base + mmbCtz m + 1 ≤ base + j by omega), Bool.and_false]
  · simp
  · rw [hbits _ hj]
    simp only [ne_eq, decide_eq_true (show j ≠ mmbCtz m by omega), Bool.and_true,
      decide_eq_true (show lo ≤ base + j by omega), decide_eq_true (show base + mmbCtz m + 1 ≤ base + j by omega)]

end Masks

/-! ## Targets -/

section Targets

variable {itRoot : List MmbitSparseIter} {totalBits : Nat} {bits : Mem}

theorem sparseIterTarget_lt {k : Nat} (h : sparseIterTarget itRoot totalBits bits k = true) : k < totalBits := by
  unfold sparseIterTarget at h
  rw [Bool.and_eq_true, decide_eq_true_iff] at h
  exact h.2.lt

/-- A search for targets may as well go on to `64` past `total_bits`. -/
theorem firstIn_target_extend {lo hi : Nat} (hhi : totalBits ≤ hi) :
    firstIn (sparseIterTarget itRoot totalBits bits) lo hi =
      firstIn (sparseIterTarget itRoot totalBits bits) lo totalBits :=
  firstIn_extend hhi fun k hk _ => by
    cases h : sparseIterTarget itRoot totalBits bits k with
    | false => rfl
    | true => exact absurd (sparseIterTarget_lt h) (Nat.not_lt_of_le hk)

/-- The first target of a search is at or before every target of it. -/
theorem target_and_le {lo k : Nat} (h : firstIn (sparseIterTarget itRoot totalBits bits) lo totalBits = some k)
    {j : Nat} (hj : lo ≤ j) :
    (sparseIterTarget itRoot totalBits bits j && decide (k ≤ j)) = sparseIterTarget itRoot totalBits bits j := by
  cases ht : sparseIterTarget itRoot totalBits bits j with
  | false => rfl
  | true =>
    have hle := firstIn_getD_le hj (sparseIterTarget_lt ht) ht
    rw [h, Option.getD_some] at hle
    simp [hle]

end Targets

theorem lt_64_of_testBit {x j : Nat} (hx : x < 2 ^ 64) (h : x.testBit j = true) : j < 64 := by
  by_contra hj
  rw [testBit_eq_false_of_lt hx (Nat.le_of_not_lt hj)] at h
  cases h

/-! ## At most 64 keys -/

section Small

variable {bits : Mem} {totalBits : Nat} {itRoot : List MmbitSparseIter} {s : Nat → MmbitSparseState}
  (hsmall : totalBits ≤ mmbKeyBits) (hvalid : MmbitSparseIterValid itRoot totalBits)
include hsmall hvalid

/-- With at most 64 keys, the root record masks the flat block down to the targets. -/
theorem testBit_rootBlock (j : Nat) :
    (mmbitGetFlatBlock bits 0 totalBits &&& (mmbitSparseIterAt itRoot 0).mask).testBit j =
      sparseIterTarget itRoot totalBits bits j := by
  have hM : mmbitMaxlevel totalBits = 0 := mmbitMaxlevel_of_le_64 hsmall
  have hflat : totalBits ≤ mmbFlatMaxBits := by unfold mmbKeyBits at hsmall; unfold mmbFlatMaxBits; omega
  unfold sparseIterTarget mmbitGetFlatBlock
  rw [hM, sparseIterNode_zero, Nat.testBit_and, Mem.testBit_load]
  simp only [mmbitMember_flat_iff hflat, Nat.mul_zero, Nat.zero_add]
  by_cases hj : (mmbitSparseIterAt itRoot 0).mask.testBit j = true
  · -- a key of the iterator is below `total_bits`
    have hj64 := lt_64_of_testBit (mmbitSparseIterAt_mask_lt itRoot 0) hj
    have hlt : j < totalBits := by
      have := hvalid 0 j (Nat.zero_le _) (by simpa using hj64)
        (by rw [sparseIterNode_zero, Nat.mod_eq_of_lt hj64]; exact hj)
      simpa [hM, mmbitGetKs] using this
    have hw : j < 8 * (roundupN totalBits 8 / 8) := by unfold roundupN; omega
    simp [hj, Nat.mod_eq_of_lt hj64, hw, hlt]
  · rcases Nat.lt_or_ge j 64 with hj64 | hj64
    · simp [hj, Nat.mod_eq_of_lt hj64]
    · unfold mmbKeyBits at hsmall
      simp [hj, show ¬ j < totalBits by omega]

/-- **`mmbit_sparse_iter_begin_flat`, at most 64 keys.** -/
theorem mmbitSparseIterBeginFlat_small (idx : Nat) :
    SparseIterPost (sparseIterTarget itRoot totalBits bits) totalBits (sparseIterIdx itRoot totalBits)
      (SparseRootResume itRoot totalBits bits) 0 (mmbitSparseIterBeginFlat bits totalBits idx itRoot s) := by
  have hblock : ∀ j, (mmbitGetFlatBlock bits 0 totalBits &&& (mmbitSparseIterAt itRoot 0).mask).testBit j =
      sparseIterTarget itRoot totalBits bits j :=
    testBit_rootBlock hsmall hvalid
  have hlt : mmbitGetFlatBlock bits 0 totalBits &&& (mmbitSparseIterAt itRoot 0).mask < 2 ^ 64 :=
    lt_of_le_of_lt Nat.and_le_right (mmbitSparseIterAt_mask_lt itRoot 0)
  have hscan := @firstIn_mask (sparseIterTarget itRoot totalBits bits) _ 0 0 hlt
    (fun j _ => by rw [hblock]; simp)
  rw [Nat.max_self, Nat.zero_add, firstIn_target_extend (by unfold mmbKeyBits at hsmall; omega)] at hscan
  unfold mmbitSparseIterBeginFlat
  rw [if_pos hsmall]
  dsimp only
  split
  · rename_i h0
    rw [if_pos h0] at hscan
    exact Or.inl ⟨hscan, rfl⟩
  · rename_i h0
    rw [if_neg h0, Nat.zero_add] at hscan
    obtain ⟨-, -, hk, -⟩ := firstIn_eq_some_iff.1 hscan
    refine Or.inr ⟨hscan, by simp [sparseIterIdx, hsmall], hlt, hk, fun j => ?_⟩
    simp only [Function.update_self]
    rw [hblock, target_and_le hscan (Nat.zero_le j)]

omit hvalid in
/-- **`mmbit_sparse_iter_next_flat`, at most 64 keys.** -/
theorem mmbitSparseIterNextFlat_small {k : Nat} (hres : SparseRootResume itRoot totalBits bits k s) (idx : Nat) :
    SparseIterPost (sparseIterTarget itRoot totalBits bits) totalBits (sparseIterIdx itRoot totalBits)
      (SparseRootResume itRoot totalBits bits) (k + 1) (mmbitSparseIterNextFlat bits totalBits idx itRoot s) := by
  obtain ⟨hlt, hk, hbits⟩ := hres
  have h64 : totalBits ≤ 64 := hsmall
  -- the lowest bit of the state mask is the last key
  have hctz : mmbCtz (s 0).mask = k :=
    mmbCtz_eq_of hlt (by rw [hbits, hk]; simp) fun j hj => by rw [hbits]; simp [show ¬ k ≤ j by omega]
  have hne : (s 0).mask ≠ 0 := by
    intro h0
    have := hbits k
    rw [h0, Nat.zero_testBit, hk] at this
    simp at this
  have hdrop := @testBit_mask_drop (sparseIterTarget itRoot totalBits bits) _ 0 k hlt
    (fun j _ => by rw [hbits]; simp) hne
  have hlt' : (s 0).mask &&& ((s 0).mask - 1) < 2 ^ 64 := lt_of_le_of_lt Nat.and_le_left hlt
  -- the targets after the last key, bit by bit
  have hbits' : ∀ j, ((s 0).mask &&& ((s 0).mask - 1)).testBit j =
      (sparseIterTarget itRoot totalBits bits j && decide (k + 1 ≤ j)) := by
    intro j
    rcases Nat.lt_or_ge j 64 with hj | hj
    · rw [hdrop j hj, hctz]
      simp
    · have ht : sparseIterTarget itRoot totalBits bits j = false := by
        cases h : sparseIterTarget itRoot totalBits bits j with
        | false => rfl
        | true => exact absurd (sparseIterTarget_lt h) (by omega)
      rw [testBit_eq_false_of_lt hlt' hj, ht, Bool.false_and]
  have hscan := @firstIn_mask (sparseIterTarget itRoot totalBits bits) _ 0 (k + 1) hlt'
    (fun j _ => by rw [hbits']; simp)
  rw [Nat.max_eq_left (Nat.zero_le _), Nat.zero_add, firstIn_target_extend (by omega)] at hscan
  unfold mmbitSparseIterNextFlat
  rw [if_pos hsmall]
  dsimp only
  simp only [Function.update_self]
  split
  · rename_i h0
    rw [if_neg h0, Nat.zero_add] at hscan
    obtain ⟨-, -, hk', -⟩ := firstIn_eq_some_iff.1 hscan
    refine Or.inr ⟨hscan, by simp [sparseIterIdx, hsmall], hlt', hk', fun j => ?_⟩
    simp only [Function.update_self]
    rw [hbits']
    by_cases hkj : k + 1 ≤ j
    · rw [decide_eq_true hkj, Bool.and_true, target_and_le hscan hkj]
    · have := (firstIn_eq_some_iff.1 hscan).1
      rw [decide_eq_false hkj, decide_eq_false (by omega), Bool.and_false]
  · rename_i h0
    rw [if_pos (by simpa using h0)] at hscan
    exact Or.inl ⟨hscan, rfl⟩

end Small

/-! ## Flat multibits of more than 64 keys -/

section Flat

variable {bits : Mem} {totalBits : Nat} {itRoot : List MmbitSparseIter}
  (hbig : mmbKeyBits < totalBits) (hflat : totalBits ≤ mmbFlatMaxBits)
include hbig hflat

/-- A target of a flat multibit of more than 64 keys: a root bit for its block,
a bit of the block's record, and a key that is on. -/
theorem target_eq_block {k : Nat} (hk : k < 64 * 64) :
    sparseIterTarget itRoot totalBits bits k =
      ((mmbitSparseIterAt itRoot 0).mask.testBit (k / 64) &&
        (mmbitSparseIterAt itRoot (mmbitSparseIterChild itRoot 0 (k / 64))).mask.testBit (k % 64) &&
        decide (k < totalBits) && bits k) := by
  unfold sparseIterTarget mmbitSparseIterChild
  rw [mmbitMaxlevel_flat hbig hflat, sparseIterNode_one hk, mmbitMaskIndex_eq _ (by omega)]
  simp only [mmbitMember_flat_iff hflat, Bool.decide_and, Bool.decide_eq_true, Bool.and_assoc]

/-- A target's block has its root bit. -/
theorem root_of_target {k : Nat} (h : sparseIterTarget itRoot totalBits bits k = true) :
    (mmbitSparseIterAt itRoot 0).mask.testBit (k / 64) = true := by
  have hk := sparseIterTarget_lt h
  unfold mmbFlatMaxBits at hflat
  rw [target_eq_block hbig (by exact hflat) (by omega)] at h
  simp only [Bool.and_eq_true] at h
  exact h.1.1.1

variable (hvalid : MmbitSparseIterValid itRoot totalBits)
include hvalid

/-- A root bit of the iterator is a block that starts below `total_bits`. -/
theorem rootBit_lt {b : Nat} (hb : (mmbitSparseIterAt itRoot 0).mask.testBit b = true) :
    b < 64 ∧ 64 * b < totalBits := by
  have hb64 := lt_64_of_testBit (mmbitSparseIterAt_mask_lt itRoot 0) hb
  refine ⟨hb64, ?_⟩
  have := hvalid 0 b (Nat.zero_le _) (by simpa using hb64)
    (by rw [sparseIterNode_zero, Nat.mod_eq_of_lt hb64]; exact hb)
  simpa [mmbitMaxlevel_flat hbig hflat, mmbitGetKs, mmbKeyShift, Nat.shiftLeft_eq, Nat.mul_comm] using this

/-- **The block of a root bit.**  `mmbitSparseIterFlatBlock` masks block `b`
down to its targets, and hands on the record of the block. -/
theorem testBit_sparseIterFlatBlock {b : Nat} (hb : (mmbitSparseIterAt itRoot 0).mask.testBit b = true)
    {j : Nat} (hj : j < 64) :
    (mmbitSparseIterFlatBlock bits totalBits itRoot b).1.testBit j =
      sparseIterTarget itRoot totalBits bits (64 * b + j) := by
  obtain ⟨hb64, -⟩ := rootBit_lt hbig hflat hvalid hb
  have hM := mmbitMaxlevel_flat hbig hflat
  rw [target_eq_block hbig hflat (by omega), show (64 * b + j) / 64 = b by omega,
    show (64 * b + j) % 64 = j by omega, hb, Bool.true_and]
  unfold mmbitSparseIterFlatBlock
  dsimp only
  rw [Nat.testBit_and, show (mmbitSparseIterAt itRoot 0).val + mmbitMaskIndex b (mmbitSparseIterAt itRoot 0).mask =
    mmbitSparseIterChild itRoot 0 b from rfl]
  cases hrec : (mmbitSparseIterAt itRoot (mmbitSparseIterChild itRoot 0 b)).mask.testBit j with
  | false => simp
  | true =>
    -- a key of the block's record is below `total_bits`
    have hk : 64 * b + j < totalBits := by
      have hnode : sparseIterNode itRoot 1 (64 * b + j) = true := by
        rw [sparseIterNode_one (by omega), show (64 * b + j) / 64 = b by omega,
          show (64 * b + j) % 64 = j by omega, hb, Bool.true_and, ← mmbitMaskIndex_eq _ (by omega)]
        exact hrec
      have := hvalid 1 (64 * b + j) (by rw [hM]) (by norm_num; omega) hnode
      simpa [hM, mmbitGetKs] using this
    simp only [Bool.and_true, decide_eq_true hk, Bool.true_and]
    split
    · unfold mmbitGetFlatBlock
      rw [Mem.testBit_load]
      have hw : j < 8 * (roundupN (totalBits - b * mmbKeyBits) 8 / 8) := by
        unfold roundupN mmbKeyBits; omega
      simp [hw, show 8 * (b * 8) + j = 64 * b + j by omega]
    · rw [testBit_mmbLoad]
      simp [hj, show 8 * (b * 8) + j = 64 * b + j by omega]

namespace SparseFlatWalk

variable {lo bit : Nat} {s : Nat → MmbitSparseState}

omit hbig hflat hvalid in
/-- The walk's root mask starts at its block. -/
theorem ctz_root (hw : SparseFlatWalk itRoot totalBits bits lo bit s) : mmbCtz (s 0).mask = bit :=
  mmbCtz_eq_of hw.root_lt (by rw [hw.root_bits, hw.root_set]; simp) fun j hj => by
    rw [hw.root_bits]
    simp [show ¬ bit ≤ j by omega]

omit hbig hflat hvalid in
/-- Dropping the walk's block from the root mask leaves the root bits after it. -/
theorem testBit_root_drop (hw : SparseFlatWalk itRoot totalBits bits lo bit s) (j : Nat) :
    ((s 0).mask &&& ((s 0).mask - 1)).testBit j =
      ((mmbitSparseIterAt itRoot 0).mask.testBit j && decide (bit + 1 ≤ j)) := by
  have h0 : ¬ (s 0).mask = 0 := fun h => by
    have := hw.root_bits bit
    rw [h, Nat.zero_testBit, hw.root_set] at this
    simp at this
  have := (flatRoot_step h0 hw.root_bits rfl).2.2.2 j
  rwa [hw.ctz_root] at this

omit hbig hflat hvalid in
/-- The first target of the walk's block from `lo` on: the block mask's lowest bit. -/
theorem firstIn_block (hw : SparseFlatWalk itRoot totalBits bits lo bit s) :
    firstIn (sparseIterTarget itRoot totalBits bits) (max lo (64 * bit)) (64 * bit + 64) =
      if (s 1).mask = 0 then none else some (64 * bit + mmbCtz (s 1).mask) :=
  firstIn_mask hw.block_lt hw.block_bits

omit hbig hflat hvalid in
/-- With the block's mask run out, no target lies between `lo` and the next block. -/
theorem firstIn_through (hw : SparseFlatWalk itRoot totalBits bits lo bit s) (hz : (s 1).mask = 0) :
    firstIn (sparseIterTarget itRoot totalBits bits) lo (64 * bit + 64) = none := by
  have hblk := hw.firstIn_block
  rw [if_pos hz] at hblk
  refine firstIn_eq_none_iff.2 fun j hj hjb => ?_
  rcases Nat.lt_or_ge j (64 * bit) with h | h
  · exact firstIn_eq_none_iff.1 hw.none_before j hj h
  · exact firstIn_eq_none_iff.1 hblk j (by omega) hjb

omit hbig hflat hvalid in
/-- The lowest bit of the block's mask is the first target from `lo` on. -/
theorem firstIn_found (hw : SparseFlatWalk itRoot totalBits bits lo bit s) (hne : (s 1).mask ≠ 0) :
    firstIn (sparseIterTarget itRoot totalBits bits) lo totalBits = some (64 * bit + mmbCtz (s 1).mask) := by
  have hblk := hw.firstIn_block
  rw [if_neg hne] at hblk
  obtain ⟨h1, -, ht, hmin⟩ := firstIn_eq_some_iff.1 hblk
  refine firstIn_eq_some_iff.2 ⟨by omega, sparseIterTarget_lt ht, ht, fun j hj hjr => ?_⟩
  rcases Nat.lt_or_ge j (64 * bit) with h | h
  · exact firstIn_eq_none_iff.1 hw.none_before j hj h
  · exact hmin j (by omega) hjr

omit hbig hflat hvalid in
/-- After the target found, the walk goes on over the same state from that target. -/
theorem resume (hw : SparseFlatWalk itRoot totalBits bits lo bit s) (hne : (s 1).mask ≠ 0) :
    SparseFlatResume itRoot totalBits bits (64 * bit + mmbCtz (s 1).mask) s := by
  have hfound := hw.firstIn_found hne
  have ht := (firstIn_eq_some_iff.1 hfound).2.2.1
  obtain ⟨hc, -, -⟩ := mmbCtz_spec hne hw.block_lt
  refine ⟨?_, ht⟩
  rw [show (64 * bit + mmbCtz (s 1).mask) / 64 = bit by omega]
  exact { hw with
    block_bits := fun j hj => by rw [hw.block_bits j hj]; exact and_le_eq_of_firstIn hfound _
    lo_le := by omega
    none_before := firstIn_eq_none_iff.2 fun j hj hj' => by omega }

omit hvalid in
/-- The rank of the target found: its place in the block's record. -/
theorem sparseIterIdx_found (hw : SparseFlatWalk itRoot totalBits bits lo bit s) (hne : (s 1).mask ≠ 0) :
    sparseIterIdx itRoot totalBits (64 * bit + mmbCtz (s 1).mask) =
      (mmbitSparseIterAt itRoot (s 1).itkey).val +
        mmbitMaskIndex (mmbCtz (s 1).mask) (mmbitSparseIterAt itRoot (s 1).itkey).mask := by
  obtain ⟨hc, -, -⟩ := mmbCtz_spec hne hw.block_lt
  have hb64 := lt_64_of_testBit (mmbitSparseIterAt_mask_lt itRoot 0) hw.root_set
  have hb : (64 * bit + mmbCtz (s 1).mask) >>> 6 = bit := by
    rw [Nat.shiftRight_eq_div_pow]
    omega
  unfold sparseIterIdx sparseIterRank
  rw [if_neg (Nat.not_le_of_lt hbig), mmbitMaxlevel_flat hbig hflat, hw.itkey, hb,
    show (64 * bit + mmbCtz (s 1).mask) % 64 = mmbCtz (s 1).mask by omega]
  simp [sparseIterBlockRecord, Nat.mod_eq_of_lt hb64, hw.root_set]

omit hvalid in
/-- A target left in the block's mask is what the loop returns: the first
target from `lo` on, with its rank, and the walk goes on from it. -/
theorem post_found (hw : SparseFlatWalk itRoot totalBits bits lo bit s) (hne : (s 1).mask ≠ 0) :
    SparseIterPost (sparseIterTarget itRoot totalBits bits) totalBits (sparseIterIdx itRoot totalBits)
      (SparseFlatResume itRoot totalBits bits) lo
      (mmbCtz (s 1).mask + bit * mmbKeyBits,
        (mmbitSparseIterAt itRoot (s 1).itkey).val +
          mmbitMaskIndex (mmbCtz (s 1).mask) (mmbitSparseIterAt itRoot (s 1).itkey).mask, s) := by
  have hkey : mmbCtz (s 1).mask + bit * mmbKeyBits = 64 * bit + mmbCtz (s 1).mask := by
    unfold mmbKeyBits
    omega
  refine Or.inr ⟨?_, ?_, ?_⟩ <;> dsimp only <;> rw [hkey]
  · exact hw.firstIn_found hne
  · rw [hw.sparseIterIdx_found hbig hflat hne]
  · exact hw.resume hne

omit hbig hflat hvalid in
/-- Dropping the key found from the block's mask: the walk from the next key. -/
theorem drop {k : Nat} (hw : SparseFlatWalk itRoot totalBits bits k (k / 64) s)
    (hk : sparseIterTarget itRoot totalBits bits k = true) :
    SparseFlatWalk itRoot totalBits bits (k + 1) (k / 64)
      (Function.update s 1 ⟨(s 1).mask &&& ((s 1).mask - 1), (s 1).itkey⟩) := by
  have hkbit : (s 1).mask.testBit (k % 64) = true := by
    rw [hw.block_bits _ (Nat.mod_lt _ (by decide)), show 64 * (k / 64) + k % 64 = k by omega, hk]
    simp
  -- the lowest bit of the block's mask is the key found
  have hctz : mmbCtz (s 1).mask = k % 64 :=
    mmbCtz_eq_of hw.block_lt hkbit fun j hj => by
      rw [hw.block_bits j (by omega)]
      simp [show ¬ k ≤ 64 * (k / 64) + j by omega]
  have hne : (s 1).mask ≠ 0 := by
    rintro h0
    rw [h0, Nat.zero_testBit] at hkbit
    cases hkbit
  have hdrop := testBit_mask_drop hw.block_lt hw.block_bits hne
  have hlo := hw.lo_le
  refine { hw with
    root_lt := ?_, root_bits := ?_, block_lt := ?_, block_bits := fun j hj => ?_, itkey := ?_,
    lo_le := by omega, none_before := firstIn_eq_none_iff.2 fun j hj hj' => by omega }
  · simpa [Function.update_of_ne (show (0 : Nat) ≠ 1 by decide)] using hw.root_lt
  · simpa [Function.update_of_ne (show (0 : Nat) ≠ 1 by decide)] using hw.root_bits
  · simp only [Function.update_self]
    exact lt_of_le_of_lt Nat.and_le_left hw.block_lt
  · simp only [Function.update_self]
    rw [hdrop j hj, hctz, show 64 * (k / 64) + k % 64 + 1 = k + 1 by omega]
  · simp only [Function.update_self]
    exact hw.itkey

/-- **A walk starts** at the first root bit from block `t` on, with no target
between `lo` and block `t`, over the block that `mmbitSparseIterFlatBlock` loads. -/
theorem start {root t lo : Nat} (itkey : Nat)
    (hroot : ∀ j, root.testBit j = ((mmbitSparseIterAt itRoot 0).mask.testBit j && decide (t ≤ j)))
    (h0 : ¬ root = 0) (hlo : lo ≤ 64 * t)
    (hbefore : firstIn (sparseIterTarget itRoot totalBits bits) lo (64 * t) = none) :
    SparseFlatWalk itRoot totalBits bits lo (mmbCtz root)
      (Function.update (Function.update s 0 ⟨root, itkey⟩) 1
        ⟨(mmbitSparseIterFlatBlock bits totalBits itRoot (mmbCtz root)).1,
          (mmbitSparseIterFlatBlock bits totalBits itRoot (mmbCtz root)).2⟩) := by
  obtain ⟨⟨hset, hle⟩, hgap, -, -⟩ := flatRoot_step h0 hroot rfl
  have hb64 := lt_64_of_testBit (mmbitSparseIterAt_mask_lt itRoot 0) hset
  -- the walk's root bit is the first one from `t` on
  have hfirst : firstIn (fun j => (mmbitSparseIterAt itRoot 0).mask.testBit j) t 64 = some (mmbCtz root) :=
    firstIn_eq_some_iff.2 ⟨hle, hb64, hset, hgap⟩
  refine ⟨?_, fun j => ?_, hset, ?_, fun j hj => ?_, ?_, by omega, ?_⟩
  · simp only [Function.update_of_ne (show (0 : Nat) ≠ 1 by decide), Function.update_self]
    exact Nat.lt_pow_two_of_testBit root fun j hj => by
      rw [hroot, testBit_eq_false_of_lt (mmbitSparseIterAt_mask_lt itRoot 0) hj, Bool.false_and]
  · simp only [Function.update_of_ne (show (0 : Nat) ≠ 1 by decide), Function.update_self]
    rw [hroot]
    exact and_le_eq_of_firstIn hfirst j
  · simp only [Function.update_self]
    exact lt_of_le_of_lt Nat.and_le_right (mmbitSparseIterAt_mask_lt _ _)
  · simp only [Function.update_self]
    rw [testBit_sparseIterFlatBlock hbig hflat hvalid hset hj, decide_eq_true (by omega), Bool.and_true]
  · simp only [Function.update_self]
    rfl
  · -- between block `t` and the walk's block the root has no bit
    refine firstIn_eq_none_iff.2 fun j hj hj' => ?_
    rcases Nat.lt_or_ge j (64 * t) with h | h
    · exact firstIn_eq_none_iff.1 hbefore j hj h
    · cases ht : sparseIterTarget itRoot totalBits bits j with
      | false => rfl
      | true =>
        have := root_of_target hbig hflat ht
        rw [hgap (j / 64) (by omega) (by omega)] at this
        cases this

/-- **Moving on to the next root bit** when the block's mask has run out keeps the
walk. -/
theorem next (hw : SparseFlatWalk itRoot totalBits bits lo bit s) (hz : (s 1).mask = 0) {root : Nat}
    (hroot : root = (s 0).mask &&& ((s 0).mask - 1)) (h0 : ¬ root = 0) :
    SparseFlatWalk itRoot totalBits bits lo (mmbCtz root)
      (Function.update (Function.update s 0 ⟨root, (s 0).itkey⟩) 1
        ⟨(mmbitSparseIterFlatBlock bits totalBits itRoot (mmbCtz root)).1,
          (mmbitSparseIterFlatBlock bits totalBits itRoot (mmbCtz root)).2⟩) := by
  have hlo := hw.lo_le
  refine start hbig hflat hvalid _ (t := bit + 1) (fun j => ?_) h0 (by omega) ?_
  · rw [hroot]
    exact hw.testBit_root_drop j
  · rw [Nat.mul_succ]
    exact hw.firstIn_through hz

end SparseFlatWalk

/-- **The loop of `mmbit_sparse_iter_next_flat`**: from a walk that searches from
`lo`, the first target from `lo` on, its rank, and the walk from there. -/
theorem mmbitSparseIterNextFlatLoop_spec (idx : Nat) {s : Nat → MmbitSparseState} {bit lo : Nat}
    (hw : SparseFlatWalk itRoot totalBits bits lo bit s) :
    SparseIterPost (sparseIterTarget itRoot totalBits bits) totalBits (sparseIterIdx itRoot totalBits)
      (SparseFlatResume itRoot totalBits bits) lo (mmbitSparseIterNextFlatLoop bits totalBits idx itRoot s bit) := by
  revert hw
  fun_induction mmbitSparseIterNextFlatLoop bits totalBits idx itRoot s bit with
  | case1 s bit hne key it =>
    intro hw
    exact hw.post_found hbig hflat hne
  | case2 s bit hz s' h0 =>
    intro hw
    have hz : (s 1).mask = 0 := by simpa using hz
    have h0 : (s 0).mask &&& ((s 0).mask - 1) = 0 := by simpa [s'] using h0
    -- the block has no target left, and no root bit is left after it
    refine Or.inl ⟨firstIn_eq_none_iff.2 fun j hj hjt => ?_, rfl⟩
    rcases Nat.lt_or_ge j (64 * bit + 64) with h | h
    · exact firstIn_eq_none_iff.1 (hw.firstIn_through hz) j hj h
    · cases ht : sparseIterTarget itRoot totalBits bits j with
      | false => rfl
      | true =>
        have := hw.testBit_root_drop (j / 64)
        rw [h0, Nat.zero_testBit, root_of_target hbig hflat ht, decide_eq_true (by omega)] at this
        cases this
  | case3 s bit hz s' h0 bit' blk ih =>
    intro hw
    have hz : (s 1).mask = 0 := by simpa using hz
    exact ih (hw.next hbig hflat hvalid hz rfl h0)

/-- **The loop of `mmbit_sparse_iter_begin_flat`** over the root bits from block
`t` on, with no target before block `t`. -/
theorem mmbitSparseIterBeginFlatLoop_spec (idx : Nat) {s : Nat → MmbitSparseState} {root : Nat} :
    ∀ t, (∀ j, root.testBit j = ((mmbitSparseIterAt itRoot 0).mask.testBit j && decide (t ≤ j))) →
      firstIn (sparseIterTarget itRoot totalBits bits) 0 (64 * t) = none →
      SparseIterPost (sparseIterTarget itRoot totalBits bits) totalBits (sparseIterIdx itRoot totalBits)
        (SparseFlatResume itRoot totalBits bits) 0 (mmbitSparseIterBeginFlatLoop bits totalBits idx itRoot s root) := by
  fun_induction mmbitSparseIterBeginFlatLoop bits totalBits idx itRoot s root with
  | case1 =>
    intro t hroot hbefore
    -- no root bit is left from `t` on
    refine Or.inl ⟨firstIn_eq_none_iff.2 fun j hj hjt => ?_, rfl⟩
    rcases Nat.lt_or_ge j (64 * t) with h | h
    · exact firstIn_eq_none_iff.1 hbefore j hj h
    · cases ht : sparseIterTarget itRoot totalBits bits j with
      | false => rfl
      | true =>
        have := hroot (j / 64)
        rw [Nat.zero_testBit, root_of_target hbig hflat ht, decide_eq_true (by omega)] at this
        cases this
  | case2 root h0 bit blk hne s' key it =>
    intro t hroot hbefore
    have hw := SparseFlatWalk.start (s := s) hbig hflat hvalid (s 0).itkey hroot h0 (Nat.zero_le _) hbefore
    exact hw.post_found hbig hflat hne
  | case3 root h0 bit blk hz ih =>
    intro t hroot hbefore
    have hw := SparseFlatWalk.start (s := s) hbig hflat hvalid (s 0).itkey hroot h0 (Nat.zero_le _) hbefore
    obtain ⟨⟨-, hle⟩, -, -, hnext⟩ := flatRoot_step h0 hroot rfl
    refine ih (bit + 1) hnext ?_
    rw [Nat.mul_succ]
    exact hw.firstIn_through (by simpa using hz)

/-- **`mmbit_sparse_iter_begin_flat`, more than 64 keys.** -/
theorem mmbitSparseIterBeginFlat_big (idx : Nat) {s : Nat → MmbitSparseState} :
    SparseIterPost (sparseIterTarget itRoot totalBits bits) totalBits (sparseIterIdx itRoot totalBits)
      (SparseFlatResume itRoot totalBits bits) 0 (mmbitSparseIterBeginFlat bits totalBits idx itRoot s) := by
  unfold mmbitSparseIterBeginFlat
  rw [if_neg (Nat.not_le_of_lt hbig)]
  exact mmbitSparseIterBeginFlatLoop_spec hbig hflat hvalid idx 0 (fun j => by simp)
    (firstIn_eq_none_iff.2 fun j _ hj => absurd hj (by omega))

/-- **`mmbit_sparse_iter_next_flat`, more than 64 keys.** -/
theorem mmbitSparseIterNextFlat_big {k : Nat} {s : Nat → MmbitSparseState}
    (hres : SparseFlatResume itRoot totalBits bits k s) (idx : Nat) :
    SparseIterPost (sparseIterTarget itRoot totalBits bits) totalBits (sparseIterIdx itRoot totalBits)
      (SparseFlatResume itRoot totalBits bits) (k + 1) (mmbitSparseIterNextFlat bits totalBits idx itRoot s) := by
  obtain ⟨hw, hk⟩ := hres
  unfold mmbitSparseIterNextFlat
  rw [if_neg (Nat.not_le_of_lt hbig)]
  dsimp only
  rw [Function.update_of_ne (show (0 : Nat) ≠ 1 by decide), hw.ctz_root]
  exact mmbitSparseIterNextFlatLoop_spec hbig hflat hvalid idx (hw.drop hk)

end Flat

/-! ## The three models together -/

/-- A search's post carries over to a hit predicate with the same first hit, a
rank that agrees on it, and a weaker resume state. -/
theorem SparseIterPost.imp {σ : Type} {hit hit' : Nat → Bool} {hi hi' lo : Nat} {rank rank' : Nat → Nat}
    {resume resume' : Nat → σ → Prop} {r : Nat × Nat × σ} (h : SparseIterPost hit hi rank resume lo r)
    (hfirst : firstIn hit lo hi = firstIn hit' lo hi')
    (hrank : ∀ k, firstIn hit lo hi = some k → rank k = rank' k)
    (hresume : ∀ k s, resume k s → resume' k s) : SparseIterPost hit' hi' rank' resume' lo r := by
  rcases h with ⟨hnone, hinv⟩ | ⟨hsome, hidx, hres⟩
  · exact Or.inl ⟨hfirst ▸ hnone, hinv⟩
  · exact Or.inr ⟨hfirst ▸ hsome, hidx.trans (hrank _ hsome), hresume _ _ hres⟩

section Dispatch

variable {bits : Mem} {totalBits : Nat} {itRoot : List MmbitSparseIter} {k : Nat} {s : Nat → MmbitSparseState}

theorem sparseIterResume_small (hsmall : totalBits ≤ mmbKeyBits) :
    SparseIterResume itRoot totalBits bits k s ↔ SparseRootResume itRoot totalBits bits k s := by
  rw [SparseIterResume, if_pos hsmall]

theorem sparseIterResume_flat (hbig : mmbKeyBits < totalBits) (hflat : totalBits ≤ mmbFlatMaxBits) :
    SparseIterResume itRoot totalBits bits k s ↔ SparseFlatResume itRoot totalBits bits k s := by
  rw [SparseIterResume, if_neg (Nat.not_le_of_lt hbig), if_pos hflat]

/-- In a tree multibit the index reported is the rank through the records above. -/
theorem sparseIterIdx_tree (htree : mmbFlatMaxBits < totalBits) (j : Nat) :
    sparseIterRank itRoot (mmbitMaxlevel totalBits) j = sparseIterIdx itRoot totalBits j := by
  rw [sparseIterIdx, if_neg (by unfold mmbKeyBits; unfold mmbFlatMaxBits at htree; omega)]

theorem sparseIterResume_tree (htree : mmbFlatMaxBits < totalBits) :
    SparseIterResume itRoot totalBits bits k s ↔ SparseResume itRoot (mmbitMaxlevel totalBits) bits k s := by
  rw [SparseIterResume, if_neg (by unfold mmbKeyBits; unfold mmbFlatMaxBits at htree; omega),
    if_neg (Nat.not_le_of_lt htree)]

variable (hvalid : MmbitSparseIterValid itRoot totalBits)
include hvalid

/-- In a tree multibit the hits of `mmbit_sparse_iter_exec` are the targets: a
node of the iterator on the last level is a key below `total_bits`. -/
theorem firstIn_sparseIterHit (htree : mmbFlatMaxBits < totalBits) (hmax : totalBits ≤ mmbMaxBits) (lo : Nat) :
    firstIn (sparseIterHit itRoot (mmbitMaxlevel totalBits) bits) lo (64 ^ (mmbitMaxlevel totalBits + 1)) =
      firstIn (sparseIterTarget itRoot totalBits bits) lo totalBits := by
  rw [← firstIn_target_extend (treeGeometry htree hmax).2.2]
  refine firstIn_congr fun j _ hj => ?_
  unfold sparseIterHit sparseIterTarget
  cases hn : sparseIterNode itRoot (mmbitMaxlevel totalBits) j with
  | false => rfl
  | true =>
    have hlt := hvalid _ j le_rfl hj hn
    rw [mmbitGetKs_self, Nat.shiftLeft_zero] at hlt
    simp [mmbitMember_tree_iff htree, hlt]

/-- **`mmbit_sparse_iter_begin`** returns the first target, its rank, and the
state to go on from. -/
theorem mmbitSparseIterBegin_spec (hmax : totalBits ≤ mmbMaxBits) (idx : Nat) :
    SparseIterPost (sparseIterTarget itRoot totalBits bits) totalBits (sparseIterIdx itRoot totalBits)
      (SparseIterResume itRoot totalBits bits) 0 (mmbitSparseIterBegin bits totalBits idx itRoot s) := by
  unfold mmbitSparseIterBegin
  by_cases hflat : totalBits ≤ mmbFlatMaxBits
  · rw [if_pos (by simpa [mmbitIsFlatModel] using hflat)]
    by_cases hsmall : totalBits ≤ mmbKeyBits
    · exact (mmbitSparseIterBeginFlat_small hsmall hvalid idx).imp rfl (fun _ _ => rfl)
        fun _ _ h => (sparseIterResume_small hsmall).mpr h
    · have hbig := Nat.lt_of_not_le hsmall
      exact (mmbitSparseIterBeginFlat_big hbig hflat hvalid idx).imp rfl (fun _ _ => rfl)
        fun _ _ h => (sparseIterResume_flat hbig hflat).mpr h
  · have htree := Nat.lt_of_not_le hflat
    rw [if_neg (by simpa [mmbitIsFlatModel] using hflat)]
    exact (mmbitSparseIterBeginBig_spec idx).imp (firstIn_sparseIterHit hvalid htree hmax 0)
      (fun j _ => sparseIterIdx_tree htree j) fun _ _ h => (sparseIterResume_tree htree).mpr h

/-- **`mmbit_sparse_iter_next`** after key `k` returns the first target after
`k`, its rank, and the state to go on from. -/
theorem mmbitSparseIterNext_spec (hmax : totalBits ≤ mmbMaxBits)
    (hres : SparseIterResume itRoot totalBits bits k s) (idx : Nat) :
    SparseIterPost (sparseIterTarget itRoot totalBits bits) totalBits (sparseIterIdx itRoot totalBits)
      (SparseIterResume itRoot totalBits bits) (k + 1) (mmbitSparseIterNext bits totalBits k idx itRoot s) := by
  unfold mmbitSparseIterNext
  by_cases hflat : totalBits ≤ mmbFlatMaxBits
  · rw [if_pos (by simpa [mmbitIsFlatModel] using hflat)]
    by_cases hsmall : totalBits ≤ mmbKeyBits
    · exact (mmbitSparseIterNextFlat_small hsmall ((sparseIterResume_small hsmall).mp hres) idx).imp rfl
        (fun _ _ => rfl) fun _ _ h => (sparseIterResume_small hsmall).mpr h
    · have hbig := Nat.lt_of_not_le hsmall
      exact (mmbitSparseIterNextFlat_big hbig hflat hvalid ((sparseIterResume_flat hbig hflat).mp hres) idx).imp
        rfl (fun _ _ => rfl) fun _ _ h => (sparseIterResume_flat hbig hflat).mpr h
  · have htree := Nat.lt_of_not_le hflat
    rw [if_neg (by simpa [mmbitIsFlatModel] using hflat)]
    exact (mmbitSparseIterNextBig_spec ((sparseIterResume_tree htree).mp hres) idx).imp
      (firstIn_sparseIterHit hvalid htree hmax (k + 1)) (fun j _ => sparseIterIdx_tree htree j)
      fun _ _ h => (sparseIterResume_tree htree).mpr h

end Dispatch

/-! ## The caller's loop -/

section Run

variable {bits : Mem} {totalBits : Nat} {itRoot : List MmbitSparseIter}
  (hvalid : MmbitSparseIterValid itRoot totalBits) (hmax : totalBits ≤ mmbMaxBits)
include hvalid hmax

/-- From a search's post on, the caller's loop lists the targets from `lo` on,
each with its rank, as long as its fuel covers them.  The induction is on the
fuel; each pass is `mmbitSparseIterNext_spec` from the key just found. -/
theorem mmbitSparseIterRunFrom_eq (fuel : Nat) : ∀ (lo : Nat) (r : Nat × Nat × (Nat → MmbitSparseState)),
    SparseIterPost (sparseIterTarget itRoot totalBits bits) totalBits (sparseIterIdx itRoot totalBits)
      (SparseIterResume itRoot totalBits bits) lo r →
    ((List.range' lo (totalBits - lo)).filter (sparseIterTarget itRoot totalBits bits)).length ≤ fuel →
    mmbitSparseIterRunFrom bits totalBits itRoot fuel r =
      ((List.range' lo (totalBits - lo)).filter (sparseIterTarget itRoot totalBits bits)).map
        fun k => (k, sparseIterIdx itRoot totalBits k) := by
  induction fuel with
  | zero =>
    intro lo r _ hlen
    rw [List.length_eq_zero_iff.mp (Nat.le_zero.mp hlen)]
    rfl
  | succ fuel ih =>
    rintro lo ⟨i, idx, s⟩ hpost hlen
    rcases hpost with ⟨hnone, hi⟩ | ⟨hsome, hidx, hres⟩
    · -- no target is left: the loop stops
      rw [filter_range'_of_firstIn_none hnone, mmbitSparseIterRunFrom, if_pos hi]
      rfl
    · -- the key found is not `MMB_INVALID`, and the loop goes on after it
      dsimp only at hsome hidx hres
      have hlt := (firstIn_eq_some_iff.1 hsome).2.1
      have hne : i ≠ mmbInvalid := by
        unfold mmbInvalid
        unfold mmbMaxBits at hmax
        omega
      rw [filter_range'_of_firstIn_some hsome] at hlen ⊢
      rw [mmbitSparseIterRunFrom, if_neg hne, List.map_cons,
        ih (i + 1) _ (mmbitSparseIterNext_spec hvalid hmax hres idx) (Nat.le_of_succ_le_succ hlen), hidx]

/-- **The caller's loop** over `mmbit_sparse_iter_begin` and
`mmbit_sparse_iter_next` yields every target, in increasing order, each with
its rank. -/
theorem mmbitSparseIterRun_eq (s : Nat → MmbitSparseState) :
    mmbitSparseIterRun bits totalBits itRoot s =
      ((List.range' 0 totalBits).filter (sparseIterTarget itRoot totalBits bits)).map
        fun k => (k, sparseIterIdx itRoot totalBits k) := by
  have hlen : ((List.range' 0 (totalBits - 0)).filter (sparseIterTarget itRoot totalBits bits)).length ≤ totalBits :=
    (List.length_filter_le _ _).trans (by simp)
  have := mmbitSparseIterRunFrom_eq hvalid hmax totalBits 0 _ (mmbitSparseIterBegin_spec (s := s) hvalid hmax 0) hlen
  rwa [Nat.sub_zero] at this

end Run

/-! ## Iterators built from key lists -/

section Build

variable {keys : List Nat} {totalBits : Nat} (h1 : 1 ≤ totalBits) (hmax : totalBits ≤ mmbMaxBits)
  (hkeys : ∀ k ∈ keys, k < totalBits) (hne : keys ≠ [])
include h1 hmax hkeys hne

/-- The targets of a built iterator are its keys that are on. -/
theorem filter_sparseIterTarget_build (hsorted : keys.Pairwise (· < ·)) (bits : Mem) :
    (List.range' 0 totalBits).filter (sparseIterTarget (mmbBuildSparseIterator keys totalBits) totalBits bits) =
      keys.filter fun k => decide (MmbitMember totalBits bits k) := by
  have hkeyset := mmbitSparseIterKeys_build h1 hmax hkeys hne
  refine List.Pairwise.eq_of_mem_iff (List.Pairwise.filter _ List.pairwise_lt_range') (hsorted.filter _) fun k => ?_
  have hk := Set.ext_iff.mp hkeyset k
  simp only [mmbitSparseIterKeys, Set.mem_ofPred_eq] at hk
  simp only [List.mem_filter, List.mem_range'_1, sparseIterTarget, Bool.and_eq_true, decide_eq_true_eq]
  constructor
  · rintro ⟨⟨-, hlt⟩, hnode, hmem⟩
    exact ⟨hk.mp ⟨by omega, hnode⟩, hmem⟩
  · rintro ⟨hin, hmem⟩
    exact ⟨⟨Nat.zero_le _, by simpa using hkeys k hin⟩, (hk.mpr hin).2, hmem⟩

/-- The index reported with a key of a built iterator is its position in the
key list, also for at most 64 keys, where it is the rank in the root record. -/
theorem sparseIterIdx_build (hsorted : keys.Pairwise (· < ·)) {k : Nat} (hk : k ∈ keys) :
    sparseIterIdx (mmbBuildSparseIterator keys totalBits) totalBits k = keys.idxOf k := by
  unfold sparseIterIdx
  split
  · rename_i hsmall
    -- the rank of a root key, through the record of the root block
    have hrank : ∀ j ∈ keys, (mmbitSparseIterAt (mmbBuildSparseIterator keys totalBits) 0).val +
        mmbitMaskIndex j (mmbitSparseIterAt (mmbBuildSparseIterator keys totalBits) 0).mask = keys.idxOf j := by
      intro j hj
      have := sparseIterRank_build h1 hmax hkeys hne hsorted hj
      have hj64 : j < 64 := Nat.lt_of_lt_of_le (hkeys j hj) hsmall
      rwa [mmbitMaxlevel_of_le_64 hsmall, sparseIterRank, sparseIterBlockRecord, Nat.mod_eq_of_lt hj64] at this
    -- the first key has rank 0, so the root record counts from 0
    obtain ⟨k0, rest, hcons⟩ := List.exists_cons_of_ne_nil hne
    have h0 := hrank k0 (by simp [hcons])
    rw [show keys.idxOf k0 = 0 by rw [hcons, List.idxOf_cons_self]] at h0
    have hval : (mmbitSparseIterAt (mmbBuildSparseIterator keys totalBits) 0).val = 0 := by omega
    rw [← hrank k hk, hval, Nat.zero_add]
  · exact sparseIterRank_build h1 hmax hkeys hne hsorted hk

/-- **Built sparse iterators enumerate their keys.**  Over an iterator that
`mmbBuildSparseIterator` built from a sorted list of keys below `total_bits`,
the caller's loop over `mmbit_sparse_iter_begin` and `mmbit_sparse_iter_next`
yields the keys of the list that are on, in increasing order, each with its
position in the list; and `mmbit_sparse_iter_unset` switches exactly those keys
off. -/
theorem sparseIter_build_enumerates (hsorted : keys.Pairwise (· < ·)) (bits : Mem)
    (s : Nat → MmbitSparseState) :
    mmbitSparseIterRun bits totalBits (mmbBuildSparseIterator keys totalBits) s =
        (keys.filter fun k => decide (MmbitMember totalBits bits k)).map (fun k => (k, keys.idxOf k)) ∧
      mmbitKeys totalBits (mmbitSparseIterUnset bits totalBits (mmbBuildSparseIterator keys totalBits) s) =
        mmbitKeys totalBits bits \ {k | k ∈ keys} := by
  have hvalid := mmbitSparseIterValid_build h1 hmax hkeys hne
  refine ⟨?_, ?_⟩
  · rw [mmbitSparseIterRun_eq hvalid hmax, filter_sparseIterTarget_build h1 hmax hkeys hne hsorted]
    refine List.map_congr_left fun k hk => ?_
    rw [sparseIterIdx_build h1 hmax hkeys hne hsorted (List.mem_of_mem_filter hk)]
  · rw [mmbitKeys_mmbitSparseIterUnset hmax hvalid, mmbitSparseIterKeys_build h1 hmax hkeys hne]

end Build

theorem sparseIter_build_enumerates_two_keys :
    mmbitSparseIterRun (fun _ => true) 100 (mmbBuildSparseIterator [3, 70] 100) (fun _ => ⟨0, 0⟩) =
        ([3, 70].filter fun k => decide (MmbitMember 100 (fun _ => true) k)).map (fun k => (k, [3, 70].idxOf k)) ∧
      mmbitKeys 100 (mmbitSparseIterUnset (fun _ => true) 100 (mmbBuildSparseIterator [3, 70] 100) (fun _ => ⟨0, 0⟩)) =
        mmbitKeys 100 (fun _ => true) \ {k | k ∈ [3, 70]} :=
  sparseIter_build_enumerates (by decide) (by decide) (by decide) (by decide) (by decide) _ _

end Multibit
end Vectorscan
