import Vectorscan.Multibit.SparseIter
import Mathlib.Algebra.Order.BigOperators.Group.Finset
import Mathlib.Algebra.Group.Action.Defs

/-!
# Multibit: `mmbit_sparse_iter_exec` on the tree model

`mmbit_sparse_iter_begin_big` and `mmbit_sparse_iter_next_big` of
`src/util/multibit.h` both end in `mmbit_sparse_iter_exec`, the depth-first
walk that finds the next key of a sparse iterator that is on in the multibit.
It walks the stack `s[0..max_level]` of `mmbit_sparse_iter_unset_big`: it goes
down through the lowest bit of the current state mask, and when a mask runs out
it goes back to the parent block and drops the parent's lowest bit; on the last
level it returns the key of the lowest bit with its rank
`it->val + mmbit_mask_index(bit, it->mask)`, and leaves the stack where
`mmbit_sparse_iter_next_big` resumes.

**Model.**  The loop state is the walk state `SparseUnsetState` of the unset
walk, whose descent the exec loop shares; going back up is the unset walk's
`uplevel:` without its write to the multibit (`mmbitSparseIterExecUp`).
`mmbitSparseIterExec` runs the loop body by `Loop.run` with a fuel above the
measure of any stack of `max_level + 1` levels.

**Invariant.**  `SparseExecInv`: the stack has the shape of the walk
(`SparseWalkShape`), its state masks hold only nodes set in the multibit, and a
*hit* (a key of the last level that the iterator holds and whose path is set,
`sparseIterHit`) is pending on the stack exactly when it is at or after the key
the search started from.

**Results.**  `mmbitSparseIterExec_spec`: the walk returns the first hit at or
after where it starts, with its rank, and a state array from which the search
resumes after it (`SparseResume`); or `MMB_INVALID` when there is none.
`mmbitSparseIterBeginBig_spec` and `mmbitSparseIterNextBig_spec` follow.
-/

namespace Vectorscan
namespace Multibit

open Word
open SparseUnsetState

/-! ## The walk -/

/-- The `else` branch of `mmbit_sparse_iter_exec` below the root: back to the
parent block, whose state mask loses its lowest bit. -/
def mmbitSparseIterExecUp (st : SparseUnsetState) : SparseUnsetState :=
  let key := st.key >>> mmbKeyShift
  let level := st.level - 1
  -- update state mask and iterator
  let s := Function.update st.s level ⟨(st.s level).mask &&& ((st.s level).mask - 1), (st.s level).itkey⟩
  ⟨st.bits, key, level, (s level).itkey, s⟩

/-- One pass of the `for (;;)` body of `mmbit_sparse_iter_exec`: the key found,
`*idx` and the state array, or the next loop state.  The descent is the one of
`mmbit_sparse_iter_unset_big`. -/
def mmbitSparseIterExecStep (itRoot : List MmbitSparseIter) (maxLevel idx : Nat)
    (st : SparseUnsetState) : (Nat × Nat × (Nat → MmbitSparseState)) ⊕ SparseUnsetState :=
  if (st.s st.level).mask ≠ 0 then
    if st.level = maxLevel then
      -- we've found a key
      let bit := mmbCtz (st.s st.level).mask
      let it := mmbitSparseIterAt itRoot st.it
      .inl ((st.key <<< mmbKeyShift) + bit, it.val + mmbitMaskIndex bit it.mask, st.s)
    else .inr (mmbitSparseIterUnsetDescend itRoot st)
  else if st.level = 0 then .inl (mmbInvalid, idx, st.s) -- no key available
  else .inr (mmbitSparseIterExecUp st)

/-- `mmbit_sparse_iter_exec` from the loop variables `st`; `*idx` is left alone
when no key is found. -/
def mmbitSparseIterExec (itRoot : List MmbitSparseIter) (maxLevel idx : Nat) (st : SparseUnsetState) :
    Nat × Nat × (Nat → MmbitSparseState) :=
  Loop.run (mmbitSparseIterExecStep itRoot maxLevel idx) (fun st => (mmbInvalid, idx, st.s))
    ((maxLevel + 1) * sparseUnsetBlockCost maxLevel + 1) st

/-- `mmbit_sparse_iter_begin_big`. -/
def mmbitSparseIterBeginBig (bits : Mem) (totalBits idx : Nat) (itRoot : List MmbitSparseIter)
    (s : Nat → MmbitSparseState) : Nat × Nat × (Nat → MmbitSparseState) :=
  let block := mmbLoad bits 0 &&& (mmbitSparseIterAt itRoot 0).mask
  if block = 0 then (mmbInvalid, idx, s)
  else
    let maxLevel := mmbitMaxlevel totalBits
    -- load the first block into the top level state
    mmbitSparseIterExec itRoot maxLevel idx ⟨bits, 0, 0, 0, Function.update s 0 ⟨block, 0⟩⟩

/-- `mmbit_sparse_iter_next_big`: the walk goes on from the last level, past the
lowest bit of its state mask, which was `last_key`. -/
def mmbitSparseIterNextBig (bits : Mem) (totalBits lastKey idx : Nat) (itRoot : List MmbitSparseIter)
    (s : Nat → MmbitSparseState) : Nat × Nat × (Nat → MmbitSparseState) :=
  let maxLevel := mmbitMaxlevel totalBits
  let key := lastKey >>> mmbKeyShift
  let s := Function.update s maxLevel ⟨(s maxLevel).mask &&& ((s maxLevel).mask - 1), (s maxLevel).itkey⟩
  mmbitSparseIterExec itRoot maxLevel idx ⟨bits, key, maxLevel, (s maxLevel).itkey, s⟩

/-! ## What a search returns -/

/-- The keys that the iteration visits on a tree multibit: the iterator's nodes
of the last level whose path is set. -/
def sparseIterHit (itRoot : List MmbitSparseIter) (maxLevel : Nat) (bits : Mem) (k : Nat) : Bool :=
  sparseIterNode itRoot maxLevel k && decide (PathSet bits maxLevel k)

/-- What a search from `lo` below `hi` returns: the first hit at or after `lo`,
its rank, and a state to resume from after it; or `MMB_INVALID` when there is
no hit.  The three models of the sparse iterator share it. -/
def SparseIterPost {σ : Type} (hit : Nat → Bool) (hi : Nat) (rank : Nat → Nat) (resume : Nat → σ → Prop)
    (lo : Nat) (r : Nat × Nat × σ) : Prop :=
  (firstIn hit lo hi = none ∧ r.1 = mmbInvalid) ∨
    (firstIn hit lo hi = some r.1 ∧ r.2.1 = rank r.1 ∧ resume r.1 r.2.2)

/-- The loop state from which `mmbit_sparse_iter_next_big` searches on after
key `k`. -/
def sparseResumeState (bits : Mem) (maxLevel k : Nat) (s : Nat → MmbitSparseState) : SparseUnsetState :=
  let s := Function.update s maxLevel ⟨(s maxLevel).mask &&& ((s maxLevel).mask - 1), (s maxLevel).itkey⟩
  ⟨bits, k >>> 6, maxLevel, (s maxLevel).itkey, s⟩

theorem mmbitSparseIterNextBig_eq (bits : Mem) (totalBits k idx : Nat) (itRoot : List MmbitSparseIter)
    (s : Nat → MmbitSparseState) :
    mmbitSparseIterNextBig bits totalBits k idx itRoot s =
      mmbitSparseIterExec itRoot (mmbitMaxlevel totalBits) idx
        (sparseResumeState bits (mmbitMaxlevel totalBits) k s) := rfl

/-! ## The invariant -/

/-- The invariant of `mmbit_sparse_iter_exec` on the multibit `bits`, searching
from `lo`. -/
structure SparseExecInv (itRoot : List MmbitSparseIter) (maxLevel : Nat) (bits : Mem) (lo : Nat)
    (st : SparseUnsetState) : Prop where
  shape : SparseWalkShape itRoot maxLevel st
  bits_eq : st.bits = bits
  /-- the state masks hold only nodes set in the multibit -/
  mask_set : ∀ l, l ≤ st.level → ∀ j, (st.s l).mask.testBit j = true →
    levelBit bits l (64 * st.pathBlock l + j) = true
  /-- the hits still to come are the ones pending on the stack -/
  pending : ∀ k, k < 64 ^ (maxLevel + 1) → sparseIterHit itRoot maxLevel bits k = true →
    (lo ≤ k ↔ ∃ l, l ≤ st.level ∧ st.PendingAt maxLevel l k)

/-- A state array from which the search resumes after key `k`: the stack that
`mmbit_sparse_iter_next_big` builds is that of the search from `k + 1`. -/
def SparseResume (itRoot : List MmbitSparseIter) (maxLevel : Nat) (bits : Mem) (k : Nat)
    (s : Nat → MmbitSparseState) : Prop :=
  SparseExecInv itRoot maxLevel bits (k + 1) (sparseResumeState bits maxLevel k s)

/-- The stack with the lowest bit of the current level's state mask dropped. -/
def SparseUnsetState.dropLowest (st : SparseUnsetState) : SparseUnsetState :=
  let s := Function.update st.s st.level
    ⟨(st.s st.level).mask &&& ((st.s st.level).mask - 1), (st.s st.level).itkey⟩
  { st with s := s }

section ExecState

variable {itRoot : List MmbitSparseIter} {maxLevel : Nat} {st : SparseUnsetState}

/-- Going back up in `mmbit_sparse_iter_exec` is the `uplevel:` of the unset
walk without its write to the multibit. -/
theorem mmbitSparseIterExecUp_eq :
    mmbitSparseIterExecUp st = { mmbitSparseIterUnsetUp st with bits := st.bits } := rfl

/-- The shape of the stack does not depend on the memory. -/
theorem SparseWalkShape.with_bits (hs : SparseWalkShape itRoot maxLevel st) (b : Mem) :
    SparseWalkShape itRoot maxLevel { st with bits := b } :=
  ⟨hs.level_le, hs.key_lt, hs.mask_lt, hs.lowest, hs.record, hs.it_eq, hs.mask_sub⟩

theorem pathBlock_with_bits (b : Mem) (l : Nat) :
    ({ st with bits := b } : SparseUnsetState).pathBlock l = st.pathBlock l := rfl

theorem pendingAt_with_bits (b : Mem) (l k : Nat) :
    ({ st with bits := b } : SparseUnsetState).PendingAt maxLevel l k ↔ st.PendingAt maxLevel l k := Iff.rfl

theorem sparseUnsetMeasure_with_bits (b : Mem) :
    sparseUnsetMeasure maxLevel { st with bits := b } = sparseUnsetMeasure maxLevel st := by
  unfold sparseUnsetMeasure
  exact Finset.sum_congr rfl fun l _ => sparseUnsetLevelCost_congr rfl

theorem dropLowest_s_of_ne {l : Nat} (h : l ≠ st.level) : st.dropLowest.s l = st.s l := by
  unfold SparseUnsetState.dropLowest
  exact Function.update_of_ne h _ _

theorem dropLowest_s_self :
    st.dropLowest.s st.level =
      ⟨(st.s st.level).mask &&& ((st.s st.level).mask - 1), (st.s st.level).itkey⟩ := by
  unfold SparseUnsetState.dropLowest
  exact Function.update_self _ _ _

theorem pendingMask_dropLowest_of_lt {l : Nat} (hl : l < st.level) :
    st.dropLowest.pendingMask l = st.pendingMask l := by
  unfold SparseUnsetState.pendingMask
  rw [show st.dropLowest.level = st.level from rfl, if_pos hl, if_pos hl, dropLowest_s_of_ne (by omega)]

theorem pendingMask_dropLowest_self :
    st.dropLowest.pendingMask st.level = (st.s st.level).mask &&& ((st.s st.level).mask - 1) := by
  have h := pendingMask_self st.dropLowest
  rw [show st.dropLowest.level = st.level from rfl, dropLowest_s_self] at h
  exact h

/-- Dropping the current level's lowest bit keeps the shape. -/
theorem SparseWalkShape.dropLowest (hs : SparseWalkShape itRoot maxLevel st) :
    SparseWalkShape itRoot maxLevel st.dropLowest := by
  have hkey : ∀ l, (st.dropLowest.s l).itkey = (st.s l).itkey := by
    intro l
    by_cases h : l = st.level
    · subst h
      rw [dropLowest_s_self]
    · rw [dropLowest_s_of_ne h]
  refine ⟨hs.level_le, hs.key_lt, ?_, ?_, fun l hl => ?_, ?_, ?_⟩
  · intro l hl
    by_cases h : l = st.level
    · subst h
      rw [dropLowest_s_self]
      exact lt_of_le_of_lt Nat.and_le_left (hs.mask_lt _ le_rfl)
    · rw [dropLowest_s_of_ne h]
      exact hs.mask_lt l hl
  · intro l hl
    have hl' : l < st.level := hl
    rw [dropLowest_s_of_ne (Nat.ne_of_lt hl')]
    exact hs.lowest l hl'
  · rw [hkey]
    exact hs.record l hl
  · rw [hkey]
    exact hs.it_eq
  · intro l hl j hj
    rw [hkey]
    by_cases h : l = st.level
    · subst h
      rw [dropLowest_s_self, Nat.testBit_and, Bool.and_eq_true] at hj
      exact hs.mask_sub _ le_rfl j hj.1
    · rw [dropLowest_s_of_ne h] at hj
      exact hs.mask_sub l hl j hj

end ExecState

/-! ## The stack seen from the last level -/

section Leaf

variable {itRoot : List MmbitSparseIter} {maxLevel : Nat} {st : SparseUnsetState}

theorem shiftRight_le_shiftRight {a b : Nat} (h : a ≤ b) (n : Nat) : a >>> n ≤ b >>> n := by
  rw [Nat.shiftRight_eq_div_pow, Nat.shiftRight_eq_div_pow]
  exact Nat.div_le_div_right h

/-- The path's block of a level is the block of the level above, followed by the
lowest bit of that level's state mask. -/
theorem SparseWalkShape.pathBlock_succ (hs : SparseWalkShape itRoot maxLevel st) {l : Nat}
    (hl : l < st.level) : st.pathBlock (l + 1) = 64 * st.pathBlock l + mmbCtz (st.s l).mask := by
  have hup : st.pathBlock (l + 1) >>> 6 = st.pathBlock l := by
    unfold SparseUnsetState.pathBlock
    rw [← Nat.shiftRight_add]
    congr 1
    omega
  rw [(hs.lowest l hl).2, ← hup]
  exact (shiftRight_six_add_mod _).symm

/-- A key pending on a level above the current one comes after the path: its
node there is beyond the path's. -/
theorem SparseWalkShape.pathBlock_lt_of_pendingAt (hs : SparseWalkShape itRoot maxLevel st) {l k : Nat}
    (hl : l < st.level) (hpa : st.PendingAt maxLevel l k) :
    st.pathBlock (l + 1) < k >>> mmbitGetKs maxLevel l := by
  obtain ⟨hne, -⟩ := hs.lowest l hl
  have hlt := hs.mask_lt l hl.le
  obtain ⟨-, -, hmin⟩ := mmbCtz_spec hne hlt
  have hbit := hpa.2
  unfold SparseUnsetState.pendingMask at hbit
  rw [if_pos hl, testBit_and_sub_one (by rwa [Nat.mod_eq_of_lt hlt]), Bool.and_eq_true,
    decide_eq_true_iff] at hbit
  -- the node's bit is set and is not the lowest, so it is above it
  have habove : mmbCtz (st.s l).mask < k >>> mmbitGetKs maxLevel l % 64 := by
    rcases Nat.lt_or_ge (k >>> mmbitGetKs maxLevel l % 64) (mmbCtz (st.s l).mask) with h | h
    · rw [hmin _ h] at hbit
      cases hbit.1
    · exact Nat.lt_of_le_of_ne h (Ne.symm hbit.2)
  have hnode := shiftRight_six_add_mod (k >>> mmbitGetKs maxLevel l)
  rw [hpa.1] at hnode
  rw [hs.pathBlock_succ hl]
  omega

variable (hlev : st.level = maxLevel) (hne : (st.s st.level).mask ≠ 0)
include hlev hne

/-- On the last level, the key of the lowest bit lies under the path's blocks. -/
theorem SparseWalkShape.leaf_shiftRight (hs : SparseWalkShape itRoot maxLevel st) {l : Nat}
    (hl : l < maxLevel) :
    (64 * st.key + mmbCtz (st.s st.level).mask) >>> mmbitGetKs maxLevel l = st.pathBlock (l + 1) := by
  obtain ⟨hc, -, -⟩ := mmbCtz_spec hne (hs.mask_lt _ le_rfl)
  unfold mmbitGetKs SparseUnsetState.pathBlock mmbKeyShift
  rw [show (maxLevel - l) * 6 = 6 + 6 * (st.level - (l + 1)) by rw [hlev]; omega, Nat.shiftRight_add,
    child_shiftRight_six hc]

/-- **The key found is the least pending one.**  Every key pending on the stack
is at or after the key of the last level's lowest bit, and strictly after it
when it is pending above the last level. -/
theorem SparseWalkShape.le_of_pendingAt (hs : SparseWalkShape itRoot maxLevel st) {l k : Nat}
    (hl : l ≤ st.level) (hpa : st.PendingAt maxLevel l k) :
    64 * st.key + mmbCtz (st.s st.level).mask ≤ k ∧
      (l < st.level → 64 * st.key + mmbCtz (st.s st.level).mask < k) := by
  rcases Nat.lt_or_ge l st.level with hl' | hl'
  · -- above the last level: the key's node comes after the path's node
    have hnode := hs.pathBlock_lt_of_pendingAt hl' hpa
    rw [← hs.leaf_shiftRight hlev hne (by omega)] at hnode
    have hlt : 64 * st.key + mmbCtz (st.s st.level).mask < k := by
      by_contra hge
      exact absurd (shiftRight_le_shiftRight (Nat.le_of_not_lt hge) _) (Nat.not_le_of_lt hnode)
    exact ⟨hlt.le, fun _ => hlt⟩
  · -- on the last level: a set bit of the mask is not below its lowest one
    obtain rfl : l = st.level := by omega
    have hblock := hpa.1
    have hbit := hpa.2
    rw [hlev, mmbitGetKs_self, Nat.shiftRight_zero, ← hlev, pathBlock_self] at hblock
    rw [hlev, mmbitGetKs_self, Nat.shiftRight_zero, ← hlev, pendingMask_self] at hbit
    obtain ⟨-, -, hmin⟩ := mmbCtz_spec hne (hs.mask_lt _ le_rfl)
    have hge : mmbCtz (st.s st.level).mask ≤ k % 64 := by
      by_contra hlt
      rw [hmin _ (Nat.lt_of_not_le hlt)] at hbit
      cases hbit
    have hk := shiftRight_six_add_mod k
    rw [hblock] at hk
    exact ⟨by omega, fun h => absurd h (Nat.lt_irrefl _)⟩

end Leaf

/-! ## The invariant across a pass -/

section Exec

variable {itRoot : List MmbitSparseIter} {maxLevel : Nat} {bits : Mem} {lo : Nat} {st : SparseUnsetState}

/-- A hit is a key of the iterator whose path is set. -/
theorem sparseIterHit_iff {k : Nat} :
    sparseIterHit itRoot maxLevel bits k = true ↔
      sparseIterNode itRoot maxLevel k = true ∧ PathSet bits maxLevel k := by
  simp [sparseIterHit]

/-- The descent keeps the invariant. -/
theorem SparseExecInv.descend (hinv : SparseExecInv itRoot maxLevel bits lo st)
    (hne : (st.s st.level).mask ≠ 0) (hlt : st.level < maxLevel) :
    SparseExecInv itRoot maxLevel bits lo (mmbitSparseIterUnsetDescend itRoot st) := by
  obtain ⟨hc, -, -⟩ := mmbCtz_spec hne (hinv.shape.mask_lt _ le_rfl)
  refine ⟨hinv.shape.descend hne hlt, hinv.bits_eq, fun l hl j hj => ?_, fun k hk hhit => ?_⟩
  · by_cases h : l = st.level + 1
    · -- the child block: its state mask is the block as loaded, masked
      subst h
      rw [mmbitSparseIterUnsetDescend_s_self, Nat.testBit_and, Bool.and_eq_true] at hj
      have hset := hj.1
      rw [testBit_levelBlock, Bool.and_eq_true] at hset
      rw [← hinv.bits_eq, show (mmbitSparseIterUnsetDescend itRoot st).pathBlock (st.level + 1) =
        (mmbitSparseIterUnsetDescend itRoot st).key from pathBlock_self _]
      exact hset.2
    · rw [mmbitSparseIterUnsetDescend_s_of_ne h] at hj
      have hl' : l ≤ st.level := by simp at hl; omega
      rw [pathBlock_descend hc hl']
      exact hinv.mask_set l hl' j hj
  · obtain ⟨hiter, hpath⟩ := sparseIterHit_iff.1 hhit
    rw [← hinv.bits_eq] at hpath
    exact (hinv.pending k hk hhit).trans (hinv.shape.pending_descend hne hlt hiter hpath).symm

/-- Going back up keeps the invariant: no key is pending on a level whose state
mask has run out. -/
theorem SparseExecInv.up (hinv : SparseExecInv itRoot maxLevel bits lo st)
    (hzero : (st.s st.level).mask = 0) (hL : st.level ≠ 0) :
    SparseExecInv itRoot maxLevel bits lo (mmbitSparseIterExecUp st) := by
  rw [mmbitSparseIterExecUp_eq]
  refine ⟨(hinv.shape.up hL).with_bits _, hinv.bits_eq, fun l hl j hj => ?_, fun k hk hhit => ?_⟩
  · dsimp only at hl hj
    rw [mmbitSparseIterUnsetUp_level] at hl
    rw [pathBlock_with_bits, pathBlock_up hL hl]
    by_cases h : l = st.level - 1
    · subst h
      rw [mmbitSparseIterUnsetUp_s_self, Nat.testBit_and, Bool.and_eq_true] at hj
      exact hinv.mask_set _ (by omega) j hj.1
    · rw [mmbitSparseIterUnsetUp_s_of_ne h] at hj
      exact hinv.mask_set l (by omega) j hj
  · have hnone : ¬ st.PendingAt maxLevel st.level k := by
      intro hpa
      have hbit := hpa.2
      rw [pendingMask_self, hzero, Nat.zero_testBit] at hbit
      cases hbit
    simp only [pendingAt_with_bits]
    exact (hinv.pending k hk hhit).trans (pendingAt_up_iff hL hnone).symm

theorem sparseUnsetMeasure_execUp (hL : st.level ≠ 0) :
    sparseUnsetMeasure maxLevel (mmbitSparseIterExecUp st) < sparseUnsetMeasure maxLevel st := by
  rw [mmbitSparseIterExecUp_eq, sparseUnsetMeasure_with_bits]
  exact sparseUnsetMeasure_up hL

variable (hlev : st.level = maxLevel) (hne : (st.s st.level).mask ≠ 0)
include hlev hne

/-- On the last level, the key of the lowest bit is a hit. -/
theorem SparseExecInv.hit_leaf (hinv : SparseExecInv itRoot maxLevel bits lo st) :
    sparseIterHit itRoot maxLevel bits (64 * st.key + mmbCtz (st.s st.level).mask) = true := by
  subst hlev
  have hs := hinv.shape
  obtain ⟨hc, hcset, -⟩ := mmbCtz_spec hne (hs.mask_lt _ le_rfl)
  refine sparseIterHit_iff.2 ⟨?_, pathSet_key_iff.2 fun l hl => ?_⟩
  · -- the record of the leaf block has the bit
    have hrec := hs.record _ le_rfl
    rw [pathBlock_self] at hrec
    unfold sparseIterNode
    rw [child_shiftRight_six hc, hrec]
    dsimp only
    rw [show (64 * st.key + mmbCtz (st.s st.level).mask) % 64 = mmbCtz (st.s st.level).mask by omega]
    exact hs.mask_sub _ le_rfl _ hcset
  · rcases Nat.lt_or_ge l st.level with hl' | hl'
    · -- above the last level: the node is the path's, under the lowest bit there
      rw [hs.leaf_shiftRight rfl hne hl', hs.pathBlock_succ hl']
      obtain ⟨hne', -⟩ := hs.lowest l hl'
      obtain ⟨-, hset, -⟩ := mmbCtz_spec hne' (hs.mask_lt l hl'.le)
      exact hinv.mask_set l hl'.le _ hset
    · obtain rfl : l = st.level := by omega
      rw [mmbitGetKs_self, Nat.shiftRight_zero]
      have := hinv.mask_set _ le_rfl _ hcset
      rwa [pathBlock_self] at this

/-- On the last level, the key of the lowest bit is pending. -/
theorem SparseExecInv.pendingAt_leaf (hinv : SparseExecInv itRoot maxLevel bits lo st) :
    st.PendingAt maxLevel st.level (64 * st.key + mmbCtz (st.s st.level).mask) := by
  subst hlev
  obtain ⟨hc, hcset, -⟩ := mmbCtz_spec hne (hinv.shape.mask_lt _ le_rfl)
  refine ⟨?_, ?_⟩
  · rw [mmbitGetKs_self, Nat.shiftRight_zero, child_shiftRight_six hc, pathBlock_self]
  · rw [mmbitGetKs_self, Nat.shiftRight_zero, pendingMask_self,
      show (64 * st.key + mmbCtz (st.s st.level).mask) % 64 = mmbCtz (st.s st.level).mask by omega]
    exact hcset

theorem key_leaf_lt (hs : SparseWalkShape itRoot maxLevel st) :
    64 * st.key + mmbCtz (st.s st.level).mask < 64 ^ (maxLevel + 1) := by
  subst hlev
  obtain ⟨hc, -, -⟩ := mmbCtz_spec hne (hs.mask_lt _ le_rfl)
  have hkey := hs.key_lt
  rw [Nat.pow_succ]
  omega

/-- **The key found is the first hit of the search.** -/
theorem SparseExecInv.firstIn_leaf (hinv : SparseExecInv itRoot maxLevel bits lo st) :
    firstIn (sparseIterHit itRoot maxLevel bits) lo (64 ^ (maxLevel + 1)) =
      some (64 * st.key + mmbCtz (st.s st.level).mask) := by
  have hlt := key_leaf_lt hlev hne hinv.shape
  have hhit := hinv.hit_leaf hlev hne
  refine firstIn_eq_some_iff.2 ⟨?_, hlt, hhit, fun j hj hjr => ?_⟩
  · exact (hinv.pending _ hlt hhit).mpr ⟨_, le_rfl, hinv.pendingAt_leaf hlev hne⟩
  · -- a hit at or after `lo` is pending, so it is not before the key found
    cases hj' : sparseIterHit itRoot maxLevel bits j with
    | false => rfl
    | true =>
      obtain ⟨l, hl, hpa⟩ := (hinv.pending j (by omega) hj').mp hj
      exact absurd (hinv.shape.le_of_pendingAt hlev hne hl hpa).1 (Nat.not_le_of_lt hjr)

/-- The rank that the last level reports is the key's. -/
theorem SparseExecInv.rank_leaf (hinv : SparseExecInv itRoot maxLevel bits lo st) :
    sparseIterRank itRoot maxLevel (64 * st.key + mmbCtz (st.s st.level).mask) =
      (mmbitSparseIterAt itRoot st.it).val +
        mmbitMaskIndex (mmbCtz (st.s st.level).mask) (mmbitSparseIterAt itRoot st.it).mask := by
  subst hlev
  have hs := hinv.shape
  obtain ⟨hc, -, -⟩ := mmbCtz_spec hne (hs.mask_lt _ le_rfl)
  have hrec := hs.record _ le_rfl
  rw [pathBlock_self, ← hs.it_eq] at hrec
  unfold sparseIterRank
  rw [child_shiftRight_six hc, hrec,
    show (64 * st.key + mmbCtz (st.s st.level).mask) % 64 = mmbCtz (st.s st.level).mask by omega]

/-- The stack that `mmbit_sparse_iter_next_big` resumes from is the stack of the
key found, with its bit dropped. -/
theorem SparseExecInv.sparseResumeState_eq (hinv : SparseExecInv itRoot maxLevel bits lo st) :
    sparseResumeState bits maxLevel (64 * st.key + mmbCtz (st.s st.level).mask) st.s = st.dropLowest := by
  obtain ⟨hc, -, -⟩ := mmbCtz_spec hne (hinv.shape.mask_lt _ le_rfl)
  have hit := hinv.shape.it_eq
  have hbits := hinv.bits_eq
  obtain ⟨b, key, level, it, s⟩ := st
  dsimp only at hlev hc hit hbits
  subst hlev hit hbits
  simp [sparseResumeState, SparseUnsetState.dropLowest, child_shiftRight_six hc]

/-- **The search resumes after the key found.**  With the key's bit dropped,
the stack is that of the search from the next key. -/
theorem SparseExecInv.resume (hinv : SparseExecInv itRoot maxLevel bits lo st) :
    SparseResume itRoot maxLevel bits (64 * st.key + mmbCtz (st.s st.level).mask) st.s := by
  have hres := hinv.sparseResumeState_eq hlev hne
  have hlo : lo ≤ 64 * st.key + mmbCtz (st.s st.level).mask :=
    (firstIn_eq_some_iff.1 (hinv.firstIn_leaf hlev hne)).1
  subst hlev
  have hs := hinv.shape
  have hmod : (st.s st.level).mask % 2 ^ 64 ≠ 0 := by rwa [Nat.mod_eq_of_lt (hs.mask_lt _ le_rfl)]
  -- on the last level a key's node is the key itself
  have hself : ∀ k, k >>> mmbitGetKs st.level st.level = k := fun k => by
    rw [mmbitGetKs_self, Nat.shiftRight_zero]
  unfold SparseResume
  rw [hres]
  refine ⟨hs.dropLowest, hinv.bits_eq, fun l hl j hj => ?_, fun k hk hhit => ?_⟩
  · by_cases h : l = st.level
    · subst h
      rw [dropLowest_s_self, Nat.testBit_and, Bool.and_eq_true] at hj
      exact hinv.mask_set _ le_rfl j hj.1
    · rw [dropLowest_s_of_ne h] at hj
      exact hinv.mask_set l hl j hj
  · have hpend := hinv.pending k hk hhit
    constructor
    · -- a later hit: pending before, and not as the key found
      intro hgt
      obtain ⟨l, hl, hpa⟩ := hpend.mp (by omega)
      refine ⟨l, hl, hpa.1, ?_⟩
      rcases Nat.lt_or_ge l st.level with hl' | hl'
      · rw [pendingMask_dropLowest_of_lt hl']
        exact hpa.2
      · obtain rfl : l = st.level := by omega
        have hblock := hpa.1
        rw [hself, pathBlock_self] at hblock
        have hbit := hpa.2
        rw [hself, pendingMask_self] at hbit
        have hk := shiftRight_six_add_mod k
        rw [hblock] at hk
        have hne' : k % 64 ≠ mmbCtz (st.s st.level).mask := by omega
        rw [hself, pendingMask_dropLowest_self, testBit_and_sub_one hmod, hbit]
        simpa [mmbCtz] using hne'
    · -- a key still pending is after the key found
      rintro ⟨l, hl, hpa⟩
      have hl : l ≤ st.level := hl
      rcases Nat.lt_or_ge l st.level with hl' | hl'
      · have hpa' : st.PendingAt st.level l k :=
          ⟨hpa.1, by rw [← pendingMask_dropLowest_of_lt hl']; exact hpa.2⟩
        have := (hs.le_of_pendingAt rfl hne hl hpa').2 hl'
        omega
      · obtain rfl : l = st.level := by omega
        have hbit := hpa.2
        rw [hself, pendingMask_dropLowest_self, testBit_and_sub_one hmod, Bool.and_eq_true,
          decide_eq_true_iff] at hbit
        have hpa' : st.PendingAt st.level st.level k := ⟨hpa.1, by rw [hself, pendingMask_self]; exact hbit.1⟩
        have hle := (hs.le_of_pendingAt rfl hne le_rfl hpa').1
        have hblock := hpa.1
        rw [hself, show st.dropLowest.pathBlock st.level = st.key from pathBlock_self _] at hblock
        have hk := shiftRight_six_add_mod k
        rw [hblock] at hk
        have hne' : k % 64 ≠ mmbCtz (st.s st.level).mask := hbit.2
        omega

end Exec

/-! ## The whole walk -/

section ExecRun

variable {itRoot : List MmbitSparseIter} {maxLevel : Nat} {bits : Mem} {lo : Nat} {st : SparseUnsetState}

/-- On the root level, a run-out state mask leaves no hit. -/
theorem SparseExecInv.firstIn_root (hinv : SparseExecInv itRoot maxLevel bits lo st)
    (hzero : (st.s st.level).mask = 0) (hL : st.level = 0) :
    firstIn (sparseIterHit itRoot maxLevel bits) lo (64 ^ (maxLevel + 1)) = none := by
  refine firstIn_eq_none_iff.2 fun k hk hkN => ?_
  cases hhit : sparseIterHit itRoot maxLevel bits k with
  | false => rfl
  | true =>
    obtain ⟨l, hl, hpa⟩ := (hinv.pending k hkN hhit).mp hk
    obtain rfl : l = st.level := by omega
    have hbit := hpa.2
    rw [pendingMask_self, hzero, Nat.zero_testBit] at hbit
    cases hbit

theorem sparseUnsetBlockCost_mono {a b : Nat} (h : a ≤ b) : sparseUnsetBlockCost a ≤ sparseUnsetBlockCost b := by
  induction b with
  | zero => rw [Nat.le_zero.mp h]
  | succ b ih =>
    rcases Nat.lt_or_ge a (b + 1) with hab | hab
    · have := ih (by omega)
      rw [sparseUnsetBlockCost]
      have : sparseUnsetBlockCost b ≤ 2 ^ 64 * (1 + sparseUnsetBlockCost b) :=
        Nat.le_trans (Nat.le_add_left _ 1) (Nat.le_mul_of_pos_left _ (Nat.two_pow_pos 64))
      omega
    · rw [show a = b + 1 by omega]

/-- The measure of any stack of the walk is below the fuel of `mmbit_sparse_iter_exec`. -/
theorem SparseWalkShape.measure_lt (hs : SparseWalkShape itRoot maxLevel st) :
    sparseUnsetMeasure maxLevel st < (maxLevel + 1) * sparseUnsetBlockCost maxLevel + 1 := by
  have hlev := hs.level_le
  have hle : ∀ l ∈ Finset.range (st.level + 1),
      sparseUnsetLevelCost maxLevel st l ≤ sparseUnsetBlockCost maxLevel := by
    intro l hl
    rw [Finset.mem_range] at hl
    -- each level's pending mask is within its state mask
    have hmask : st.pendingMask l < 2 ^ 64 := by
      unfold SparseUnsetState.pendingMask
      split
      · exact lt_of_le_of_lt Nat.and_le_left (hs.mask_lt l (by omega))
      · exact hs.mask_lt l (by omega)
    exact Nat.le_trans (sparseUnsetLevelCost_le (by omega) hmask) (sparseUnsetBlockCost_mono (by omega))
  have hsum := Finset.sum_le_sum hle
  rw [Finset.sum_const, Finset.card_range, smul_eq_mul] at hsum
  have : (st.level + 1) * sparseUnsetBlockCost maxLevel ≤ (maxLevel + 1) * sparseUnsetBlockCost maxLevel :=
    Nat.mul_le_mul_right _ (by omega)
  unfold sparseUnsetMeasure
  omega

/-- A pass that goes on keeps the invariant and lowers the measure. -/
theorem sparseExecStep_next (hinv : SparseExecInv itRoot maxLevel bits lo st) {idx : Nat}
    {st' : SparseUnsetState} (h : mmbitSparseIterExecStep itRoot maxLevel idx st = .inr st') :
    SparseExecInv itRoot maxLevel bits lo st' ∧ sparseUnsetMeasure maxLevel st' < sparseUnsetMeasure maxLevel st := by
  unfold mmbitSparseIterExecStep at h
  split at h
  · rename_i hne
    split at h
    · cases h
    · rename_i hlev
      obtain rfl := Sum.inr.inj h
      have hlt : st.level < maxLevel := lt_of_le_of_ne hinv.shape.level_le hlev
      exact ⟨hinv.descend hne hlt, sparseUnsetMeasure_descend hne hlt⟩
  · rename_i hzero
    split at h
    · cases h
    · rename_i hL
      obtain rfl := Sum.inr.inj h
      have hzero : (st.s st.level).mask = 0 := by simpa using hzero
      exact ⟨hinv.up hzero hL, sparseUnsetMeasure_execUp hL⟩

/-- A pass that returns returns the first hit of the search, or `MMB_INVALID`. -/
theorem sparseExecStep_done (hinv : SparseExecInv itRoot maxLevel bits lo st) {idx : Nat}
    {r : Nat × Nat × (Nat → MmbitSparseState)} (h : mmbitSparseIterExecStep itRoot maxLevel idx st = .inl r) :
    SparseIterPost (sparseIterHit itRoot maxLevel bits) (64 ^ (maxLevel + 1)) (sparseIterRank itRoot maxLevel)
      (SparseResume itRoot maxLevel bits) lo r := by
  unfold mmbitSparseIterExecStep at h
  split at h
  · rename_i hne
    split at h
    · -- the last level: the key of the lowest bit
      rename_i hlev
      obtain rfl := Sum.inl.inj h
      have hkey : (st.key <<< mmbKeyShift) + mmbCtz (st.s st.level).mask =
          64 * st.key + mmbCtz (st.s st.level).mask := by
        rw [Nat.shiftLeft_eq, show mmbKeyShift = 6 from rfl, Nat.mul_comm]
      right
      dsimp only
      rw [hkey]
      exact ⟨hinv.firstIn_leaf hlev hne, (hinv.rank_leaf hlev hne).symm, hinv.resume hlev hne⟩
    · cases h
  · rename_i hzero
    split at h
    · -- the root level has run out
      rename_i hL
      obtain rfl := Sum.inl.inj h
      exact Or.inl ⟨hinv.firstIn_root (by simpa using hzero) hL, rfl⟩
    · cases h

/-- **`mmbit_sparse_iter_exec`** returns the first hit at or after where its
search starts, with its rank and a state array to resume from; or
`MMB_INVALID`. -/
theorem mmbitSparseIterExec_spec (hinv : SparseExecInv itRoot maxLevel bits lo st) (idx : Nat) :
    SparseIterPost (sparseIterHit itRoot maxLevel bits) (64 ^ (maxLevel + 1)) (sparseIterRank itRoot maxLevel)
      (SparseResume itRoot maxLevel bits) lo (mmbitSparseIterExec itRoot maxLevel idx st) :=
  Loop.run_spec (SparseExecInv itRoot maxLevel bits lo) _ (sparseUnsetMeasure maxLevel)
    (fun _ _ hst h => sparseExecStep_next hst h) (fun _ _ hst h => sparseExecStep_done hst h) _ _ hinv
    hinv.shape.measure_lt

end ExecRun

/-! ## `mmbit_sparse_iter_begin_big` and `mmbit_sparse_iter_next_big` -/

section BeginNext

variable {bits : Mem} {totalBits : Nat} {itRoot : List MmbitSparseIter} {s : Nat → MmbitSparseState}

/-- The stack that `mmbit_sparse_iter_begin_big` starts the walk from is that of
a search from the first key. -/
theorem sparseExecInv_init (maxLevel : Nat) (bits : Mem) (s : Nat → MmbitSparseState) :
    SparseExecInv itRoot maxLevel bits 0
      ⟨bits, 0, 0, 0, Function.update s 0 ⟨mmbLoad bits 0 &&& (mmbitSparseIterAt itRoot 0).mask, 0⟩⟩ := by
  have hinit : SparseUnsetInv itRoot maxLevel bits
      ⟨bits, 0, 0, 0, Function.update s 0 ⟨mmbLoad bits 0 &&& (mmbitSparseIterAt itRoot 0).mask, 0⟩⟩ :=
    sparseUnsetInv_init maxLevel bits s
  refine ⟨hinit.shape, rfl, fun l hl j hj => ?_, fun k hk hhit => ?_⟩
  · obtain rfl : l = 0 := Nat.le_zero.mp hl
    simp only [Function.update_self, Nat.testBit_and, Bool.and_eq_true] at hj
    have hset := hj.1
    rw [show mmbLoad bits 0 = mmbLoad bits (mmbitGetLevelRoot 0 + 0 * 8) from rfl, testBit_levelBlock,
      Bool.and_eq_true] at hset
    simpa [SparseUnsetState.pathBlock] using hset.2
  · obtain ⟨hiter, hpath⟩ := sparseIterHit_iff.1 hhit
    exact ⟨fun _ => hinit.pending k hk hiter hpath, fun _ => Nat.zero_le k⟩

/-- **`mmbit_sparse_iter_begin_big`** returns the first hit, its rank and a state
array to resume from; or `MMB_INVALID` when there is no hit. -/
theorem mmbitSparseIterBeginBig_spec (idx : Nat) :
    SparseIterPost (sparseIterHit itRoot (mmbitMaxlevel totalBits) bits) (64 ^ (mmbitMaxlevel totalBits + 1))
      (sparseIterRank itRoot (mmbitMaxlevel totalBits)) (SparseResume itRoot (mmbitMaxlevel totalBits) bits) 0
      (mmbitSparseIterBeginBig bits totalBits idx itRoot s) := by
  unfold mmbitSparseIterBeginBig
  dsimp only
  split
  · -- no root bit of the iterator is set: no hit
    rename_i hzero
    refine Or.inl ⟨firstIn_eq_none_iff.2 fun k _ hk => ?_, rfl⟩
    cases hhit : sparseIterHit itRoot (mmbitMaxlevel totalBits) bits k with
    | false => rfl
    | true =>
      obtain ⟨hiter, hpath⟩ := sparseIterHit_iff.1 hhit
      have := rootBlock_testBit hk hiter hpath
      rw [hzero, Nat.zero_testBit] at this
      cases this
  · exact mmbitSparseIterExec_spec (sparseExecInv_init _ bits s) idx

/-- **`mmbit_sparse_iter_next_big`** returns the first hit after the last key,
its rank and a state array to resume from; or `MMB_INVALID`. -/
theorem mmbitSparseIterNextBig_spec {k : Nat} (h : SparseResume itRoot (mmbitMaxlevel totalBits) bits k s)
    (idx : Nat) :
    SparseIterPost (sparseIterHit itRoot (mmbitMaxlevel totalBits) bits) (64 ^ (mmbitMaxlevel totalBits + 1))
      (sparseIterRank itRoot (mmbitMaxlevel totalBits)) (SparseResume itRoot (mmbitMaxlevel totalBits) bits) (k + 1)
      (mmbitSparseIterNextBig bits totalBits k idx itRoot s) := by
  rw [mmbitSparseIterNextBig_eq]
  exact mmbitSparseIterExec_spec h idx

end BeginNext

end Multibit
end Vectorscan
