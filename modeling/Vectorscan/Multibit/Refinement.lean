import Vectorscan.Lib.Refinement
import Vectorscan.Multibit.SparseIter

/-!
# Multibit: a refinement of a set of keys

A multibit of `total_bits` keys stands for the set `mmbitKeys` of the keys
whose bit is on along the whole root-to-leaf path (in the flat model: whose
bit is on).  This module puts the updates of `src/util/multibit.h` side by
side with the updates of that set and proves that the code refines it.

**Model.**  `MmbitOp` lists the updates (`mmbit_set`, `mmbit_unset`,
`mmbit_unset_range`, `mmbit_init_range`, `mmbit_sparse_iter_unset`),
`MmbitOp.apply` runs one on the memory and `MmbitOp.effect` says what it does
to the set.  `MmbitOp.Admissible` is what the source asserts of the
arguments, and for the sparse iterator what its builder guarantees.  A
multibit is made by `mmbit_clear` or `mmbit_init_range` from any memory
(`MmbitInit`); `mmbitRun` runs a list of updates from there, `keySetRun`
the abstract updates from the set the start makes.

**Results.**  `mmbitOp_simulation`: the updates form a simulation of the set
through `mmbitKeys`, with `MmbitValid` as the invariant.
`mmbitRefines_of_valid`: the queries of a valid multibit agree with its set,
`mmbit_iterate` under the precondition that `multibit.h` documents (a start
of `MMB_INVALID` or of a key that is on).  `mmbitRun_refines_keySet` puts the
two together over every run.  `mmbitIterate_stale_of_clear` shows that the
precondition of `mmbit_iterate` is needed: after `mmbit_clear`, a tree
multibit keeps its old leaf blocks, and an iteration from a key that is off
finds them.
-/

namespace Vectorscan
namespace Multibit

open KeySet

/-! ## Updates and their effect on the set of keys -/

/-- An update of a multibit, with its arguments; the sparse iterator's
scratch state `s` is the caller's. -/
inductive MmbitOp
  | set (key : Nat)
  | unset (key : Nat)
  | unsetRange (begin endKey : Nat)
  | initRange (begin endKey : Nat)
  | sparseIterUnset (itRoot : List MmbitSparseIter) (s : Nat → MmbitSparseState)

namespace MmbitOp

/-- The arguments the source asserts, or that the iterator's builder guarantees. -/
def Admissible (totalBits : Nat) : MmbitOp → Prop
  | set key => key < totalBits
  | unset key => key < totalBits
  | unsetRange begin endKey => begin ≤ endKey ∧ endKey ≤ totalBits
  | initRange begin endKey => begin ≤ endKey ∧ endKey ≤ totalBits
  | sparseIterUnset itRoot _ => MmbitSparseIterValid itRoot totalBits

/-- The update run on the memory (the result of `mmbit_set` is a query, below). -/
def apply (totalBits : Nat) (bits : Mem) : MmbitOp → Mem
  | set key => (mmbitSet bits totalBits key).1
  | unset key => mmbitUnset bits totalBits key
  | unsetRange begin endKey => mmbitUnsetRange bits totalBits begin endKey
  | initRange begin endKey => mmbitInitRange bits totalBits begin endKey
  | sparseIterUnset itRoot s => mmbitSparseIterUnset bits totalBits itRoot s

/-- What the update does to the set of keys. -/
def effect (totalBits : Nat) (S : Set Nat) : MmbitOp → Set Nat
  | set key => insert key S
  | unset key => S \ {key}
  | unsetRange begin endKey => S \ Set.Ico begin endKey
  | initRange begin endKey => Set.Ico begin endKey
  | sparseIterUnset itRoot _ => S \ mmbitSparseIterKeys itRoot totalBits

end MmbitOp

/-- How a multibit is made from a memory of any contents. -/
inductive MmbitInit
  | clear
  | initRange (begin endKey : Nat)

namespace MmbitInit

def Admissible (totalBits : Nat) : MmbitInit → Prop
  | clear => True
  | initRange begin endKey => begin ≤ endKey ∧ endKey ≤ totalBits

def apply (totalBits : Nat) (bits : Mem) : MmbitInit → Mem
  | clear => mmbitClear bits totalBits
  | initRange begin endKey => mmbitInitRange bits totalBits begin endKey

/-- The set of keys the start makes. -/
def keys : MmbitInit → Set Nat
  | clear => ∅
  | initRange begin endKey => Set.Ico begin endKey

end MmbitInit

/-- The multibit made by `init` from `bits`, then changed by `ops` in order. -/
def mmbitRun (totalBits : Nat) (bits : Mem) (init : MmbitInit) (ops : List MmbitOp) : Mem :=
  ops.foldl (fun m op => op.apply totalBits m) (init.apply totalBits bits)

/-- The same run on the set of keys. -/
def keySetRun (totalBits : Nat) (init : MmbitInit) (ops : List MmbitOp) : Set Nat :=
  ops.foldl (fun S op => op.effect totalBits S) init.keys

/-! ## The updates simulate the set -/

section Updates

variable {totalBits : Nat} (hmax : totalBits ≤ mmbMaxBits)
include hmax

/-- One update keeps the invariant and does to the keys what its effect says. -/
theorem mmbitOp_apply_spec {bits : Mem} (hv : MmbitValid totalBits bits) {op : MmbitOp}
    (hop : op.Admissible totalBits) :
    MmbitValid totalBits (op.apply totalBits bits) ∧
      mmbitKeys totalBits (op.apply totalBits bits) = op.effect totalBits (mmbitKeys totalBits bits) := by
  cases op with
  | set key => exact ⟨mmbitValid_mmbitSet hmax hop hv, mmbitKeys_mmbitSet hmax hop⟩
  | unset key => exact ⟨mmbitValid_mmbitUnset hmax hop hv, mmbitKeys_mmbitUnset hmax hop⟩
  | unsetRange begin endKey => exact (mmbitUnsetRange_spec hmax hop.1 hop.2 hv).symm
  | initRange begin endKey => exact (mmbitInitRange_spec hmax hop.1 hop.2).symm
  | sparseIterUnset itRoot s =>
      exact ⟨mmbitValid_mmbitSparseIterUnset hmax hop hv, mmbitKeys_mmbitSparseIterUnset hmax hop⟩

theorem mmbitOp_simulation :
    Simulation (fun m op => MmbitOp.apply totalBits m op) (fun S op => MmbitOp.effect totalBits S op)
      (mmbitKeys totalBits) (MmbitValid totalBits) (MmbitOp.Admissible totalBits) where
  inv_step _ _ hv hop := (mmbitOp_apply_spec hmax hv hop).1
  abs_step _ _ hv hop := (mmbitOp_apply_spec hmax hv hop).2

/-- Both ways of making a multibit give a valid one with the start's keys. -/
theorem mmbitInit_apply_spec (bits : Mem) {init : MmbitInit} (hinit : init.Admissible totalBits) :
    MmbitValid totalBits (init.apply totalBits bits) ∧
      mmbitKeys totalBits (init.apply totalBits bits) = init.keys := by
  cases init with
  | clear => exact ⟨mmbitValid_mmbitClear, mmbitKeys_mmbitClear hmax⟩
  | initRange begin endKey => exact (mmbitInitRange_spec hmax hinit.1 hinit.2).symm

/-- Every run is valid and stands for the abstract run. -/
theorem mmbitRun_spec (bits : Mem) {init : MmbitInit} (hinit : init.Admissible totalBits)
    {ops : List MmbitOp} (hops : ∀ op ∈ ops, op.Admissible totalBits) :
    MmbitValid totalBits (mmbitRun totalBits bits init ops) ∧
      mmbitKeys totalBits (mmbitRun totalBits bits init ops) = keySetRun totalBits init ops := by
  obtain ⟨hv, hkeys⟩ := mmbitInit_apply_spec hmax bits hinit
  unfold mmbitRun keySetRun
  rw [← hkeys]
  exact (mmbitOp_simulation hmax).foldl ops _ hv hops

end Updates

/-! ## The queries agree with the set -/

section Queries

variable {bits : Mem} {totalBits : Nat} (hv : MmbitValid totalBits bits)
  (hmax : totalBits ≤ mmbMaxBits)
include hv hmax

/-- **`mmbit_iterate`**, from `MMB_INVALID` or from a key that is on, returns
the least key of the set after it. -/
theorem mmbitIterate_eq_leastIn {itIn : Nat} (hit : itIn = mmbInvalid ∨ itIn ∈ mmbitKeys totalBits bits) :
    mmbitIterate bits totalBits itIn =
      (leastIn (mmbitKeys totalBits bits) (if itIn = mmbInvalid then 0 else itIn + 1) totalBits).getD
        mmbInvalid := by
  rw [mmbitIterate_eq hv hmax hit, firstIn_eq_leastIn]
  intro k _ _
  exact decide_eq_true_iff

/-- **`mmbit_iterate_bounded`** returns the least key of the set in `[begin, end)`. -/
theorem mmbitIterateBounded_eq_leastIn {itStart itEnd : Nat} (hse : itStart ≤ itEnd)
    (hend : itEnd ≤ totalBits) :
    mmbitIterateBounded bits totalBits itStart itEnd =
      (leastIn (mmbitKeys totalBits bits) itStart itEnd).getD mmbInvalid := by
  rw [mmbitIterateBounded_eq hv hmax hse hend, firstIn_eq_leastIn]
  intro k _ _
  exact decide_eq_true_iff

end Queries

/-- A multibit `bits` of `totalBits` keys refines the set `S`: it stands for
`S`, each update does to it what the update's effect does to `S`, and each
query answers about `S`. -/
structure MmbitRefines (totalBits : Nat) (bits : Mem) (S : Set Nat) : Prop where
  keys_eq : mmbitKeys totalBits bits = S
  valid : MmbitValid totalBits bits
  update : ∀ op : MmbitOp, op.Admissible totalBits →
    mmbitKeys totalBits (op.apply totalBits bits) = op.effect totalBits S
  set_ret : ∀ key, key < totalBits → ((mmbitSet bits totalBits key).2 = true ↔ key ∈ S)
  isset : ∀ key, key < totalBits → (mmbitIsset bits totalBits key = true ↔ key ∈ S)
  iterate : ∀ itIn, itIn = mmbInvalid ∨ itIn ∈ S →
    mmbitIterate bits totalBits itIn =
      (leastIn S (if itIn = mmbInvalid then 0 else itIn + 1) totalBits).getD mmbInvalid
  iterateBounded : ∀ itStart itEnd, itStart ≤ itEnd → itEnd ≤ totalBits →
    mmbitIterateBounded bits totalBits itStart itEnd = (leastIn S itStart itEnd).getD mmbInvalid
  anyPrecise : mmbitAnyPrecise bits totalBits = true ↔ S.Nonempty
  all : mmbitAll bits totalBits = true ↔ ∀ k, k < totalBits → k ∈ S
  -- `mmbit_any` may answer yes on a multibit with no key on
  any : S.Nonempty → mmbitAny bits totalBits = true

/-- A valid multibit refines its own set of keys. -/
theorem mmbitRefines_of_valid {bits : Mem} {totalBits : Nat} (hmax : totalBits ≤ mmbMaxBits)
    (hv : MmbitValid totalBits bits) : MmbitRefines totalBits bits (mmbitKeys totalBits bits) where
  keys_eq := rfl
  valid := hv
  update _ hop := (mmbitOp_apply_spec hmax hv hop).2
  set_ret key hk := by rw [mmbitSet_ret hmax hk, decide_eq_true_iff]; rfl
  isset key hk := by rw [mmbitIsset_eq hk, decide_eq_true_iff]; rfl
  iterate _ hit := mmbitIterate_eq_leastIn hv hmax hit
  iterateBounded _ _ hse hend := mmbitIterateBounded_eq_leastIn hv hmax hse hend
  anyPrecise := mmbitAnyPrecise_iff hv hmax
  all := mmbitAll_iff hmax
  any := mmbitAny_of_nonempty hv hmax

/-! ## Runs -/

/-- **Refinement.**  A multibit made by `mmbit_clear` or `mmbit_init_range`
from any memory and changed by any admissible updates refines the abstract
run. -/
theorem mmbitRun_refines_keySet {totalBits : Nat} (hmax : totalBits ≤ mmbMaxBits) (bits : Mem)
    {init : MmbitInit} (hinit : init.Admissible totalBits) {ops : List MmbitOp}
    (hops : ∀ op ∈ ops, op.Admissible totalBits) :
    MmbitRefines totalBits (mmbitRun totalBits bits init ops) (keySetRun totalBits init ops) := by
  obtain ⟨hv, hkeys⟩ := mmbitRun_spec hmax bits hinit hops
  rw [← hkeys]
  exact mmbitRefines_of_valid hmax hv

theorem mmbitRun_refines_keySet_tree257 :
    (257 ≤ mmbMaxBits ∧ MmbitInit.clear.Admissible 257 ∧
        ∀ op ∈ [MmbitOp.set 1, MmbitOp.set 200, MmbitOp.unsetRange 0 100], op.Admissible 257) ∧
      MmbitRefines 257 (mmbitRun 257 (fun _ => false) .clear [.set 1, .set 200, .unsetRange 0 100])
        (keySetRun 257 .clear [.set 1, .set 200, .unsetRange 0 100]) := by
  have hmax : 257 ≤ mmbMaxBits := by decide
  have hinit : MmbitInit.clear.Admissible 257 := trivial
  have hops : ∀ op ∈ [MmbitOp.set 1, MmbitOp.set 200, MmbitOp.unsetRange 0 100], op.Admissible 257 := by
    simp [MmbitOp.Admissible]
  exact ⟨⟨hmax, hinit, hops⟩, mmbitRun_refines_keySet hmax _ hinit hops⟩

/-- `mmbit_iterate` from a key that is off may return a key that is off:
`mmbit_clear` (here as `mmbit_init_range` of an empty range) clears only the
root block of a tree multibit, and an iteration from a key starts at that
key's leaf block. -/
theorem mmbitIterate_stale_of_clear :
    mmbitKeys 257 (mmbitRun 257 (fun _ => false) .clear [.set 1, .initRange 0 0]) = ∅ ∧
      mmbitIterate (mmbitRun 257 (fun _ => false) .clear [.set 1, .initRange 0 0]) 257 0 = 1 := by
  refine ⟨?_, by decide +kernel⟩
  simp only [mmbitRun, List.foldl_cons, List.foldl_nil, MmbitOp.apply]
  rw [(mmbitInitRange_spec (show 257 ≤ mmbMaxBits by decide) (le_refl 0) (Nat.zero_le 257)).1,
    Set.Ico_self]

end Multibit
end Vectorscan
