import Vectorscan.Util.PQueue

/-!
# The catch-up queue of Rose

`rose/catchup.c` keeps the suffix and outfix engines that have matches to
deliver in a priority queue (`struct catchup_pq`) of `queue_match` entries,
ordered by the location of the next match: it includes `pqueue.h` with
`PQ_COMP` and `PQ_COMP_B` comparing `.loc`.  `findSecondPlace` gives the
location to which the engine on top may run before another engine's match
comes first.

**Model.**  `loc` is a `size_t`, a `BitVec 64` compared as unsigned (the key
`queueMatchLoc`).  `findSecondPlace` returns an `s64a`: `(s64a)loc` is the
two's complement reading `BitVec.toInt`, and `MIN` is the macro of
`ue2common.h`.

**Results.**  `findSecondPlace_eq`: on a heap of two or more entries,
`findSecondPlace` is the least of the limit and the least location after the
top.  `catchUpQueue_heap` gathers what the catch-up loop relies on.
-/

namespace Vectorscan
namespace Rose

open PQueue

/-- `struct queue_match`. -/
structure QueueMatch where
  loc : BitVec 64
  queue : Nat

/-- The key of `PQ_COMP` and `PQ_COMP_B`: `loc`, as a `size_t`. -/
def queueMatchLoc (m : QueueMatch) : Nat := m.loc.toNat

/-- `findSecondPlace`, for the `qmSize` entries `qm` of the queue. -/
def findSecondPlace (qm : Nat → QueueMatch) (qmSize : Nat) (locLimit : Int) : Int :=
  match qmSize with
  | 0 | 1 => locLimit
  | 2 => if (qm 1).loc.toInt < locLimit then (qm 1).loc.toInt else locLimit
  | _ =>
    -- `best` is a `size_t`: the least of the two as unsigned values
    let best := if (qm 1).loc.toNat < (qm 2).loc.toNat then (qm 1).loc else (qm 2).loc
    if best.toInt < locLimit then best.toInt else locLimit

theorem findSecondPlace_le_one (qm : Nat → QueueMatch) {n : Nat} (hn : n ≤ 1) (locLimit : Int) :
    findSecondPlace qm n locLimit = locLimit := by
  rcases (show n = 0 ∨ n = 1 by omega) with rfl | rfl <;> rfl

/-- **The second place.**  On a heap of two or more entries, `findSecondPlace`
is the least of the limit and the location of an entry after the top whose
location is the least among them. -/
theorem findSecondPlace_eq {qm : Nat → QueueMatch} {n : Nat} (h : IsHeap queueMatchLoc qm n) (hn : 2 ≤ n)
    (locLimit : Int) :
    ∃ i, 1 ≤ i ∧ i < n ∧ (∀ k, 1 ≤ k → k < n → (qm i).loc.toNat ≤ (qm k).loc.toNat) ∧
      findSecondPlace qm n locLimit = min (qm i).loc.toInt locLimit := by
  have hmin : ∀ a b : Int, (if a < b then a else b) = min a b := fun a b => by
    split_ifs with hab
    · exact (min_eq_left hab.le).symm
    · exact (min_eq_right (not_lt.mp hab)).symm
  obtain ⟨m, rfl⟩ : ∃ m, n = m + 2 := ⟨n - 2, by omega⟩
  rcases Nat.eq_zero_or_pos m with rfl | hm
  · -- two entries: the second is the only one after the top
    refine ⟨1, le_rfl, by omega, fun k hk1 hk2 => ?_, hmin _ _⟩
    rw [show k = 1 by omega]
  · -- more: the least after the top is at 1 or at 2
    have hsecond := h.second_le
    obtain ⟨m, rfl⟩ : ∃ m', m = m' + 1 := ⟨m - 1, by omega⟩
    have hfind : findSecondPlace qm (m + 1 + 2) locLimit =
        if (if (qm 1).loc.toNat < (qm 2).loc.toNat then (qm 1).loc else (qm 2).loc).toInt < locLimit then
          (if (qm 1).loc.toNat < (qm 2).loc.toNat then (qm 1).loc else (qm 2).loc).toInt else locLimit :=
      rfl
    by_cases h12 : (qm 1).loc.toNat < (qm 2).loc.toNat
    · refine ⟨1, le_rfl, by omega, fun k hk1 hk2 => ?_, ?_⟩
      · rcases hsecond k hk1 hk2 with h1 | h2
        · exact h1
        · exact h12.le.trans h2
      · rw [hfind, if_pos h12, hmin]
    · refine ⟨2, by omega, by omega, fun k hk1 hk2 => ?_, ?_⟩
      · rcases hsecond k hk1 hk2 with h1 | h2
        · exact (not_lt.mp h12).trans h1
        · exact h2
      · rw [hfind, if_neg h12, hmin]

/-- **The catch-up queue is a min-heap on `loc`.**  On a heap of `n` entries:
`pq_insert` gives a heap of the old entries and the new one; `pq_pop` (for
`n ≥ 1`) a heap of the old entries but the top, whose location is the least;
`pq_replace_top` (for `n ≥ 1`) a heap of the old entries with the top
replaced; and `findSecondPlace` is the limit for `n ≤ 1`, otherwise the least
of the limit and the least location after the top. -/
theorem catchUpQueue_heap (qm : Nat → QueueMatch) (n : Nat) (h : IsHeap queueMatchLoc qm n)
    (x : QueueMatch) (locLimit : Int) :
    (IsHeap queueMatchLoc (pqInsert queueMatchLoc qm n x) (n + 1) ∧
      pqContents (pqInsert queueMatchLoc qm n x) (n + 1) = x ::ₘ pqContents qm n) ∧
    (0 < n → IsHeap queueMatchLoc (pqPop queueMatchLoc qm n) (n - 1) ∧
      pqContents qm n = pqTop qm ::ₘ pqContents (pqPop queueMatchLoc qm n) (n - 1) ∧
      ∀ i, i < n → queueMatchLoc (pqTop qm) ≤ queueMatchLoc (qm i)) ∧
    (0 < n → IsHeap queueMatchLoc (pqReplaceTop queueMatchLoc qm n x) n ∧
      qm 0 ::ₘ pqContents (pqReplaceTop queueMatchLoc qm n x) n = x ::ₘ pqContents qm n) ∧
    (n ≤ 1 → findSecondPlace qm n locLimit = locLimit) ∧
    (2 ≤ n → ∃ i, 1 ≤ i ∧ i < n ∧ (∀ k, 1 ≤ k → k < n → (qm i).loc.toNat ≤ (qm k).loc.toNat) ∧
      findSecondPlace qm n locLimit = min (qm i).loc.toInt locLimit) :=
  ⟨pqInsert_spec h x, fun hn => ⟨(pqPop_spec h hn).1, (pqPop_spec h hn).2, pqTop_le h⟩,
    fun hn => pqReplaceTop_spec h hn x, fun hn => findSecondPlace_le_one qm hn locLimit,
    fun hn => findSecondPlace_eq h hn locLimit⟩

/-- Entries at locations `0`, `1`, `2`, … in order. -/
def ascendingQueue : Nat → QueueMatch := fun i => ⟨BitVec.ofNat 64 i, i⟩

/-- Three entries at locations `0`, `1`, `2`, a new one at `1`, the limit `10`. -/
theorem catchUpQueue_heap_three :
    IsHeap queueMatchLoc ascendingQueue 3 ∧
      ((IsHeap queueMatchLoc (pqInsert queueMatchLoc ascendingQueue 3 ⟨1, 7⟩) (3 + 1) ∧
        pqContents (pqInsert queueMatchLoc ascendingQueue 3 ⟨1, 7⟩) (3 + 1) =
          ⟨1, 7⟩ ::ₘ pqContents ascendingQueue 3) ∧
      (0 < 3 → IsHeap queueMatchLoc (pqPop queueMatchLoc ascendingQueue 3) (3 - 1) ∧
        pqContents ascendingQueue 3 =
          pqTop ascendingQueue ::ₘ pqContents (pqPop queueMatchLoc ascendingQueue 3) (3 - 1) ∧
        ∀ i, i < 3 → queueMatchLoc (pqTop ascendingQueue) ≤ queueMatchLoc (ascendingQueue i)) ∧
      (0 < 3 → IsHeap queueMatchLoc (pqReplaceTop queueMatchLoc ascendingQueue 3 ⟨1, 7⟩) 3 ∧
        ascendingQueue 0 ::ₘ pqContents (pqReplaceTop queueMatchLoc ascendingQueue 3 ⟨1, 7⟩) 3 =
          ⟨1, 7⟩ ::ₘ pqContents ascendingQueue 3) ∧
      (3 ≤ 1 → findSecondPlace ascendingQueue 3 10 = 10) ∧
      (2 ≤ 3 → ∃ i, 1 ≤ i ∧ i < 3 ∧
        (∀ k, 1 ≤ k → k < 3 → (ascendingQueue i).loc.toNat ≤ (ascendingQueue k).loc.toNat) ∧
        findSecondPlace ascendingQueue 3 10 = min (ascendingQueue i).loc.toInt 10)) :=
  have h : IsHeap queueMatchLoc ascendingQueue 3 := by
    intro i hi0 hi
    simp only [queueMatchLoc, ascendingQueue, BitVec.toNat_ofNat, pqParent_eq]
    rw [Nat.mod_eq_of_lt (by omega), Nat.mod_eq_of_lt (by omega)]
    omega
  ⟨h, catchUpQueue_heap ascendingQueue 3 h ⟨1, 7⟩ 10⟩

end Rose
end Vectorscan
