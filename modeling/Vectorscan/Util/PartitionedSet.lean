import Vectorscan.Lib.Partition

/-!
# partitioned_set

`util/partitioned_set.h` keeps a partition of the integers `[0, n)` into
non-empty subsets, each a sorted vector of members, and `member_to_subset`,
the subset of each integer.  Hopcroft's minimisation (`nfa/dfa_min.cpp`)
refines it with `split(i, splitter)`: subset `i` is cut into its members in the
splitter and those outside it, the larger part stays at `i` and the smaller
becomes a new subset.  `find_overlapping` lists the subsets that hold a key.

**Model.**  Members are `Nat`: the constructor asserts that each fits the
member type `T`.  Vectors are lists and a `flat_set` is a sorted list;
`std::lower_bound` on the sorted splitter, from the cursor on, is
`dropWhile (· < member)`.  `split_temp_diff` and `split_temp_inter` are the
accumulators of `splitLoop`; the `boost::dynamic_bitset` of
`find_overlapping` is a list of `Bool`s.  `runSplits` is a client's sequence
of calls.

**Results.**  The invariant is `Partition.IsPartition` over
`member_to_subset` and the subsets.  `isPartition_partitionedSet`: the
constructor establishes it.  `split_of_subset_or_disjoint` and
`split_of_overlap`: what `split` does, for a sorted splitter.
`isPartition_split` and `isPartition_runSplits`: every sequence of splits
keeps the invariant.  `findOverlapping_eq`: the subsets that meet the keys, in
order.  `Contract` gathers what a client relies on, and
`partitionedSet_runSplits_contract` gives it after any sequence of splits.
-/

open Vectorscan.Partition

namespace Vectorscan

/-- `INVALID_SUBSET`, `~(size_t)0`. -/
def invalidSubset : Nat := 2 ^ 64 - 1

/-- `partitioned_set<T>`: `member_to_subset`, and the sorted members of each subset. -/
structure PartitionedSet where
  memberToSubset : List Nat
  subsets : List (List Nat)
deriving DecidableEq, Repr

/-- The first loop of the constructor: `ENSURE_AT_LEAST(&subset_count, sub + 1)`
for each entry. -/
def subsetCount (stateToSubset : List Nat) : Nat :=
  stateToSubset.foldl (fun count sub => max count (sub + 1)) 0

/-- The second loop of the constructor, from element `i` on:
`member_to_subset[i] = sub` and `subsets[sub].members.emplace_back(i)`. -/
def fillSubsets : List Nat → Nat → PartitionedSet → PartitionedSet
  | [], _, ps => ps
  | sub :: rest, i, ps =>
    fillSubsets rest (i + 1)
      { memberToSubset := ps.memberToSubset.set i sub,
        subsets := ps.subsets.modify sub (· ++ [i]) }

/-- The constructor `partitioned_set(state_to_subset)`. -/
def partitionedSet (stateToSubset : List Nat) : PartitionedSet :=
  fillSubsets stateToSubset 0
    { memberToSubset := List.replicate stateToSubset.length 0,
      subsets := List.replicate (subsetCount stateToSubset) [] }

namespace PartitionedSet

/-- The loop of `split` over the members of the subset, with `spIt` the
cursor into the splitter: each member goes to `diff` or `inter`, and once the
splitter is exhausted the rest go to `diff`. -/
def splitLoop : List Nat → List Nat → List Nat → List Nat → List Nat × List Nat
  | [], _, diff, inter => (diff, inter)
  | member :: rest, spIt, diff, inter =>
    match spIt.dropWhile (· < member) with
    | [] => (diff ++ member :: rest, inter)
    | s :: spRest =>
      if s > member then splitLoop rest (s :: spRest) (diff ++ [member]) inter
      else splitLoop rest (s :: spRest) diff (inter ++ [member])

/-- `for (const auto &e : *small) member_to_subset[e] = new_index;` -/
def setSubsetOf (small : List Nat) (newIndex : Nat) (memberToSubset : List Nat) : List Nat :=
  small.foldl (fun m e => m.set e newIndex) memberToSubset

/-- `split(subset_index, splitter)`: the index of the new subset, or
`INVALID_SUBSET` when the subset is not split. -/
def split (ps : PartitionedSet) (subsetIndex : Nat) (splitter : List Nat) : Nat × PartitionedSet :=
  if splitter.isEmpty then (invalidSubset, ps)
  else
    let orig := ps.subsets.getD subsetIndex []
    if orig.getLastD 0 < splitter.headD 0 then (invalidSubset, ps)
    else if orig.headD 0 > splitter.getLastD 0 then (invalidSubset, ps)
    else
      let parts := splitLoop orig splitter [] []
      let diff := parts.1
      let inter := parts.2
      if inter.isEmpty then (invalidSubset, ps)
      else if diff.isEmpty then (invalidSubset, ps)
      else
        -- the larger half stays at `subset_index`; on a tie, the intersection
        let big := if diff.length > inter.length then diff else inter
        let small := if diff.length > inter.length then inter else diff
        let newIndex := ps.subsets.length
        (newIndex,
          { memberToSubset := setSubsetOf small newIndex ps.memberToSubset,
            subsets := ps.subsets.set subsetIndex big ++ [small] })

/-- `find_overlapping(keys, containing)`: appends to `containing`, in
increasing order, the index of every subset that holds a key. -/
def findOverlapping (ps : PartitionedSet) (keys containing : List Nat) : List Nat :=
  let seen := keys.foldl (fun seen key => seen.set (ps.memberToSubset.getD key 0) true)
    (List.replicate ps.subsets.length false)
  containing ++ (List.range ps.subsets.length).filter (fun i => seen.getD i false)

/-- A sequence of calls `split(i, splitter)`, their results dropped. -/
def runSplits (ps : PartitionedSet) (calls : List (Nat × List Nat)) : PartitionedSet :=
  calls.foldl (fun ps call => (ps.split call.1 call.2).2) ps

end PartitionedSet

/-! ## The constructor -/

section Constructor

theorem le_foldl_max (l : List Nat) (count : Nat) :
    count ≤ l.foldl (fun count sub => max count (sub + 1)) count := by
  induction l generalizing count with
  | nil => exact le_rfl
  | cons sub rest ih => exact (le_max_left count (sub + 1)).trans (ih _)

theorem lt_subsetCount {stateToSubset : List Nat} {s : Nat} (hs : s ∈ stateToSubset) :
    s < subsetCount stateToSubset := by
  suffices ∀ count, s < stateToSubset.foldl (fun count sub => max count (sub + 1)) count from
    this 0
  induction stateToSubset with
  | nil => cases hs
  | cons sub rest ih =>
    intro count
    rcases List.mem_cons.mp hs with rfl | hrest
    · exact Nat.lt_of_succ_le ((le_max_right count (s + 1)).trans (le_foldl_max rest _))
    · exact ih hrest _

/-- Appending to subset `sub` changes only its members. -/
theorem getD_modify_append {l : List (List Nat)} {sub : Nat} (hsub : sub < l.length) (i j : Nat) :
    (l.modify sub (· ++ [i])).getD j [] = if sub = j then l.getD j [] ++ [i] else l.getD j [] := by
  simp only [List.getD_eq_getElem?_getD, List.getElem?_modify]
  by_cases hj : j < l.length
  · simp [List.getElem?_eq_getElem hj]
  · have hsj : sub ≠ j := fun hsj => hj (hsj ▸ hsub)
    simp [hsj]

/-- The constructor's second loop after the elements below `i`: they have
their subset in `member_to_subset` and are the members of their subset. -/
structure FillInv (stateToSubset : List Nat) (i : Nat) (ps : PartitionedSet) : Prop where
  le : i ≤ stateToSubset.length
  length_eq : ps.memberToSubset.length = stateToSubset.length
  lookup : ∀ x < i, ps.memberToSubset[x]? = stateToSubset[x]?
  subsets_length : ps.subsets.length = subsetCount stateToSubset
  members : ∀ j, ps.subsets.getD j [] = (List.range i).filter (fun x => stateToSubset[x]? = some j)

variable {stateToSubset : List Nat}

theorem fillInv_init :
    FillInv stateToSubset 0
      { memberToSubset := List.replicate stateToSubset.length 0,
        subsets := List.replicate (subsetCount stateToSubset) [] } := by
  refine ⟨Nat.zero_le _, List.length_replicate, fun x hx => absurd hx (Nat.not_lt_zero x),
    List.length_replicate, fun j => ?_⟩
  simp only [List.getD_eq_getElem?_getD, List.getElem?_replicate, List.range_zero, List.filter_nil]
  split <;> rfl

theorem FillInv.step {i sub : Nat} {ps : PartitionedSet} (h : FillInv stateToSubset i ps)
    (hsub : stateToSubset[i]? = some sub) :
    FillInv stateToSubset (i + 1)
      { memberToSubset := ps.memberToSubset.set i sub,
        subsets := ps.subsets.modify sub (· ++ [i]) } := by
  obtain ⟨hi, -⟩ := List.getElem?_eq_some_iff.mp hsub
  have hsub_lt : sub < ps.subsets.length :=
    h.subsets_length ▸ lt_subsetCount (List.mem_of_getElem? hsub)
  refine ⟨hi, by rw [List.length_set, h.length_eq], fun x hx => ?_,
    by rw [List.length_modify, h.subsets_length], fun j => ?_⟩
  · -- the new element gets `sub`; those below keep theirs
    rw [List.getElem?_set]
    by_cases hxi : i = x
    · subst hxi
      rw [if_pos rfl, if_pos (h.length_eq ▸ hi), hsub]
    · rw [if_neg hxi, h.lookup x (by omega)]
  · rw [getD_modify_append hsub_lt, List.range_succ, List.filter_append, h.members j,
      List.filter_singleton, hsub]
    by_cases hj : sub = j
    · simp [hj]
    · simp [hj]

/-- The whole loop, from element `i` to the end. -/
theorem FillInv.fill : ∀ {rest : List Nat} {i : Nat} {ps : PartitionedSet},
    FillInv stateToSubset i ps → stateToSubset.drop i = rest →
      FillInv stateToSubset stateToSubset.length (fillSubsets rest i ps)
  | [], i, ps, h, hrest => by
    have hi : i = stateToSubset.length :=
      le_antisymm h.le (List.drop_eq_nil_iff.mp hrest)
    exact hi ▸ h
  | sub :: rest, i, ps, h, hrest => by
    have hsub : stateToSubset[i]? = some sub := by
      rw [← Nat.add_zero i, ← List.getElem?_drop, hrest]
      rfl
    have hnext : stateToSubset.drop (i + 1) = rest := by
      rw [← List.drop_drop, hrest]
      rfl
    exact (h.step hsub).fill hnext

/-- **The constructor.**  When every subset index below the count is used,
`partitioned_set(state_to_subset)` partitions `[0, n)` into the subsets that
`state_to_subset` gives. -/
theorem isPartition_partitionedSet (hdense : ∀ t < subsetCount stateToSubset, t ∈ stateToSubset) :
    IsPartition stateToSubset.length (partitionedSet stateToSubset).memberToSubset
      (partitionedSet stateToSubset).subsets := by
  have h : FillInv stateToSubset stateToSubset.length (partitionedSet stateToSubset) :=
    FillInv.fill fillInv_init List.drop_zero
  have hm2s : (partitionedSet stateToSubset).memberToSubset = stateToSubset := by
    apply List.ext_getElem?
    intro x
    by_cases hx : x < stateToSubset.length
    · exact h.lookup x hx
    · rw [List.getElem?_eq_none (by rw [h.length_eq]; omega), List.getElem?_eq_none (by omega)]
  have hmem : ∀ j x, x ∈ (partitionedSet stateToSubset).subsets.getD j [] ↔
      stateToSubset[x]? = some j := by
    intro j x
    rw [h.members j, List.mem_filter, List.mem_range, decide_eq_true_iff]
    exact ⟨fun hx => hx.2, fun hx => ⟨(List.getElem?_eq_some_iff.mp hx).1, hx⟩⟩
  refine ⟨by rw [hm2s], fun S hS => ?_, fun S hS => ?_, fun j x => by rw [hmem, hm2s]⟩
  · -- a subset is non-empty: its index is used by some element
    obtain ⟨j, hj, rfl⟩ := List.getElem_of_mem hS
    obtain ⟨x, hx⟩ := List.mem_iff_getElem?.mp (hdense j (h.subsets_length ▸ hj))
    rw [← List.getD_eq_getElem _ [] hj]
    exact List.ne_nil_of_mem ((hmem j x).mpr hx)
  · obtain ⟨j, hj, rfl⟩ := List.getElem_of_mem hS
    rw [← List.getD_eq_getElem _ [] hj, h.members j]
    exact List.pairwise_lt_range.filter _

end Constructor

namespace PartitionedSet

/-! ## split -/

section Split

/-- **The split loop.**  On sorted members and a sorted splitter, the loop
puts the members outside the splitter after `diff` and those inside it after
`inter`, in order. -/
theorem splitLoop_eq {members : List Nat} (hm : members.Pairwise (· < ·)) {spIt : List Nat}
    (hsp : spIt.Pairwise (· ≤ ·)) (diff inter : List Nat) :
    splitLoop members spIt diff inter =
      (diff ++ members.filter (· ∉ spIt), inter ++ members.filter (· ∈ spIt)) := by
  induction members generalizing spIt diff inter with
  | nil => simp [splitLoop]
  | cons member rest ih =>
    have hrest : ∀ y ∈ rest, member < y := fun y hy => List.rel_of_pairwise_cons hm hy
    rcases hstop : spIt.dropWhile (· < member) with _ | ⟨s, spRest⟩
    · -- the splitter is exhausted: no member is in it
      have hout : ∀ y ∈ member :: rest, y ∉ spIt := by
        intro y hy hys
        have hle : member ≤ y := by
          rcases List.mem_cons.mp hy with rfl | hy
          · exact le_rfl
          · exact (hrest y hy).le
        exact absurd (lt_of_dropWhile_lt_eq_nil hstop hys) (not_lt.mpr hle)
      have hdiff : (member :: rest).filter (· ∉ spIt) = member :: rest :=
        List.filter_eq_self.mpr (fun y hy => by simpa using hout y hy)
      have hinter : (member :: rest).filter (· ∈ spIt) = [] :=
        List.filter_eq_nil_iff.mpr (fun y hy => by simpa using hout y hy)
      simp only [splitLoop, hstop, hdiff, hinter, List.append_nil]
    · -- the cursor stops at `s ≥ member`; the later members see the same splitter
      have hsorted : (s :: spRest).Pairwise (· ≤ ·) :=
        hstop ▸ hsp.sublist (List.dropWhile_suffix _).sublist
      have hsame : ∀ y ∈ rest, (y ∈ s :: spRest ↔ y ∈ spIt) :=
        fun y hy => hstop ▸ mem_dropWhile_lt_iff (hrest y hy).le
      have hout : rest.filter (· ∉ s :: spRest) = rest.filter (· ∉ spIt) :=
        List.filter_congr (fun y hy => by simp [hsame y hy])
      have hin : rest.filter (· ∈ s :: spRest) = rest.filter (· ∈ spIt) :=
        List.filter_congr (fun y hy => by simp [hsame y hy])
      by_cases hgt : s > member
      · have hnot : member ∉ spIt := not_mem_of_dropWhile_lt_eq_cons hsp hstop hgt
        simp only [splitLoop, hstop, if_pos hgt, ih hm.of_cons hsorted, hout, hin]
        simp [hnot]
      · have hs : s = member := le_antisymm (not_lt.mp hgt) (le_of_dropWhile_lt_eq_cons hstop)
        have hsin : s ∈ spIt.dropWhile (· < member) := by
          rw [hstop]
          exact List.mem_cons_self
        have hmem : member ∈ spIt := hs ▸ (List.dropWhile_suffix _).subset hsin
        simp only [splitLoop, hstop, if_neg hgt, ih hm.of_cons hsorted, hout, hin]
        simp [hmem]

/-- `for (const auto &e : *small) member_to_subset[e] = new_index;` points
the members of `small` at the new subset and leaves the rest. -/
theorem getElem?_setSubsetOf {small : List Nat} {memberToSubset : List Nat}
    (hsmall : ∀ x ∈ small, x < memberToSubset.length) (newIndex x : Nat) :
    (setSubsetOf small newIndex memberToSubset)[x]? =
      if x ∈ small then some newIndex else memberToSubset[x]? := by
  rw [setSubsetOf, getElem?_foldl_set (fun e => e)]
  by_cases hx : x ∈ small
  · simp [hx, List.getElem?_eq_getElem (hsmall x hx)]
  · simp [hx]

theorem length_setSubsetOf (small : List Nat) (newIndex : Nat) (memberToSubset : List Nat) :
    (setSubsetOf small newIndex memberToSubset).length = memberToSubset.length :=
  length_foldl_set (fun e => e) newIndex small memberToSubset

variable {ps : PartitionedSet} {n : Nat} (h : IsPartition n ps.memberToSubset ps.subsets)
  {splitter : List Nat} (hsp : splitter.Pairwise (· ≤ ·))
include h hsp

/-- The loop on a subset of a partition. -/
theorem splitLoop_subset (i : Nat) :
    splitLoop (ps.subsets.getD i []) splitter [] [] =
      ((ps.subsets.getD i []).filter (· ∉ splitter), (ps.subsets.getD i []).filter (· ∈ splitter)) :=
  splitLoop_eq (h.sorted_getD i) hsp [] []

/-- **No split.**  When subset `i` lies in the splitter or misses it, `split`
returns `INVALID_SUBSET` and changes nothing. -/
theorem split_of_subset_or_disjoint (i : Nat)
    (hS : (∀ x ∈ ps.subsets.getD i [], x ∈ splitter) ∨ (∀ x ∈ ps.subsets.getD i [], x ∉ splitter)) :
    ps.split i splitter = (invalidSubset, ps) := by
  -- past the guards, one of the two halves is empty
  have hempty : ((ps.subsets.getD i []).filter (· ∈ splitter)).isEmpty ∨
      ((ps.subsets.getD i []).filter (· ∉ splitter)).isEmpty := by
    rcases hS with hall | hnone
    · exact Or.inr (List.isEmpty_iff.mpr (List.filter_eq_nil_iff.mpr (fun x hx => by simp [hall x hx])))
    · exact Or.inl (List.isEmpty_iff.mpr (List.filter_eq_nil_iff.mpr (fun x hx => by simp [hnone x hx])))
  simp only [split, splitLoop_subset h hsp i]
  rcases hempty with hinter | hdiff
  · simp only [hinter]
    split_ifs <;> rfl
  · simp only [hdiff]
    split_ifs <;> rfl

/-- **A split.**  When subset `i` meets the splitter and is not inside it,
`split` keeps the larger of the two halves at `i` (the intersection on a tie),
appends the smaller as a new subset, points its members at it and returns its
index. -/
theorem split_of_overlap (i : Nat)
    (hin : ∃ x ∈ ps.subsets.getD i [], x ∈ splitter) (hout : ∃ x ∈ ps.subsets.getD i [], x ∉ splitter) :
    ps.split i splitter =
      (ps.subsets.length,
        let inter := (ps.subsets.getD i []).filter (· ∈ splitter)
        let diff := (ps.subsets.getD i []).filter (· ∉ splitter)
        let big := if diff.length > inter.length then diff else inter
        let small := if diff.length > inter.length then inter else diff
        { memberToSubset := setSubsetOf small ps.subsets.length ps.memberToSubset,
          subsets := ps.subsets.set i big ++ [small] }) := by
  obtain ⟨x, hxS, hxX⟩ := hin
  obtain ⟨y, hyS, hyX⟩ := hout
  have hS := (h.sorted_getD i).imp (fun hab => le_of_lt hab)
  -- the guards: the splitter is not empty and its range meets the subset's
  have hne : splitter.isEmpty = false := List.isEmpty_eq_false_iff.mpr (List.ne_nil_of_mem hxX)
  have hlast : ¬ (ps.subsets.getD i []).getLastD 0 < splitter.headD 0 :=
    not_lt.mpr ((headD_le_of_mem hsp hxX 0).trans (le_getLastD_of_mem hS hxS 0))
  have hhead : ¬ (ps.subsets.getD i []).headD 0 > splitter.getLastD 0 :=
    not_lt.mpr ((headD_le_of_mem hS hxS 0).trans (le_getLastD_of_mem hsp hxX 0))
  have hinter : ((ps.subsets.getD i []).filter (· ∈ splitter)).isEmpty = false :=
    List.isEmpty_eq_false_iff.mpr (List.ne_nil_of_mem (List.mem_filter.mpr ⟨hxS, by simpa using hxX⟩))
  have hdiff : ((ps.subsets.getD i []).filter (· ∉ splitter)).isEmpty = false :=
    List.isEmpty_eq_false_iff.mpr (List.ne_nil_of_mem (List.mem_filter.mpr ⟨hyS, by simpa using hyX⟩))
  simp only [split, splitLoop_subset h hsp i, hne, hlast, hhead, hinter, hdiff]
  rfl

-- a tie: subset `0 = {0, 2}` meets `{2, 3}` in one member, so the intersection stays
example : (partitionedSet [0, 1, 0, 1, 1]).split 0 [2, 3] =
    (2, ⟨[2, 1, 0, 1, 1], [[2], [1, 3, 4], [0]]⟩) := by decide

/-- **`split` keeps the partition**, whether it splits the subset or not. -/
theorem isPartition_split (i : Nat) :
    IsPartition n (ps.split i splitter).2.memberToSubset (ps.split i splitter).2.subsets := by
  by_cases hin : ∃ x ∈ ps.subsets.getD i [], x ∈ splitter
  · by_cases hout : ∃ x ∈ ps.subsets.getD i [], x ∉ splitter
    · -- the two halves are complementary sublists of subset `i`, in either order
      have hrefine : ∀ keep moved : List Nat, keep.Sublist (ps.subsets.getD i []) →
          moved.Sublist (ps.subsets.getD i []) →
          (∀ x ∈ ps.subsets.getD i [], x ∈ keep ↔ x ∉ moved) → keep ≠ [] → moved ≠ [] →
          IsPartition n (setSubsetOf moved ps.subsets.length ps.memberToSubset)
            (ps.subsets.set i keep ++ [moved]) := by
        intro keep moved hkeep hmoved hcompl hkeep_ne hmoved_ne
        refine h.refine hkeep hmoved hcompl hkeep_ne hmoved_ne
          (by rw [length_setSubsetOf, h.length_eq]) (fun x => ?_)
        refine getElem?_setSubsetOf (fun y hy => ?_) _ x
        exact h.length_eq ▸ h.lt_of_mem (hmoved.subset hy)
      obtain ⟨x, hxS, hxX⟩ := hin
      obtain ⟨y, hyS, hyX⟩ := hout
      have hinter : (ps.subsets.getD i []).filter (· ∈ splitter) ≠ [] :=
        List.ne_nil_of_mem (List.mem_filter.mpr ⟨hxS, by simpa using hxX⟩)
      have hdiff : (ps.subsets.getD i []).filter (· ∉ splitter) ≠ [] :=
        List.ne_nil_of_mem (List.mem_filter.mpr ⟨hyS, by simpa using hyX⟩)
      rw [split_of_overlap h hsp i ⟨x, hxS, hxX⟩ ⟨y, hyS, hyX⟩]
      dsimp only
      split_ifs
      · exact hrefine _ _ List.filter_sublist List.filter_sublist
          (fun z hz => by simp only [List.mem_filter, hz, true_and, decide_eq_true_eq]) hdiff hinter
      · exact hrefine _ _ List.filter_sublist List.filter_sublist
          (fun z hz => by simp only [List.mem_filter, hz, true_and, decide_eq_true_eq, not_not]) hinter hdiff
    · have hall : ∀ x ∈ ps.subsets.getD i [], x ∈ splitter := fun x hx => by
        by_contra hxX
        exact hout ⟨x, hx, hxX⟩
      rw [split_of_subset_or_disjoint h hsp i (Or.inl hall)]
      exact h
  · have hnone : ∀ x ∈ ps.subsets.getD i [], x ∉ splitter := fun x hx hxX => hin ⟨x, hx, hxX⟩
    rw [split_of_subset_or_disjoint h hsp i (Or.inr hnone)]
    exact h

end Split

/-- **Any sequence of splits** by sorted splitters keeps the partition. -/
theorem isPartition_runSplits {ps : PartitionedSet} {n : Nat}
    (h : IsPartition n ps.memberToSubset ps.subsets) {calls : List (Nat × List Nat)}
    (hcalls : ∀ call ∈ calls, call.2.Pairwise (· ≤ ·)) :
    IsPartition n (ps.runSplits calls).memberToSubset (ps.runSplits calls).subsets := by
  induction calls generalizing ps with
  | nil => exact h
  | cons call rest ih =>
    exact ih (isPartition_split h (hcalls call List.mem_cons_self) call.1)
      (fun c hc => hcalls c (List.mem_cons_of_mem call hc))

/-! ## find_overlapping -/

/-- **`find_overlapping`** appends the subsets that hold one of the keys, in
increasing order. -/
theorem findOverlapping_eq {ps : PartitionedSet} {n : Nat}
    (h : IsPartition n ps.memberToSubset ps.subsets) {keys : List Nat} (hkeys : ∀ k ∈ keys, k < n)
    (containing : List Nat) :
    ps.findOverlapping keys containing =
      containing ++ (List.range ps.subsets.length).filter
        (fun j => (ps.subsets.getD j []).any (· ∈ keys)) := by
  simp only [findOverlapping]
  congr 1
  apply List.filter_congr
  intro j hj
  -- the bit of `j` is set by a key exactly when that key is in subset `j`
  have hiff : (∃ k ∈ keys, ps.memberToSubset.getD k 0 = j) ↔ ∃ k ∈ ps.subsets.getD j [], k ∈ keys := by
    constructor
    · rintro ⟨k, hk, hkj⟩
      refine ⟨k, (h.mem_iff j k).mpr ?_, hk⟩
      rw [List.getElem?_eq_getElem (h.length_eq ▸ hkeys k hk), ← hkj, List.getD_eq_getElem _ _]
    · rintro ⟨k, hkS, hk⟩
      refine ⟨k, hk, ?_⟩
      rw [List.getD_eq_getElem?_getD, (h.mem_iff j k).mp hkS, Option.getD_some]
  rw [List.getD_eq_getElem?_getD, getElem?_foldl_set, List.getElem?_replicate,
    if_pos (List.mem_range.mp hj)]
  by_cases hset : ∃ k ∈ keys, ps.memberToSubset.getD k 0 = j
  · rw [if_pos hset]
    exact (List.any_eq_true.mpr (by simpa using hiff.mp hset)).symm
  · rw [if_neg hset]
    exact (Bool.eq_false_iff.mpr
      (fun hany => hset (hiff.mpr (by simpa using List.any_eq_true.mp hany)))).symm

example : (partitionedSet [0, 1, 0, 1, 1]).findOverlapping [2, 4] [7] = [7, 0, 1] := by decide

/-! ## The contract -/

/-- What a client of `partitioned_set` over `[0, n)` relies on at the state
`ps`: the subsets are non-empty and sorted, pairwise disjoint and cover
`[0, n)`, and `member_to_subset` names the subset of each member; a `split`
by a sorted splitter either returns `INVALID_SUBSET` and changes nothing (the
subset lies in the splitter or misses it) or keeps the larger of the
intersection and the difference at `i` (the intersection on a tie), appends
the smaller, points its members at it and returns its index; and
`find_overlapping` appends exactly the subsets that meet the keys, in order. -/
structure Contract (n : Nat) (ps : PartitionedSet) : Prop where
  nonempty_sorted : ∀ S ∈ ps.subsets, S ≠ [] ∧ S.Pairwise (· < ·)
  disjoint : ∀ j k x, j ≠ k → x ∈ ps.subsets.getD j [] → x ∉ ps.subsets.getD k []
  cover : ∀ x, x < n ↔ ∃ S ∈ ps.subsets, x ∈ S
  mem_iff_lookup : ∀ j x, x ∈ ps.subsets.getD j [] ↔ ps.memberToSubset[x]? = some j
  split_invalid : ∀ i splitter, splitter.Pairwise (· ≤ ·) →
    (∀ x ∈ ps.subsets.getD i [], x ∈ splitter) ∨ (∀ x ∈ ps.subsets.getD i [], x ∉ splitter) →
    ps.split i splitter = (invalidSubset, ps)
  split_new : ∀ i splitter, splitter.Pairwise (· ≤ ·) →
    (∃ x ∈ ps.subsets.getD i [], x ∈ splitter) → (∃ x ∈ ps.subsets.getD i [], x ∉ splitter) →
    let inter := (ps.subsets.getD i []).filter (· ∈ splitter)
    let diff := (ps.subsets.getD i []).filter (· ∉ splitter)
    let big := if diff.length > inter.length then diff else inter
    let small := if diff.length > inter.length then inter else diff
    (ps.split i splitter).1 = ps.subsets.length ∧
      (ps.split i splitter).2.subsets = ps.subsets.set i big ++ [small] ∧
      ∀ x, (ps.split i splitter).2.memberToSubset[x]? =
        if x ∈ small then some ps.subsets.length else ps.memberToSubset[x]?
  find_overlapping : ∀ keys containing, (∀ k ∈ keys, k < n) →
    ps.findOverlapping keys containing =
      containing ++ (List.range ps.subsets.length).filter
        (fun j => (ps.subsets.getD j []).any (· ∈ keys))

/-- The invariant gives the whole contract. -/
theorem contract_of_isPartition {ps : PartitionedSet} {n : Nat}
    (h : IsPartition n ps.memberToSubset ps.subsets) : Contract n ps where
  nonempty_sorted S hS := ⟨h.nonempty S hS, h.sorted S hS⟩
  disjoint _ _ _ hjk hx := h.disjoint hjk hx
  cover := h.lt_iff_exists_mem
  mem_iff_lookup := h.mem_iff
  split_invalid i _ hsp hS := split_of_subset_or_disjoint h hsp i hS
  split_new i splitter hsp hin hout := by
    -- the members moved are members of the subset, so below `n`
    have hset : ∀ small, small.Sublist (ps.subsets.getD i []) → ∀ x,
        (setSubsetOf small ps.subsets.length ps.memberToSubset)[x]? =
          if x ∈ small then some ps.subsets.length else ps.memberToSubset[x]? :=
      fun small hsmall => getElem?_setSubsetOf
        (fun x hx => h.length_eq ▸ h.lt_of_mem (hsmall.subset hx)) _
    rw [split_of_overlap h hsp i hin hout]
    dsimp only
    exact ⟨rfl, rfl, hset _ (by split_ifs <;> exact List.filter_sublist)⟩
  find_overlapping _ containing hkeys := findOverlapping_eq h hkeys containing

/-- **A partitioned set under splitting.**  From the constructor's partition
of `[0, n)` into the non-empty subsets `state_to_subset` gives, after any
sequence of splits by sorted splitters, the contract holds. -/
theorem partitionedSet_runSplits_contract (stateToSubset : List Nat)
    (hdense : ∀ t < subsetCount stateToSubset, t ∈ stateToSubset)
    (calls : List (Nat × List Nat)) (hcalls : ∀ call ∈ calls, call.2.Pairwise (· ≤ ·)) :
    ((partitionedSet stateToSubset).runSplits calls).Contract stateToSubset.length :=
  contract_of_isPartition (isPartition_runSplits (isPartition_partitionedSet hdense) hcalls)

/-- Five states in two subsets, subset `0` then split by `{2, 3}`. -/
theorem partitionedSet_runSplits_contract_five :
    (∀ t < subsetCount [0, 1, 0, 1, 1], t ∈ [0, 1, 0, 1, 1]) ∧
      (∀ call ∈ [(0, [2, 3])], call.2.Pairwise (· ≤ ·)) ∧
      ((partitionedSet [0, 1, 0, 1, 1]).runSplits [(0, [2, 3])]).Contract 5 :=
  have hdense : ∀ t < subsetCount [0, 1, 0, 1, 1], t ∈ [0, 1, 0, 1, 1] := by decide
  have hcalls : ∀ call ∈ [(0, [2, 3])], call.2.Pairwise (· ≤ ·) := by decide
  ⟨hdense, hcalls, partitionedSet_runSplits_contract [0, 1, 0, 1, 1] hdense [(0, [2, 3])] hcalls⟩

end PartitionedSet

end Vectorscan
