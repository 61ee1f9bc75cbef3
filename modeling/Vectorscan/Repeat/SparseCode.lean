import Vectorscan.Repeat.Sparse
import Vectorscan.Lib.PeriodCode

/-!
# Bounded repeats: the code of a SPARSE_OPTIMAL_P patch

The tops of a patch of `REPEAT_SPARSE_OPTIMAL_P` are positions below
`patchSize`, at least `minPeriod` apart, and the patch holds the sum of their
entries in the table of `repeatRecurTable`: the number system of
`PeriodCode`.  This module shows that the table `RepeatStateInfo` builds
follows the recurrence up to the patch size it chooses, and that the decoders
read the positions back.

**Model.**  `sparseTargetTakes` runs the loop of
`getSparseOptimalTargetValue` and lists the positions at which it takes an
entry off the value; the loop itself keeps only the last of them (`loc`), as
`getSparseOptimalTargetValueLoop_eq_takes` says.

**Results.**  `isPeriodTable_fillRepeatInfo`: the table follows the
recurrence up to `patchSize` (the builder stops before an entry wraps, and
the patch size is chosen below that).  `sparseTargetTakes_encode`: the loop
takes exactly the positions from the largest down.
`getSparseOptimalTargetValue_encode` and `sparseLastTop_encode`: what the
decoders return.  `sparseOptimalP_code_decodes` puts them together for every
set of tops.
-/

namespace Vectorscan
namespace Repeat

open PeriodCode

/-! ## The table -/

section Table

/-- A `uint64_t` sum that does not come out below its larger term did not wrap. -/
theorem u64_add_of_not_lt {a b : Nat} (hab : a ≤ b) (h : ¬ u64 (b + a) < b) : u64 (b + a) = b + a := by
  unfold u64 at *
  have hdiv := Nat.mod_add_div (b + a) (2 ^ 64)
  have hlt := Nat.mod_lt (b + a) (show 0 < 2 ^ 64 by positivity)
  rcases Nat.eq_zero_or_pos ((b + a) / 2 ^ 64) with h0 | hpos
  · rw [h0, Nat.mul_zero, Nat.add_zero] at hdiv
    exact hdiv
  · -- a wrapped sum lost `2^64`, which takes it below `b`
    have hwrap : 2 ^ 64 ≤ 2 ^ 64 * ((b + a) / 2 ^ 64) := Nat.le_mul_of_pos_right _ hpos
    omega

theorem getD_range_succ_map (r j : Nat) (hj : j ≤ r) :
    ((List.range (r + 1)).map (· + 1)).getD j 0 = j + 1 := by
  rw [List.getD_eq_getElem?_getD, List.getElem?_map, List.getElem?_range (by omega)]
  rfl

/-- **The loop of `repeatRecurTable`.**  From a table that follows the
recurrence up to `L`, each pass appends the next entry; the loop stops at the
first entry that wraps and returns the index before it.  The table follows
the recurrence up to the last index when nothing wraps, and up to the index
returned otherwise. -/
theorem repeatRecurTableLoop_spec {m : Nat} (hm : 0 < m) :
    ∀ (k L : Nat) (table : List Nat), m ≤ L → table.length = L + 1 →
      IsPeriodTable m (fun j => table.getD j 0) L →
      IsPeriodTable m (fun j => (repeatRecurTableLoop m (List.range' (L + 1) k) table).1.getD j 0)
        (if (repeatRecurTableLoop m (List.range' (L + 1) k) table).2 = 0 then L + k
         else (repeatRecurTableLoop m (List.range' (L + 1) k) table).2)
  | 0, L, table, _, _, h => by simpa [repeatRecurTableLoop] using h
  | k + 1, L, table, hmL, hlen, h => by
    set new := u64 (table.getD L 0 + table.getD (L + 1 - m) 0) with hnew_def
    have hold : ∀ j ≤ L, (table ++ [new]).getD j 0 = table.getD j 0 := fun j hj => by
      simp only [List.getD_eq_getElem?_getD]
      rw [List.getElem?_append_left (by omega)]
    have hnew : (table ++ [new]).getD (L + 1) 0 = new := by
      simp [List.getD_eq_getElem?_getD, hlen]
    have hprev : IsPeriodTable m (fun j => (table ++ [new]).getD j 0) L := h.congr hold
    rw [List.range'_succ]
    simp only [repeatRecurTableLoop, Nat.add_sub_cancel, ← hnew_def]
    rw [hnew, hold L le_rfl]
    by_cases hwrap : new < table.getD L 0
    · -- the entry wrapped: the loop returns `L`, past the first `m` entries
      rw [if_pos hwrap, if_neg (show L ≠ 0 by omega)]
      exact hprev
    · -- it did not: the entry is the sum, and the loop goes on
      have hexact : new = table.getD L 0 + table.getD (L + 1 - m) 0 :=
        u64_add_of_not_lt (h.mono hm (by omega) le_rfl) hwrap
      have hnext : IsPeriodTable m (fun j => (table ++ [new]).getD j 0) (L + 1) := by
        refine hprev.extend hmL ?_
        simp only [hnew, hold L le_rfl, hold (L + 1 - m) (by omega)]
        exact hexact
      rw [if_neg hwrap]
      have hrest := repeatRecurTableLoop_spec hm k (L + 1) (table ++ [new]) (by omega)
        (by simp [hlen]) hnext
      rwa [show L + 1 + k = L + (k + 1) by omega] at hrest

/-- The table of `repeatRecurTable` follows the recurrence up to `repeatMax`,
or up to the index it returns when an entry would wrap. -/
theorem isPeriodTable_repeatRecurTable {m : Nat} (hm : 0 < m) (repeatMax : Nat) :
    IsPeriodTable m (fun j => (repeatRecurTable repeatMax m).1.getD j 0)
      (if (repeatRecurTable repeatMax m).2 = 0 then repeatMax else (repeatRecurTable repeatMax m).2) := by
  unfold repeatRecurTable
  by_cases hsmall : repeatMax < m
  · -- a repeat shorter than the period: the first entries only
    simp only [if_pos hsmall, show repeatMax - m = 0 by omega, List.range'_zero, repeatRecurTableLoop,
      if_true]
    exact ⟨fun i _ hi => getD_range_succ_map repeatMax i hi, fun i hmi hi => absurd hi (by omega)⟩
  · simp only [if_neg hsmall]
    have hinit : IsPeriodTable m (fun j => ((List.range (m + 1)).map (· + 1)).getD j 0) m :=
      ⟨fun i _ hi => getD_range_succ_map m i hi, fun i hmi hi => absurd hi (by omega)⟩
    have := repeatRecurTableLoop_spec hm (repeatMax - m) m _ le_rfl (by simp) hinit
    rwa [show m + (repeatMax - m) = repeatMax by omega] at this

/-- `findOptimalPatchSize` chooses a patch size no larger than the bound it is
given (`repeatMax` when that is `0`). -/
theorem findOptimalPatchSize_fst_le (table : List Nat) (repeatMax minPeriod rv : Nat) :
    (findOptimalPatchSize table repeatMax minPeriod rv).1 ≤ (if rv = 0 then repeatMax else rv) := by
  set bound := if rv = 0 then repeatMax else rv
  -- every pass keeps the best so far or takes its own size, which is in range
  have hloop : ∀ (l : List Nat) (best : Nat × Nat × Nat), best.2.1 ≤ bound → (∀ i ∈ l, i ≤ bound) →
      (l.foldl (findOptimalPatchSizeStep table repeatMax) best).2.1 ≤ bound := by
    intro l
    induction l with
    | nil => exact fun best h _ => h
    | cons i rest ih =>
      intro best hbest hl
      rw [List.foldl_cons]
      refine ih _ ?_ (fun j hj => hl j (List.mem_cons_of_mem i hj))
      unfold findOptimalPatchSizeStep
      dsimp only
      split_ifs
      · exact hl i List.mem_cons_self
      · exact hbest
  refine hloop _ _ (Nat.zero_le _) (fun i hi => ?_)
  rw [List.mem_range'_1] at hi
  omega

/-- The fields of a `SPARSE_OPTIMAL_P` descriptor: the table of
`repeatRecurTable`, and the patch size `findOptimalPatchSize` chooses (the
whole repeat when it is shorter than the period). -/
theorem fillRepeatInfo_sparse (repeatMin repeatMax : Depth) (minPeriod : Nat) :
    (fillRepeatInfo .repeatSparseOptimalP repeatMin repeatMax minPeriod).minPeriod = minPeriod ∧
    (fillRepeatInfo .repeatSparseOptimalP repeatMin repeatMax minPeriod).table =
      (repeatRecurTable repeatMax.depthToU32 minPeriod).1 ∧
    (fillRepeatInfo .repeatSparseOptimalP repeatMin repeatMax minPeriod).patchSize =
      (if repeatMax.depthToU32 < minPeriod then repeatMax.depthToU32
       else (findOptimalPatchSize (repeatRecurTable repeatMax.depthToU32 minPeriod).1
          repeatMax.depthToU32 minPeriod (repeatRecurTable repeatMax.depthToU32 minPeriod).2).1) ∧
    (fillRepeatInfo .repeatSparseOptimalP repeatMin repeatMax minPeriod).encodingSize =
      calcPackedBytes ((repeatRecurTable repeatMax.depthToU32 minPeriod).1.getD
        (fillRepeatInfo .repeatSparseOptimalP repeatMin repeatMax minPeriod).patchSize 0) := by
  simp only [fillRepeatInfo, repeatStateInfo]
  obtain ⟨table, rv⟩ := repeatRecurTable repeatMax.depthToU32 minPeriod
  by_cases hsmall : repeatMax.depthToU32 < minPeriod
  · simp [hsmall]
  · obtain ⟨size, count⟩ := findOptimalPatchSize table repeatMax.depthToU32 minPeriod rv
    simp [hsmall]

/-- **The table of the descriptor.**  For a period of at least one, the table
of a `SPARSE_OPTIMAL_P` descriptor follows the recurrence of its period up to
its patch size. -/
theorem isPeriodTable_fillRepeatInfo {minPeriod : Nat} (hm : 0 < minPeriod) (repeatMin repeatMax : Depth) :
    IsPeriodTable (fillRepeatInfo .repeatSparseOptimalP repeatMin repeatMax minPeriod).minPeriod
      (repeatTable (fillRepeatInfo .repeatSparseOptimalP repeatMin repeatMax minPeriod))
      (fillRepeatInfo .repeatSparseOptimalP repeatMin repeatMax minPeriod).patchSize := by
  obtain ⟨hmin, htable, hsize, -⟩ := fillRepeatInfo_sparse repeatMin repeatMax minPeriod
  have hrecur := isPeriodTable_repeatRecurTable hm repeatMax.depthToU32
  rw [hmin, hsize]
  unfold repeatTable
  rw [htable]
  split_ifs with hsmall
  · -- the whole repeat, shorter than the period: the loop of the builder never runs
    have hrv : (repeatRecurTable repeatMax.depthToU32 minPeriod).2 = 0 := by
      simp [repeatRecurTable, hsmall, show repeatMax.depthToU32 - minPeriod = 0 by omega,
        repeatRecurTableLoop]
    rw [hrv, if_pos rfl] at hrecur
    exact hrecur
  · exact hrecur.le_bound (findOptimalPatchSize_fst_le _ _ _ _)

/-- A value below `x` fits the bytes `calcPackedBytes x` gives it. -/
theorem lt_two_pow_calcPackedBytes {v x : Nat} (hv : v < x) : v < 2 ^ (8 * calcPackedBytes x) := by
  have hbits : v < 2 ^ calcPackedBits x := by
    unfold calcPackedBits lg2U64
    split_ifs with hx hx0
    · omega
    · omega
    · calc v ≤ x - 1 := by omega
        _ < 2 ^ (Nat.log2 (x - 1) + 1) := Nat.lt_log2_self
  exact lt_of_lt_of_le hbits (Nat.pow_le_pow_right (by norm_num) (by unfold calcPackedBytes; omega))

end Table

/-! ## The decoders -/

section Decoder

/-- The positions at which the loop of `getSparseOptimalTargetValue` takes a
table entry off `val`, in the order it takes them: pass `i` looks at position
`patchSize - i`. -/
def sparseTargetTakes (info : RepeatInfo) (tval : Nat) : Nat → Nat → Nat → List Nat
  | 0, _, _ => []
  | fuel + 1, i, val =>
      if i ≤ info.patchSize - tval then
        let tmp := repeatTable info (info.patchSize - i)
        if val ≥ tmp then
          (info.patchSize - i) :: sparseTargetTakes info tval fuel (i + 1 + (info.minPeriod - 1)) (val - tmp)
        else sparseTargetTakes info tval fuel (i + 1) val
      else []

attribute [grind] sparseTargetTakes

/-- The loop keeps the position of its last take (as `i`), and what is left
of the value after all of them. -/
theorem getSparseOptimalTargetValueLoop_eq_takes (info : RepeatInfo) (tval : Nat) :
    ∀ fuel i loc val, getSparseOptimalTargetValueLoop info tval fuel i loc val =
      ((sparseTargetTakes info tval fuel i val).getLast?.elim loc (fun q => info.patchSize - q),
        val - encode (repeatTable info) (sparseTargetTakes info tval fuel i val))
  | 0, _, _, _ => rfl
  | fuel + 1, i, loc, val => by
    simp only [getSparseOptimalTargetValueLoop, sparseTargetTakes]
    split_ifs with hi htake
    · rw [getSparseOptimalTargetValueLoop_eq_takes info tval fuel, encode_cons, Nat.sub_sub]
      -- the last take is the one of this pass when no later pass takes
      cases sparseTargetTakes info tval fuel (i + 1 + (info.minPeriod - 1)) (val - repeatTable info (info.patchSize - i)) with
      | nil =>
        simp only [List.getLast?_singleton, List.getLast?_nil, Option.elim, encode_nil, Nat.add_zero]
        exact Prod.ext (by omega) rfl
      | cons q rest => simp only [List.getLast?_cons, Option.elim, Option.getD_some]
    · exact getSparseOptimalTargetValueLoop_eq_takes info tval fuel (i + 1) loc val
    · rfl

variable {info : RepeatInfo}
  (ht : IsPeriodTable info.minPeriod (repeatTable info) info.patchSize) (hm : 0 < info.minPeriod)
include ht hm

/-- **The greedy loop.**  On the code of positions at least `minPeriod`
apart, none past position `patchSize - i`, the loop from pass `i` takes
exactly the positions at or above `tval`, from the largest down. -/
theorem sparseTargetTakes_encode (tval : Nat) :
    ∀ fuel i (l : List Nat), 1 ≤ i → Separated info.minPeriod l → (∀ p ∈ l, p + i ≤ info.patchSize) →
      info.patchSize + 1 ≤ fuel + i →
      sparseTargetTakes info tval fuel i (encode (repeatTable info) l) = l.filter (tval ≤ ·)
  | 0, i, l, _, _, hle, hfuel => by
    -- out of passes: past the patch, where no position is left
    have hnil : l = [] := List.eq_nil_iff_forall_not_mem.mpr (fun p hp => by have := hle p hp; omega)
    subst hnil
    rfl
  | fuel + 1, i, l, hi1, hl, hle, hfuel => by
    simp only [sparseTargetTakes]
    by_cases hi : i ≤ info.patchSize - tval
    · rw [if_pos hi]
      by_cases htake : ∃ rest, l = (info.patchSize - i) :: rest
      · -- the largest position is this pass's: it is taken, and the loop skips the period
        obtain ⟨rest, rfl⟩ := htake
        have hval : encode (repeatTable info) ((info.patchSize - i) :: rest) -
            repeatTable info (info.patchSize - i) = encode (repeatTable info) rest := by
          rw [encode_cons, Nat.add_sub_cancel_left]
        rw [if_pos (le_encode_cons _ rest), hval,
          sparseTargetTakes_encode tval fuel _ rest (by omega) hl.of_cons
            (fun p hp => by have := hl.le_head hp; omega) (by omega),
          List.filter_cons_of_pos (by simp only [decide_eq_true_eq]; omega)]
      · -- every position is below this pass's: the code is below its entry
        have hbelow : ∀ p ∈ l, p < info.patchSize - i := by
          cases l with
          | nil => exact fun p hp => by cases hp
          | cons q rest =>
            have hq : q < info.patchSize - i := by
              have := hle q List.mem_cons_self
              have hne : q ≠ info.patchSize - i := fun hq => htake ⟨rest, by rw [hq]⟩
              omega
            intro p hp
            rcases List.mem_cons.mp hp with rfl | hp
            · exact hq
            · have := hl.le_head hp
              omega
        have hlt := encode_lt ht hm hl (Nat.sub_le _ _) hbelow
        rw [if_neg (by omega)]
        exact sparseTargetTakes_encode tval fuel (i + 1) l (by omega) hl
          (fun p hp => by have := hbelow p hp; omega) (by omega)
    · -- past `tval`: no pass is left, and every position is below it
      rw [if_neg hi]
      symm
      exact List.filter_eq_nil_iff.mpr (fun p hp => by have := hle p hp; simp only [decide_eq_true_eq]; omega)

/-- **`getSparseOptimalTargetValue`** on the code of positions below the patch
size: `loc` is the least position at or above `tval`, counted from the end of
the patch (`0` when there is none), and what is left is the code of the
positions below `tval`. -/
theorem getSparseOptimalTargetValue_encode {l : List Nat} (hl : Separated info.minPeriod l)
    (hlt : ∀ p ∈ l, p < info.patchSize) (tval : Nat) :
    getSparseOptimalTargetValue info tval (encode (repeatTable info) l) =
      ((l.filter (tval ≤ ·)).getLast?.elim 0 (info.patchSize - ·),
        encode (repeatTable info) (l.filter (· < tval))) := by
  unfold getSparseOptimalTargetValue
  rw [getSparseOptimalTargetValueLoop_eq_takes,
    sparseTargetTakes_encode ht hm tval _ 1 l le_rfl hl (fun p hp => hlt p hp) (by omega)]
  congr 1
  -- the positions below `tval` are the ones not taken
  have hsplit := encode_filter_add (repeatTable info) (fun x => decide (tval ≤ x)) l
  have hcongr : l.filter (fun x => !decide (tval ≤ x)) = l.filter (· < tval) :=
    List.filter_congr (fun x _ => by rw [← decide_not]; exact decide_eq_decide.mpr Nat.not_le)
  rw [hcongr] at hsplit
  omega

/-- **`sparseLastTop`** on a ring whose last patch holds the code of some
positions: the last top is at the largest of them. -/
theorem sparseLastTop_encode {l : List Nat} (hl : Separated info.minPeriod l)
    (hlt : ∀ p ∈ l, p < info.patchSize) (hne : l ≠ []) {xs : RepeatControl} {state : Mem}
    (hpatch : sparsePatch info state
        (ringIndex xs.first (ringOccupancy xs info.patchCount - 1) info.patchCount) =
      encode (repeatTable info) l) :
    sparseLastTop info xs state =
      xs.offset + l.head hne + (ringOccupancy xs info.patchCount - 1) * info.patchSize := by
  unfold sparseLastTop
  simp only [hpatch, find?_range_reverse_encode ht hm hl hlt]
  cases l with
  | nil => exact absurd rfl hne
  | cons q rest => rfl

end Decoder

/-! ## The code of a set of tops -/

/-- **The SPARSE_OPTIMAL_P code.**  For a period of at least one (with a
period of `0` the builder reads `table[i - minPeriod]` before writing it), take the
descriptor `RepeatStateInfo` builds and a set `P` of positions in the patch,
pairwise at least the period apart, and let `v` be the sum of their table
entries.  Then `v` is below the table's entry for the patch size, so it fits
the patch's `encodingSize` bytes; the loop of `getSparseOptimalTargetValue`
takes exactly the positions of `P`, from the largest down, and leaves the
code of those below `tval`; and the search of `sparseLastTop` finds the
largest. -/
theorem sparseOptimalP_code_decodes (repeatMin repeatMax : Depth) (minPeriod : Nat) (hm : 0 < minPeriod)
    (P : Finset Nat)
    (hP : ∀ p ∈ P, p < (fillRepeatInfo .repeatSparseOptimalP repeatMin repeatMax minPeriod).patchSize)
    (hsep : ∀ p ∈ P, ∀ q ∈ P, p < q → p + minPeriod ≤ q) :
    let info := fillRepeatInfo .repeatSparseOptimalP repeatMin repeatMax minPeriod
    let v := ∑ p ∈ P, repeatTable info p
    v < repeatTable info info.patchSize ∧
      v < 2 ^ (8 * info.encodingSize) ∧
      sparseTargetTakes info 0 (info.patchSize + 1) 1 v = P.sort (· ≥ ·) ∧
      (∀ tval, getSparseOptimalTargetValue info tval v =
        (((P.sort (· ≥ ·)).filter (tval ≤ ·)).getLast?.elim 0 (info.patchSize - ·),
          ∑ p ∈ P with p < tval, repeatTable info p)) ∧
      ((List.range info.patchSize).reverse.find? (fun i => decide (v ≥ repeatTable info i))) =
        (P.sort (· ≥ ·)).head? := by
  intro info v
  obtain ⟨hmin, htable, -, henc⟩ := fillRepeatInfo_sparse repeatMin repeatMax minPeriod
  have hmin : info.minPeriod = minPeriod := hmin
  have ht : IsPeriodTable info.minPeriod (repeatTable info) info.patchSize :=
    isPeriodTable_fillRepeatInfo hm repeatMin repeatMax
  have hm' : 0 < info.minPeriod := hmin ▸ hm
  -- the set as its list from the largest down
  have hl : Separated info.minPeriod (P.sort (· ≥ ·)) := separated_sort (hmin ▸ hsep)
  have hlt : ∀ p ∈ P.sort (· ≥ ·), p < info.patchSize := fun p hp => hP p ((Finset.mem_sort _).mp hp)
  have hv : encode (repeatTable info) (P.sort (· ≥ ·)) = v := by
    simpa using encode_sort_filter (repeatTable info) P (fun _ => true)
  have hbound : v < repeatTable info info.patchSize := hv ▸ encode_lt ht hm' hl le_rfl hlt
  refine ⟨hbound, ?_, ?_, fun tval => ?_, ?_⟩
  · have henc : info.encodingSize = calcPackedBytes (repeatTable info info.patchSize) := by
      rw [henc]
      unfold repeatTable
      rw [htable]
    rw [henc]
    exact lt_two_pow_calcPackedBytes hbound
  · rw [← hv, sparseTargetTakes_encode ht hm' 0 _ 1 _ le_rfl hl (fun p hp => hlt p hp) (by omega)]
    exact List.filter_eq_self.mpr (fun p _ => by simp)
  · rw [← hv, getSparseOptimalTargetValue_encode ht hm' hl hlt, encode_sort_filter]
    simp only [decide_eq_true_eq]
  · rw [← hv]
    exact find?_range_reverse_encode ht hm' hl hlt

/-- Tops at `1`, `5` and `9` of a `{2,10}` repeat of period `3`, whose patch
is the whole repeat. -/
theorem sparseOptimalP_code_decodes_period3 :
    0 < 3 ∧
      (∀ p ∈ ({1, 5, 9} : Finset Nat),
        p < (fillRepeatInfo .repeatSparseOptimalP (.finite 2) (.finite 10) 3).patchSize) ∧
      (∀ p ∈ ({1, 5, 9} : Finset Nat), ∀ q ∈ ({1, 5, 9} : Finset Nat), p < q → p + 3 ≤ q) ∧
      (let info := fillRepeatInfo .repeatSparseOptimalP (.finite 2) (.finite 10) 3
       let v := ∑ p ∈ ({1, 5, 9} : Finset Nat), repeatTable info p
       v < repeatTable info info.patchSize ∧
        v < 2 ^ (8 * info.encodingSize) ∧
        sparseTargetTakes info 0 (info.patchSize + 1) 1 v = ({1, 5, 9} : Finset Nat).sort (· ≥ ·) ∧
        (∀ tval, getSparseOptimalTargetValue info tval v =
          (((({1, 5, 9} : Finset Nat).sort (· ≥ ·)).filter (tval ≤ ·)).getLast?.elim 0 (info.patchSize - ·),
            ∑ p ∈ ({1, 5, 9} : Finset Nat) with p < tval, repeatTable info p)) ∧
        ((List.range info.patchSize).reverse.find? (fun i => decide (v ≥ repeatTable info i))) =
          (({1, 5, 9} : Finset Nat).sort (· ≥ ·)).head?) :=
  have hP : ∀ p ∈ ({1, 5, 9} : Finset Nat),
      p < (fillRepeatInfo .repeatSparseOptimalP (.finite 2) (.finite 10) 3).patchSize := by decide
  have hsep : ∀ p ∈ ({1, 5, 9} : Finset Nat), ∀ q ∈ ({1, 5, 9} : Finset Nat), p < q → p + 3 ≤ q := by
    decide
  ⟨by decide, hP, hsep, sparseOptimalP_code_decodes (.finite 2) (.finite 10) 3 (by decide) _ hP hsep⟩

end Repeat
end Vectorscan
