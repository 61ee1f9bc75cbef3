import Vectorscan.Multibit.Flat
import Vectorscan.Multibit.TreeIterate

/-!
# Multibit: the queries

The read-only operations of `src/util/multibit.h`: `mmbit_isset`,
`mmbit_iterate`, `mmbit_iterate_bounded`, `mmbit_any`, `mmbit_any_precise`
and `mmbit_all`.  Each dispatches between its flat and its tree
specialisation; the specialisations not modelled so far are here
(`mmbit_any_flat`, `mmbit_all_flat`, `mmbit_all_big`).

**Results.**  Every query is stated against the abstract content
`mmbitKeys`, for both models at once: `mmbitIsset_eq`, `mmbitIterate_eq`
(continuing from `MMB_INVALID` or from a member), `mmbitIterateBounded_eq`,
`mmbitAnyPrecise_iff`, `mmbitAny_of_nonempty` (`mmbit_any` may say yes when
only summary bits are set, never no when a key is on) and `mmbitAll_iff`.
-/

namespace Vectorscan
namespace Multibit

open Word

/-! ## The two models seen through `MmbitMember` -/

section Models

variable {bits : Mem} {totalBits : Nat}

theorem mmbitMember_flat_iff (hflat : totalBits ≤ mmbFlatMaxBits) {key : Nat} :
    MmbitMember totalBits bits key ↔ key < totalBits ∧ bits key = true := by
  unfold MmbitMember
  rw [if_pos hflat]

theorem mmbitValid_flat_iff (hflat : totalBits ≤ mmbFlatMaxBits) :
    MmbitValid totalBits bits ↔ FlatPadding totalBits bits := by
  unfold MmbitValid
  rw [if_pos hflat]

theorem MmbitMember.lt {key : Nat} (h : MmbitMember totalBits bits key) : key < totalBits := h.1

/-- On a flat multibit, a search for members below `total_bits` is a search of the bits. -/
theorem firstIn_member_flat (hflat : totalBits ≤ mmbFlatMaxBits) {lo hi : Nat} (hhi : hi ≤ totalBits) :
    firstIn (fun k => decide (MmbitMember totalBits bits k)) lo hi = firstIn bits lo hi :=
  firstIn_congr fun j _ hj => by
    simp [mmbitMember_flat_iff hflat, show j < totalBits by omega]

/-- The members, searched from the start, are found exactly when there is one. -/
theorem firstIn_member_isSome_iff :
    (firstIn (fun k => decide (MmbitMember totalBits bits k)) 0 totalBits).isSome ↔
      (mmbitKeys totalBits bits).Nonempty := by
  rw [firstIn_isSome_iff]
  constructor
  · rintro ⟨k, -, -, hk⟩
    exact ⟨k, (of_decide_eq_true hk : MmbitMember totalBits bits k)⟩
  · rintro ⟨k, hk⟩
    exact ⟨k, Nat.zero_le k, MmbitMember.lt hk, decide_eq_true (show MmbitMember totalBits bits k from hk)⟩

/-- A search result below `total_bits` is told apart from `MMB_INVALID`. -/
theorem getD_ne_invalid_iff {o : Option Nat} (hmax : totalBits ≤ mmbMaxBits)
    (h : ∀ k, o = some k → k < totalBits) : o.getD mmbInvalid ≠ mmbInvalid ↔ o.isSome := by
  cases o with
  | none => simp
  | some k =>
      have := h k rfl
      unfold mmbMaxBits at hmax
      simp only [Option.getD_some, Option.isSome_some, iff_true]
      unfold mmbInvalid
      omega

end Models

/-! ## `mmbit_isset` -/

/-- `mmbit_isset`. -/
def mmbitIsset (bits : Mem) (totalBits key : Nat) : Bool :=
  if mmbitIsFlatModel totalBits then mmbitIssetFlat bits totalBits key
  else mmbitIssetBig bits totalBits key

/-- **`mmbit_isset`** tells whether the key is a member. -/
theorem mmbitIsset_eq {bits : Mem} {totalBits key : Nat} (hk : key < totalBits) :
    mmbitIsset bits totalBits key = decide (MmbitMember totalBits bits key) := by
  unfold mmbitIsset mmbitIsFlatModel
  split
  · rename_i hflat
    have hflat : totalBits ≤ mmbFlatMaxBits := by simpa using hflat
    rw [mmbitIssetFlat_eq]
    simp [mmbitMember_flat_iff hflat, hk]
  · rename_i htree
    have htree : mmbFlatMaxBits < totalBits := by simpa using htree
    rw [mmbitIssetBig_eq]
    simp [mmbitMember_tree_iff htree, hk]

/-! ## `mmbit_iterate` and `mmbit_iterate_bounded` -/

/-- `mmbit_iterate`. -/
def mmbitIterate (bits : Mem) (totalBits itIn : Nat) : Nat :=
  if totalBits = 0 then mmbInvalid
  else if itIn = totalBits - 1 then mmbInvalid -- `it_in` is the last key
  else if mmbitIsFlatModel totalBits then mmbitIterateFlat bits totalBits itIn
  else mmbitIterateBig bits totalBits itIn

/-- `mmbit_iterate_bounded`. -/
def mmbitIterateBounded (bits : Mem) (totalBits itStart itEnd : Nat) : Nat :=
  if totalBits = 0 ∨ itEnd = itStart then mmbInvalid
  else if mmbitIsFlatModel totalBits then mmbitIterateBoundedFlat bits totalBits itStart itEnd
  else mmbitIterateBoundedBig bits totalBits itStart itEnd

section Iterate

variable {bits : Mem} {totalBits : Nat} (hv : MmbitValid totalBits bits)
  (hmax : totalBits ≤ mmbMaxBits)
include hv hmax

/-- **`mmbit_iterate`**, started over (`MMB_INVALID`) or continued from a
member, returns the least member after `it_in`, or `MMB_INVALID`. -/
theorem mmbitIterate_eq {itIn : Nat} (hit : itIn = mmbInvalid ∨ MmbitMember totalBits bits itIn) :
    mmbitIterate bits totalBits itIn =
      (firstIn (fun k => decide (MmbitMember totalBits bits k))
        (if itIn = mmbInvalid then 0 else itIn + 1) totalBits).getD mmbInvalid := by
  have hinv : totalBits - 1 < mmbInvalid := by
    unfold mmbMaxBits at hmax
    unfold mmbInvalid
    omega
  unfold mmbitIterate mmbitIsFlatModel
  split
  · -- no keys at all
    rw [firstIn_eq_none_iff.2 fun j _ h2 => by omega]
    rfl
  · split
    · -- the last key has no successor
      rename_i _ hlast
      rw [if_neg (by omega), firstIn_eq_none_iff.2 fun j h1 h2 => by omega]
      rfl
    · rename_i hpos hlast
      split
      · rename_i hflat
        have hflat : totalBits ≤ mmbFlatMaxBits := by simpa using hflat
        have hit' : itIn = mmbInvalid ∨ itIn + 1 < totalBits := by
          rcases hit with h | h
          · exact .inl h
          · exact .inr (by have := MmbitMember.lt h; omega)
        rw [mmbitIterateFlat_eq ((mmbitValid_flat_iff hflat).mp hv) (by omega) hit',
          firstIn_member_flat hflat le_rfl]
      · rename_i htree
        exact mmbitIterateBig_eq (by simpa using htree) hmax hv hit

/-- **`mmbit_iterate_bounded`** returns the least member of `[it_start, it_end)`,
or `MMB_INVALID`. -/
theorem mmbitIterateBounded_eq {itStart itEnd : Nat} (hse : itStart ≤ itEnd)
    (hend : itEnd ≤ totalBits) :
    mmbitIterateBounded bits totalBits itStart itEnd =
      (firstIn (fun k => decide (MmbitMember totalBits bits k)) itStart itEnd).getD mmbInvalid := by
  unfold mmbitIterateBounded mmbitIsFlatModel
  split
  · -- an empty range
    rw [firstIn_eq_none_iff.2 fun j h1 h2 => by omega]
    rfl
  · rename_i hne
    split
    · rename_i hflat
      have hflat : totalBits ≤ mmbFlatMaxBits := by simpa using hflat
      rw [mmbitIterateBoundedFlat_eq ((mmbitValid_flat_iff hflat).mp hv) (by omega) hend,
        firstIn_member_flat hflat hend]
    · rename_i htree
      exact mmbitIterateBoundedBig_eq (by simpa using htree) hmax hv (by omega) hend

end Iterate

/-! ## `mmbit_any` and `mmbit_any_precise` -/

/-- The loop of `mmbit_any_flat` over the blocks before the last one (byte
offsets `p < last`), then the overlapping load of the last block. -/
def mmbitAnyFlatLoop (bits : Mem) (last p : Nat) : Bool :=
  if p < last then
    if mmbLoad bits p ≠ 0 then true else mmbitAnyFlatLoop bits last (p + 8)
  else mmbLoad bits last ≠ 0
termination_by last - p

/-- `mmbit_any_flat`. -/
def mmbitAnyFlat (bits : Mem) (totalBits : Nat) : Bool :=
  if totalBits ≤ mmbKeyBits then mmbitGetFlatBlock bits 0 totalBits ≠ 0
  else
    let endPtr := mmbitFlatSize totalBits
    mmbitAnyFlatLoop bits (endPtr - 8) 0

/-- `mmbit_any`: for the tree model only the root block is looked at. -/
def mmbitAny (bits : Mem) (totalBits : Nat) : Bool :=
  if totalBits = 0 then false
  else if mmbitIsFlatModel totalBits then mmbitAnyFlat bits totalBits
  else mmbLoad bits 0 ≠ 0

/-- `mmbit_any_precise`. -/
def mmbitAnyPrecise (bits : Mem) (totalBits : Nat) : Bool :=
  if totalBits = 0 then false
  else if mmbitIsFlatModel totalBits then mmbitAnyFlat bits totalBits
  else mmbitIterateBig bits totalBits mmbInvalid ≠ mmbInvalid

/-- The loads of `mmbit_any_flat` together see the bits up to the end of the
last block (the first loads may reach past the last one: it overlaps them). -/
theorem mmbitAnyFlatLoop_eq (bits : Mem) (last p : Nat) :
    mmbitAnyFlatLoop bits last p = (firstIn bits (min (8 * p) (8 * last)) (8 * last + 64)).isSome := by
  fun_induction mmbitAnyFlatLoop bits last p with
  | case1 p hlt hne =>
      obtain ⟨i, hi, hb⟩ := (Mem.load_ne_zero_iff bits (8 * p) 64).mp hne
      exact (firstIn_isSome_iff.2 ⟨8 * p + i, by omega, by omega, hb⟩).symm
  | case2 p hlt hzero ih =>
      -- block `p` is clear: the search may start after it
      have hz : ∀ i, i < 64 → bits (8 * p + i) = false := fun i hi =>
        Bool.eq_false_iff.mpr fun hb => hzero ((Mem.load_ne_zero_iff bits (8 * p) 64).mpr ⟨i, hi, hb⟩)
      have hclr : firstIn bits (min (8 * p) (8 * last)) (min (8 * (p + 8)) (8 * last)) = none :=
        firstIn_eq_none_iff.2 fun j h1 h2 => by
          have := hz (j - 8 * p) (by omega)
          rwa [show 8 * p + (j - 8 * p) = j by omega] at this
      have hsplit := @firstIn_split bits (min (8 * p) (8 * last)) (8 * last + 64)
        (min (8 * (p + 8)) (8 * last)) (by omega) (by omega)
      rw [ih, hsplit, hclr]
      rfl
  | case3 p hge =>
      unfold mmbLoad
      rw [Bool.eq_iff_iff, decide_eq_true_iff, Mem.load_ne_zero_iff, firstIn_isSome_iff]
      constructor
      · rintro ⟨i, hi, hb⟩
        exact ⟨8 * last + i, by omega, by omega, hb⟩
      · rintro ⟨k, h1, h2, hb⟩
        exact ⟨k - 8 * last, by omega, by rwa [show 8 * last + (k - 8 * last) = k by omega]⟩

/-- **`mmbit_any_flat`** tells whether some key is on (the padding bits it
also loads being clear). -/
theorem mmbitAnyFlat_eq {bits : Mem} {totalBits : Nat} (hv : FlatPadding totalBits bits) :
    mmbitAnyFlat bits totalBits = (firstIn bits 0 totalBits).isSome := by
  have hpad : firstIn bits 0 (8 * mmbitFlatSize totalBits) = firstIn bits 0 totalBits :=
    firstIn_extend (by unfold mmbitFlatSize roundupN; omega) fun k h1 h2 => hv k h1 h2
  unfold mmbitAnyFlat mmbKeyBits
  split
  · unfold mmbitGetFlatBlock
    rw [Bool.eq_iff_iff, decide_eq_true_iff, Mem.load_ne_zero_iff, ← hpad, firstIn_isSome_iff]
    unfold mmbitFlatSize
    constructor
    · rintro ⟨i, hi, hb⟩
      exact ⟨i, Nat.zero_le i, by omega, by simpa using hb⟩
    · rintro ⟨k, -, h2, hb⟩
      exact ⟨k, by omega, by simpa using hb⟩
  · rename_i hbig
    have hsize : 9 ≤ mmbitFlatSize totalBits := by unfold mmbitFlatSize roundupN; omega
    dsimp only
    rw [mmbitAnyFlatLoop_eq, Nat.mul_zero, Nat.zero_min,
      show 8 * (mmbitFlatSize totalBits - 8) + 64 = 8 * mmbitFlatSize totalBits by omega, hpad]

section Any

variable {bits : Mem} {totalBits : Nat} (hv : MmbitValid totalBits bits)
  (hmax : totalBits ≤ mmbMaxBits)

include hv hmax in
/-- **`mmbit_any_precise`** tells whether some key is on. -/
theorem mmbitAnyPrecise_iff : mmbitAnyPrecise bits totalBits = true ↔ (mmbitKeys totalBits bits).Nonempty := by
  rw [← firstIn_member_isSome_iff]
  unfold mmbitAnyPrecise mmbitIsFlatModel
  split
  · rename_i h0
    subst h0
    simp [firstIn]
  · split
    · rename_i _ hflat
      have hflat : totalBits ≤ mmbFlatMaxBits := by simpa using hflat
      rw [mmbitAnyFlat_eq ((mmbitValid_flat_iff hflat).mp hv), firstIn_member_flat hflat le_rfl]
    · rename_i _ htree
      rw [decide_eq_true_iff, mmbitIterateBig_eq (by simpa using htree) hmax hv (.inl rfl), if_pos rfl]
      exact getD_ne_invalid_iff hmax fun k hk => (firstIn_eq_some_iff.1 hk).2.1

include hv hmax in
/-- **`mmbit_any`** over-approximates: it says yes whenever some key is on. -/
theorem mmbitAny_of_nonempty (h : (mmbitKeys totalBits bits).Nonempty) : mmbitAny bits totalBits = true := by
  obtain ⟨k, hk⟩ := h
  have hkt := MmbitMember.lt hk
  unfold mmbitAny mmbitIsFlatModel
  rw [if_neg (by omega)]
  split
  · rename_i hflat
    have hflat : totalBits ≤ mmbFlatMaxBits := by simpa using hflat
    rw [mmbitAnyFlat_eq ((mmbitValid_flat_iff hflat).mp hv), ← firstIn_member_flat hflat le_rfl,
      firstIn_member_isSome_iff]
    exact ⟨k, hk⟩
  · -- the root node of the key's path is on
    rename_i htree
    have htree : mmbFlatMaxBits < totalBits := by simpa using htree
    obtain ⟨-, -, hcap⟩ := treeGeometry htree hmax
    have hpath := ((mmbitMember_tree_iff htree).mp hk).2 0 (Nat.zero_le _)
    have hnode : k >>> (6 * (mmbitMaxlevel totalBits - 0)) < 64 := by
      have := @keyNode_lt (mmbitMaxlevel totalBits) k 0 (by omega) (Nat.zero_le _)
      unfold mmbitGetKs mmbKeyShift at this
      simpa [Nat.mul_comm] using this
    have hbit := testBit_levelBlock bits 0 0 (k >>> (6 * (mmbitMaxlevel totalBits - 0)))
    have hroot : mmbitGetLevelRoot 0 + 0 * 8 = 0 := rfl
    simp only [hroot, Nat.mul_zero, Nat.zero_add, hpath, hnode, decide_true, Bool.and_true] at hbit
    refine decide_eq_true fun h0 => ?_
    rw [h0, Nat.zero_testBit] at hbit
    exact Bool.false_ne_true hbit

end Any

/-! ## `mmbit_all` -/

/-- The byte loop of `mmbit_all_flat`, then its masked last byte. -/
def mmbitAllFlatBytes (bits : Mem) (p totalBits : Nat) : Bool :=
  if totalBits > 8 then
    if bits.load (8 * p) 8 ≠ 0xff then false
    else mmbitAllFlatBytes bits (p + 1) (totalBits - 8)
  else
    let mask := mmbMaskZeroToNocheck totalBits % 2 ^ 8
    bits.load (8 * p) 8 &&& mask = mask
termination_by totalBits

/-- The block loop of `mmbit_all_flat`. -/
def mmbitAllFlatBlocks (bits : Mem) (p totalBits : Nat) : Bool :=
  if totalBits > mmbKeyBits then
    if mmbLoad bits p ≠ mmbAllOnes then false
    else mmbitAllFlatBlocks bits (p + 8) (totalBits - mmbKeyBits)
  else mmbitAllFlatBytes bits p totalBits
termination_by totalBits
decreasing_by unfold mmbKeyBits at *; omega

/-- `mmbit_all_flat`. -/
def mmbitAllFlat (bits : Mem) (totalBits : Nat) : Bool := mmbitAllFlatBlocks bits 0 totalBits

/-- The block loop of one level of `mmbit_all_big`: the `level_bits` nodes
from byte offset `p` must all be on. -/
def mmbitAllBigBlocks (bits : Mem) (p levelBits : Nat) : Bool :=
  if levelBits ≥ mmbKeyBits then
    if mmbLoad bits p ≠ mmbAllOnes then false
    else mmbitAllBigBlocks bits (p + 8) (levelBits - mmbKeyBits)
  else if levelBits > 0 then
    -- a runt block on the end
    let mask := mmbMaskZeroToNocheck levelBits
    mmbLoad bits p &&& mask = mask
  else true
termination_by levelBits
decreasing_by unfold mmbKeyBits at *; omega

/-- The level loop of `mmbit_all_big`, on `level` with key shift `ks`. -/
def mmbitAllBigLoop (bits : Mem) (totalBits ks level : Nat) : Bool :=
  -- the number of nodes expected on on this level
  let levelBits := if ks ≠ 0 then roundupN totalBits (mmbKeyBits <<< (ks - mmbKeyShift)) >>> ks
    else totalBits
  if mmbitAllBigBlocks bits (mmbitGetLevelRoot level) levelBits then
    if ks = 0 then true else mmbitAllBigLoop bits totalBits (ks - mmbKeyShift) (level + 1)
  else false
termination_by ks
decreasing_by unfold mmbKeyShift; omega

/-- `mmbit_all_big`. -/
def mmbitAllBig (bits : Mem) (totalBits : Nat) : Bool :=
  mmbitAllBigLoop bits totalBits (mmbitKeyshift totalBits) 0

/-- `mmbit_all`. -/
def mmbitAll (bits : Mem) (totalBits : Nat) : Bool :=
  if mmbitIsFlatModel totalBits then mmbitAllFlat bits totalBits else mmbitAllBig bits totalBits

section All

variable (bits : Mem)

/-- A masked load: the `t` low bits are on exactly when memory has them on. -/
theorem load_and_lowMask_eq_iff {a w t : Nat} (ht : t ≤ w) :
    bits.load a w &&& lowMask t = lowMask t ↔ ∀ j, j < t → bits (a + j) = true := by
  rw [and_lowMask_eq_iff]
  refine forall_congr' fun j => imp_congr_right fun hj => ?_
  rw [Mem.testBit_load]
  simp [show j < w by omega]

/-- A full block loaded from memory is all ones exactly when its bits are on. -/
theorem mmbLoad_eq_allOnes_iff (p : Nat) :
    mmbLoad bits p = mmbAllOnes ↔ ∀ j, j < 64 → bits (8 * p + j) = true :=
  Mem.load_eq_lowMask_iff bits (8 * p) 64

/-- One step of an all-ones scan: a full chunk of `w` bits, then the rest. -/
theorem forall_chunk_iff {a w t : Nat} (hw : w ≤ t) :
    ((∀ j, j < w → bits (a + j) = true) ∧ ∀ j, j < t - w → bits (a + w + j) = true) ↔
      ∀ j, j < t → bits (a + j) = true := by
  constructor
  · rintro ⟨h1, h2⟩ j hj
    by_cases hjw : j < w
    · exact h1 j hjw
    · have := h2 (j - w) (by omega)
      rwa [show a + w + (j - w) = a + j by omega] at this
  · intro h
    refine ⟨fun j hj => h j (by omega), fun j hj => ?_⟩
    rw [Nat.add_assoc]
    exact h (w + j) (by omega)

theorem mmbitAllFlatBytes_eq (p t : Nat) :
    mmbitAllFlatBytes bits p t = decide (∀ j, j < t → bits (8 * p + j) = true) := by
  fun_induction mmbitAllFlatBytes bits p t with
  | case1 p t ht hne =>
      refine (decide_eq_false fun hall => hne ?_).symm
      exact (Mem.load_eq_lowMask_iff bits (8 * p) 8).mpr fun j hj => hall j (by omega)
  | case2 p t ht hff ih =>
      have hbyte := (Mem.load_eq_lowMask_iff bits (8 * p) 8).mp (not_not.mp hff)
      rw [ih, show 8 * (p + 1) = 8 * p + 8 by omega]
      exact decide_eq_decide.mpr ((forall_chunk_iff bits (by omega)).symm.trans
        (and_iff_right hbyte)).symm
  | case3 p t ht mask =>
      have hmask : mmbMaskZeroToNocheck t % 2 ^ 8 = lowMask t := by
        rw [mmbMaskZeroToNocheck_eq, Nat.mod_eq_of_lt (lowMask_lt_of_le (by omega))]
      rw [show mask = lowMask t from hmask]
      exact decide_eq_decide.mpr (load_and_lowMask_eq_iff bits (by omega))

theorem mmbitAllFlatBlocks_eq (p t : Nat) :
    mmbitAllFlatBlocks bits p t = decide (∀ j, j < t → bits (8 * p + j) = true) := by
  fun_induction mmbitAllFlatBlocks bits p t with
  | case1 p t ht hne =>
      refine (decide_eq_false fun hall => hne ?_).symm
      exact (mmbLoad_eq_allOnes_iff bits p).mpr fun j hj => hall j (by unfold mmbKeyBits at ht; omega)
  | case2 p t ht hones ih =>
      have hblock := (mmbLoad_eq_allOnes_iff bits p).mp (not_not.mp hones)
      unfold mmbKeyBits at ht ih ⊢
      rw [ih, show 8 * (p + 8) = 8 * p + 64 by omega]
      exact decide_eq_decide.mpr ((forall_chunk_iff bits (by omega)).symm.trans
        (and_iff_right hblock)).symm
  | case3 p t ht => exact mmbitAllFlatBytes_eq bits p t

/-- **`mmbit_all_flat`** tells whether every key is on. -/
theorem mmbitAllFlat_eq (totalBits : Nat) :
    mmbitAllFlat bits totalBits = decide (∀ k, k < totalBits → bits k = true) := by
  unfold mmbitAllFlat
  rw [mmbitAllFlatBlocks_eq]
  simp

theorem mmbitAllBigBlocks_eq (p t : Nat) :
    mmbitAllBigBlocks bits p t = decide (∀ j, j < t → bits (8 * p + j) = true) := by
  fun_induction mmbitAllBigBlocks bits p t with
  | case1 p t ht hne =>
      refine (decide_eq_false fun hall => hne ?_).symm
      exact (mmbLoad_eq_allOnes_iff bits p).mpr fun j hj => hall j (by unfold mmbKeyBits at ht; omega)
  | case2 p t ht hones ih =>
      have hblock := (mmbLoad_eq_allOnes_iff bits p).mp (not_not.mp hones)
      unfold mmbKeyBits at ht ih ⊢
      rw [ih, show 8 * (p + 8) = 8 * p + 64 by omega]
      exact decide_eq_decide.mpr ((forall_chunk_iff bits (by omega)).symm.trans
        (and_iff_right hblock)).symm
  | case3 p t ht hpos mask =>
      rw [show mask = lowMask t from mmbMaskZeroToNocheck_eq t]
      exact decide_eq_decide.mpr (load_and_lowMask_eq_iff bits (by unfold mmbKeyBits at ht; omega))
  | case4 p t ht h0 => simp [show t = 0 by omega]

/-- The number of nodes `mmbit_all_big` expects on the level with key shift
`ks`: the nodes holding some key below `total_bits`. -/
theorem levelBits_eq {totalBits ks : Nat} (hks : ks % 6 = 0) :
    (if ks ≠ 0 then roundupN totalBits (mmbKeyBits <<< (ks - mmbKeyShift)) >>> ks else totalBits) =
      (totalBits + 2 ^ ks - 1) / 2 ^ ks := by
  split
  · rename_i hne
    have hw : mmbKeyBits <<< (ks - mmbKeyShift) = 2 ^ ks := by
      unfold mmbKeyBits mmbKeyShift
      rw [Nat.shiftLeft_eq, show (64 : Nat) = 2 ^ 6 from rfl, ← Nat.pow_add]
      congr 1
      omega
    have hpos := Nat.two_pow_pos ks
    rw [hw, Nat.shiftRight_eq_div_pow]
    unfold roundupN
    rw [Nat.mul_div_cancel _ hpos]
    congr 1
    omega
  · rename_i h0
    rw [not_not.mp h0]
    simp

/-- A node of a level is below the count of nodes holding keys exactly when
its first key is a key. -/
theorem lt_ceilDiv_iff {n t P : Nat} (hP : 0 < P) : n < (t + P - 1) / P ↔ n * P < t := by
  rw [← Nat.add_one_le_iff, Nat.le_div_iff_mul_le hP, Nat.add_mul, Nat.one_mul]
  omega

/-- Node `n` of `level` is bit `n` from the level's root block. -/
theorem levelBit_eq_root (l n : Nat) : levelBit bits l n = bits (8 * mmbitGetLevelRoot l + n) := by
  unfold levelBit nodeAddr mmbitGetLevelRoot
  congr 1
  omega

/-- A test `if c then b else false` passes exactly when `c` holds and `b` does. -/
theorem ite_false_eq_true_iff {c : Prop} [Decidable c] {b : Bool} :
    (if c then b else false) = true ↔ c ∧ b = true := by
  by_cases h : c <;> simp [h]

/-- The level loop checks every node holding a key, on every level from `level` down. -/
theorem mmbitAllBigLoop_eq (totalBits maxLevel d : Nat) :
    ∀ level, level + d = maxLevel →
      (mmbitAllBigLoop bits totalBits (mmbitGetKs maxLevel level) level = true ↔
        ∀ l, level ≤ l → l ≤ maxLevel → ∀ n,
          n < (totalBits + 2 ^ mmbitGetKs maxLevel l - 1) / 2 ^ mmbitGetKs maxLevel l →
            levelBit bits l n = true) := by
  -- induction on the number of levels below `level`
  induction d with
  | zero =>
      intro level hl
      obtain rfl : level = maxLevel := by omega
      rw [mmbitAllBigLoop, levelBits_eq (by unfold mmbitGetKs mmbKeyShift; omega),
        mmbitAllBigBlocks_eq, mmbitGetKs_self, if_pos rfl, ite_false_eq_true_iff, decide_eq_true_iff]
      simp only [Nat.pow_zero, Nat.add_sub_cancel, Nat.div_one, and_true]
      constructor
      · intro h l h1 h2 n hn
        obtain rfl : l = level := by omega
        rw [mmbitGetKs_self, Nat.pow_zero, Nat.add_sub_cancel, Nat.div_one] at hn
        rw [levelBit_eq_root]
        exact h n hn
      · intro h j hj
        rw [← levelBit_eq_root bits level j]
        exact h level le_rfl le_rfl j (by simpa [mmbitGetKs_self] using hj)
  | succ d ih =>
      intro level hl
      have hks := mmbitGetKs_succ (show level < maxLevel by omega)
      have hne : mmbitGetKs maxLevel level ≠ 0 := by omega
      have hnext : mmbitGetKs maxLevel level - mmbKeyShift = mmbitGetKs maxLevel (level + 1) := by
        unfold mmbKeyShift
        omega
      rw [mmbitAllBigLoop, levelBits_eq (by unfold mmbitGetKs mmbKeyShift; omega),
        mmbitAllBigBlocks_eq, if_neg hne, hnext, ite_false_eq_true_iff, decide_eq_true_iff,
        ih (level + 1) (by omega)]
      constructor
      · rintro ⟨hlevel, hbelow⟩ l h1 h2 n hn
        by_cases hl' : l = level
        · subst hl'
          rw [levelBit_eq_root]
          exact hlevel n hn
        · exact hbelow l (by omega) h2 n hn
      · intro h
        refine ⟨fun j hj => ?_, fun l h1 h2 n hn => h l (by omega) h2 n hn⟩
        rw [← levelBit_eq_root bits level j]
        exact h level le_rfl (by omega) j hj

end All

/-- Every node holding a key is on exactly when every key's path is set. -/
theorem levels_full_iff_pathSet {bits : Mem} {totalBits maxLevel : Nat} :
    (∀ l, 0 ≤ l → l ≤ maxLevel → ∀ n,
        n < (totalBits + 2 ^ mmbitGetKs maxLevel l - 1) / 2 ^ mmbitGetKs maxLevel l →
          levelBit bits l n = true) ↔
      ∀ k, k < totalBits → PathSet bits maxLevel k := by
  have hks : ∀ l, l ≤ maxLevel → 6 * (maxLevel - l) = mmbitGetKs maxLevel l := fun l _ => by
    unfold mmbitGetKs mmbKeyShift
    omega
  constructor
  · intro h k hk l hl
    rw [hks l hl]
    refine h l (Nat.zero_le l) hl _ ((lt_ceilDiv_iff (Nat.two_pow_pos _)).mpr ?_)
    rw [Nat.shiftRight_eq_div_pow]
    exact lt_of_le_of_lt (Nat.div_mul_le_self k _) hk
  · intro h l _ hl n hn
    have hkey := (lt_ceilDiv_iff (Nat.two_pow_pos _)).mp hn
    have := h (n * 2 ^ mmbitGetKs maxLevel l) hkey l hl
    rwa [hks l hl, Nat.shiftRight_eq_div_pow, Nat.mul_div_cancel _ (Nat.two_pow_pos _)] at this

/-- **`mmbit_all`** tells whether every key is on. -/
theorem mmbitAll_iff {bits : Mem} {totalBits : Nat} (hmax : totalBits ≤ mmbMaxBits) :
    mmbitAll bits totalBits = true ↔ ∀ k, k < totalBits → MmbitMember totalBits bits k := by
  unfold mmbitAll mmbitIsFlatModel
  split
  · rename_i hflat
    have hflat : totalBits ≤ mmbFlatMaxBits := by simpa using hflat
    rw [mmbitAllFlat_eq, decide_eq_true_iff]
    exact forall_congr' fun k => imp_congr_right fun hk => by
      rw [mmbitMember_flat_iff hflat]
      exact (and_iff_right hk).symm
  · rename_i htree
    have htree : mmbFlatMaxBits < totalBits := by simpa using htree
    obtain ⟨-, hks, -, -⟩ := mmbitMaxlevel_spec (by unfold mmbFlatMaxBits at htree; omega) hmax
    have hks0 : mmbitKeyshift totalBits = mmbitGetKs (mmbitMaxlevel totalBits) 0 := by
      rw [hks]
      unfold mmbitGetKs mmbKeyShift
      omega
    unfold mmbitAllBig
    rw [hks0, mmbitAllBigLoop_eq bits totalBits (mmbitMaxlevel totalBits) (mmbitMaxlevel totalBits) 0
      (Nat.zero_add _), levels_full_iff_pathSet]
    exact forall_congr' fun k => imp_congr_right fun hk => by
      rw [mmbitMember_tree_iff htree]
      exact (and_iff_right hk).symm

end Multibit
end Vectorscan
