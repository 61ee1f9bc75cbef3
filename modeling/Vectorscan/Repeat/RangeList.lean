import Vectorscan.Repeat.Dispatch

/-!
# Bounded repeats: the list of the RANGE model

`REPEAT_RANGE` keeps the tops of a `{repeatMin, repeatMax}` repeat as a list
of `u16` offsets from the control block's `offset`, in the
`numRangeSlots(repeatMin, repeatMax)` slots of stream state that the compiler
allots (`repeatcompile.cpp`), with their count in the `u8` field `num`.
`repeatStoreRange` drops the expired tops from the front of the list, then
replaces the last entry when the penultimate top is within
`repeatMax - repeatMin` of the new one, and appends it otherwise.

**Model.**  `repeatStoreRange_alive` cuts a store with `is_alive` set into the
search for the first live top, the expiry (`rangeExpire`) and the addition of
the new top (`rangeAdd`).

**Invariant.**  `RangeInv`: the list is non-empty, starts at `0` and
increases, entries two apart are more than `repeatMax - repeatMin` apart, and
the last entry is the last top, at most `repeatMax` after the first.  Such a
list has at most `numRangeSlots` entries (`RangeInv.num_le`): the spread puts
every second entry `repeatMax - repeatMin + 1` further on.

**Results.**  `rangeInv_store`: a store keeps the invariant, and the value it
writes, `offset - xs->offset`, is at most `repeatMax`.  `repeatStoreRange_inv`:
over any run of increasing tops, on a repeat with fewer than `256` slots, the
count stays in `[1, numRangeSlots]`, the list starts at `0` and increases,
and no value written exceeds `65535`; the last entry is the last top
(`repeatLastTopRange_run`).  `repeatStoreRange_num_wraps`: on the
`{999,1000}` repeat, with `2002` slots, the 256th top takes `num` back to `0`.
-/

namespace Vectorscan
namespace Repeat

/-! ## The `u16` array -/

theorem rangeEntry_lt (ring : Mem) (i : Nat) : rangeEntry ring i < 2 ^ 16 :=
  Mem.load_lt _ _ _

@[simp] theorem rangeEntry_rangeSet_self (ring : Mem) (i v : Nat) :
    rangeEntry (rangeSet ring i v) i = v % 2 ^ 16 :=
  Mem.load_store_self _ _ _ _

theorem rangeEntry_rangeSet_of_ne (ring : Mem) {i j : Nat} (v : Nat) (h : j ≠ i) :
    rangeEntry (rangeSet ring i v) j = rangeEntry ring j :=
  Mem.load_store_of_disjoint _ _ (by omega)

/-- The expiry loop over the positions `[a, a + m)`: each takes the entry `i`
places further on, less `first`; the other positions keep their entries.
The loop reads ahead of what it writes, so it reads the old entries. -/
theorem rangeEntry_rangeShift {i : Nat} (hi : 0 < i) (first : Nat) (m : Nat) :
    ∀ (a : Nat) (ring : Mem) (k : Nat),
      rangeEntry (rangeShift i first (List.range' a m) ring) k =
        if a ≤ k ∧ k < a + m then (rangeEntry ring (i + k) - first) % 2 ^ 16 else rangeEntry ring k := by
  induction m with
  | zero =>
      intro a ring k
      rw [if_neg (by omega)]
      rfl
  | succ m ih =>
      intro a ring k
      rw [List.range'_succ, rangeShift, ih]
      by_cases hk : k = a
      · subst hk
        rw [if_neg (by omega), if_pos (by omega), rangeEntry_rangeSet_self]
      · rw [rangeEntry_rangeSet_of_ne _ _ hk]
        by_cases hr : a + 1 ≤ k ∧ k < a + 1 + m
        · rw [if_pos hr, if_pos (by omega), rangeEntry_rangeSet_of_ne _ _ (by omega)]
        · rw [if_neg hr, if_neg (by omega)]

/-! ## A store cut into its steps -/

/-- The expiry of `repeatStoreRange`: the entries from the first live one `i`
on, less its offset, which moves into the control block. -/
def rangeExpire (xs : RepeatControl) (ring : Mem) (i : Nat) : RepeatControl × Mem :=
  if i > 0 then
    (({ xs with offset := xs.offset + rangeEntry ring i, num := xs.num - i } : RepeatControl),
      rangeShift i (rangeEntry ring i) (List.range (xs.num - i)) ring)
  else (xs, ring)

/-- The end of `repeatStoreRange`: the new top replaces the last entry or is
appended. -/
def rangeAdd (info : RepeatInfo) (xs : RepeatControl) (ring : Mem) (offset : Nat) : RepeatControl × Mem :=
  if xs.num = 1 then rangeAppend xs ring offset
  else
    let d := info.repeatMax - info.repeatMin
    let penultimateOffset := xs.offset + rangeEntry ring (xs.num - 2)
    if offset - penultimateOffset ≤ d then (xs, rangeSet ring (xs.num - 1) (offset - xs.offset))
    else rangeAppend xs ring offset

theorem repeatStoreRange_alive (info : RepeatInfo) (xs : RepeatControl) (ring : Mem) (offset : Nat) :
    repeatStoreRange info xs ring offset true =
      if rangeFirstLive info xs ring offset (List.range xs.num) = xs.num then
        storeInitialRangeTop xs ring offset
      else
        rangeAdd info (rangeExpire xs ring (rangeFirstLive info xs ring offset (List.range xs.num))).1
          (rangeExpire xs ring (rangeFirstLive info xs ring offset (List.range xs.num))).2 offset := by
  simp only [repeatStoreRange, Bool.not_true, Bool.false_eq_true, if_false]
  by_cases h : rangeFirstLive info xs ring offset (List.range xs.num) = xs.num
  · rw [if_pos h, if_pos h]
  · rw [if_neg h, if_neg h]
    by_cases h0 : rangeFirstLive info xs ring offset (List.range xs.num) > 0
    · simp only [rangeExpire, if_pos h0]
      rfl
    · simp only [rangeExpire, if_neg h0]
      rfl

/-- The first loop finds no live top, or a live one among the entries it walks. -/
theorem rangeFirstLive_spec (info : RepeatInfo) (xs : RepeatControl) (ring : Mem) (offset : Nat)
    (is : List Nat) :
    rangeFirstLive info xs ring offset is = xs.num ∨
      (rangeFirstLive info xs ring offset is ∈ is ∧
        offset - (xs.offset + rangeEntry ring (rangeFirstLive info xs ring offset is)) ≤ info.repeatMax) := by
  induction is with
  | nil => exact .inl rfl
  | cons i is ih =>
      rw [rangeFirstLive]
      split
      · exact .inr ⟨List.mem_cons_self, ‹_›⟩
      · rcases ih with h | ⟨hmem, hlive⟩
        · exact .inl h
        · exact .inr ⟨List.mem_cons_of_mem _ hmem, hlive⟩

/-! ## The invariant -/

section Invariant

variable {info : RepeatInfo} {xs : RepeatControl} {ring : Mem} {top offset : Nat}

/-- The shape of the list: non-empty, from `0`, increasing, spread, ending at
the last top. -/
structure RangeList (info : RepeatInfo) (xs : RepeatControl) (ring : Mem) (top : Nat) : Prop where
  num_pos : 0 < xs.num
  first_zero : rangeEntry ring 0 = 0
  increasing : ∀ i j, i < j → j < xs.num → rangeEntry ring i < rangeEntry ring j
  spread : ∀ i, i + 2 < xs.num →
    rangeEntry ring i + (info.repeatMax - info.repeatMin) < rangeEntry ring (i + 2)
  last_top : xs.offset + rangeEntry ring (xs.num - 1) = top

/-- The invariant of a RANGE repeat whose last top is `top`. -/
structure RangeInv (info : RepeatInfo) (xs : RepeatControl) (ring : Mem) (top : Nat) : Prop
    extends RangeList info xs ring top where
  last_le : rangeEntry ring (xs.num - 1) ≤ info.repeatMax

theorem RangeList.entry_le (h : RangeList info xs ring top) {i : Nat} (hi : i < xs.num) :
    rangeEntry ring i ≤ rangeEntry ring (xs.num - 1) := by
  rcases Nat.lt_or_ge i (xs.num - 1) with hlt | hge
  · exact (h.increasing i (xs.num - 1) hlt (by omega)).le
  · rw [show i = xs.num - 1 by omega]

/-- Every second entry is `d + 1` further on. -/
theorem le_of_spread {e : Nat → Nat} {n d : Nat} (hspread : ∀ i, i + 2 < n → e i + d < e (i + 2)) :
    ∀ k, 2 * k < n → e 0 + k * (d + 1) ≤ e (2 * k) := by
  intro k
  induction k with
  | zero => intro _; simp
  | succ k ih =>
      intro hk
      have h1 := ih (by omega)
      have h2 := hspread (2 * k) (by omega)
      rw [show 2 * (k + 1) = 2 * k + 2 by ring, Nat.succ_mul]
      omega

/-- **The count bound.**  A list whose entries two apart are more than `d`
apart and whose last entry is at most `M` has at most `2 * (M / d + 1)`
entries. -/
theorem count_le_of_spread {e : Nat → Nat} {n d M : Nat} (hd : 0 < d)
    (hinc : ∀ i j, i < j → j < n → e i < e j) (hspread : ∀ i, i + 2 < n → e i + d < e (i + 2))
    (hlast : e (n - 1) ≤ M) : n ≤ 2 * (M / d + 1) := by
  rcases Nat.eq_zero_or_pos n with hn | hn
  · omega
  set q := (n - 1) / 2 with hq
  have hstep := le_of_spread hspread q (by omega)
  -- the entry `2 q` is at most the last one
  have hmono : e (2 * q) ≤ e (n - 1) := by
    rcases Nat.lt_or_ge (2 * q) (n - 1) with hlt | hge
    · exact (hinc _ _ hlt (by omega)).le
    · rw [show 2 * q = n - 1 by omega]
  have hqd : q * d ≤ M := by
    calc q * d ≤ q * (d + 1) := Nat.mul_le_mul_left q (Nat.le_succ d)
      _ ≤ e 0 + q * (d + 1) := Nat.le_add_left _ _
      _ ≤ M := hstep.trans (hmono.trans hlast)
  have hqM : q ≤ M / d := (Nat.le_div_iff_mul_le hd).mpr hqd
  omega

theorem RangeInv.num_le (hmin : info.repeatMin < info.repeatMax) (h : RangeInv info xs ring top) :
    xs.num ≤ numRangeSlots info.repeatMin info.repeatMax :=
  count_le_of_spread (by omega) h.increasing h.spread h.last_le

/-- A repeat started at `offset` holds it alone. -/
theorem rangeInv_storeInitialRangeTop (xs : RepeatControl) (ring : Mem) (offset : Nat) :
    RangeInv info (storeInitialRangeTop xs ring offset).1 (storeInitialRangeTop xs ring offset).2 offset where
  num_pos := Nat.one_pos
  first_zero := by simp [storeInitialRangeTop]
  increasing := fun i j hij hj => absurd hj (by simp [storeInitialRangeTop]; omega)
  spread := fun i hi => absurd hi (by simp [storeInitialRangeTop])
  last_top := by simp [storeInitialRangeTop]
  last_le := by simp [storeInitialRangeTop]

/-- The expiry keeps the shape of the list from the live entry `i` on, and
moves the control block's offset to that top. -/
theorem RangeList.expire (h : RangeList info xs ring top) {i : Nat} (hi : i < xs.num) :
    RangeList info (rangeExpire xs ring i).1 (rangeExpire xs ring i).2 top ∧
      (rangeExpire xs ring i).1.offset = xs.offset + rangeEntry ring i := by
  rcases Nat.eq_zero_or_pos i with rfl | hpos
  · simp only [rangeExpire, gt_iff_lt, Nat.lt_irrefl, if_false]
    exact ⟨h, by rw [h.first_zero, Nat.add_zero]⟩
  have hexp : rangeExpire xs ring i =
      (({ xs with offset := xs.offset + rangeEntry ring i, num := xs.num - i } : RepeatControl),
        rangeShift i (rangeEntry ring i) (List.range (xs.num - i)) ring) := if_pos hpos
  rw [hexp]
  -- the entries after the shift, read through `rangeEntry_rangeShift`
  have hread : ∀ k, k < xs.num - i →
      rangeEntry (rangeShift i (rangeEntry ring i) (List.range (xs.num - i)) ring) k =
        rangeEntry ring (i + k) - rangeEntry ring i := by
    intro k hk
    rw [List.range_eq_range', rangeEntry_rangeShift hpos, if_pos (by omega),
      Nat.mod_eq_of_lt (by have := rangeEntry_lt ring (i + k); omega)]
  have hle : ∀ k, k < xs.num - i → rangeEntry ring i ≤ rangeEntry ring (i + k) := by
    intro k hk
    rcases Nat.eq_zero_or_pos k with rfl | hk0
    · rw [Nat.add_zero]
    · exact (h.increasing _ _ (by omega) (by omega)).le
  refine ⟨⟨by dsimp only; omega, ?_, ?_, ?_, ?_⟩, rfl⟩
  · rw [hread 0 (by omega), Nat.add_zero, Nat.sub_self]
  · intro a b hab hb
    dsimp only at hb ⊢
    rw [hread a (by omega), hread b hb]
    have := h.increasing (i + a) (i + b) (by omega) (by omega)
    have := hle a (by omega)
    omega
  · intro a ha
    dsimp only at ha ⊢
    rw [hread a (by omega), hread (a + 2) ha]
    have := h.spread (i + a) (by omega)
    have := hle a (by omega)
    rw [show i + (a + 2) = i + a + 2 by ring]
    omega
  · dsimp only
    rw [hread _ (by omega), show i + (xs.num - i - 1) = xs.num - 1 by omega]
    have := hle (xs.num - i - 1) (by omega)
    rw [show i + (xs.num - i - 1) = xs.num - 1 by omega] at this
    have := h.last_top
    omega

section Add

variable (hmin : info.repeatMin < info.repeatMax) (hmax : info.repeatMax < 2 ^ 16)
  (hslots : numRangeSlots info.repeatMin info.repeatMax < 256)
include hmin hmax hslots

/-- Appending a top after the last one, within `repeatMax` of the first entry
and, when there is a penultimate entry, more than `repeatMax - repeatMin`
after it, leaves the invariant with the new top last. -/
theorem RangeList.append (h : RangeList info xs ring top) (hlive : offset - xs.offset ≤ info.repeatMax)
    (htop : top < offset)
    (hfar : 2 ≤ xs.num → info.repeatMax - info.repeatMin < offset - (xs.offset + rangeEntry ring (xs.num - 2))) :
    RangeInv info (rangeAppend xs ring offset).1 (rangeAppend xs ring offset).2 offset := by
  have hv : (offset - xs.offset) % 2 ^ 16 = offset - xs.offset := Nat.mod_eq_of_lt (by omega)
  set ring' := rangeSet ring xs.num (offset - xs.offset) with hring'
  have hread : ∀ k, k < xs.num → rangeEntry ring' k = rangeEntry ring k :=
    fun k hk => rangeEntry_rangeSet_of_ne _ _ (by omega)
  have hnew : rangeEntry ring' xs.num = offset - xs.offset := by
    rw [hring', rangeEntry_rangeSet_self, hv]
  have hgrow : rangeEntry ring (xs.num - 1) < offset - xs.offset := by have := h.last_top; omega
  -- the list with the new top at position `num`
  have hinc : ∀ a b, a < b → b < xs.num + 1 → rangeEntry ring' a < rangeEntry ring' b := by
    intro a b hab hb
    rw [hread a (by omega)]
    rcases Nat.lt_or_ge b xs.num with hb' | hb'
    · rw [hread b hb']
      exact h.increasing a b hab hb'
    · rw [show b = xs.num by omega, hnew]
      exact (h.entry_le (show a < xs.num by omega)).trans_lt hgrow
  have hspread : ∀ a, a + 2 < xs.num + 1 →
      rangeEntry ring' a + (info.repeatMax - info.repeatMin) < rangeEntry ring' (a + 2) := by
    intro a ha
    rw [hread a (by omega)]
    rcases Nat.lt_or_ge (a + 2) xs.num with ha' | ha'
    · rw [hread (a + 2) ha']
      exact h.spread a ha'
    · have := hfar (by omega)
      rw [show a + 2 = xs.num by omega, hnew, show a = xs.num - 2 by omega]
      omega
  have hlast : rangeEntry ring' (xs.num + 1 - 1) ≤ info.repeatMax := by
    rw [Nat.add_sub_cancel, hnew]
    exact hlive
  -- the longer list still fits the slots, so the `u8` count does not wrap
  have hfit := count_le_of_spread (by omega) hinc hspread hlast
  have hnum : (rangeAppend xs ring offset).1.num = xs.num + 1 :=
    Nat.mod_eq_of_lt (by unfold numRangeSlots at hslots; omega)
  have hring : (rangeAppend xs ring offset).2 = ring' := rfl
  refine ⟨⟨by rw [hnum]; omega, ?_, ?_, ?_, ?_⟩, ?_⟩
  · rw [hring, hread 0 h.num_pos, h.first_zero]
  · rw [hnum, hring]
    exact hinc
  · rw [hnum, hring]
    exact hspread
  · rw [hnum, hring, Nat.add_sub_cancel, hnew]
    show xs.offset + (offset - xs.offset) = offset
    omega
  · rw [hnum, hring]
    exact hlast

/-- The addition of a top after the last one, within `repeatMax` of the first
entry, leaves the invariant with the new top last. -/
theorem RangeList.add (h : RangeList info xs ring top) (hlive : offset - xs.offset ≤ info.repeatMax)
    (htop : top < offset) :
    RangeInv info (rangeAdd info xs ring offset).1 (rangeAdd info xs ring offset).2 offset ∧
      (rangeAdd info xs ring offset).1.offset = xs.offset := by
  unfold rangeAdd
  split
  · exact ⟨h.append hmin hmax hslots hlive htop (fun h2 => by omega), rfl⟩
  · dsimp only
    split
    · -- the penultimate top is close: replace the last entry
      have hnum : 2 ≤ xs.num := by have := h.num_pos; omega
      have hv : (offset - xs.offset) % 2 ^ 16 = offset - xs.offset := Nat.mod_eq_of_lt (by omega)
      have hread : ∀ k, k < xs.num - 1 →
          rangeEntry (rangeSet ring (xs.num - 1) (offset - xs.offset)) k = rangeEntry ring k :=
        fun k hk => rangeEntry_rangeSet_of_ne _ _ (by omega)
      have hnew : rangeEntry (rangeSet ring (xs.num - 1) (offset - xs.offset)) (xs.num - 1) =
          offset - xs.offset := by rw [rangeEntry_rangeSet_self, hv]
      have hgrow : rangeEntry ring (xs.num - 1) < offset - xs.offset := by have := h.last_top; omega
      refine ⟨⟨⟨h.num_pos, by rw [hread 0 (by omega), h.first_zero], ?_, ?_, ?_⟩, ?_⟩, rfl⟩
      · intro a b hab hb
        dsimp only at hb ⊢
        rw [hread a (by omega)]
        rcases Nat.lt_or_ge b (xs.num - 1) with hb' | hb'
        · rw [hread b hb']
          exact h.increasing a b hab hb
        · rw [show b = xs.num - 1 by omega, hnew]
          exact (h.increasing a (xs.num - 1) (by omega) (by omega)).trans hgrow
      · intro a ha
        dsimp only at ha ⊢
        rw [hread a (by omega)]
        rcases Nat.lt_or_ge (a + 2) (xs.num - 1) with ha' | ha'
        · rw [hread (a + 2) ha']
          exact h.spread a ha
        · rw [show a + 2 = xs.num - 1 by omega, hnew]
          have := h.spread a ha
          rw [show a + 2 = xs.num - 1 by omega] at this
          omega
      · show xs.offset + rangeEntry (rangeSet ring (xs.num - 1) (offset - xs.offset)) (xs.num - 1) = offset
        rw [hnew]
        have := h.last_top
        omega
      · show rangeEntry (rangeSet ring (xs.num - 1) (offset - xs.offset)) (xs.num - 1) ≤ info.repeatMax
        rw [hnew]
        exact hlive
    · -- the penultimate top is far: append
      exact ⟨h.append hmin hmax hslots hlive htop (fun _ => by omega), rfl⟩

/-- **The step lemma.**  A store of a top after the last one keeps the
invariant, and the value it writes is at most `repeatMax`. -/
theorem rangeInv_store (h : RangeInv info xs ring top) (htop : top < offset) :
    RangeInv info (repeatStoreRange info xs ring offset true).1 (repeatStoreRange info xs ring offset true).2
        offset ∧
      offset - (repeatStoreRange info xs ring offset true).1.offset ≤ info.repeatMax := by
  rw [repeatStoreRange_alive]
  split
  · exact ⟨rangeInv_storeInitialRangeTop xs ring offset, by simp [storeInitialRangeTop]⟩
  · rename_i hne
    -- the first live entry
    obtain ⟨hmem, hlive⟩ := (rangeFirstLive_spec info xs ring offset (List.range xs.num)).resolve_left hne
    have hi := List.mem_range.mp hmem
    obtain ⟨hexp, hoff⟩ := h.toRangeList.expire hi
    have hlive' : offset - (rangeExpire xs ring (rangeFirstLive info xs ring offset (List.range xs.num))).1.offset ≤
        info.repeatMax := by rw [hoff]; exact hlive
    obtain ⟨hinv, hoff'⟩ := hexp.add hmin hmax hslots hlive' htop
    exact ⟨hinv, by rw [hoff']; exact hlive'⟩

end Add

end Invariant

/-! ## Runs of stores -/

/-- The stores of a run: the first top with `is_alive = 0`, every later one
with `is_alive = 1`. -/
def rangeStoreRun (info : RepeatInfo) (s : RepeatControl × Mem) (t0 : Nat) (tops : List Nat) :
    RepeatControl × Mem :=
  tops.foldl (fun s t => repeatStoreRange info s.1 s.2 t true) (repeatStoreRange info s.1 s.2 t0 false)

section Run

variable {info : RepeatInfo} (hmin : info.repeatMin < info.repeatMax) (hmax : info.repeatMax < 2 ^ 16)
  (hslots : numRangeSlots info.repeatMin info.repeatMax < 256)
include hmin hmax hslots

/-- **The run lemma.**  Stores of increasing tops keep the invariant, the last
top last, and each writes a value of at most `repeatMax`. -/
theorem rangeInv_foldl (tops : List Nat) :
    ∀ (s : RepeatControl × Mem) (top : Nat), RangeInv info s.1 s.2 top → List.IsChain (· < ·) (top :: tops) →
      RangeInv info (tops.foldl (fun s t => repeatStoreRange info s.1 s.2 t true) s).1
          (tops.foldl (fun s t => repeatStoreRange info s.1 s.2 t true) s).2 ((top :: tops).getLast (by simp)) ∧
        (tops ≠ [] → (top :: tops).getLast (by simp) -
          (tops.foldl (fun s t => repeatStoreRange info s.1 s.2 t true) s).1.offset ≤ info.repeatMax) := by
  induction tops with
  | nil => intro s top h _; exact ⟨h, fun hne => absurd rfl hne⟩
  | cons t tops ih =>
      intro s top h hchain
      rw [List.isChain_cons_cons] at hchain
      obtain ⟨hstep, hwrite⟩ := rangeInv_store hmin hmax hslots h hchain.1
      obtain ⟨hinv, hwrites⟩ := ih _ t hstep hchain.2
      rw [List.foldl_cons, List.getLast_cons (by simp)]
      refine ⟨hinv, fun _ => ?_⟩
      cases tops with
      | nil => exact hwrite
      | cons u us => exact hwrites (List.cons_ne_nil _ _)

/-- **The RANGE list stays in its slots.**  With fewer than `256` slots (the
count is a `u8`), after every store of a run of increasing tops, the first
stored with `is_alive = 0`: the count is in `[1, numRangeSlots]`, the list
starts at `0` and increases, and the value the store wrote,
`offset - xs->offset`, is at most `65535`. -/
theorem repeatStoreRange_inv (s : RepeatControl × Mem) (t0 : Nat) (tops : List Nat)
    (hinc : List.IsChain (· < ·) (t0 :: tops)) :
    1 ≤ (rangeStoreRun info s t0 tops).1.num ∧
      (rangeStoreRun info s t0 tops).1.num ≤ numRangeSlots info.repeatMin info.repeatMax ∧
      rangeEntry (rangeStoreRun info s t0 tops).2 0 = 0 ∧
      (∀ i j, i < j → j < (rangeStoreRun info s t0 tops).1.num →
        rangeEntry (rangeStoreRun info s t0 tops).2 i < rangeEntry (rangeStoreRun info s t0 tops).2 j) ∧
      (t0 :: tops).getLast (by simp) - (rangeStoreRun info s t0 tops).1.offset ≤ 65535 := by
  have hinit : RangeInv info (repeatStoreRange info s.1 s.2 t0 false).1 (repeatStoreRange info s.1 s.2 t0 false).2 t0 :=
    rangeInv_storeInitialRangeTop s.1 s.2 t0
  obtain ⟨hinv, hwrite⟩ := rangeInv_foldl hmin hmax hslots tops _ t0 hinit hinc
  have hwritten : (t0 :: tops).getLast (by simp) - (rangeStoreRun info s t0 tops).1.offset ≤ info.repeatMax := by
    cases tops with
    | nil => simp [rangeStoreRun, repeatStoreRange, storeInitialRangeTop]
    | cons u us => exact hwrite (List.cons_ne_nil _ _)
  exact ⟨hinv.num_pos, hinv.num_le hmin, hinv.first_zero, hinv.increasing, by omega⟩

/-- After a run of increasing tops, `repeatLastTopRange` is the last top. -/
theorem repeatLastTopRange_run (s : RepeatControl × Mem) (t0 : Nat) (tops : List Nat)
    (hinc : List.IsChain (· < ·) (t0 :: tops)) :
    repeatLastTopRange (rangeStoreRun info s t0 tops).1 (rangeStoreRun info s t0 tops).2 =
      (t0 :: tops).getLast (by simp) :=
  (rangeInv_foldl hmin hmax hslots tops _ t0 (rangeInv_storeInitialRangeTop s.1 s.2 t0) hinc).1.last_top

end Run

/-- A RANGE repeat of `{100,120}`, which has `14` slots. -/
def range100Info : RepeatInfo := fillRepeatInfo .repeatRange (.finite 100) (.finite 120) 1

theorem repeatStoreRange_inv_range100 :
    1 ≤ (rangeStoreRun range100Info (⟨0, 0, 0, 0, 0⟩, fun _ => false) 0 [50, 110, 300]).1.num ∧
      (rangeStoreRun range100Info (⟨0, 0, 0, 0, 0⟩, fun _ => false) 0 [50, 110, 300]).1.num ≤
        numRangeSlots range100Info.repeatMin range100Info.repeatMax ∧
      rangeEntry (rangeStoreRun range100Info (⟨0, 0, 0, 0, 0⟩, fun _ => false) 0 [50, 110, 300]).2 0 = 0 ∧
      (∀ i j, i < j → j < (rangeStoreRun range100Info (⟨0, 0, 0, 0, 0⟩, fun _ => false) 0 [50, 110, 300]).1.num →
        rangeEntry (rangeStoreRun range100Info (⟨0, 0, 0, 0, 0⟩, fun _ => false) 0 [50, 110, 300]).2 i <
          rangeEntry (rangeStoreRun range100Info (⟨0, 0, 0, 0, 0⟩, fun _ => false) 0 [50, 110, 300]).2 j) ∧
      [0, 50, 110, 300].getLast (by simp) -
        (rangeStoreRun range100Info (⟨0, 0, 0, 0, 0⟩, fun _ => false) 0 [50, 110, 300]).1.offset ≤ 65535 :=
  repeatStoreRange_inv (by decide) (by decide) (by decide) _ 0 [50, 110, 300] (by decide)

/-- The `{999,1000}` repeat in the RANGE model: `2002` slots, more than the
`u8` count can hold. -/
def range999Info : RepeatInfo := fillRepeatInfo .repeatRange (.finite 999) (.finite 1000) 1

set_option maxRecDepth 100000 in
/-- **The count wraps.**  With `repeatMax - repeatMin = 1` every top one
after another is appended, so the tops `0, 1, …, 255` fill `256` entries, all
within `repeatMax`, and the `u8` `num` is back at `0`. -/
theorem repeatStoreRange_num_wraps :
    numRangeSlots range999Info.repeatMin range999Info.repeatMax = 2002 ∧
      (rangeStoreRun range999Info (⟨0, 0, 0, 0, 0⟩, fun _ => false) 0 (List.range' 1 255)).1.num = 0 := by
  decide

end Repeat
end Vectorscan
