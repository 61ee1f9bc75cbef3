import Mathlib.Data.Finset.Card
import Vectorscan.Castle.Runtime

/-!
# Castle: the trigger analysis

A bounded repeat is started by its triggers, the literals before it in the
pattern.  Two analyses of `src/nfa/repeatcompile.cpp` and
`src/nfa/castlecompile.cpp` read the triggers to know how the repeat's tops
can come: `minPeriod` bounds how close two tops can be, and says whether a
byte outside the repeat's class (a reset) always lies between them;
`checkExclusion` puts into one group repeats whose triggers are separated by
a reset, so that at most one of them can be live at a time, and the group
shares one stream state.

**Model.**  A byte string is a `List Nat`; a trigger occurs with end offset
`p` when the bytes `s[p - |lit|, p)` lie in its classes (`OccursAt`).  The
test at one shift that `minDistAfterA` and `literalOverlap` share is
`overlapAt`.  The clique graph of `checkExclusion` (a `boost` adjacency
list) is its vertices, in order, and its edges, in the order `add_edge` made
them; `findCliqueGroup` and `removeClique` keep the source's loops, which
end because each group on the stack is smaller than the last, and each pass
of `removeClique` removes the first vertex left.

**Results.**  `minPeriod_sound`: two ends of triggers are at least
`minPeriod` apart, and with `can_reset` a byte outside the class lies
between them.  `findExclusivePair_sound`: for a pair that
`findExclusivePair` accepts, between an end of a trigger of one and a later
or equal end of a trigger of the other lies a byte outside the class, in
both orders (`TriggersExclusive`).  `checkExclusion_exclusive`: the groups
that `checkExclusion` returns are cliques of that relation, and
`buildCastle_checkExclusion`: on them `buildCastle` has the type that
`checkExclusion` returned, with one group for each.
-/

namespace Vectorscan
namespace Nfa

open Repeat

/-! ## Occurrences of a trigger -/

/-- Trigger `lit` occurs in the bytes `s` with end offset `p`: the bytes
`s[p - |lit|, p)` lie in its classes in turn. -/
def OccursAt (lit : List CharReach) (s : List Nat) (p : Nat) : Prop :=
  lit.length ≤ p ∧ p ≤ s.length ∧
    ∀ i, i < lit.length → (lit.getD i 0).testBit (s.getD (p - lit.length + i) 0) = true

instance (lit : List CharReach) (s : List Nat) (p : Nat) : Decidable (OccursAt lit s p) :=
  inferInstanceAs (Decidable (_ ∧ _ ∧ _))

/-- The test that `minDistAfterA` and `literalOverlap` make at shift `i`: `b`
ends `i` bytes after `a`, and the classes where they overlap share a byte. -/
def overlapAt (a b : List CharReach) (i : Nat) : Bool :=
  let overlapLen := b.length - i
  if overlapLen ≤ a.length then crMatches (a.drop (a.length - overlapLen)) (b.take overlapLen)
  else crMatches a ((b.take overlapLen).drop (overlapLen - a.length))

theorem minDistAfterA_eq (a b : List CharReach) :
    minDistAfterA a b = ((List.range' 1 (b.length - 1)).find? (overlapAt a b)).getD b.length :=
  rfl

/-- The per-trigger count of `minResetDistToEnd`: how many of the trigger's
last classes meet `cr`. -/
def triggerResetDist (trig : List CharReach) (cr : CharReach) : Nat :=
  (trig.reverse.takeWhile fun x => crOverlap x cr).length

theorem getD_minResetDistToEnd {triggers : List (List CharReach)} {j : Nat} (cr : CharReach)
    (hj : j < triggers.length) :
    (minResetDistToEnd triggers cr).getD j 0 = triggerResetDist (triggers.getD j []) cr := by
  simp [minResetDistToEnd, triggerResetDist, List.getD_eq_getElem?_getD, hj]

section Overlap

variable {a b : List CharReach} {s : List Nat} {p1 p2 : Nat}

/-- Classes that hold a common byte in every place match. -/
theorem crMatches_of_common {x y : List CharReach}
    (h : ∀ i, i < x.length → i < y.length → ∃ c, (x.getD i 0).testBit c = true ∧ (y.getD i 0).testBit c = true) :
    crMatches x y = true := by
  unfold crMatches
  rw [List.all_eq_true]
  intro q hq
  obtain ⟨i, hi, rfl⟩ := List.mem_iff_getElem.mp hq
  rw [List.length_zip] at hi
  obtain ⟨c, hx, hy⟩ := h i (by omega) (by omega)
  rw [List.getD_eq_getElem _ _ (by omega)] at hx
  rw [List.getD_eq_getElem _ _ (by omega)] at hy
  simp only [List.getElem_zip, crOverlap, ne_eq, decide_eq_true_eq]
  intro hzero
  have hbit := Nat.testBit_and x[i] y[i] c
  rw [hzero, Nat.zero_testBit, hx, hy] at hbit
  exact Bool.false_ne_true hbit

/-- **Occurrences overlap.**  When a trigger `b` ends `d < |b|` bytes after a
trigger `a` in one byte string, the bytes they share witness the test at
shift `d`. -/
theorem overlapAt_of_occursAt (ha : OccursAt a s p1) (hb : OccursAt b s p2) (hle : p1 ≤ p2)
    (hd : p2 - p1 < b.length) : overlapAt a b (p2 - p1) = true := by
  obtain ⟨ha1, -, ha⟩ := ha
  obtain ⟨hb1, -, hb⟩ := hb
  unfold overlapAt
  dsimp only
  split
  · -- `b` starts inside `a`: the last `|b| - d` classes of `a` against the first of `b`
    rename_i hol
    apply crMatches_of_common
    intro i hi1 hi2
    simp only [List.length_drop, List.length_take] at hi1 hi2
    refine ⟨s.getD (p1 - (b.length - (p2 - p1)) + i) 0, ?_, ?_⟩
    · have := ha (a.length - (b.length - (p2 - p1)) + i) (by omega)
      rw [List.getD_eq_getElem?_getD, List.getElem?_drop, ← List.getD_eq_getElem?_getD]
      rwa [show p1 - a.length + (a.length - (b.length - (p2 - p1)) + i) = p1 - (b.length - (p2 - p1)) + i by omega]
        at this
    · have := hb i (by omega)
      rw [List.getD_eq_getElem?_getD, List.getElem?_take, if_pos (by omega), ← List.getD_eq_getElem?_getD]
      rwa [show p2 - b.length + i = p1 - (b.length - (p2 - p1)) + i by omega] at this
  · -- `a` lies inside `b`: all of `a` against the classes of `b` it covers
    rename_i hol
    apply crMatches_of_common
    intro i hi1 hi2
    simp only [List.length_drop, List.length_take] at hi2
    refine ⟨s.getD (p1 - a.length + i) 0, ha i hi1, ?_⟩
    have := hb (b.length - (p2 - p1) - a.length + i) (by omega)
    rw [List.getD_eq_getElem?_getD, List.getElem?_drop, List.getElem?_take, if_pos (by omega),
      ← List.getD_eq_getElem?_getD]
    rwa [show p2 - b.length + (b.length - (p2 - p1) - a.length + i) = p1 - a.length + i by omega] at this

/-- The first element of `[k, k + n)` that passes a test is at most any that does. -/
theorem find?_range'_getD_le {p : Nat → Bool} {k n d : Nat} (e : Nat) (hk : k ≤ d) (hd : d < k + n)
    (h : p d = true) : ((List.range' k n).find? p).getD e ≤ d := by
  induction n generalizing k with
  | zero => omega
  | succ n ih =>
    rw [List.range'_succ, List.find?_cons]
    split
    · exact hk
    · rename_i hk'
      have hne : k ≠ d := fun heq => by rw [heq, h] at hk'; simp at hk'
      exact ih (by omega) (by omega)

theorem find?_range'_getD_le_default {p : Nat → Bool} {k n e : Nat} (he : k + n ≤ e + 1) :
    ((List.range' k n).find? p).getD e ≤ e := by
  cases hf : (List.range' k n).find? p with
  | none => exact le_refl e
  | some j =>
    have := List.mem_range'_1.mp (List.mem_of_find?_eq_some hf)
    show j ≤ e
    omega

theorem minDistAfterA_le_length (a b : List CharReach) : minDistAfterA a b ≤ b.length := by
  rw [minDistAfterA_eq]
  exact find?_range'_getD_le_default (show 1 + (b.length - 1) ≤ b.length + 1 by omega)

/-- `minDistAfterA` is at most the distance between two ends of the triggers. -/
theorem minDistAfterA_le_of_occursAt (ha : OccursAt a s p1) (hb : OccursAt b s p2) (hlt : p1 < p2) :
    minDistAfterA a b ≤ p2 - p1 := by
  by_cases hd : p2 - p1 < b.length
  · rw [minDistAfterA_eq]
    exact find?_range'_getD_le _ (by omega) (by omega) (overlapAt_of_occursAt ha hb (by omega) hd)
  · exact (minDistAfterA_le_length a b).trans (by omega)

/-- The element at which `takeWhile` stops fails its test. -/
theorem getD_length_takeWhile {α : Type} {p : α → Bool} {l : List α} (d : α)
    (h : (l.takeWhile p).length < l.length) : p (l.getD (l.takeWhile p).length d) = false := by
  induction l with
  | nil => simp at h
  | cons x xs ih =>
    cases hx : p x
    · rw [List.takeWhile_cons, if_neg (by simp [hx])]
      simpa using hx
    · rw [List.takeWhile_cons, if_pos hx] at h ⊢
      rw [List.length_cons, List.length_cons] at h
      rw [List.length_cons, List.getD_cons_succ]
      exact ih (by omega)

/-- A byte of a class that does not meet `cr` is outside `cr`. -/
theorem testBit_eq_false_of_crOverlap {x cr : CharReach} {c : Nat} (h : crOverlap x cr = false)
    (hx : x.testBit c = true) : cr.testBit c = false := by
  unfold crOverlap at h
  have hzero : x &&& cr = 0 := by simpa using h
  have hbit := Nat.testBit_and x cr c
  rw [hzero, Nat.zero_testBit, hx, Bool.true_and] at hbit
  exact hbit.symm

/-- **The reset byte.**  When fewer of a trigger's last classes meet `cr`
than its length, the byte in the first class from the end that does not,
`triggerResetDist + 1` bytes before the trigger's end, is outside `cr`. -/
theorem reset_byte_of_lt (hb : OccursAt b s p2) {cr : CharReach} (hrb : triggerResetDist b cr < b.length)
    (hr : triggerResetDist b cr < p2 - p1) :
    ∃ q, p1 ≤ q ∧ q < p2 ∧ q < s.length ∧ cr.testBit (s.getD q 0) = false := by
  obtain ⟨hb1, hb2, hb⟩ := hb
  refine ⟨p2 - triggerResetDist b cr - 1, by omega, by omega, by omega, ?_⟩
  -- the class where `takeWhile` stopped, counted from the end
  have hstop : crOverlap (b.getD (b.length - 1 - triggerResetDist b cr) 0) cr = false := by
    have h : crOverlap (b.reverse.getD (triggerResetDist b cr) 0) cr = false :=
      getD_length_takeWhile (p := fun x => crOverlap x cr) 0 (l := b.reverse) (by rw [List.length_reverse]; exact hrb)
    rwa [List.getD_eq_getElem?_getD, List.getElem?_reverse hrb, ← List.getD_eq_getElem?_getD] at h
  have hclass := hb (b.length - 1 - triggerResetDist b cr) (by omega)
  rw [show p2 - b.length + (b.length - 1 - triggerResetDist b cr) = p2 - triggerResetDist b cr - 1 by omega]
    at hclass
  exact testBit_eq_false_of_crOverlap hstop hclass

end Overlap

/-! ## `minPeriod` -/

/-- A fold that keeps a minimum and a conjunction: its minimum is below every
value and its conjunction implies every test. -/
theorem foldl_min_and {α : Type} (f : α → Nat) (g : α → Bool) (l : List α) (acc : Nat × Bool) :
    (l.foldl (fun acc x => (min acc.1 (f x), acc.2 && g x)) acc).1 ≤ acc.1 ∧
      (∀ x ∈ l, (l.foldl (fun acc x => (min acc.1 (f x), acc.2 && g x)) acc).1 ≤ f x) ∧
      ((l.foldl (fun acc x => (min acc.1 (f x), acc.2 && g x)) acc).2 = true →
        acc.2 = true ∧ ∀ x ∈ l, g x = true) := by
  induction l generalizing acc with
  | nil => exact ⟨le_refl _, by simp, fun h => ⟨h, by simp⟩⟩
  | cons x xs ih =>
    obtain ⟨hle, hall, hand⟩ := ih (min acc.1 (f x), acc.2 && g x)
    simp only [List.foldl_cons, List.mem_cons, forall_eq_or_imp]
    refine ⟨hle.trans (min_le_left _ _), ⟨hle.trans (min_le_right _ _), hall⟩, fun h => ?_⟩
    obtain ⟨hacc, hxs⟩ := hand h
    rw [Bool.and_eq_true] at hacc
    exact ⟨hacc.1, hacc.2, hxs⟩

/-- A nested loop of that fold only lowers the minimum and only falsifies the
conjunction. -/
theorem foldl_foldl_min_and_mono {α β : Type} (f : β → α → Nat) (g : β → α → Bool) (inner : List α)
    (outer : List β) (acc : Nat × Bool) :
    (outer.foldl (fun acc y => inner.foldl (fun acc x => (min acc.1 (f y x), acc.2 && g y x)) acc) acc).1 ≤ acc.1 ∧
      ((outer.foldl (fun acc y => inner.foldl (fun acc x => (min acc.1 (f y x), acc.2 && g y x)) acc) acc).2 = true →
        acc.2 = true) := by
  induction outer generalizing acc with
  | nil => exact ⟨le_refl _, id⟩
  | cons y ys ih =>
    obtain ⟨hle, -, hand⟩ := foldl_min_and (f y) (g y) inner acc
    obtain ⟨hle', hand'⟩ := ih (inner.foldl (fun acc x => (min acc.1 (f y x), acc.2 && g y x)) acc)
    exact ⟨hle'.trans hle, fun h => (hand (hand' h)).1⟩

/-- The same over a nested loop, as `minPeriod` runs it. -/
theorem foldl_foldl_min_and {α β : Type} (f : β → α → Nat) (g : β → α → Bool) (inner : List α)
    (outer : List β) (acc : Nat × Bool) :
    (∀ y ∈ outer, ∀ x ∈ inner, (outer.foldl (fun acc y =>
        inner.foldl (fun acc x => (min acc.1 (f y x), acc.2 && g y x)) acc) acc).1 ≤ f y x) ∧
      ((outer.foldl (fun acc y => inner.foldl (fun acc x => (min acc.1 (f y x), acc.2 && g y x)) acc) acc).2 = true →
        ∀ y ∈ outer, ∀ x ∈ inner, g y x = true) := by
  induction outer generalizing acc with
  | nil => simp
  | cons y ys ih =>
    obtain ⟨-, hmin, hand⟩ := foldl_min_and (f y) (g y) inner acc
    let acc' := inner.foldl (fun acc x => (min acc.1 (f y x), acc.2 && g y x)) acc
    obtain ⟨hmin', hand'⟩ := ih acc'
    obtain ⟨hdown, hup⟩ := foldl_foldl_min_and_mono f g inner ys acc'
    simp only [List.foldl_cons, List.mem_cons, forall_eq_or_imp]
    exact ⟨⟨fun x hx => hdown.trans (hmin x hx), hmin'⟩, fun h => ⟨fun x hx => (hand (hup h)).2 x hx, hand' h⟩⟩

section MinPeriod

variable {triggers : List (List CharReach)} {cr : CharReach}

/-- The loop of `minPeriod` over the pairs of triggers: the period is at most
each pair's `minDistAfterA`, and `can_reset` says that each is above the
reset distance of its second trigger. -/
theorem minPeriod_pairs :
    (∀ a ∈ triggers, ∀ j ∈ List.range triggers.length,
        (minPeriod triggers cr).1 ≤ minDistAfterA a (triggers.getD j [])) ∧
      ((minPeriod triggers cr).2 = true → ∀ a ∈ triggers, ∀ j ∈ List.range triggers.length,
        (!decide (minDistAfterA a (triggers.getD j []) ≤ (minResetDistToEnd triggers cr).getD j 0)) = true) :=
  foldl_foldl_min_and (fun a j => minDistAfterA a (triggers.getD j []))
    (fun a j => !decide (minDistAfterA a (triggers.getD j []) ≤ (minResetDistToEnd triggers cr).getD j 0))
    (List.range triggers.length) triggers (2 ^ 32 - 1, true)

theorem exists_getD_of_mem {b : List CharReach} (hb : b ∈ triggers) :
    ∃ j, j < triggers.length ∧ triggers.getD j [] = b := by
  obtain ⟨j, hj, rfl⟩ := List.mem_iff_getElem.mp hb
  exact ⟨j, hj, List.getD_eq_getElem _ _ hj⟩

theorem minPeriod_le {a b : List CharReach} (ha : a ∈ triggers) (hb : b ∈ triggers) :
    (minPeriod triggers cr).1 ≤ minDistAfterA a b := by
  obtain ⟨j, hj, rfl⟩ := exists_getD_of_mem hb
  exact minPeriod_pairs.1 a ha j (List.mem_range.mpr hj)

theorem minPeriod_reset {a b : List CharReach} (ha : a ∈ triggers) (hb : b ∈ triggers)
    (h : (minPeriod triggers cr).2 = true) : triggerResetDist b cr < minDistAfterA a b := by
  obtain ⟨j, hj, rfl⟩ := exists_getD_of_mem hb
  have := minPeriod_pairs.2 h a ha j (List.mem_range.mpr hj)
  rw [getD_minResetDistToEnd cr hj] at this
  simpa using this

/-- **The period of the triggers.**  Two ends of triggers are at least
`minPeriod` apart, and with `can_reset` a byte outside the class lies
between them. -/
theorem minPeriod_sound {a b : List CharReach} (ha : a ∈ triggers) (hb : b ∈ triggers) {s : List Nat}
    {p1 p2 : Nat} (h1 : OccursAt a s p1) (h2 : OccursAt b s p2) (hlt : p1 < p2) :
    (minPeriod triggers cr).1 ≤ p2 - p1 ∧
      ((minPeriod triggers cr).2 = true →
        ∃ q, p1 ≤ q ∧ q < p2 ∧ q < s.length ∧ cr.testBit (s.getD q 0) = false) := by
  have hdist := minDistAfterA_le_of_occursAt h1 h2 hlt
  refine ⟨(minPeriod_le ha hb).trans hdist, fun hreset => ?_⟩
  have hr := minPeriod_reset ha hb hreset
  exact reset_byte_of_lt h2 (hr.trans_le (minDistAfterA_le_length a b)) (hr.trans_le hdist)

end MinPeriod


/-! ## `literalOverlap` and `findExclusivePair` -/

/-- The loop of `literalOverlap` from shift `i` on: past `dist` the literals
are apart; an overlap within `dist` fails the test. -/
def literalOverlapFrom (a b : List CharReach) (dist : Nat) : List Nat → Bool
  | [] => decide (b.length > dist)
  | i :: is => if i > dist then true else if overlapAt a b i then false else literalOverlapFrom a b dist is

/-- `literalOverlap`: `b` cannot end within `dist` bytes after `a` (counting
the end at the same place) overlapping it, and `b` is longer than `dist`. -/
def literalOverlap (a b : List CharReach) (dist : Nat) : Bool :=
  literalOverlapFrom a b dist (List.range b.length)

/-- `findExclusivePair`: every trigger of each repeat is kept, by
`literalOverlap`, further from every trigger of the other than its reset
distance.  The reset distances of the repeats `lower, lower + 1, ...` are the
rows of `minResetDist`. -/
def findExclusivePair (id1 id2 lower : Nat) (minResetDist : List (List Nat))
    (triggers : List (List (List CharReach))) : Bool :=
  let triggers1 := triggers.getD id1 []
  let triggers2 := triggers.getD id2 []
  (List.range triggers1.length).all fun i => (List.range triggers2.length).all fun j =>
    literalOverlap (triggers1.getD i []) (triggers2.getD j []) ((minResetDist.getD (id2 - lower) []).getD j 0) &&
      literalOverlap (triggers2.getD j []) (triggers1.getD i []) ((minResetDist.getD (id1 - lower) []).getD i 0)

/-- The reset distances of the repeats `[lower, upper)`, as `checkExclusion`
computes them for one clique graph. -/
def minResetDistRows (cr : CharReach) (triggers : List (List (List CharReach))) (lower upper : Nat) :
    List (List Nat) :=
  (List.range' lower (upper - lower)).map fun i => minResetDistToEnd (triggers.getD i []) cr

/-- Between an end of a trigger of `T1` and a later or equal end of a trigger
of `T2` lies a byte outside `cr`. -/
def ResetBetween (cr : CharReach) (T1 T2 : List (List CharReach)) : Prop :=
  ∀ (s : List Nat) (a b : List CharReach) (p1 p2 : Nat), a ∈ T1 → b ∈ T2 → OccursAt a s p1 → OccursAt b s p2 →
    p1 ≤ p2 → ∃ q, p1 ≤ q ∧ q < p2 ∧ q < s.length ∧ cr.testBit (s.getD q 0) = false

/-- Two repeats are exclusive: whichever of their triggers comes first, a
byte outside their class comes before the other, and resets the first. -/
def TriggersExclusive (cr : CharReach) (T1 T2 : List (List CharReach)) : Prop :=
  ResetBetween cr T1 T2 ∧ ResetBetween cr T2 T1

theorem TriggersExclusive.symm {cr : CharReach} {T1 T2 : List (List CharReach)} (h : TriggersExclusive cr T1 T2) :
    TriggersExclusive cr T2 T1 :=
  ⟨h.2, h.1⟩

section Exclusive

variable {a b : List CharReach} {dist : Nat}

/-- What `literalOverlap` checked on the shifts `[k, k + n)`. -/
theorem literalOverlapFrom_spec {k n : Nat} (hkn : k + n = b.length)
    (h : literalOverlapFrom a b dist (List.range' k n) = true) :
    dist < b.length ∧ ∀ i, k ≤ i → i ≤ dist → i < b.length → overlapAt a b i = false := by
  induction n generalizing k with
  | zero =>
    simp only [List.range'_zero, literalOverlapFrom, gt_iff_lt, decide_eq_true_eq] at h
    exact ⟨h, fun i hk _ hb => by omega⟩
  | succ n ih =>
    rw [List.range'_succ, literalOverlapFrom] at h
    split at h
    · -- past `dist`: nothing more to check
      rename_i hpast
      exact ⟨by omega, fun i hk hi _ => by omega⟩
    · split at h
      · simp at h
      · rename_i hwithin hk
        obtain ⟨hlt, hrest⟩ := ih (by omega) h
        refine ⟨hlt, fun i hki hi hib => ?_⟩
        rcases Nat.eq_or_lt_of_le hki with rfl | hki'
        · simpa using hk
        · exact hrest i (by omega) hi hib

/-- **`literalOverlap`.**  It holds only when `dist < |b|` and no shift up to
`dist` passes the overlap test. -/
theorem literalOverlap_spec (h : literalOverlap a b dist = true) :
    dist < b.length ∧ ∀ i, i ≤ dist → i < b.length → overlapAt a b i = false := by
  unfold literalOverlap at h
  rw [List.range_eq_range'] at h
  obtain ⟨hlt, hall⟩ := literalOverlapFrom_spec (by omega) h
  exact ⟨hlt, fun i hi hib => hall i (Nat.zero_le i) hi hib⟩

/-- A pair kept apart by `literalOverlap` with the reset distance of the
second has a reset between the end of the first and a later end of the
second. -/
theorem reset_between_of_literalOverlap {cr : CharReach} {s : List Nat} {p1 p2 : Nat}
    (h : literalOverlap a b (triggerResetDist b cr) = true) (h1 : OccursAt a s p1) (h2 : OccursAt b s p2)
    (hle : p1 ≤ p2) : ∃ q, p1 ≤ q ∧ q < p2 ∧ q < s.length ∧ cr.testBit (s.getD q 0) = false := by
  obtain ⟨hrb, hnone⟩ := literalOverlap_spec h
  -- the end of `b` is further from that of `a` than the reset distance
  have hfar : triggerResetDist b cr < p2 - p1 := by
    by_contra hnear
    have hd : p2 - p1 < b.length := by omega
    have := hnone (p2 - p1) (by omega) hd
    rw [overlapAt_of_occursAt h1 h2 hle hd] at this
    simp at this
  exact reset_byte_of_lt h2 hrb hfar

/-- **`findExclusivePair`.**  On the reset distances of `checkExclusion`, a
pair that it accepts is exclusive. -/
theorem findExclusivePair_sound {cr : CharReach} {triggers : List (List (List CharReach))}
    {lower upper id1 id2 : Nat} (h1 : lower ≤ id1) (h1' : id1 < upper) (h2 : lower ≤ id2) (h2' : id2 < upper)
    (h : findExclusivePair id1 id2 lower (minResetDistRows cr triggers lower upper) triggers = true) :
    TriggersExclusive cr (triggers.getD id1 []) (triggers.getD id2 []) := by
  -- the rows of the two repeats are their reset distances
  have hrow : ∀ id, lower ≤ id → id < upper →
      (minResetDistRows cr triggers lower upper).getD (id - lower) [] = minResetDistToEnd (triggers.getD id []) cr := by
    intro id hl hu
    simp [minResetDistRows, List.getD_eq_getElem?_getD, show id - lower < upper - lower by omega,
      show lower + (id - lower) = id by omega]
  unfold findExclusivePair at h
  simp only [List.all_eq_true, List.mem_range, Bool.and_eq_true, hrow id1 h1 h1', hrow id2 h2 h2'] at h
  constructor
  · intro s a b p1 p2 ha hb ha' hb' hle
    obtain ⟨i, hi, rfl⟩ := exists_getD_of_mem ha
    obtain ⟨j, hj, rfl⟩ := exists_getD_of_mem hb
    have hij := (h i hi j hj).1
    rw [getD_minResetDistToEnd cr hj] at hij
    exact reset_between_of_literalOverlap hij ha' hb' hle
  · intro s b a p1 p2 hb ha hb' ha' hle
    obtain ⟨i, hi, rfl⟩ := exists_getD_of_mem ha
    obtain ⟨j, hj, rfl⟩ := exists_getD_of_mem hb
    have hji := (h i hi j hj).2
    rw [getD_minResetDistToEnd cr hi] at hji
    exact reset_between_of_literalOverlap hji hb' ha' hle

end Exclusive


/-- Between the ends of triggers of two exclusive repeats lies a byte, so no
two of them end at the same offset. -/
theorem TriggersExclusive.ends_ne {cr : CharReach} {T1 T2 : List (List CharReach)}
    (h : TriggersExclusive cr T1 T2) {s : List Nat} {a b : List CharReach} {p1 p2 : Nat} (ha : a ∈ T1)
    (hb : b ∈ T2) (ha' : OccursAt a s p1) (hb' : OccursAt b s p2) : p1 ≠ p2 := by
  rintro rfl
  obtain ⟨q, hq1, hq2, -⟩ := h.1 s a b p1 p1 ha hb ha' hb' le_rfl
  omega

/-! ## The clique graph -/

/-- The clique graph of `checkExclusion`, a `boost` adjacency list: the
`stateId`s of its vertices in order, and its edges in the order `add_edge`
made them. -/
structure CliqueGraph where
  vertices : List Nat
  edges : List (Nat × Nat)
  deriving DecidableEq, Repr

namespace CliqueGraph

/-- `adjacent_vertices_range(v, g)`: the other end of each edge at `v`, in
edge order. -/
def adjacentVertices (g : CliqueGraph) (v : Nat) : List Nat :=
  g.edges.filterMap fun e => if e.1 = v then some e.2 else if e.2 = v then some e.1 else none

/-- Two vertices joined by an edge of the undirected graph. -/
def Adj (g : CliqueGraph) (x y : Nat) : Prop :=
  (x, y) ∈ g.edges ∨ (y, x) ∈ g.edges

/-- A clique: distinct vertices, pairwise joined. -/
def IsClique (g : CliqueGraph) (c : List Nat) : Prop :=
  c.Pairwise fun x y => x ≠ y ∧ g.Adj x y

/-- `clear_vertex` and `remove_vertex` for each vertex of `c`. -/
def removeVertices (g : CliqueGraph) (c : List Nat) : CliqueGraph :=
  ⟨g.vertices.filter fun v => v ∉ c, g.edges.filter fun e => e.1 ∉ c ∧ e.2 ∉ c⟩

/-- `getNeighborInfo`: the neighbours of `id` in `group`, in edge order. -/
def getNeighborInfo (g : CliqueGraph) (id : Nat) (group : List Nat) : List Nat :=
  (g.adjacentVertices id).filter fun v => v ≠ id ∧ v ∈ group

theorem mem_adjacentVertices {g : CliqueGraph} {v x : Nat} (h : x ∈ g.adjacentVertices v) : g.Adj v x := by
  obtain ⟨⟨e1, e2⟩, he, hx⟩ := List.mem_filterMap.mp h
  by_cases h1 : e1 = v
  · simp only [h1, if_true, Option.some.injEq] at hx
    subst h1 hx
    exact Or.inl he
  · by_cases h2 : e2 = v
    · simp only [h1, h2, if_false, if_true, Option.some.injEq] at hx
      subst h2 hx
      exact Or.inr he
    · simp [h1, h2] at hx

theorem mem_getNeighborInfo {g : CliqueGraph} {id x : Nat} {group : List Nat}
    (h : x ∈ g.getNeighborInfo id group) : x ∈ group ∧ id ≠ x ∧ g.Adj id x := by
  simp only [getNeighborInfo, List.mem_filter, decide_eq_true_eq] at h
  exact ⟨h.2.2, Ne.symm h.2.1, mem_adjacentVertices h.1⟩

/-- The neighbours of the first vertex of a group within it are fewer than
the group: the measure of the loop of `findCliqueGroup`. -/
theorem card_getNeighborInfo_lt (g : CliqueGraph) (id : Nat) (rest : List Nat) :
    (g.getNeighborInfo id (id :: rest)).toFinset.card < (id :: rest).toFinset.card := by
  have hsub : (g.getNeighborInfo id (id :: rest)).toFinset ⊆ (id :: rest).toFinset := by
    intro x hx
    exact List.mem_toFinset.mpr (mem_getNeighborInfo (List.mem_toFinset.mp hx)).1
  apply Finset.card_lt_card
  rw [Finset.ssubset_iff_of_subset hsub]
  refine ⟨id, by simp, fun hid => ?_⟩
  exact (mem_getNeighborInfo (List.mem_toFinset.mp hid)).2.1 rfl

/-- The loop of `findCliqueGroup` over its stack `gStack`: the first vertex
of the group on top joins the clique, and its neighbours within the group,
if any, are the next group. -/
def findCliqueGroupLoop (cg : CliqueGraph) : List (List Nat) → List Nat → List Nat
  | [], clique => clique
  -- only the group of an empty graph is empty, where the source reads past it
  | [] :: _, clique => clique
  | (id :: rest) :: gStack, clique =>
    let neighbor := cg.getNeighborInfo id (id :: rest)
    findCliqueGroupLoop cg ((if neighbor.isEmpty then [] else [neighbor]) ++ gStack) (clique ++ [id])
termination_by gStack => (gStack.map fun g => g.toFinset.card + 1).sum
decreasing_by
  have := card_getNeighborInfo_lt cg id rest
  split <;> simp only [List.nil_append, List.singleton_append, List.map_cons, List.sum_cons] <;> omega

/-- `findCliqueGroup`: a clique found greedily from the first vertex on. -/
def findCliqueGroup (cg : CliqueGraph) : List Nat :=
  findCliqueGroupLoop cg [cg.vertices] []

theorem subset_findCliqueGroupLoop (cg : CliqueGraph) (gStack : List (List Nat)) (clique : List Nat) :
    clique ⊆ findCliqueGroupLoop cg gStack clique := by
  fun_induction findCliqueGroupLoop cg gStack clique with
  | case1 => exact List.Subset.refl _
  | case2 => exact List.Subset.refl _
  | case3 id rest gStack clique neighbor =>
    rename_i ih
    exact List.Subset.trans (List.subset_append_left clique [id]) ih

/-- The first vertex of a graph is in the clique that `findCliqueGroup`
finds. -/
theorem head_mem_findCliqueGroup {cg : CliqueGraph} {v : Nat} {vs : List Nat} (h : cg.vertices = v :: vs) :
    v ∈ findCliqueGroup cg := by
  rw [findCliqueGroup, h, findCliqueGroupLoop]
  exact subset_findCliqueGroupLoop cg _ _ (by simp)

theorem length_removeVertices_lt {cg : CliqueGraph} {c : List Nat} {v : Nat} (hv : v ∈ cg.vertices)
    (hc : v ∈ c) : (cg.removeVertices c).vertices.length < cg.vertices.length :=
  List.length_filter_lt_length_iff_exists.mpr ⟨v, hv, by simp [hc]⟩

/-- The loop of `removeClique`: the clique found in `cg`, then, once its
vertices are removed, the cliques found in what is left, until nothing is. -/
def removeCliqueLoop (cg : CliqueGraph) : List (List Nat) :=
  let c := findCliqueGroup cg
  let cg' := cg.removeVertices c
  if cg'.vertices = [] then [c] else c :: removeCliqueLoop cg'
termination_by cg.vertices.length
decreasing_by
  rename_i h
  -- what is left is not empty, so neither was `cg`, and its first vertex went
  cases hv : cg.vertices with
  | nil => simp [cg', removeVertices, hv] at h
  | cons v vs => rw [← hv]; exact length_removeVertices_lt (by simp [hv]) (head_mem_findCliqueGroup hv)

/-- `removeClique`: the first of the largest cliques found, by the running
maximum `max` and its index `id` of the source. -/
def removeClique (cg : CliqueGraph) : List Nat :=
  let cliquesVec := removeCliqueLoop cg
  let best := (List.range cliquesVec.length).foldl (fun (acc : Nat × Nat) j =>
    if (cliquesVec.getD j []).length > acc.1 then ((cliquesVec.getD j []).length, j) else acc) (0, 0)
  cliquesVec.getD best.2 []


section Clique

variable {g : CliqueGraph}

/-- What the loop of `findCliqueGroup` keeps: at most one group on the
stack, and each of its vertices distinct from, and joined to, every vertex
of the clique. -/
def CliqueStack (g : CliqueGraph) (gStack : List (List Nat)) (clique : List Nat) : Prop :=
  gStack.length ≤ 1 ∧ ∀ grp ∈ gStack, ∀ x ∈ grp, ∀ c ∈ clique, c ≠ x ∧ g.Adj c x

theorem isClique_append {clique : List Nat} {id : Nat} (hc : g.IsClique clique)
    (hid : ∀ c ∈ clique, c ≠ id ∧ g.Adj c id) : g.IsClique (clique ++ [id]) := by
  unfold IsClique
  rw [List.pairwise_append]
  refine ⟨hc, List.pairwise_singleton _ _, fun c hc y hy => ?_⟩
  rw [List.mem_singleton.mp hy]
  exact hid c hc

/-- One pass of the loop: the vertex taken is joined to the whole clique,
and its neighbours in the group, the next group, to it and to the clique. -/
theorem CliqueStack.step {id : Nat} {rest : List Nat} {gStack : List (List Nat)} {clique : List Nat}
    (h : g.CliqueStack ((id :: rest) :: gStack) clique) :
    (∀ c ∈ clique, c ≠ id ∧ g.Adj c id) ∧
      g.CliqueStack ((if (g.getNeighborInfo id (id :: rest)).isEmpty then [] else [g.getNeighborInfo id (id :: rest)]) ++
        gStack) (clique ++ [id]) := by
  obtain ⟨hlen, hall⟩ := h
  -- the group on top was the only one
  have hnil : gStack = [] := by simpa using hlen
  subst hnil
  have htop := hall (id :: rest) (by simp)
  refine ⟨fun c hc => htop id (by simp) c hc, by split <;> simp, fun grp hgrp x hx c hc => ?_⟩
  have hgrp' : grp = g.getNeighborInfo id (id :: rest) := by split at hgrp <;> simp_all
  subst hgrp'
  obtain ⟨hxg, hne, hadj⟩ := mem_getNeighborInfo hx
  rcases List.mem_append.mp hc with hc | hc
  · exact htop x hxg c hc
  · rw [List.mem_singleton.mp hc]
    exact ⟨hne, hadj⟩

/-- The loop of `findCliqueGroup` keeps a clique, by induction on its passes. -/
theorem isClique_findCliqueGroupLoop (gStack : List (List Nat)) (clique : List Nat) (hc : g.IsClique clique)
    (hs : g.CliqueStack gStack clique) : g.IsClique (g.findCliqueGroupLoop gStack clique) := by
  fun_induction findCliqueGroupLoop g gStack clique with
  | case1 => exact hc
  | case2 => exact hc
  | case3 id rest gStack clique neighbor =>
    rename_i ih
    obtain ⟨hid, hs'⟩ := hs.step
    exact ih (isClique_append hc hid) hs'

theorem isClique_findCliqueGroup (g : CliqueGraph) : g.IsClique g.findCliqueGroup :=
  isClique_findCliqueGroupLoop _ _ List.Pairwise.nil ⟨by simp, by simp⟩

theorem Adj.of_removeVertices {c : List Nat} {x y : Nat} (h : (g.removeVertices c).Adj x y) : g.Adj x y := by
  rcases h with h | h
  · exact Or.inl (List.mem_filter.mp h).1
  · exact Or.inr (List.mem_filter.mp h).1

theorem IsClique.of_removeVertices {c k : List Nat} (h : (g.removeVertices c).IsClique k) : g.IsClique k :=
  h.imp fun hxy => ⟨hxy.1, hxy.2.of_removeVertices⟩

/-- Each clique that the loop of `removeClique` finds in what is left of the
graph is a clique of the graph. -/
theorem isClique_of_mem_removeCliqueLoop (g : CliqueGraph) : ∀ k ∈ g.removeCliqueLoop, g.IsClique k := by
  fun_induction removeCliqueLoop g with
  | case1 g c cg' hempty =>
    intro k hk
    rw [List.mem_singleton.mp hk]
    exact isClique_findCliqueGroup g
  | case2 g c cg' hleft ih =>
    intro k hk
    rcases List.mem_cons.mp hk with rfl | hk
    · exact isClique_findCliqueGroup g
    · exact (ih k hk).of_removeVertices

/-- **`removeClique`.**  The group it returns is a clique of the graph. -/
theorem isClique_removeClique (g : CliqueGraph) : g.IsClique g.removeClique := by
  unfold removeClique
  dsimp only
  generalize (List.range _).foldl _ _ = best
  rw [List.getD_eq_getElem?_getD]
  cases hk : g.removeCliqueLoop[best.2]? with
  | none => exact List.Pairwise.nil
  | some k => exact isClique_of_mem_removeCliqueLoop g k (List.mem_of_getElem? hk)

end Clique

end CliqueGraph


/-! ## `checkExclusion` -/

open CliqueGraph

/-- The clique graph that `checkExclusion` builds for the repeats
`[lower, upper)`: a vertex for each, and an edge `(i, j)`, `i < j`, for each
pair that `findExclusivePair` accepts, in the order of its loops. -/
def exclusionGraph (cr : CharReach) (triggers : List (List (List CharReach))) (lower upper : Nat) :
    CliqueGraph :=
  let minResetDist := minResetDistRows cr triggers lower upper
  ⟨List.range' lower (upper - lower),
    (List.range' lower (upper - lower)).flatMap fun i =>
      ((List.range' (i + 1) (upper - (i + 1))).filter fun j => findExclusivePair i j lower minResetDist triggers).map
        fun j => (i, j)⟩

/-- `CLIQUE_GRAPH_MAX_SIZE`: the repeats are grouped in blocks of this many. -/
def cliqueGraphMaxSize : Nat := 1000

/-- The loop of `checkExclusion` over the blocks of repeats from `lower` on:
the groups, the `exclusive` type and the `total` of the repeats grouped. -/
def checkExclusionFrom (cr : CharReach) (triggers : List (List (List CharReach))) (lower : Nat)
    (groups : List (List Nat)) (exclusiveType : ExclusiveType) (total : Nat) :
    List (List Nat) × ExclusiveType × Nat :=
  if lower < triggers.length then
    let upper := min (lower + cliqueGraphMaxSize) triggers.length
    let clique := (exclusionGraph cr triggers lower upper).removeClique
    if clique.length > 1 then
      checkExclusionFrom cr triggers (lower + cliqueGraphMaxSize) (groups ++ [clique]) .exclusive
        (total + clique.length)
    else checkExclusionFrom cr triggers (lower + cliqueGraphMaxSize) groups exclusiveType total
  else (groups, exclusiveType, total)
termination_by triggers.length - lower
decreasing_by all_goals simp only [cliqueGraphMaxSize]; omega

/-- `checkExclusion`: the stream state size, the `exclusive` type and the
exclusive groups; when every repeat is in a group, the castle is purely
exclusive and needs no shared stream state. -/
def checkExclusion (streamStateSize : Nat) (cr : CharReach) (triggers : List (List (List CharReach)))
    (exclusiveType : ExclusiveType) (numRepeats : Nat) : Nat × ExclusiveType × List (List Nat) :=
  let (groups, exclusiveType, total) := checkExclusionFrom cr triggers 0 [] exclusiveType 0
  if total = numRepeats then (0, .pureExclusive, groups) else (streamStateSize, exclusiveType, groups)

section CheckExclusion

variable {cr : CharReach} {triggers : List (List (List CharReach))}

/-- The repeats of one group are distinct and pairwise exclusive. -/
def ExclusiveGroup (cr : CharReach) (triggers : List (List (List CharReach))) (grp : List Nat) : Prop :=
  grp.Pairwise fun x y => x ≠ y ∧ TriggersExclusive cr (triggers.getD x []) (triggers.getD y [])

theorem mem_exclusionGraph_edges {lower upper i j : Nat}
    (h : (i, j) ∈ (exclusionGraph cr triggers lower upper).edges) :
    lower ≤ i ∧ i < j ∧ j < upper ∧
      findExclusivePair i j lower (minResetDistRows cr triggers lower upper) triggers = true := by
  simp only [exclusionGraph, List.mem_flatMap, List.mem_range', List.mem_map, List.mem_filter,
    Prod.mk.injEq] at h
  obtain ⟨i', ⟨k, hk, rfl⟩, j', ⟨⟨l, hl, rfl⟩, hp⟩, rfl, rfl⟩ := h
  exact ⟨by omega, by omega, by omega, hp⟩

/-- An edge of the exclusion graph joins two exclusiveType repeats. -/
theorem exclusionGraph_adj {lower upper x y : Nat} (h : (exclusionGraph cr triggers lower upper).Adj x y) :
    TriggersExclusive cr (triggers.getD x []) (triggers.getD y []) := by
  rcases h with h | h
  · obtain ⟨hl, hlt, hu, hp⟩ := mem_exclusionGraph_edges h
    exact findExclusivePair_sound hl (by omega) (by omega) hu hp
  · obtain ⟨hl, hlt, hu, hp⟩ := mem_exclusionGraph_edges h
    exact (findExclusivePair_sound hl (by omega) (by omega) hu hp).symm

theorem exclusiveGroup_removeClique (lower upper : Nat) :
    ExclusiveGroup cr triggers (exclusionGraph cr triggers lower upper).removeClique :=
  (isClique_removeClique _).imp fun h => ⟨h.1, exclusionGraph_adj h.2⟩

/-- The loop of `checkExclusion` only adds groups that `removeClique`
returned, by induction on its blocks. -/
theorem checkExclusionFrom_groups (lower : Nat) (groups : List (List Nat)) (exclusiveType : ExclusiveType)
    (total : Nat) (hg : ∀ grp ∈ groups, ExclusiveGroup cr triggers grp) :
    ∀ grp ∈ (checkExclusionFrom cr triggers lower groups exclusiveType total).1, ExclusiveGroup cr triggers grp := by
  fun_induction checkExclusionFrom cr triggers lower groups exclusiveType total with
  | case1 lower groups exclusiveType total hlower upper clique hbig ih =>
    refine ih fun grp hgrp => ?_
    rcases List.mem_append.mp hgrp with hgrp | hgrp
    · exact hg grp hgrp
    · rw [List.mem_singleton.mp hgrp]
      exact exclusiveGroup_removeClique lower upper
  | case2 lower groups exclusiveType total hlower upper clique hsmall ih => exact ih hg
  | case3 => exact hg

/-- **`checkExclusion`.**  Each group it returns is a set of distinct,
pairwise exclusive repeats. -/
theorem checkExclusion_exclusive (streamStateSize : Nat) (exclusiveType : ExclusiveType) (numRepeats : Nat) :
    ∀ grp ∈ (checkExclusion streamStateSize cr triggers exclusiveType numRepeats).2.2, ExclusiveGroup cr triggers grp := by
  have h := @checkExclusionFrom_groups cr triggers 0 [] exclusiveType 0 (by simp)
  unfold checkExclusion
  generalize checkExclusionFrom cr triggers 0 [] exclusiveType 0 = r at h ⊢
  obtain ⟨groups, exclusiveType', total⟩ := r
  dsimp only
  split <;> exact h


/-- What the loop of `checkExclusion` adds: groups of more than one repeat,
their sizes to `total`, and the `exclusive` type once there is one. -/
theorem checkExclusionFrom_spec (lower : Nat) (groups : List (List Nat)) (exclusiveType : ExclusiveType)
    (total : Nat) :
    ∃ new : List (List Nat), checkExclusionFrom cr triggers lower groups exclusiveType total =
        (groups ++ new, if new = [] then exclusiveType else .exclusive, total + (new.map List.length).sum) ∧
      ∀ grp ∈ new, 1 < grp.length := by
  fun_induction checkExclusionFrom cr triggers lower groups exclusiveType total with
  | case1 lower groups exclusiveType total hlower upper clique hbig ih =>
    obtain ⟨new, hnew, hlen⟩ := ih
    refine ⟨clique :: new, ?_, ?_⟩
    · rw [hnew]
      simp [Nat.add_assoc]
    · intro grp hgrp
      rcases List.mem_cons.mp hgrp with rfl | hgrp
      · exact hbig
      · exact hlen grp hgrp
  | case2 lower groups exclusiveType total hlower upper clique hsmall ih => exact ih
  | case3 => exact ⟨[], by simp, by simp⟩

/-- `buildCastle` on the groups of `checkExclusion` (started, as the source
starts it, from `NOT_EXCLUSIVE`) makes one group of each and has the
`exclusive` type that `checkExclusion` returned. -/
theorem buildCastle_checkExclusion (streamStateSize : Nat) (repeats : List PureRepeat) :
    (buildCastle cr repeats (fun i => triggers.getD i [])
        (checkExclusion streamStateSize cr triggers .notExclusive repeats.length).2.2).exclusive =
      (checkExclusion streamStateSize cr triggers .notExclusive repeats.length).2.1 ∧
    (buildCastle cr repeats (fun i => triggers.getD i [])
        (checkExclusion streamStateSize cr triggers .notExclusive repeats.length).2.2).numGroups =
      (checkExclusion streamStateSize cr triggers .notExclusive repeats.length).2.2.length := by
  obtain ⟨new, hnew, hlen⟩ := @checkExclusionFrom_spec cr triggers 0 [] .notExclusive 0
  -- every group has more than one repeat, so `buildCastle` keeps them all
  have hfilter : new.filter (fun g => 1 < g.length) = new := List.filter_eq_self.mpr (by simpa using hlen)
  simp only [checkExclusion, hnew, List.nil_append, Nat.zero_add]
  by_cases htotal : (new.map List.length).sum = repeats.length
  · simp [htotal, buildCastle, hfilter]
  · by_cases hnil : new = []
    · subst hnil
      simp only [List.map_nil, List.sum_nil] at htotal
      simp [htotal, buildCastle]
    · simp [htotal, hnil, buildCastle, hfilter]

/-- **The trigger analysis.**  Two ends of triggers of a repeat are at least
`minPeriod` apart, with a reset between them when `can_reset` is set; for a
pair of repeats that `findExclusivePair` accepts, a reset lies between the
ends of their triggers in either order; and the group that `removeClique`
picks in the exclusion graph is a set of pairwise exclusive repeats. -/
theorem trigger_analysis_sound (cr : CharReach) :
    (∀ (T : List (List CharReach)) (a b : List CharReach) (s : List Nat) (p1 p2 : Nat),
        a ∈ T → b ∈ T → OccursAt a s p1 → OccursAt b s p2 → p1 < p2 →
        (minPeriod T cr).1 ≤ p2 - p1 ∧
          ((minPeriod T cr).2 = true → ∃ q, p1 ≤ q ∧ q < p2 ∧ q < s.length ∧ cr.testBit (s.getD q 0) = false)) ∧
      (∀ (triggers : List (List (List CharReach))) (lower upper id1 id2 : Nat),
        lower ≤ id1 → id1 < upper → lower ≤ id2 → id2 < upper →
        findExclusivePair id1 id2 lower (minResetDistRows cr triggers lower upper) triggers = true →
        TriggersExclusive cr (triggers.getD id1 []) (triggers.getD id2 [])) ∧
      ∀ (triggers : List (List (List CharReach))) (lower upper : Nat),
        ExclusiveGroup cr triggers (exclusionGraph cr triggers lower upper).removeClique := by
  refine ⟨fun T a b s p1 p2 ha hb h1 h2 hlt => minPeriod_sound ha hb h1 h2 hlt, ?_, ?_⟩
  · intro triggers lower upper id1 id2 h1 h1' h2 h2' h
    exact findExclusivePair_sound h1 h1' h2 h2' h
  · intro triggers lower upper
    exact exclusiveGroup_removeClique lower upper

/-- Byte `1` triggers one repeat and byte `2` another, over the class of
byte `0`: the period of the first is `1` with a reset, and the two are
exclusive. -/
theorem trigger_analysis_sound_sample :
    ((minPeriod [[2]] 1).1 ≤ 3 - 1 ∧
        ((minPeriod [[2]] 1).2 = true →
          ∃ q, 1 ≤ q ∧ q < 3 ∧ q < [1, 0, 1].length ∧ (1 : CharReach).testBit ([1, 0, 1].getD q 0) = false)) ∧
      TriggersExclusive 1 ([[[2]], [[4]]].getD 0 []) ([[[2]], [[4]]].getD 1 []) :=
  ⟨(trigger_analysis_sound 1).1 [[2]] [2] [2] [1, 0, 1] 1 3 (by simp) (by simp) (by decide) (by decide)
      (by decide),
    (trigger_analysis_sound 1).2.1 [[[2]], [[4]]] 0 2 0 1 (by decide) (by decide) (by decide) (by decide)
      (by decide)⟩

end CheckExclusion

end Nfa
end Vectorscan
