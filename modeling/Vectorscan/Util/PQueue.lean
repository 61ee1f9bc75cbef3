import Mathlib

/-!
# The binary heap of `util/pqueue.h`

`pqueue.h` keeps a priority queue as a binary min-heap in an array: the
parent of `i` is `(i - 1) >> 1`, its children `2i + 1` and `2i + 2`.  The
including file gives the element type `PQ_T` and two comparisons: `PQ_COMP`
of two elements of the array and `PQ_COMP_B` of an element of the array with
a saved one.  `pq_sift` moves a hole down from `start`, `pq_insert` moves one
up from the end, and each writes the saved element into the hole last.

**Model.**  The array is a function `Nat → α` and a write is
`Function.update`; the number of elements is passed as in the source.  Both
comparisons are `<` on a key `key : α → κ` of a linear order, as the catch-up
queue of Rose defines them (`.loc <`).  Indices are natural numbers: the
queue never comes near `2^31` elements.  The loops are recursions, `pq_sift`'s
on the distance of the hole from the end, `pq_insert`'s on the hole.

**Results.**  `pqInsert_spec`, `pqPop_spec` and `pqReplaceTop_spec`: from a
heap (`IsHeap`), each operation leaves a heap, and its elements (`pqContents`,
a multiset) are the old ones with the new element added, the top (which has
the least key, `pqTop_le`) removed, or the top replaced; `IsHeap.second_le`:
below the top, the least key is at position 1 or 2.  The loops are proved
with the order invariants of a heap with a hole, `DownOrder` for `pq_sift` and
`UpOrder` for `pq_insert`, each with a `move` lemma for one pass, and
`OrderedExcept.fill` for the last write.
-/

namespace Vectorscan
namespace PQueue

open Function (update)

/-- `pq_left`. -/
def pqLeft (i : Nat) : Nat := (i <<< 1) + 1

/-- `pq_right`. -/
def pqRight (i : Nat) : Nat := (i <<< 1) + 2

/-- `pq_parent`. -/
def pqParent (i : Nat) : Nat := (i - 1) >>> 1

@[simp] theorem pqLeft_eq (i : Nat) : pqLeft i = 2 * i + 1 := by
  rw [pqLeft, Nat.shiftLeft_eq, Nat.pow_one, Nat.mul_comm]

@[simp] theorem pqRight_eq (i : Nat) : pqRight i = 2 * i + 2 := by
  rw [pqRight, Nat.shiftLeft_eq, Nat.pow_one, Nat.mul_comm]

@[simp] theorem pqParent_eq (i : Nat) : pqParent i = (i - 1) / 2 := by
  rw [pqParent, Nat.shiftRight_eq_div_pow, Nat.pow_one]

theorem pqParent_lt {i : Nat} (hi : 0 < i) : pqParent i < i := by
  rw [pqParent_eq]
  omega

/-- The children of `p` are `pq_left p` and `pq_right p`. -/
theorem pqParent_eq_iff {c p : Nat} (hc : 0 < c) : pqParent c = p ↔ c = 2 * p + 1 ∨ c = 2 * p + 2 := by
  rw [pqParent_eq]
  omega

variable {α κ : Type*} [LinearOrder κ] (key : α → κ)

/-- The child of `j` that `pq_sift` compares with the saved element: the
right one when it is in the heap and its key is below the left one's. -/
def pqMaxChild (items : Nat → α) (endIdx j : Nat) : Nat :=
  if pqRight j < endIdx ∧ key (items (pqRight j)) < key (items (pqLeft j)) then pqRight j else pqLeft j

theorem lt_pqMaxChild (items : Nat → α) (endIdx j : Nat) : j < pqMaxChild key items endIdx j := by
  unfold pqMaxChild
  split <;> simp <;> omega

theorem pqMaxChild_lt (items : Nat → α) {endIdx j : Nat} (h : pqLeft j < endIdx) :
    pqMaxChild key items endIdx j < endIdx := by
  unfold pqMaxChild
  split
  · exact (And.left ‹_›)
  · exact h

/-- The loop of `pq_sift`: the hole is at `j` and the saved element is
`jTemp`; it returns the array and where the hole ended. -/
def pqSiftLoop (items : Nat → α) (jTemp : α) (endIdx j : Nat) : (Nat → α) × Nat :=
  if pqLeft j < endIdx then
    let maxChild := pqMaxChild key items endIdx j
    if key (items maxChild) < key jTemp then
      pqSiftLoop (update items j (items maxChild)) jTemp endIdx maxChild
    else (items, j)
  else (items, j)
termination_by endIdx - j
decreasing_by
  have := lt_pqMaxChild key items endIdx j
  have := pqMaxChild_lt key items ‹pqLeft j < endIdx›
  omega

attribute [grind] pqSiftLoop

/-- `pq_sift`. -/
def pqSift (items : Nat → α) (start endIdx : Nat) : Nat → α :=
  let r := pqSiftLoop key items (items start) endIdx start
  update r.1 r.2 (items start)

/-- `pq_top`. -/
def pqTop (items : Nat → α) : α := items 0

/-- `pq_pop`: the last element goes to the top and sifts down. -/
def pqPop (items : Nat → α) (itemCount : Nat) : Nat → α :=
  let itemCount := itemCount - 1
  pqSift key (update items 0 (items itemCount)) 0 itemCount

/-- The loop of `pq_insert`: the hole is at `pos`; parents whose key is not
below the new element's move down into it. -/
def pqInsertLoop (items : Nat → α) (newItem : α) (pos : Nat) : (Nat → α) × Nat :=
  if pos = 0 then (items, pos)
  else
    let parent := pqParent pos
    if ¬ key (items parent) < key newItem then
      pqInsertLoop (update items pos (items parent)) newItem parent
    else (items, pos)
termination_by pos
decreasing_by exact pqParent_lt (Nat.pos_of_ne_zero ‹¬pos = 0›)

attribute [grind] pqInsertLoop

/-- `pq_insert`. -/
def pqInsert (items : Nat → α) (itemCount : Nat) (newItem : α) : Nat → α :=
  let r := pqInsertLoop key items newItem itemCount
  update r.1 r.2 newItem

/-- `pq_replace_top`. -/
def pqReplaceTop (items : Nat → α) (itemCount : Nat) (newItem : α) : Nat → α :=
  pqSift key (update items 0 newItem) 0 itemCount

/-! ## Heaps and their elements -/

/-- The first `n` elements are a heap: no key is below its parent's. -/
def IsHeap (items : Nat → α) (n : Nat) : Prop :=
  ∀ i, 0 < i → i < n → key (items (pqParent i)) ≤ key (items i)

/-- The elements of a queue of `n` elements. -/
def pqContents (items : Nat → α) (n : Nat) : Multiset α := (Multiset.range n).map items

theorem pqContents_succ (items : Nat → α) (n : Nat) :
    pqContents items (n + 1) = items n ::ₘ pqContents items n := by
  rw [pqContents, Multiset.range_succ, Multiset.map_cons]
  rfl

theorem pqContents_congr {f g : Nat → α} {n : Nat} (h : ∀ i < n, f i = g i) :
    pqContents f n = pqContents g n :=
  Multiset.map_congr rfl fun i hi => h i (Multiset.mem_range.mp hi)

/-- A write past the queue changes none of its elements. -/
theorem pqContents_update_of_le (f : Nat → α) {n i : Nat} (h : n ≤ i) (x : α) :
    pqContents (update f i x) n = pqContents f n :=
  pqContents_congr fun k hk => Function.update_of_ne (by omega) _ _

/-- Swapping two elements of the queue keeps its elements. -/
theorem pqContents_comp_swap (f : Nat → α) {i j n : Nat} (hi : i < n) (hj : j < n) :
    pqContents (f ∘ Equiv.swap i j) n = pqContents f n := by
  unfold pqContents
  rw [← Multiset.map_map]
  congr 1
  rw [Multiset.Nodup.ext ((Multiset.nodup_range n).map (Equiv.injective _)) (Multiset.nodup_range n)]
  intro a
  simp only [Multiset.mem_map, Multiset.mem_range]
  constructor
  · rintro ⟨b, hb, rfl⟩
    rw [Equiv.swap_apply_def]
    split_ifs <;> assumption
  · intro ha
    refine ⟨Equiv.swap i j a, ?_, Equiv.swap_apply_self i j a⟩
    rw [Equiv.swap_apply_def]
    split_ifs <;> assumption

/-- **A pass of a sift.**  Moving the element at `c` into the hole at `j`,
and the hole to `c`, keeps the elements of the queue with the saved one in
the hole. -/
theorem pqContents_move (items : Nat → α) {j c n : Nat} (hj : j < n) (hc : c < n) (t : α) :
    pqContents (update (update items j (items c)) c t) n = pqContents (update items j t) n := by
  by_cases hjc : j = c
  · subst hjc
    rw [Function.update_idem]
  · have hswap : update (update items j (items c)) c t = update items j t ∘ Equiv.swap j c := by
      funext k
      simp only [Function.comp_apply]
      by_cases hkc : k = c
      · subst hkc
        rw [Function.update_self, Equiv.swap_apply_right, Function.update_self]
      · by_cases hkj : k = j
        · subst hkj
          rw [Function.update_of_ne hkc, Function.update_self, Equiv.swap_apply_left,
            Function.update_of_ne (Ne.symm hjc)]
        · rw [Function.update_of_ne hkc, Function.update_of_ne hkj, Equiv.swap_apply_of_ne_of_ne hkj hkc,
            Function.update_of_ne hkj]
    rw [hswap, pqContents_comp_swap _ hj hc]

/-- Writing `x` over the element at `i` of the queue: the elements with the
old one are the new ones with `x`. -/
theorem pqContents_update (f : Nat → α) {i n : Nat} (hi : i < n) (x : α) :
    f i ::ₘ pqContents (update f i x) n = x ::ₘ pqContents f n := by
  induction n with
  | zero => omega
  | succ n ih =>
    rw [pqContents_succ, pqContents_succ]
    by_cases hin : i = n
    · subst hin
      rw [Function.update_self, pqContents_update_of_le f le_rfl, Multiset.cons_swap]
    · rw [Function.update_of_ne (Ne.symm hin), Multiset.cons_swap, ih (by omega), Multiset.cons_swap]

/-! ## `pq_sift` -/

/-- Every pair of a parent and a child of the first `n`, neither of them the
hole, is in order. -/
def OrderedExcept (items : Nat → α) (n hole : Nat) : Prop :=
  ∀ i, 0 < i → i < n → i ≠ hole → pqParent i ≠ hole → key (items (pqParent i)) ≤ key (items i)

/-- What `pq_sift` keeps of the order, with the hole at `j` and the saved
element `t`: the pairs off the hole are in order, and the hole's parent is
below neither `t` nor the hole's children. -/
structure DownOrder (items : Nat → α) (n j : Nat) (t : α) : Prop where
  except : OrderedExcept key items n j
  above : j ≠ 0 → key (items (pqParent j)) ≤ key t
  grand : j ≠ 0 → ∀ c, 0 < c → pqParent c = j → c < n → key (items (pqParent j)) ≤ key (items c)

theorem pqMaxChild_isChild (items : Nat → α) (n j : Nat) :
    0 < pqMaxChild key items n j ∧ pqParent (pqMaxChild key items n j) = j := by
  unfold pqMaxChild
  split <;> · simp only [pqRight_eq, pqLeft_eq, pqParent_eq]; omega

/-- The child that `pq_sift` picks has the least key of the children. -/
theorem pqMaxChild_le (items : Nat → α) {n j : Nat} {c : Nat} (hc : 0 < c) (hcj : pqParent c = j)
    (hcn : c < n) : key (items (pqMaxChild key items n j)) ≤ key (items c) := by
  rcases (pqParent_eq_iff hc).mp hcj with rfl | rfl
  · unfold pqMaxChild
    split
    · rename_i h
      simpa using h.2.le
    · simp
  · unfold pqMaxChild
    split
    · simp
    · rename_i h
      simp only [pqRight_eq, pqLeft_eq, not_and, not_lt] at h ⊢
      exact h hcn

theorem DownOrder.move {items : Nat → α} {n j : Nat} {t : α} (hd : DownOrder key items n j t)
    (hleft : pqLeft j < n) (hlt : key (items (pqMaxChild key items n j)) < key t) :
    DownOrder key (update items j (items (pqMaxChild key items n j))) n (pqMaxChild key items n j) t := by
  obtain ⟨hm0, hmj⟩ := pqMaxChild_isChild key items n j
  have hjm := lt_pqMaxChild key items n j
  have hmn := pqMaxChild_lt key items hleft
  set m := pqMaxChild key items n j
  constructor
  · intro i hi0 hin him hpi
    by_cases hij : i = j
    · -- the hole's old place now holds `m`'s element, not below the hole's parent
      subst hij
      have hpi' : pqParent i ≠ i := (pqParent_lt hi0).ne
      rw [Function.update_self, Function.update_of_ne hpi']
      exact hd.grand (by omega) m hm0 hmj (by omega)
    · rw [Function.update_of_ne hij]
      by_cases hpj : pqParent i = j
      · -- `m`'s sibling: `m` has the least key of the two
        rw [hpj, Function.update_self]
        exact pqMaxChild_le key items hi0 hpj hin
      · rw [Function.update_of_ne hpj]
        exact hd.except i hi0 hin hij hpj
  · intro _
    rw [hmj, Function.update_self]
    exact hlt.le
  · intro _ d hd0 hdm hdn
    have hdm' : m < d := by rw [← hdm]; exact pqParent_lt hd0
    rw [hmj, Function.update_self, Function.update_of_ne (by omega)]
    have := hd.except d hd0 hdn (by omega) (by rw [hdm]; omega)
    rwa [hdm] at this

/-- **Filling the hole.**  With the pairs off the hole in order, writing an
element into the hole that is not below its parent nor above its children
leaves a heap. -/
theorem OrderedExcept.fill {items : Nat → α} {n j : Nat} {t : α} (h : OrderedExcept key items n j)
    (habove : j ≠ 0 → key (items (pqParent j)) ≤ key t)
    (hbelow : ∀ c, 0 < c → pqParent c = j → c < n → key t ≤ key (items c)) :
    IsHeap key (update items j t) n := by
  intro i hi0 hin
  by_cases hij : i = j
  · subst hij
    rw [Function.update_self, Function.update_of_ne (pqParent_lt hi0).ne]
    exact habove (by omega)
  · rw [Function.update_of_ne hij]
    by_cases hpj : pqParent i = j
    · rw [hpj, Function.update_self]
      exact hbelow i hi0 hpj hin
    · rw [Function.update_of_ne hpj]
      exact h i hi0 hin hij hpj

theorem pqSiftLoop_of_lt {items : Nat → α} {t : α} {n j : Nat} (hleft : pqLeft j < n)
    (hlt : key (items (pqMaxChild key items n j)) < key t) :
    pqSiftLoop key items t n j =
      pqSiftLoop key (update items j (items (pqMaxChild key items n j))) t n (pqMaxChild key items n j) := by
  rw [pqSiftLoop, if_pos hleft]
  exact if_pos hlt

theorem pqSiftLoop_of_not_lt {items : Nat → α} {t : α} {n j : Nat} (hleft : pqLeft j < n)
    (hge : ¬ key (items (pqMaxChild key items n j)) < key t) : pqSiftLoop key items t n j = (items, j) := by
  rw [pqSiftLoop, if_pos hleft]
  exact if_neg hge

theorem pqSiftLoop_of_not_left {items : Nat → α} {t : α} {n j : Nat} (hleft : ¬ pqLeft j < n) :
    pqSiftLoop key items t n j = (items, j) := by
  rw [pqSiftLoop, if_neg hleft]

/-- **The loop of `pq_sift`.**  From a heap with a hole that keeps
`DownOrder`, the loop ends with a heap once the saved element is written into
the hole, and with the same elements. -/
theorem pqSiftLoop_spec (t : α) (n : Nat) (items : Nat → α) (j : Nat) (hd : DownOrder key items n j t) :
    IsHeap key (update (pqSiftLoop key items t n j).1 (pqSiftLoop key items t n j).2 t) n ∧
      pqContents (update (pqSiftLoop key items t n j).1 (pqSiftLoop key items t n j).2 t) n =
        pqContents (update items j t) n := by
  induction items, j using pqSiftLoop.induct key t n with
  | case1 items j hleft m hlt ih =>
    -- a child's key is below `t`: it moves up into the hole
    rw [pqSiftLoop_of_lt key hleft hlt]
    obtain ⟨hheap, hcont⟩ := ih (hd.move key hleft hlt)
    have hjm := lt_pqMaxChild key items n j
    have hm := pqMaxChild_lt key items hleft
    exact ⟨hheap, hcont.trans (pqContents_move items (by omega) hm t)⟩
  | case2 items j hleft m hge =>
    -- no child's key is below `t`: it goes into the hole
    rw [pqSiftLoop_of_not_lt key hleft hge]
    refine ⟨hd.except.fill key hd.above fun c hc0 hcj hcn => ?_, rfl⟩
    exact (not_lt.mp hge).trans (pqMaxChild_le key items hc0 hcj hcn)
  | case3 items j hleft =>
    -- the hole has no children in the heap
    rw [pqSiftLoop_of_not_left key hleft]
    refine ⟨hd.except.fill key hd.above fun c hc0 hcj hcn => ?_, rfl⟩
    rcases (pqParent_eq_iff hc0).mp hcj with rfl | rfl <;> simp at hleft <;> omega

/-! ## `pq_insert` -/

/-- What `pq_insert` keeps of the order, with the hole at `j` and the new
element `t`: the pairs off the hole are in order, and neither the hole's
parent nor `t` is above the hole's children. -/
structure UpOrder (items : Nat → α) (n j : Nat) (t : α) : Prop where
  except : OrderedExcept key items n j
  grand : j ≠ 0 → ∀ c, 0 < c → pqParent c = j → c < n → key (items (pqParent j)) ≤ key (items c)
  below : ∀ c, 0 < c → pqParent c = j → c < n → key t ≤ key (items c)

theorem UpOrder.move {items : Nat → α} {n j : Nat} {t : α} (hu : UpOrder key items n j t) (hj0 : j ≠ 0)
    (hjn : j < n) (hle : key t ≤ key (items (pqParent j))) :
    UpOrder key (update items j (items (pqParent j))) n (pqParent j) t := by
  have hpj := pqParent_lt (Nat.pos_of_ne_zero hj0)
  -- a child `c ≠ j` of the new hole is in order with it
  have hsib : ∀ c, 0 < c → pqParent c = pqParent j → c < n → c ≠ j →
      key (items (pqParent j)) ≤ key (items c) := by
    intro c hc0 hcp hcn hcj
    have := hu.except c hc0 hcn hcj (by rw [hcp]; omega)
    rwa [hcp] at this
  constructor
  · intro i hi0 hin hip hpi
    have hij : i ≠ j := fun h => hpi (h ▸ rfl)
    rw [Function.update_of_ne hij]
    by_cases hpij : pqParent i = j
    · -- the hole's old children are below the parent that moved down
      rw [hpij, Function.update_self]
      exact hu.grand hj0 i hi0 hpij hin
    · rw [Function.update_of_ne hpij]
      exact hu.except i hi0 hin hij hpij
  · intro hp0 c hc0 hcp hcn
    have hpp := pqParent_lt (Nat.pos_of_ne_zero hp0)
    have hup : key (items (pqParent (pqParent j))) ≤ key (items (pqParent j)) :=
      hu.except (pqParent j) (Nat.pos_of_ne_zero hp0) (by omega) (by omega) (by omega)
    rw [Function.update_of_ne (show pqParent (pqParent j) ≠ j by omega)]
    by_cases hcj : c = j
    · subst hcj
      rw [Function.update_self]
      exact hup
    · rw [Function.update_of_ne hcj]
      exact hup.trans (hsib c hc0 hcp hcn hcj)
  · intro c hc0 hcp hcn
    by_cases hcj : c = j
    · subst hcj
      rw [Function.update_self]
      exact hle
    · rw [Function.update_of_ne hcj]
      exact hle.trans (hsib c hc0 hcp hcn hcj)

theorem pqInsertLoop_zero (items : Nat → α) (t : α) : pqInsertLoop key items t 0 = (items, 0) := by
  rw [pqInsertLoop, if_pos rfl]

theorem pqInsertLoop_of_not_lt {items : Nat → α} {t : α} {pos : Nat} (hpos : pos ≠ 0)
    (hge : ¬ key (items (pqParent pos)) < key t) :
    pqInsertLoop key items t pos = pqInsertLoop key (update items pos (items (pqParent pos))) t (pqParent pos) := by
  rw [pqInsertLoop, if_neg hpos]
  exact if_pos hge

theorem pqInsertLoop_of_lt {items : Nat → α} {t : α} {pos : Nat} (hpos : pos ≠ 0)
    (hlt : key (items (pqParent pos)) < key t) : pqInsertLoop key items t pos = (items, pos) := by
  rw [pqInsertLoop, if_neg hpos]
  exact if_neg (not_not.mpr hlt)

/-- **The loop of `pq_insert`.**  From a heap with a hole that keeps
`UpOrder`, the loop ends with a heap once the new element is written into the
hole, and with the same elements. -/
theorem pqInsertLoop_spec (t : α) (n : Nat) (items : Nat → α) (pos : Nat) (hu : UpOrder key items n pos t)
    (hposn : pos < n) :
    IsHeap key (update (pqInsertLoop key items t pos).1 (pqInsertLoop key items t pos).2 t) n ∧
      pqContents (update (pqInsertLoop key items t pos).1 (pqInsertLoop key items t pos).2 t) n =
        pqContents (update items pos t) n := by
  induction items, pos using pqInsertLoop.induct key t with
  | case1 items =>
    -- the hole reached the top
    rw [pqInsertLoop_zero]
    exact ⟨hu.except.fill key (fun h => absurd rfl h) hu.below, rfl⟩
  | case2 items pos hpos p hge ih =>
    -- the parent's key is not below `t`: it moves down into the hole
    rw [pqInsertLoop_of_not_lt key hpos hge]
    have hp := pqParent_lt (Nat.pos_of_ne_zero hpos)
    obtain ⟨hheap, hcont⟩ := ih (hu.move key hpos hposn (not_lt.mp hge)) (by omega)
    exact ⟨hheap, hcont.trans (pqContents_move items hposn (by omega) t)⟩
  | case3 items pos hpos p hlt =>
    -- the parent's key is below `t`: `t` goes into the hole
    rw [pqInsertLoop_of_lt key hpos (not_not.mp hlt)]
    exact ⟨hu.except.fill key (fun _ => (not_not.mp hlt).le) hu.below, rfl⟩

/-! ## The operations -/

section Operations

variable {key}

/-- **`pq_top` has the least key** of a heap. -/
theorem pqTop_le {items : Nat → α} {n : Nat} (h : IsHeap key items n) :
    ∀ i, i < n → key (pqTop items) ≤ key (items i) := by
  intro i
  induction i using Nat.strong_induction_on with
  | _ i ih =>
    intro hi
    rcases Nat.eq_zero_or_pos i with rfl | hi0
    · exact le_rfl
    · -- up the tree: the top is not above the parent, which is not above `i`
      have hp := pqParent_lt hi0
      exact (ih _ hp (by omega)).trans (h i hi0 hi)

/-- **The second place.**  In a heap, every key after the top is at or above
the key at position 1 or the one at position 2. -/
theorem IsHeap.second_le {items : Nat → α} {n : Nat} (h : IsHeap key items n) :
    ∀ k, 1 ≤ k → k < n → key (items 1) ≤ key (items k) ∨ key (items 2) ≤ key (items k) := by
  intro k
  induction k using Nat.strong_induction_on with
  | _ k ih =>
    intro hk1 hkn
    by_cases hk : k ≤ 2
    · rcases (show k = 1 ∨ k = 2 by omega) with rfl | rfl
      · exact Or.inl le_rfl
      · exact Or.inr le_rfl
    · -- below 1 or 2: through the parent, which is not above `k`
      have hp := pqParent_lt (show 0 < k by omega)
      have hp1 : 1 ≤ pqParent k := by rw [pqParent_eq]; omega
      have hpk := h k (by omega) hkn
      rcases ih _ hp hp1 (by omega) with h1 | h2
      · exact Or.inl (h1.trans hpk)
      · exact Or.inr (h2.trans hpk)

/-- A heap whose top is replaced keeps `DownOrder` with its hole at the top. -/
theorem IsHeap.downOrder_top {items : Nat → α} {n : Nat} (h : IsHeap key items n) {m : Nat} (hm : m ≤ n)
    (x : α) : DownOrder key (update items 0 x) m 0 x := by
  refine ⟨fun i hi0 hin hi hpi => ?_, fun h0 => absurd rfl h0, fun h0 => absurd rfl h0⟩
  rw [Function.update_of_ne hi, Function.update_of_ne hpi]
  exact h i hi0 (by omega)

/-- **`pq_insert`.**  Inserting into a heap of `n` elements gives a heap of
`n + 1` elements, the old ones and the new. -/
theorem pqInsert_spec {items : Nat → α} {n : Nat} (h : IsHeap key items n) (x : α) :
    IsHeap key (pqInsert key items n x) (n + 1) ∧
      pqContents (pqInsert key items n x) (n + 1) = x ::ₘ pqContents items n := by
  -- the hole starts at the new slot, which has no children in the heap
  have hu : UpOrder key items (n + 1) n x := by
    refine ⟨fun i hi0 hin hi _ => h i hi0 (by omega), ?_, ?_⟩
    · intro _ c hc0 hcp hcn
      rcases (pqParent_eq_iff hc0).mp hcp with rfl | rfl <;> omega
    · intro c hc0 hcp hcn
      rcases (pqParent_eq_iff hc0).mp hcp with rfl | rfl <;> omega
  obtain ⟨hheap, hcont⟩ := pqInsertLoop_spec key x (n + 1) items n hu (by omega)
  refine ⟨hheap, ?_⟩
  rw [pqInsert, hcont, pqContents_succ, Function.update_self, pqContents_update_of_le items le_rfl]

/-- **`pq_replace_top`.**  Replacing the top of a heap of `n ≥ 1` elements by
`x` gives a heap whose elements, with the old top, are the old ones with `x`. -/
theorem pqReplaceTop_spec {items : Nat → α} {n : Nat} (h : IsHeap key items n) (hn : 0 < n) (x : α) :
    IsHeap key (pqReplaceTop key items n x) n ∧
      items 0 ::ₘ pqContents (pqReplaceTop key items n x) n = x ::ₘ pqContents items n := by
  obtain ⟨hheap, hcont⟩ :=
    pqSiftLoop_spec key x n (update items 0 x) 0 (h.downOrder_top le_rfl x)
  unfold pqReplaceTop pqSift
  rw [Function.update_self]
  refine ⟨hheap, ?_⟩
  rw [hcont, Function.update_idem, pqContents_update items hn]

/-- **`pq_pop`.**  Popping a heap of `n ≥ 1` elements gives a heap of `n - 1`
elements: the old ones but the top. -/
theorem pqPop_spec {items : Nat → α} {n : Nat} (h : IsHeap key items n) (hn : 0 < n) :
    IsHeap key (pqPop key items n) (n - 1) ∧
      pqContents items n = pqTop items ::ₘ pqContents (pqPop key items n) (n - 1) := by
  obtain ⟨hheap, hcont⟩ := pqSiftLoop_spec key (items (n - 1)) (n - 1) (update items 0 (items (n - 1))) 0
    (h.downOrder_top (Nat.sub_le n 1) (items (n - 1)))
  unfold pqPop pqSift
  dsimp only
  rw [Function.update_self]
  refine ⟨hheap, ?_⟩
  rw [hcont, Function.update_idem]
  -- the last element moves to the top; the old top leaves
  obtain ⟨m, rfl⟩ : ∃ m, n = m + 1 := ⟨n - 1, by omega⟩
  rw [Nat.add_sub_cancel, pqContents_succ, pqTop]
  rcases Nat.eq_zero_or_pos m with rfl | hm
  · rfl
  · rw [pqContents_update items hm]

end Operations

end PQueue
end Vectorscan
