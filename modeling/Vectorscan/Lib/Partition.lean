import Mathlib

/-!
# Partitions of `[0, n)` into sorted blocks

A partition of the integers `[0, n)` kept as a list of blocks, each a sorted
list, together with the map `blockOf` from an integer to the index of its
block.  `IsPartition` says the two agree; `IsPartition.refine` is the step of
partition refinement: one block is cut into two complementary sublists, one
kept in place and the other appended as a new block, and the map is updated
for the moved part only.

Two facts on lists support it: what a `lower_bound` cursor
(`dropWhile (· < a)`) keeps of a sorted list, and what a sequence of writes
`l[f x] = v` does to a list.

Nothing here names the program.
-/

namespace Vectorscan
namespace Partition

section SortedList

variable {α : Type*} [LinearOrder α]

theorem headD_le_of_mem {l : List α} (hl : l.Pairwise (· ≤ ·)) {x : α} (hx : x ∈ l) (d : α) :
    l.headD d ≤ x := by
  cases l with
  | nil => cases hx
  | cons a rest =>
    rcases List.mem_cons.mp hx with rfl | hrest
    · exact le_rfl
    · exact List.rel_of_pairwise_cons hl hrest

theorem le_getLastD_of_mem {l : List α} (hl : l.Pairwise (· ≤ ·)) {x : α} (hx : x ∈ l) (d : α) :
    x ≤ l.getLastD d := by
  induction l generalizing x with
  | nil => cases hx
  | cons a rest ih =>
    cases rest with
    | nil =>
      rw [List.mem_singleton.mp hx]
      exact le_rfl
    | cons b rest =>
      have hlast : (a :: b :: rest).getLastD d = (b :: rest).getLastD d := rfl
      rw [hlast]
      rcases List.mem_cons.mp hx with rfl | hrest
      · exact (List.rel_of_pairwise_cons hl List.mem_cons_self).trans (ih hl.of_cons List.mem_cons_self)
      · exact ih hl.of_cons hrest

/-- The cursor drops only elements below `a`. -/
theorem mem_dropWhile_lt_iff {l : List α} {a y : α} (hy : a ≤ y) :
    y ∈ l.dropWhile (· < a) ↔ y ∈ l := by
  induction l with
  | nil => rfl
  | cons b rest ih =>
    by_cases hb : b < a
    · have hdrop : (b :: rest).dropWhile (· < a) = rest.dropWhile (· < a) := by
        simp [hb]
      rw [hdrop, ih, List.mem_cons]
      exact ⟨Or.inr, fun h => h.resolve_left (fun hyb => absurd (hyb ▸ hb) (not_lt.mpr hy))⟩
    · have hdrop : (b :: rest).dropWhile (· < a) = b :: rest := by
        simp [hb]
      rw [hdrop]

theorem lt_of_dropWhile_lt_eq_nil {l : List α} {a : α} (h : l.dropWhile (· < a) = []) {y : α}
    (hy : y ∈ l) : y < a := by
  by_contra hya
  have := (mem_dropWhile_lt_iff (not_lt.mp hya)).mpr hy
  rw [h] at this
  cases this

theorem le_of_dropWhile_lt_eq_cons {l : List α} {a s : α} {t : List α}
    (h : l.dropWhile (· < a) = s :: t) : a ≤ s := by
  have hs := List.head_dropWhile_not (fun x => decide (x < a)) (show l.dropWhile _ ≠ [] by simp [h])
  simp only [h, List.head_cons, decide_eq_false_iff_not, not_lt] at hs
  exact hs

/-- On a sorted list, a cursor stopped past `a` means `a` is not there. -/
theorem not_mem_of_dropWhile_lt_eq_cons {l : List α} (hl : l.Pairwise (· ≤ ·)) {a s : α}
    {t : List α} (h : l.dropWhile (· < a) = s :: t) (has : a < s) : a ∉ l := by
  intro ha
  have hmem : a ∈ s :: t := h ▸ (mem_dropWhile_lt_iff le_rfl).mpr ha
  have hsorted : (s :: t).Pairwise (· ≤ ·) := h ▸ hl.sublist (List.dropWhile_suffix _).sublist
  rcases List.mem_cons.mp hmem with rfl | hat
  · exact lt_irrefl a has
  · exact absurd (List.rel_of_pairwise_cons hsorted hat) (not_le.mpr has)

end SortedList

section Writes

variable {α β : Type*}

/-- A sequence of writes `l[f x] = v`, one for each `x` of `xs`, sets exactly the
slots that some `x` names. -/
theorem getElem?_foldl_set (f : β → Nat) (v : α) (xs : List β) (l : List α) (j : Nat) :
    (xs.foldl (fun l x => l.set (f x) v) l)[j]? =
      if ∃ x ∈ xs, f x = j then l[j]?.map (fun _ => v) else l[j]? := by
  induction xs generalizing l with
  | nil => simp
  | cons x rest ih =>
    rw [List.foldl_cons, ih, List.getElem?_set]
    by_cases hx : f x = j
    · subst hx
      by_cases hlt : f x < l.length <;> simp [hlt]
    · simp [hx]

theorem length_foldl_set (f : β → Nat) (v : α) (xs : List β) (l : List α) :
    (xs.foldl (fun l x => l.set (f x) v) l).length = l.length := by
  induction xs generalizing l with
  | nil => rfl
  | cons x rest ih => rw [List.foldl_cons, ih, List.length_set]

end Writes

section Blocks

/-- `blocks` partition `[0, n)` into non-empty sorted blocks, and `blockOf`
names the block of each integer below `n`. -/
structure IsPartition (n : Nat) (blockOf : List Nat) (blocks : List (List Nat)) : Prop where
  length_eq : blockOf.length = n
  nonempty : ∀ S ∈ blocks, S ≠ []
  sorted : ∀ S ∈ blocks, S.Pairwise (· < ·)
  mem_iff : ∀ j x, x ∈ blocks.getD j [] ↔ blockOf[x]? = some j

variable {n : Nat} {blockOf : List Nat} {blocks : List (List Nat)}

theorem getD_mem {j : Nat} (hj : j < blocks.length) : blocks.getD j [] ∈ blocks := by
  rw [List.getD_eq_getElem _ _ hj]
  exact List.getElem_mem hj

theorem lt_length_of_mem_getD {j x : Nat} (hx : x ∈ blocks.getD j []) : j < blocks.length := by
  by_contra hj
  rw [List.getD_eq_default _ _ (not_lt.mp hj)] at hx
  cases hx

namespace IsPartition

variable (h : IsPartition n blockOf blocks)
include h

theorem lt_of_mem {j x : Nat} (hx : x ∈ blocks.getD j []) : x < n := by
  obtain ⟨hlt, -⟩ := List.getElem?_eq_some_iff.mp ((h.mem_iff j x).mp hx)
  exact h.length_eq ▸ hlt

theorem lt_length_of_lookup {j x : Nat} (hx : blockOf[x]? = some j) : j < blocks.length :=
  lt_length_of_mem_getD ((h.mem_iff j x).mpr hx)

theorem sorted_getD (j : Nat) : (blocks.getD j []).Pairwise (· < ·) := by
  by_cases hj : j < blocks.length
  · exact h.sorted _ (getD_mem hj)
  · rw [List.getD_eq_default _ _ (not_lt.mp hj)]
    exact List.Pairwise.nil

/-- No integer is in two blocks. -/
theorem disjoint {j k x : Nat} (hjk : j ≠ k) (hx : x ∈ blocks.getD j []) : x ∉ blocks.getD k [] := by
  intro hk
  have hj := (h.mem_iff j x).mp hx
  rw [(h.mem_iff k x).mp hk, Option.some_inj] at hj
  exact hjk hj.symm

/-- Every integer below `n` is in the block `blockOf` names. -/
theorem exists_mem {x : Nat} (hx : x < n) : ∃ j < blocks.length, x ∈ blocks.getD j [] := by
  have hlt : x < blockOf.length := h.length_eq ▸ hx
  obtain ⟨j, hj⟩ : ∃ j, blockOf[x]? = some j := ⟨blockOf[x], List.getElem?_eq_getElem hlt⟩
  exact ⟨j, h.lt_length_of_lookup hj, (h.mem_iff j x).mpr hj⟩

theorem lt_iff_exists_mem (x : Nat) : x < n ↔ ∃ S ∈ blocks, x ∈ S := by
  constructor
  · intro hx
    obtain ⟨j, hj, hmem⟩ := h.exists_mem hx
    exact ⟨_, getD_mem hj, hmem⟩
  · rintro ⟨S, hS, hx⟩
    obtain ⟨j, hj, rfl⟩ := List.getElem_of_mem hS
    exact h.lt_of_mem (by rwa [List.getD_eq_getElem _ _ hj])

end IsPartition

/-- The blocks after block `i` is replaced by `keep` and `moved` appended. -/
theorem getD_set_append {i : Nat} (hi : i < blocks.length) (keep moved : List Nat) (j : Nat) :
    (blocks.set i keep ++ [moved]).getD j [] =
      if j = i then keep else if j = blocks.length then moved else blocks.getD j [] := by
  simp only [List.getD_eq_getElem?_getD]
  by_cases hj : j < blocks.length
  · rw [List.getElem?_append_left (by simpa using hj), List.getElem?_set]
    by_cases hji : j = i
    · simp [hji, hi]
    · simp [hji, Ne.symm hji, Nat.ne_of_lt hj]
  · rw [List.getElem?_append_right (by simpa using not_lt.mp hj)]
    by_cases hjl : j = blocks.length
    · simp [hjl, Nat.ne_of_gt hi]
    · have hji : j ≠ i := fun hji => hj (hji ▸ hi)
      obtain ⟨m, hm⟩ : ∃ m, j - blocks.length = m + 1 := ⟨j - blocks.length - 1, by omega⟩
      simp [hji, hjl, hm, List.getElem?_eq_none (show blocks.length ≤ j by omega)]

/-- **Refining one block.**  Cut block `i` into complementary sublists `keep`
and `moved`, both non-empty; keep `keep` at `i`, append `moved`, and point the
moved integers at the new block: the result is again a partition. -/
theorem IsPartition.refine (h : IsPartition n blockOf blocks) {i : Nat} {keep moved : List Nat}
    (hkeep : keep.Sublist (blocks.getD i [])) (hmoved : moved.Sublist (blocks.getD i []))
    (hcompl : ∀ x ∈ blocks.getD i [], x ∈ keep ↔ x ∉ moved)
    (hkeep_ne : keep ≠ []) (hmoved_ne : moved ≠ [])
    {blockOf' : List Nat} (hlen : blockOf'.length = n)
    (hof : ∀ x, blockOf'[x]? = if x ∈ moved then some blocks.length else blockOf[x]?) :
    IsPartition n blockOf' (blocks.set i keep ++ [moved]) := by
  obtain ⟨k, hk⟩ := List.exists_mem_of_ne_nil keep hkeep_ne
  have hi : i < blocks.length := lt_length_of_mem_getD (hkeep.subset hk)
  have hS := h.sorted_getD i
  refine ⟨hlen, ?_, ?_, ?_⟩
  · -- the new blocks are `keep`, `moved` and blocks already there
    intro S hS'
    rcases List.mem_append.mp hS' with hset | hlast
    · rcases List.mem_or_eq_of_mem_set hset with hold | rfl
      · exact h.nonempty S hold
      · exact hkeep_ne
    · rw [List.mem_singleton.mp hlast]
      exact hmoved_ne
  · intro S hS'
    rcases List.mem_append.mp hS' with hset | hlast
    · rcases List.mem_or_eq_of_mem_set hset with hold | rfl
      · exact h.sorted S hold
      · exact hS.sublist hkeep
    · rw [List.mem_singleton.mp hlast]
      exact hS.sublist hmoved
  · intro j x
    rw [getD_set_append hi, hof]
    by_cases hji : j = i
    · -- the kept block: its integers still point at `i`
      subst hji
      rw [if_pos rfl]
      by_cases hxm : x ∈ moved
      · rw [if_pos hxm]
        exact ⟨fun hxk => absurd hxm ((hcompl x (hkeep.subset hxk)).mp hxk),
          fun hsome => absurd (Option.some_inj.mp hsome) (Nat.ne_of_gt hi)⟩
      · rw [if_neg hxm, ← h.mem_iff]
        exact ⟨fun hxk => hkeep.subset hxk, fun hxS => (hcompl x hxS).mpr hxm⟩
    · rw [if_neg hji]
      by_cases hjl : j = blocks.length
      · -- the new block: only the moved integers point at it
        subst hjl
        rw [if_pos rfl]
        by_cases hxm : x ∈ moved
        · simp [hxm]
        · rw [if_neg hxm]
          exact ⟨fun hx => absurd hx hxm,
            fun hsome => absurd (h.lt_length_of_lookup hsome) (lt_irrefl _)⟩
      · -- any other block is untouched
        rw [if_neg hjl]
        by_cases hxm : x ∈ moved
        · have hxi : x ∈ blocks.getD i [] := hmoved.subset hxm
          rw [if_pos hxm]
          exact ⟨fun hxj => absurd hxj (h.disjoint (Ne.symm hji) hxi),
            fun hsome => absurd (Option.some_inj.mp hsome) (Ne.symm hjl)⟩
        · rw [if_neg hxm, h.mem_iff]

end Blocks

end Partition
end Vectorscan
