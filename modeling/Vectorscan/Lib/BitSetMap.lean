import Mathlib.Data.List.Sort
import Vectorscan.Lib.Word

/-!
# Maps from keys to bit sets

A `std::map` from keys to bit sets, filled by `m[k].set(b)` (a missing key
starts from the empty set) and iterated in the order of its keys.  It is kept
as the list of its entries in the order they were made; `entries` is the list
the map iterates.

**Results.**  `get_setBit` and `keys_setBit` say what one update does;
`testBit_get_foldl` and `mem_keys_foldl`: after a fold of updates, bit `b` of
key `k` is set exactly when some update set it, and `k` is a key exactly when
some update named it.  `mem_entries_iff`: the entries of the map are its keys
with their sets.

Nothing here names the program.
-/

namespace Vectorscan
namespace BitSetMap

/-- The keys of the map. -/
def keys (m : List (Nat × Nat)) : List Nat := m.map (·.1)

/-- The set of key `k`, empty when `k` is not a key. -/
def get (m : List (Nat × Nat)) (k : Nat) : Nat := ((m.find? fun e => e.1 == k).map (·.2)).getD 0

/-- `m[k].set(b)`. -/
def setBit (m : List (Nat × Nat)) (k b : Nat) : List (Nat × Nat) :=
  if k ∈ keys m then m.map fun e => if e.1 = k then (e.1, e.2 ||| 1 <<< b) else e
  else m ++ [(k, 1 <<< b)]

/-- The entries in the order of their keys, as the map iterates them. -/
def entries (m : List (Nat × Nat)) : List (Nat × Nat) := m.mergeSort fun a b => a.1 ≤ b.1

@[simp] theorem get_nil (k : Nat) : get [] k = 0 := rfl

theorem get_eq_zero {m : List (Nat × Nat)} {k : Nat} (h : k ∉ keys m) : get m k = 0 := by
  have hnone : (m.find? fun e => e.1 == k) = none := by
    rw [List.find?_eq_none]
    intro e he hek
    exact h (List.mem_map.mpr ⟨e, he, by simpa using hek⟩)
  simp [get, hnone]

/-- Updating entries in place without touching their keys finds the same entry. -/
theorem find?_map_of_fst {f : Nat × Nat → Nat × Nat} (hf : ∀ e, (f e).1 = e.1) (l : List (Nat × Nat)) (k : Nat) :
    (l.map f).find? (fun e => e.1 == k) = (l.find? fun e => e.1 == k).map f := by
  induction l with
  | nil => rfl
  | cons x l ih =>
    simp only [List.map_cons, List.find?_cons, hf]
    split <;> simp [ih]

/-- One update: the set of `k` gets bit `b`, the other sets stay. -/
theorem get_setBit (m : List (Nat × Nat)) (k b k' : Nat) :
    get (setBit m k b) k' = if k' = k then get m k ||| 1 <<< b else get m k' := by
  unfold setBit get
  split
  · -- `k` is already a key: its entry is updated in place
    rename_i hk
    rw [find?_map_of_fst (fun e => by split <;> rfl)]
    cases h : m.find? (fun e => e.1 == k') with
    | none =>
      have hk' : k' ≠ k := by
        rintro rfl
        obtain ⟨e, he, hek⟩ := List.mem_map.mp hk
        have := List.find?_eq_none.mp h e he
        simp_all
      simp [hk']
    | some e =>
      have hek : e.1 = k' := by simpa using List.find?_some h
      by_cases hkk : k' = k
      · subst hkk
        simp [hek, h]
      · simp [hek, hkk]
  · -- a new key: its entry goes at the end
    rename_i hk
    rw [List.find?_append]
    cases h : m.find? (fun e => e.1 == k') with
    | some e =>
      have hek : e.1 = k' := by simpa using List.find?_some h
      have hk' : k' ≠ k := fun h' => hk (List.mem_map.mpr ⟨e, List.mem_of_find?_eq_some h, hek.trans h'⟩)
      simp [hk']
    | none =>
      by_cases hkk : k' = k
      · subst hkk
        simp [h]
      · simp [hkk, Ne.symm hkk]

theorem keys_setBit (m : List (Nat × Nat)) (k b : Nat) :
    keys (setBit m k b) = if k ∈ keys m then keys m else keys m ++ [k] := by
  unfold setBit
  split
  · unfold keys
    rw [List.map_map]
    apply List.map_congr_left
    intro e _
    simp only [Function.comp]
    split <;> rfl
  · simp [keys]

theorem nodup_keys_setBit {m : List (Nat × Nat)} (h : (keys m).Nodup) (k b : Nat) :
    (keys (setBit m k b)).Nodup := by
  rw [keys_setBit]
  split
  · exact h
  · rename_i hk
    refine List.nodup_append.mpr ⟨h, List.nodup_singleton k, fun a ha c hc => ?_⟩
    rw [List.mem_singleton] at hc
    subst hc
    exact fun hak => hk (hak ▸ ha)

/-! ## A fold of updates -/

section Fold

variable {α : Type*} (key bit : α → Nat)

/-- After a fold of updates, bit `i` of key `k` is set exactly when it was
before or some update set it. -/
theorem testBit_get_foldl (l : List α) (m : List (Nat × Nat)) (k i : Nat) :
    (get (l.foldl (fun m x => setBit m (key x) (bit x)) m) k).testBit i =
      ((get m k).testBit i || l.any fun x => key x == k && bit x == i) := by
  induction l generalizing m with
  | nil => simp
  | cons x l ih =>
    rw [List.foldl_cons, ih, get_setBit, List.any_cons]
    by_cases hk : k = key x
    · subst hk
      rw [if_pos rfl, Nat.testBit_or, Nat.one_shiftLeft, Nat.testBit_two_pow]
      by_cases hi : bit x = i
      · simp [hi]
      · simp [hi, beq_eq_false_iff_ne.mpr hi]
    · rw [if_neg hk]
      simp [beq_eq_false_iff_ne.mpr (Ne.symm hk)]

/-- After a fold of updates, `k` is a key exactly when it was before or some
update named it. -/
theorem mem_keys_foldl (l : List α) (m : List (Nat × Nat)) (k : Nat) :
    k ∈ keys (l.foldl (fun m x => setBit m (key x) (bit x)) m) ↔ k ∈ keys m ∨ ∃ x ∈ l, key x = k := by
  induction l generalizing m with
  | nil => simp
  | cons x l ih =>
    rw [List.foldl_cons, ih, keys_setBit]
    constructor
    · rintro (hk | ⟨y, hy, rfl⟩)
      · split at hk
        · exact Or.inl hk
        · rcases List.mem_append.mp hk with hk | hk
          · exact Or.inl hk
          · exact Or.inr ⟨x, List.mem_cons_self, (List.mem_singleton.mp hk).symm⟩
      · exact Or.inr ⟨y, List.mem_cons_of_mem x hy, rfl⟩
    · rintro (hk | ⟨y, hy, rfl⟩)
      · left
        split <;> simp [hk]
      · rcases List.mem_cons.mp hy with rfl | hy
        · left
          split
          · assumption
          · simp
        · exact Or.inr ⟨y, hy, rfl⟩

theorem nodup_keys_foldl (l : List α) {m : List (Nat × Nat)} (h : (keys m).Nodup) :
    (keys (l.foldl (fun m x => setBit m (key x) (bit x)) m)).Nodup := by
  induction l generalizing m with
  | nil => exact h
  | cons x l ih => exact ih (nodup_keys_setBit h _ _)

/-- A fold of updates adds at most one key per update. -/
theorem length_keys_foldl_le (l : List α) (m : List (Nat × Nat)) :
    (keys (l.foldl (fun m x => setBit m (key x) (bit x)) m)).length ≤ (keys m).length + l.length := by
  induction l generalizing m with
  | nil => simp
  | cons x l ih =>
    have hstep : (keys (setBit m (key x) (bit x))).length ≤ (keys m).length + 1 := by
      rw [keys_setBit]
      split <;> simp
    have hrest := ih (setBit m (key x) (bit x))
    rw [List.foldl_cons, List.length_cons]
    omega

end Fold

/-! ## Entries -/

/-- An entry of a map whose keys are distinct is a key with its set. -/
theorem mem_iff_get {m : List (Nat × Nat)} (h : (keys m).Nodup) (e : Nat × Nat) :
    e ∈ m ↔ e.1 ∈ keys m ∧ e.2 = get m e.1 := by
  induction m with
  | nil => simp [keys]
  | cons x m ih =>
    simp only [keys, List.map_cons, List.nodup_cons] at h
    obtain ⟨hx, hm⟩ := h
    have ih := ih hm
    simp only [keys, get, List.map_cons, List.mem_cons, List.find?_cons] at ih ⊢
    by_cases hex : x.1 = e.1
    · simp only [hex, beq_self_eq_true, Option.map_some, Option.getD_some, true_or, true_and]
      constructor
      · rintro (rfl | he)
        · rfl
        · exact absurd (List.mem_map.mpr ⟨e, he, rfl⟩) (hex ▸ hx)
      · intro he
        left
        exact Prod.ext hex.symm he
    · have hne : (x.1 == e.1) = false := by simpa using hex
      simp only [hne, Ne.symm hex, false_or]
      constructor
      · rintro (rfl | he)
        · exact absurd rfl hex
        · exact ih.mp he
      · intro he
        exact Or.inr (ih.mpr he)

theorem mem_entries_iff {m : List (Nat × Nat)} (h : (keys m).Nodup) (e : Nat × Nat) :
    e ∈ entries m ↔ e.1 ∈ keys m ∧ e.2 = get m e.1 := by
  rw [entries, List.mem_mergeSort, mem_iff_get h]

theorem length_entries (m : List (Nat × Nat)) : (entries m).length = (keys m).length := by
  simp [entries, keys]

end BitSetMap
end Vectorscan
