import Mathlib

/-!
# Maps as sorted association lists

An ordered map (`std::map`) is modelled by the list of its entries in
increasing key order.  `find?` looks a key up, and `alter` is
`m[k] = f(m[k])`: it replaces the entry of `k`, or puts a new one in its
place, so that the entries stay in order; `f` sees `none` for a key not yet in
the map.  A walk over the map is a walk over the list.

**Results.**  `find?_alter`: what `alter` changes, for a well-formed map
(`WF`, strictly increasing keys).  `wf_alter`: it keeps the map well formed.
`mem_keys_iff` and `mem_iff_find?` relate the entries and keys to `find?`.

Nothing here names the program.
-/

namespace Vectorscan
namespace SortedMap

variable {α β : Type*}

/-- The entries are in strictly increasing key order. -/
def WF [LT α] (l : List (α × β)) : Prop := l.Pairwise fun a b => a.1 < b.1

/-- The value of the first entry with key `a`. -/
def find? [DecidableEq α] : List (α × β) → α → Option β
  | [], _ => none
  | (k, v) :: rest, a => if k = a then some v else find? rest a

variable [LinearOrder α]

/-- `m[a] = f(m[a])` on the map `l`, in key order. -/
def alter : List (α × β) → α → (Option β → β) → List (α × β)
  | [], a, f => [(a, f none)]
  | (k, v) :: rest, a, f =>
    if a < k then (a, f none) :: (k, v) :: rest
    else if a = k then (k, f (some v)) :: rest
    else (k, v) :: alter rest a f

attribute [grind] alter

@[simp] theorem find?_nil (a : α) : find? ([] : List (α × β)) a = none := rfl

theorem find?_cons (k a : α) (v : β) (rest : List (α × β)) :
    find? ((k, v) :: rest) a = if k = a then some v else find? rest a := rfl

theorem wf_nil : WF ([] : List (α × β)) := List.Pairwise.nil

/-- A key below the first of a well-formed map is not in it. -/
theorem find?_of_lt {k a : α} {v : β} {rest : List (α × β)} (hs : WF ((k, v) :: rest)) (ha : a < k) :
    find? ((k, v) :: rest) a = none := by
  induction rest generalizing k v with
  | nil => simp [find?_cons, ne_of_gt ha]
  | cons e rest ih =>
    obtain ⟨k', v'⟩ := e
    have hkk' : k < k' := List.rel_of_pairwise_cons hs List.mem_cons_self
    have htail : WF ((k', v') :: rest) := hs.of_cons
    rw [find?_cons, if_neg (ne_of_gt ha), ih htail (ha.trans hkk')]

theorem mem_keys_iff (l : List (α × β)) (b : α) : b ∈ l.map Prod.fst ↔ (find? l b).isSome := by
  induction l with
  | nil => simp
  | cons e rest ih =>
    obtain ⟨k, v⟩ := e
    rw [List.map_cons, List.mem_cons, ih, find?_cons]
    by_cases h : k = b
    · simp [h]
    · simp [h, Ne.symm h]

theorem mem_iff_find? {l : List (α × β)} (hs : WF l) (b : α) (m : β) : (b, m) ∈ l ↔ find? l b = some m := by
  induction l with
  | nil => simp
  | cons e rest ih =>
    obtain ⟨k, v⟩ := e
    rw [List.mem_cons, ih hs.of_cons, find?_cons]
    by_cases h : k = b
    · -- the first entry: no later entry has its key
      subst h
      have hrest : find? rest k = none := by
        cases rest with
        | nil => rfl
        | cons e' rest' =>
          obtain ⟨k', v'⟩ := e'
          exact find?_of_lt hs.of_cons (List.rel_of_pairwise_cons hs List.mem_cons_self)
      simp [hrest, eq_comm]
    · simp [h, Ne.symm h]

theorem wf_keys {l : List (α × β)} (hs : WF l) : (l.map Prod.fst).Pairwise (· < ·) :=
  List.pairwise_map.mpr hs

/-- Every entry of `alter l a f` is an entry of `l` or the one for `a`. -/
theorem mem_alter {l : List (α × β)} {a : α} {f : Option β → β} {e : α × β} (he : e ∈ alter l a f) :
    e.1 = a ∨ e ∈ l := by
  induction l with
  | nil => simp [alter] at he; exact Or.inl (by rw [he])
  | cons e' rest ih =>
    obtain ⟨k, v⟩ := e'
    unfold alter at he
    split_ifs at he with h1 h2
    · rcases List.mem_cons.mp he with rfl | he
      · exact Or.inl rfl
      · exact Or.inr he
    · rcases List.mem_cons.mp he with rfl | he
      · exact Or.inl h2.symm
      · exact Or.inr (List.mem_cons_of_mem _ he)
    · rcases List.mem_cons.mp he with rfl | he
      · exact Or.inr List.mem_cons_self
      · exact (ih he).imp_right (List.mem_cons_of_mem _)

/-- **`alter` keeps the order.** -/
theorem wf_alter {l : List (α × β)} (hs : WF l) (a : α) (f : Option β → β) : WF (alter l a f) := by
  induction l with
  | nil => exact List.pairwise_singleton _ _
  | cons e rest ih =>
    obtain ⟨k, v⟩ := e
    have hk : ∀ e ∈ rest, k < e.1 := fun e he => List.rel_of_pairwise_cons hs he
    unfold alter
    split_ifs with h1 h2
    · -- a new first entry
      refine List.Pairwise.cons (fun e he => ?_) hs
      rcases List.mem_cons.mp he with rfl | he
      · exact h1
      · exact h1.trans (hk e he)
    · -- the first entry, replaced
      subst h2
      exact List.Pairwise.cons hk hs.of_cons
    · -- further on
      refine List.Pairwise.cons (fun e he => ?_) (ih hs.of_cons)
      rcases mem_alter he with h | h
      · rw [h]
        exact lt_of_le_of_ne (not_lt.mp h1) (Ne.symm h2)
      · exact hk e h

/-- **What `alter` changes.**  The key `a` gets `f` of its old value; every
other key keeps its own. -/
theorem find?_alter {l : List (α × β)} (hs : WF l) (a b : α) (f : Option β → β) :
    find? (alter l a f) b = if a = b then some (f (find? l a)) else find? l b := by
  induction l with
  | nil =>
    by_cases h : a = b <;> simp [alter, find?_cons, h]
  | cons e rest ih =>
    obtain ⟨k, v⟩ := e
    rcases lt_trichotomy a k with h1 | rfl | h3
    · -- `a` is new, ahead of every key of the map
      rw [alter, if_pos h1, find?_cons, find?_of_lt hs h1]
    · -- the first entry is `a`'s
      rw [alter, if_neg (lt_irrefl a), if_pos rfl]
      simp only [find?_cons]
      by_cases h : a = b <;> simp [h]
    · -- further on: the first entry keeps its value
      rw [alter, if_neg (not_lt.mpr h3.le), if_neg (ne_of_gt h3)]
      simp only [find?_cons, ih hs.of_cons, if_neg (ne_of_lt h3)]
      by_cases h : a = b
      · subst h
        simp [ne_of_lt h3]
      · simp [h]

end SortedMap
end Vectorscan
