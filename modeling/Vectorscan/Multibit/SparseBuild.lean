import Mathlib
import Vectorscan.Multibit.SparseIter
import Vectorscan.Lib.SortedMap

/-!
# Multibit: building a sparse iterator

`mmbBuildSparseIterator` (`src/util/multibit_build.cpp`) builds the sparse
iterator over a list of keys in two steps.  `addNode` adds the path of each key
to an intermediate tree whose nodes (`TreeNode`) hold a 64-bit `mask` and a
`std::map` of children keyed by `rkey`, the node's block number on its depth;
`bfs` then lays the nodes out breadth first, one `mmbit_sparse_iter` record
each, and fills in the `val`s: on a depth above the last, the index of the
node's first child record; on the last depth, the rank of the node's first key.

**Model.**  The tree is kept depth by depth: depth `d` is an ordered map (a
`std::map`, here a sorted association list of `Lib/SortedMap`) from the `rkey`
of each node of that depth to its `mask`.  The children of a node are
the nodes of the next depth whose `rkey` is the node's `rkey` followed by six
bits, so a map keyed by `rkey` holds each node's `children` in their order, and
the nodes of a depth in the order of their parents: this is the order in which
`bfs` pops them from its queue, one depth after another.

**Results.**  `sparseTreeSpec_foldl` says what the tree holds: on depth `d`, the
blocks of that depth crossed by a key, each with the bits of the keys' nodes.
`keys_succ_eq_children` says that the blocks of a depth are the children of the
bits of the depth above, in order, and `keys_last_eq_children` that the keys,
sorted, are the children of the last depth.  From these,
`sparseIterBlockRecord_build` finds the record of each block where the runtime
looks for it, `sparseIterNode_build` says that the iterator holds exactly the
nodes of the keys' paths, and `sparseIterRank_build` that the rank it gives a
key is the key's position in the sorted list.
-/

namespace Vectorscan
namespace Multibit

/-! ## The intermediate tree -/

/-- `mmb_set(&tree.mask, bit)` on the node `rkey` of one depth, made there (as
`tree.children[rkey]` makes it) when it is new. -/
def sparseTreeSet (lvl : List (Nat × Nat)) (rkey bit : Nat) : List (Nat × Nat) :=
  SortedMap.alter lvl rkey fun mask => mask.getD 0 ||| mmbSingleBit bit

/-- The node `rkey` of depth `depth` is given bit `bit`; a depth not reached
before starts with it. -/
def sparseTreeAddAt (tree : List (List (Nat × Nat))) (depth rkey bit : Nat) : List (List (Nat × Nat)) :=
  if depth < tree.length then tree.modify depth fun lvl => sparseTreeSet lvl rkey bit
  else tree ++ [sparseTreeSet [] rkey bit]

/-- `addNode`: the path of `key` from the node `rkey` of depth `depth` down;
`ks` is the shift of the key's bit on this depth. -/
def addNode (tree : List (List (Nat × Nat))) (depth key ks rkey : Nat) : List (List (Nat × Nat)) :=
  let bit := (key >>> ks) &&& (mmbKeyBits - 1)
  let tree := sparseTreeAddAt tree depth rkey bit
  -- next level
  if mmbKeyShift ≤ ks then addNode tree (depth + 1) key (ks - mmbKeyShift) ((rkey <<< mmbKeyShift) + bit)
  else tree
termination_by ks
decreasing_by unfold mmbKeyShift at *; omega

/-! ## Laying the tree out -/

/-- The records of one depth, in `rkey` order: each record's `val` is `val0`
plus the bits of the masks before it. -/
def bfsLevel : List (Nat × Nat) → Nat → List MmbitSparseIter
  | [], _ => []
  | (_, mask) :: rest, val0 =>
    ⟨mask % 2 ^ 64, val0, Nat.mod_lt _ (Nat.two_pow_pos 64)⟩ :: bfsLevel rest (val0 + mmbPopcount mask)

attribute [grind] bfsLevel

/-- `bfs` from the depth whose first record has index `start`: on a depth above
the last, the `val`s count from `start_next`, where the next depth starts; on
the last depth, from `0`. -/
def bfs : List (List (Nat × Nat)) → Nat → List MmbitSparseIter
  | [], _ => []
  | [last], _ => bfsLevel last 0
  | lvl :: next :: rest, start =>
    bfsLevel lvl (start + lvl.length) ++ bfs (next :: rest) (start + lvl.length)

/-- `mmbBuildSparseIterator`: the sparse iterator over the keys `bits` of a
multibit of `total_bits` keys. -/
def mmbBuildSparseIterator (bits : List Nat) (totalBits : Nat) : List MmbitSparseIter :=
  let ks := if totalBits > 1 then mmbitKeyshift totalBits else 0
  -- the root, then the path of each key
  let tree := bits.foldl (fun tree bit => addNode tree 0 bit ks 0) [[(0, 0)]]
  bfs tree 0


/-! ## What the tree holds -/

section Tree

theorem find?_sparseTreeSet {lvl : List (Nat × Nat)} (hs : SortedMap.WF lvl) (rkey bit b : Nat) :
    SortedMap.find? (sparseTreeSet lvl rkey bit) b =
      if rkey = b then some ((SortedMap.find? lvl rkey).getD 0 ||| mmbSingleBit bit) else SortedMap.find? lvl b :=
  SortedMap.find?_alter hs rkey b _

theorem wf_sparseTreeSet {lvl : List (Nat × Nat)} (hs : SortedMap.WF lvl) (rkey bit : Nat) :
    SortedMap.WF (sparseTreeSet lvl rkey bit) :=
  SortedMap.wf_alter hs rkey _

theorem length_sparseTreeAddAt {tree : List (List (Nat × Nat))} {depth : Nat} (h : depth ≤ tree.length)
    (rkey bit : Nat) : (sparseTreeAddAt tree depth rkey bit).length = max tree.length (depth + 1) := by
  unfold sparseTreeAddAt
  split
  · rw [List.length_modify]
    omega
  · simp only [List.length_append, List.length_singleton]
    omega

theorem getD_sparseTreeAddAt {tree : List (List (Nat × Nat))} {depth : Nat} (h : depth ≤ tree.length)
    (rkey bit d : Nat) :
    (sparseTreeAddAt tree depth rkey bit).getD d [] =
      if d = depth then sparseTreeSet (tree.getD d []) rkey bit else tree.getD d [] := by
  unfold sparseTreeAddAt
  split
  · rename_i hlt
    rw [List.getD_eq_getElem?_getD, List.getElem?_modify, List.getD_eq_getElem?_getD]
    by_cases hd : d = depth
    · subst hd
      simp [List.getElem?_eq_getElem hlt]
    · simp [Ne.symm hd, hd]
  · -- a new depth, just past the last
    obtain rfl : depth = tree.length := by omega
    rw [List.getD_eq_getElem?_getD, List.getElem?_append, List.getD_eq_getElem?_getD]
    by_cases hd : d = tree.length
    · subst hd
      simp
    · by_cases hlt : d < tree.length
      · simp [hlt, hd]
      · simp [hlt, hd, show d - tree.length ≠ 0 by omega]

/-- **`addNode`.**  From depth `depth`, with `e` depths below it, the path of
`key` gives each depth `d` down to the last the bit of the key's node in the
node of its block. -/
theorem addNode_spec (key : Nat) : ∀ (e depth : Nat) (tree : List (List (Nat × Nat))), depth ≤ tree.length →
    (addNode tree depth key (6 * e) (key >>> (6 * e + 6))).length = max tree.length (depth + e + 1) ∧
      ∀ d, (addNode tree depth key (6 * e) (key >>> (6 * e + 6))).getD d [] =
        if depth ≤ d ∧ d ≤ depth + e then
          sparseTreeSet (tree.getD d []) (key >>> mmbitGetKs (depth + e) d >>> 6)
            (key >>> mmbitGetKs (depth + e) d % 64)
        else tree.getD d [] := by
  intro e
  -- induction on the depths below: each call sets its depth's bit and recurses
  induction e with
  | zero =>
    intro depth tree hdepth
    rw [addNode, if_neg (by unfold mmbKeyShift; omega)]
    refine ⟨by rw [length_sparseTreeAddAt hdepth], fun d => ?_⟩
    rw [getD_sparseTreeAddAt hdepth]
    by_cases hd : d = depth
    · subst hd
      simp [mmbitGetKs, mmbKeyBits, Nat.and_two_pow_sub_one_eq_mod _ 6]
    · rw [if_neg hd, if_neg (by omega)]
  | succ e ih =>
    intro depth tree hdepth
    rw [addNode, if_pos (by unfold mmbKeyShift; omega)]
    -- the child's `rkey` is the key's node on this depth
    have hrkey : (key >>> (6 * (e + 1) + 6) <<< mmbKeyShift) + ((key >>> (6 * (e + 1))) &&& (mmbKeyBits - 1)) =
        key >>> (6 * e + 6) := by
      rw [show 6 * (e + 1) + 6 = 6 * e + 6 + 6 by ring, Nat.shiftRight_add, Nat.shiftLeft_eq,
        show 6 * (e + 1) = 6 * e + 6 by ring, mmbKeyBits, Nat.and_two_pow_sub_one_eq_mod _ 6]
      unfold mmbKeyShift
      have := shiftRight_six_add_mod (key >>> (6 * e + 6))
      omega
    have hks : 6 * (e + 1) - mmbKeyShift = 6 * e := by unfold mmbKeyShift; omega
    have hlen := length_sparseTreeAddAt hdepth (key >>> (6 * (e + 1) + 6)) ((key >>> (6 * (e + 1))) &&& (mmbKeyBits - 1))
    rw [hks, hrkey]
    obtain ⟨ihlen, ihget⟩ := ih (depth + 1)
      (sparseTreeAddAt tree depth (key >>> (6 * (e + 1) + 6)) ((key >>> (6 * (e + 1))) &&& (mmbKeyBits - 1)))
      (by rw [hlen]; omega)
    refine ⟨by rw [ihlen, hlen]; omega, fun d => ?_⟩
    rw [ihget, getD_sparseTreeAddAt hdepth, show depth + 1 + e = depth + (e + 1) by ring]
    by_cases hd : d = depth
    · subst hd
      simp [mmbitGetKs, mmbKeyShift, mmbKeyBits, Nat.and_two_pow_sub_one_eq_mod _ 6,
        show (e + 1) * 6 = 6 * (e + 1) from Nat.mul_comm _ _, Nat.shiftRight_add]
    · rw [if_neg hd]
      by_cases hin : depth + 1 ≤ d ∧ d ≤ depth + (e + 1)
      · rw [if_pos hin, if_pos (by omega)]
      · rw [if_neg hin, if_neg (by omega)]


theorem mem_sparseTreeSet {lvl : List (Nat × Nat)} (hs : SortedMap.WF lvl) (rkey bit b : Nat) :
    b ∈ (sparseTreeSet lvl rkey bit).map Prod.fst ↔ b = rkey ∨ b ∈ lvl.map Prod.fst := by
  rw [SortedMap.mem_keys_iff, SortedMap.mem_keys_iff, find?_sparseTreeSet hs]
  by_cases h : rkey = b
  · subst h
    simp
  · simp [h, Ne.symm h]

/-- What the tree holds after the paths of `keys`, for a multibit of
`maxLevel + 1` levels: each depth `d` holds the root and the blocks of level `d`
that a key's path crosses, and the mask of each has the bits of the keys'
nodes in it. -/
structure SparseTreeSpec (maxLevel : Nat) (keys : List Nat) (tree : List (List (Nat × Nat))) : Prop where
  length_pos : 0 < tree.length
  length_le : tree.length ≤ maxLevel + 1
  length_eq : keys ≠ [] → tree.length = maxLevel + 1
  wf : ∀ d, SortedMap.WF (tree.getD d [])
  mem_iff : ∀ d, d ≤ maxLevel → ∀ b, b ∈ (tree.getD d []).map Prod.fst ↔
    (d = 0 ∧ b = 0) ∨ ∃ k ∈ keys, k >>> mmbitGetKs maxLevel d >>> 6 = b
  mask : ∀ d, d ≤ maxLevel → ∀ b m, SortedMap.find? (tree.getD d []) b = some m → m < 2 ^ 64 ∧
    ∀ j, m.testBit j = true ↔ j < 64 ∧ ∃ k ∈ keys, k >>> mmbitGetKs maxLevel d = 64 * b + j

/-- The root alone. -/
theorem sparseTreeSpec_root (maxLevel : Nat) :
    SparseTreeSpec maxLevel [] [[(0, 0)]] := by
  refine ⟨by simp, by simp, by simp, fun d => ?_, fun d _ b => ?_, fun d _ b m hm => ?_⟩
  · -- one node on the root depth, none below it
    cases d with
    | zero => exact List.pairwise_singleton _ _
    | succ d => exact SortedMap.wf_nil
  · cases d with
    | zero => simp [eq_comm]
    | succ d => simp
  · cases d with
    | zero =>
      rw [List.getD_cons_zero, SortedMap.find?_cons] at hm
      split at hm
      · cases hm
        simp
      · simp at hm
    | succ d => simp at hm

/-- The bits of a mask, one more set. -/
theorem testBit_or_single {m bit j : Nat} : (m ||| mmbSingleBit bit).testBit j = (m.testBit j || decide (bit = j)) := by
  rw [Nat.testBit_or, testBit_mmbSingleBit]

/-- **One more key.**  `addNode` from the root keeps `SparseTreeSpec`, with
the key added. -/
theorem SparseTreeSpec.addNode {maxLevel : Nat} {keys : List Nat} {tree : List (List (Nat × Nat))}
    (h : SparseTreeSpec maxLevel keys tree) {key : Nat} (hkey : key < 64 ^ (maxLevel + 1)) :
    SparseTreeSpec maxLevel (keys ++ [key]) (Multibit.addNode tree 0 key (6 * maxLevel) 0) := by
  -- the root's `rkey` is the key's block on level 0
  have hroot : key >>> (6 * maxLevel + 6) = 0 := by
    rw [Nat.shiftRight_eq_div_pow, Nat.div_eq_zero_iff_lt (Nat.two_pow_pos _),
      show 6 * maxLevel + 6 = 6 * (maxLevel + 1) by ring, Nat.pow_mul]
    exact hkey
  obtain ⟨hlen, hget⟩ := addNode_spec key maxLevel 0 tree (Nat.zero_le _)
  rw [hroot] at hlen hget
  simp only [Nat.zero_add, Nat.zero_le, true_and] at hlen hget
  refine ⟨by omega, by have := h.length_le; omega, fun _ => by have := h.length_le; omega,
    fun d => ?_, fun d hd b => ?_, fun d hd b m hm => ?_⟩
  · rw [hget d]
    split
    · exact wf_sparseTreeSet (h.wf d) _ _
    · exact h.wf d
  · rw [hget d, if_pos hd, mem_sparseTreeSet (h.wf d), h.mem_iff d hd b]
    simp only [List.mem_append, List.mem_singleton]
    constructor
    · rintro (rfl | h0 | ⟨k, hk, rfl⟩)
      · exact Or.inr ⟨key, Or.inr rfl, rfl⟩
      · exact Or.inl h0
      · exact Or.inr ⟨k, Or.inl hk, rfl⟩
    · rintro (h0 | ⟨k, hk | rfl, rfl⟩)
      · exact Or.inr (Or.inl h0)
      · exact Or.inr (Or.inr ⟨k, hk, rfl⟩)
      · exact Or.inl rfl
  · rw [hget d, if_pos hd, find?_sparseTreeSet (h.wf d)] at hm
    have hnode : ∀ {j}, j < 64 → (key >>> mmbitGetKs maxLevel d = 64 * b + j ↔
        key >>> mmbitGetKs maxLevel d >>> 6 = b ∧ key >>> mmbitGetKs maxLevel d % 64 = j) :=
      fun hj => eq_block_add_iff hj
    by_cases hb : key >>> mmbitGetKs maxLevel d >>> 6 = b
    · -- the key's own block: its bit joins the old mask, if there was one
      rw [if_pos hb] at hm
      cases hm
      have hold : ((SortedMap.find? (tree.getD d []) (key >>> mmbitGetKs maxLevel d >>> 6)).getD 0) < 2 ^ 64 ∧
          ∀ j, ((SortedMap.find? (tree.getD d []) (key >>> mmbitGetKs maxLevel d >>> 6)).getD 0).testBit j = true ↔
            j < 64 ∧ ∃ k ∈ keys, k >>> mmbitGetKs maxLevel d = 64 * b + j := by
        cases hm0 : SortedMap.find? (tree.getD d []) (key >>> mmbitGetKs maxLevel d >>> 6) with
        | some m0 => rw [hb] at hm0; simpa using h.mask d hd b m0 hm0
        | none =>
          refine ⟨by simp, fun j => ?_⟩
          simp only [Option.getD_none, Nat.zero_testBit, Bool.false_eq_true, false_iff, not_and, not_exists]
          intro hj k hk hkb
          -- a key in the block would have made the node
          have hmem := (h.mem_iff d hd b).mpr (Or.inr ⟨k, hk, ((eq_block_add_iff hj).mp hkb).1⟩)
          rw [SortedMap.mem_keys_iff, ← hb, hm0] at hmem
          simp at hmem
      refine ⟨Nat.or_lt_two_pow hold.1 ?_, fun j => ?_⟩
      · rw [mmbSingleBit, Nat.one_shiftLeft]
        exact Nat.pow_lt_pow_right (by omega) (Nat.mod_lt _ (by omega))
      · rw [testBit_or_single, Bool.or_eq_true, hold.2 j, decide_eq_true_eq]
        simp only [List.mem_append, List.mem_singleton]
        constructor
        · rintro (⟨hj, k, hk, hkb⟩ | rfl)
          · exact ⟨hj, k, Or.inl hk, hkb⟩
          · exact ⟨Nat.mod_lt _ (by omega), key, Or.inr rfl, (hnode (Nat.mod_lt _ (by omega))).mpr ⟨hb, rfl⟩⟩
        · rintro ⟨hj, k, hk | rfl, hkb⟩
          · exact Or.inl ⟨hj, k, hk, hkb⟩
          · exact Or.inr ((hnode hj).mp hkb).2
    · -- another block: the key adds nothing to it
      rw [if_neg hb] at hm
      obtain ⟨hlt, hbits⟩ := h.mask d hd b m hm
      refine ⟨hlt, fun j => ?_⟩
      rw [hbits j]
      simp only [List.mem_append, List.mem_singleton]
      constructor
      · rintro ⟨hj, k, hk, hkb⟩
        exact ⟨hj, k, Or.inl hk, hkb⟩
      · rintro ⟨hj, k, hk | rfl, hkb⟩
        · exact ⟨hj, k, hk, hkb⟩
        · exact absurd ((hnode hj).mp hkb).1 hb

/-- **The tree of `mmbBuildSparseIterator`.**  After the paths of all the
keys, the tree holds what `SparseTreeSpec` says. -/
theorem sparseTreeSpec_foldl {maxLevel : Nat} (keys : List Nat) (hkeys : ∀ k ∈ keys, k < 64 ^ (maxLevel + 1)) :
    SparseTreeSpec maxLevel keys
      (keys.foldl (fun tree bit => Multibit.addNode tree 0 bit (6 * maxLevel) 0) [[(0, 0)]]) := by
  -- induction on the keys from the last: the fold adds one path at a time
  induction keys using List.reverseRecOn with
  | nil => exact sparseTreeSpec_root maxLevel
  | append_singleton keys key ih =>
    rw [List.foldl_append, List.foldl_cons, List.foldl_nil]
    exact (ih fun k hk => hkeys k (List.mem_append_left _ hk)).addNode (hkeys key (by simp))

end Tree


/-! ## One depth after another -/

/-- The nodes of the next level under the block `e.1` of a depth, one for
each bit of its mask `e.2`, in order. -/
def blockNodes (e : Nat × Nat) : List Nat :=
  ((List.range 64).filter fun j => e.2.testBit j).map (64 * e.1 + ·)

section Levels

theorem mem_blockNodes {e : Nat × Nat} {c : Nat} : c ∈ blockNodes e ↔ c >>> 6 = e.1 ∧ e.2.testBit (c % 64) = true := by
  simp only [blockNodes, List.mem_map, List.mem_filter, List.mem_range]
  constructor
  · rintro ⟨j, ⟨hj, hbit⟩, rfl⟩
    obtain ⟨h1, h2⟩ := (eq_block_add_iff hj).mp rfl
    exact ⟨h1, by rw [h2]; exact hbit⟩
  · rintro ⟨hb, hbit⟩
    exact ⟨c % 64, ⟨Nat.mod_lt _ (by omega), hbit⟩, by rw [← hb]; exact shiftRight_six_add_mod c⟩

theorem length_blockNodes (e : Nat × Nat) : (blockNodes e).length = mmbPopcount e.2 := by
  simp [blockNodes, mmbPopcount, popcount64, List.countP_eq_length_filter]

theorem pairwise_blockNodes (e : Nat × Nat) : (blockNodes e).Pairwise (· < ·) := by
  unfold blockNodes
  rw [List.pairwise_map]
  exact (List.pairwise_lt_range.filter _).imp fun h => by omega

/-- The nodes under the blocks of a depth, taken in `rkey` order, are in order. -/
theorem pairwise_flatMap_blockNodes {l : List (Nat × Nat)} (hl : l.Pairwise fun a b => a.1 < b.1) :
    (l.flatMap blockNodes).Pairwise (· < ·) := by
  rw [List.pairwise_flatMap]
  refine ⟨fun e _ => pairwise_blockNodes e, hl.imp fun hab x hx y hy => ?_⟩
  rw [mem_blockNodes, Nat.shiftRight_eq_div_pow] at hx hy
  have := hx.1
  have := hy.1
  simp only [Nat.reducePow] at *
  omega

variable {maxLevel : Nat} {keys : List Nat} {tree : List (List (Nat × Nat))}

/-- The nodes under the blocks of depth `d` are the keys' nodes on level `d`. -/
theorem SparseTreeSpec.mem_children (h : SparseTreeSpec maxLevel keys tree) {d : Nat} (hd : d ≤ maxLevel)
    (c : Nat) :
    c ∈ (tree.getD d []).flatMap blockNodes ↔ ∃ k ∈ keys, k >>> mmbitGetKs maxLevel d = c := by
  simp only [List.mem_flatMap, mem_blockNodes]
  constructor
  · rintro ⟨⟨b, m⟩, he, hb, hbit⟩
    obtain ⟨-, k, hk, hkc⟩ := ((h.mask d hd b m ((SortedMap.mem_iff_find? (h.wf d) b m).mp he)).2 (c % 64)).mp hbit
    refine ⟨k, hk, ?_⟩
    rw [hkc, show b = c >>> 6 from hb.symm]
    exact shiftRight_six_add_mod c
  · rintro ⟨k, hk, rfl⟩
    have hmem := (h.mem_iff d hd (k >>> mmbitGetKs maxLevel d >>> 6)).mpr (Or.inr ⟨k, hk, rfl⟩)
    obtain ⟨m, hm⟩ := Option.isSome_iff_exists.mp ((SortedMap.mem_keys_iff _ _).mp hmem)
    refine ⟨(_, m), (SortedMap.mem_iff_find? (h.wf d) _ m).mpr hm, rfl, ?_⟩
    exact ((h.mask d hd _ m hm).2 _).mpr ⟨Nat.mod_lt _ (by omega), k, hk, (shiftRight_six_add_mod _).symm⟩

/-- **Breadth first.**  The blocks of depth `d + 1` are the nodes under the
blocks of depth `d`, in the same order. -/
theorem SparseTreeSpec.keys_succ (h : SparseTreeSpec maxLevel keys tree) {d : Nat} (hd : d < maxLevel) :
    (tree.getD (d + 1) []).map Prod.fst = (tree.getD d []).flatMap blockNodes := by
  refine List.Pairwise.eq_of_mem_iff (SortedMap.wf_keys (h.wf (d + 1))) (pairwise_flatMap_blockNodes (h.wf d))
    fun c => ?_
  rw [h.mem_iff (d + 1) hd c, h.mem_children hd.le c]
  simp only [Nat.succ_ne_zero, false_and, false_or, keyNode_parent hd]

/-- The keys, sorted, are the nodes under the blocks of the last depth. -/
theorem SparseTreeSpec.keys_last (h : SparseTreeSpec maxLevel keys tree) (hsorted : keys.Pairwise (· < ·)) :
    keys = (tree.getD maxLevel []).flatMap blockNodes := by
  refine List.Pairwise.eq_of_mem_iff hsorted (pairwise_flatMap_blockNodes (h.wf maxLevel)) fun c => ?_
  rw [h.mem_children le_rfl c]
  simp

end Levels


/-! ## Where `bfs` puts the records -/

/-- The index of the first record of depth `d`: the nodes of the depths above. -/
def levelStart (levels : List (List (Nat × Nat))) (d : Nat) : Nat :=
  ((levels.take d).map List.length).sum

/-- The bits of the masks of the first `i` nodes of a depth. -/
def popcountBefore (lvl : List (Nat × Nat)) (i : Nat) : Nat :=
  ((lvl.take i).map fun e => mmbPopcount e.2).sum

section Layout

/-- The empty record, read past the end of an iterator. -/
def emptyRecord : MmbitSparseIter := mmbitSparseIterAt [] 0

theorem length_bfsLevel (lvl : List (Nat × Nat)) (val0 : Nat) : (bfsLevel lvl val0).length = lvl.length := by
  induction lvl generalizing val0 with
  | nil => rfl
  | cons e rest ih => simp [bfsLevel, ih]

/-- Record `i` of a depth: its node's mask, and the bits before it. -/
theorem getD_bfsLevel {lvl : List (Nat × Nat)} {val0 i : Nat} (hi : i < lvl.length) :
    ((bfsLevel lvl val0).getD i emptyRecord).mask = (lvl.getD i (0, 0)).2 % 2 ^ 64 ∧
      ((bfsLevel lvl val0).getD i emptyRecord).val = val0 + popcountBefore lvl i := by
  induction lvl generalizing val0 i with
  | nil => simp at hi
  | cons e rest ih =>
    cases i with
    | zero => simp [bfsLevel, popcountBefore]
    | succ i =>
      obtain ⟨hmask, hval⟩ := @ih (val0 + mmbPopcount e.2) i (by simpa using hi)
      refine ⟨by simpa [bfsLevel] using hmask, ?_⟩
      simp only [bfsLevel, List.getD_cons_succ, hval, popcountBefore, List.take_succ_cons, List.map_cons,
        List.sum_cons]
      omega

/-- **`bfs`.**  Record `i` of depth `d` is at `levelStart d + i`, with its
node's mask; its `val` counts from where the next depth starts, or from `0`
on the last depth. -/
theorem getD_bfs : ∀ (levels : List (List (Nat × Nat))) (start d i : Nat), d < levels.length →
    i < (levels.getD d []).length →
    ((bfs levels start).getD (levelStart levels d + i) emptyRecord).mask = ((levels.getD d []).getD i (0, 0)).2 % 2 ^ 64 ∧
      ((bfs levels start).getD (levelStart levels d + i) emptyRecord).val =
        (if d + 1 < levels.length then start + levelStart levels (d + 1) else 0) + popcountBefore (levels.getD d []) i
  | [], _, _, _, hd, _ => absurd hd (by simp)
  | [last], _, d, i, hd, hi => by
    obtain rfl : d = 0 := by simpa using hd
    simpa [bfs, levelStart] using @getD_bfsLevel last 0 i (by simpa using hi)
  | lvl :: next :: rest, start, d, i, hd, hi => by
    cases d with
    | zero =>
      -- the first depth: before the records of the others
      have hlen : i < (bfsLevel lvl (start + lvl.length)).length := by
        rw [length_bfsLevel]
        simpa using hi
      rw [bfs, show levelStart (lvl :: next :: rest) 0 + i = i by simp [levelStart],
        List.getD_append _ _ _ _ hlen]
      simpa [levelStart] using @getD_bfsLevel lvl (start + lvl.length) i (by simpa using hi)
    | succ d =>
      -- a later depth: past the records of the first
      have hidx : levelStart (lvl :: next :: rest) (d + 1) + i = lvl.length + (levelStart (next :: rest) d + i) := by
        simp [levelStart, List.take_succ_cons]
        omega
      rw [bfs, hidx, List.getD_append_right _ _ _ _ (by rw [length_bfsLevel]; omega), length_bfsLevel,
        Nat.add_sub_cancel_left]
      obtain ⟨hmask, hval⟩ := getD_bfs (next :: rest) (start + lvl.length) d i (by simpa using hd) (by simpa using hi)
      refine ⟨by simpa using hmask, ?_⟩
      rw [hval]
      simp only [List.length_cons, List.getD_cons_succ, levelStart, List.take_succ_cons, List.map_cons,
        List.sum_cons]
      split <;> split <;> omega

end Layout


/-! ## Positions -/

section Positions

/-- A node's position under its block: the bits of the mask below its own. -/
theorem idxOf_blockNodes {e : Nat × Nat} {c : Nat} (hc : c ∈ blockNodes e) :
    (blockNodes e).idxOf c = (List.range (c % 64)).countP fun j => e.2.testBit j := by
  obtain ⟨hb, hbit⟩ := mem_blockNodes.1 hc
  have hc' : 64 * e.1 + c % 64 = c := by rw [← hb]; exact shiftRight_six_add_mod c
  have hj : c % 64 < 64 := Nat.mod_lt _ (by omega)
  generalize c % 64 = j at hbit hc' hj ⊢
  -- the bits below `j`, then `j` itself first among the others
  have hsplit : List.range 64 = List.range j ++ j :: (List.range (63 - j)).map (j + 1 + ·) := by
    rw [show (64 : Nat) = j + (1 + (63 - j)) by omega, List.range_add, List.range_add]
    simp [List.map_map, Function.comp_def, Nat.add_assoc]
  unfold blockNodes
  rw [hsplit, List.filter_append, List.map_append, List.idxOf_append, if_neg, List.filter_cons_of_pos hbit,
    List.map_cons, hc', List.idxOf_cons_self, Nat.zero_add, List.length_map, ← List.countP_eq_length_filter]
  -- no node below the bit is `c`
  simp only [List.mem_map, List.mem_filter, List.mem_range, not_exists, not_and]
  intro j' hj' hjc
  omega

variable {l : List (Nat × Nat)}

/-- A node's position among the nodes under all the blocks of a depth. -/
theorem idxOf_flatMap_blockNodes (hl : l.Pairwise fun a b => a.1 < b.1) {i : Nat} (hi : i < l.length) {c : Nat}
    (hc : c ∈ blockNodes l[i]) :
    (l.flatMap blockNodes).idxOf c = popcountBefore l i + (blockNodes l[i]).idxOf c := by
  have hsplit : l = l.take i ++ l[i] :: l.drop (i + 1) := by
    rw [← List.drop_eq_getElem_cons hi, List.take_append_drop]
  -- `c` lies under no block before the `i`-th, whose numbers are smaller
  have hbefore : c ∉ (l.take i).flatMap blockNodes := by
    intro hmem
    obtain ⟨e, he, hce⟩ := List.mem_flatMap.mp hmem
    rw [hsplit, List.pairwise_append] at hl
    have hlt := hl.2.2 e he l[i] List.mem_cons_self
    rw [(mem_blockNodes.1 hce).1.symm, (mem_blockNodes.1 hc).1] at hlt
    exact Nat.lt_irrefl _ hlt
  have hflat : l.flatMap blockNodes =
      (l.take i).flatMap blockNodes ++ (blockNodes l[i] ++ (l.drop (i + 1)).flatMap blockNodes) := by
    conv_lhs => rw [hsplit]
    rw [List.flatMap_append, List.flatMap_cons]
  rw [hflat, List.idxOf_append, if_neg hbefore, List.idxOf_append_of_mem hc, List.length_flatMap]
  simp [popcountBefore, length_blockNodes, Nat.add_comm]

theorem fst_get_of_map_fst {l : List (Nat × Nat)} {K : List Nat} (hK : l.map Prod.fst = K) {i : Nat}
    (hi : i < l.length) (hi' : i < K.length) : (l.get ⟨i, hi⟩).1 = K.get ⟨i, hi'⟩ := by
  subst hK
  simp

/-- The entry of a block of a depth, at the block's position among the keys of
the map. -/
theorem getD_idxOf {lvl : List (Nat × Nat)} (hs : SortedMap.WF lvl) {b m : Nat}
    (hm : SortedMap.find? lvl b = some m) :
    lvl.getD ((lvl.map Prod.fst).idxOf b) (0, 0) = (b, m) ∧ (lvl.map Prod.fst).idxOf b < lvl.length := by
  have hmem : b ∈ lvl.map Prod.fst := (SortedMap.mem_keys_iff _ _).mpr (by simp [hm])
  have hidx := List.idxOf_lt_length_iff.mpr hmem
  have hlt : (lvl.map Prod.fst).idxOf b < lvl.length := by rwa [List.length_map] at hidx
  refine ⟨?_, hlt⟩
  have hkey : (lvl.get ⟨(lvl.map Prod.fst).idxOf b, hlt⟩).1 = b :=
    (fst_get_of_map_fst rfl hlt hidx).trans (by simp)
  have hval := (SortedMap.mem_iff_find? hs _ _).mp (List.getElem_mem hlt)
  rw [hkey, hm, Option.some.injEq] at hval
  rw [List.getD_eq_getElem _ _ hlt]
  exact Prod.ext hkey hval.symm

end Positions


/-! ## The iterator that `bfs` lays out -/

section Iterator

variable {maxLevel : Nat} {keys : List Nat} {tree : List (List (Nat × Nat))}
  (h : SparseTreeSpec maxLevel keys tree) (hne : keys ≠ [])
  (hkeys : ∀ k ∈ keys, k < 64 ^ (maxLevel + 1))

include h hne in
/-- The record of block `b` of depth `d`: the block's mask, and the `val` that
`bfs` gave it. -/
theorem record_bfs {d b m : Nat} (hd : d ≤ maxLevel) (hm : SortedMap.find? (tree.getD d []) b = some m) :
    (mmbitSparseIterAt (bfs tree 0)
        (levelStart tree d + ((tree.getD d []).map Prod.fst).idxOf b)).mask = m ∧
      (mmbitSparseIterAt (bfs tree 0)
        (levelStart tree d + ((tree.getD d []).map Prod.fst).idxOf b)).val =
        (if d < maxLevel then levelStart tree (d + 1) else 0) +
          popcountBefore (tree.getD d []) (((tree.getD d []).map Prod.fst).idxOf b) := by
  obtain ⟨hpair, hlt⟩ := getD_idxOf (h.wf _) hm
  have hlevels := h.length_eq hne
  obtain ⟨hmask, hval⟩ := getD_bfs tree 0 d (((tree.getD d []).map Prod.fst).idxOf b) (by omega) hlt
  rw [hpair] at hmask
  rw [hlevels, Nat.zero_add] at hval
  have hat : ∀ i, mmbitSparseIterAt (bfs tree 0) i =
      (bfs tree 0).getD i emptyRecord := fun _ => rfl
  refine ⟨?_, ?_⟩
  · rw [hat, hmask]
    exact Nat.mod_eq_of_lt (h.mask d hd b m hm).1
  · rw [hat, hval]
    congr 1
    split_ifs <;> omega

include h hkeys in
/-- The root depth holds the root block alone. -/
theorem keys_zero : ((tree.getD 0 []).map Prod.fst) = [0] := by
  refine List.Pairwise.eq_of_mem_iff (SortedMap.wf_keys (h.wf 0)) (List.pairwise_singleton _ _) fun b => ?_
  rw [h.mem_iff 0 (Nat.zero_le _) b, List.mem_singleton]
  constructor
  · rintro (⟨-, rfl⟩ | ⟨k, hk, rfl⟩)
    · rfl
    · -- a key's block on level 0 is the root block
      have := keyNode_lt (hkeys k hk) (Nat.zero_le maxLevel)
      rw [Nat.zero_add, pow_one] at this
      rw [Nat.shiftRight_eq_div_pow (k >>> mmbitGetKs maxLevel 0) 6]
      exact Nat.div_eq_of_lt this
  · rintro rfl
    exact Or.inl ⟨rfl, rfl⟩

include h hne hkeys in
/-- **Where the runtime finds the records.**  Following the records from the
root, as `sparseIterBlockRecord` does, reaches the record that `bfs` gave each
block of the tree, and no record for a block the tree does not have. -/
theorem sparseIterBlockRecord_bfs : ∀ d, d ≤ maxLevel → ∀ b, b < 64 ^ d →
    sparseIterBlockRecord (bfs tree 0) d b =
      if b ∈ (tree.getD d []).map Prod.fst then some (levelStart tree d + ((tree.getD d []).map Prod.fst).idxOf b)
      else none := by
  intro d
  -- induction on the depth: a block's record is the child of its parent's
  induction d with
  | zero =>
    intro _ b hb
    obtain rfl : b = 0 := by simpa using hb
    have hroot : (0 : Nat) ∈ (tree.getD 0 []).map Prod.fst := by
      rw [keys_zero h hkeys]
      simp
    rw [if_pos hroot, keys_zero h hkeys]
    simp [sparseIterBlockRecord, levelStart]
  | succ d ih =>
    intro hd b hb
    have hp : b >>> 6 < 64 ^ d := by
      rw [Nat.shiftRight_eq_div_pow]
      rw [Nat.pow_succ] at hb
      simp only [Nat.reducePow]
      omega
    -- the block is in the tree when its parent is and has its bit
    have hmem : b ∈ (tree.getD (d + 1) []).map Prod.fst ↔ ∃ k ∈ keys, k >>> mmbitGetKs maxLevel d = b := by
      rw [h.mem_iff (d + 1) hd b]
      simp only [Nat.succ_ne_zero, false_and, false_or, keyNode_parent (show d < maxLevel by omega)]
    have hsucc : sparseIterBlockRecord (bfs tree 0) (d + 1) b =
        (sparseIterBlockRecord (bfs tree 0) d (b >>> 6)).bind fun r =>
          if (mmbitSparseIterAt (bfs tree 0) r).mask.testBit (b % 64) then
            some (mmbitSparseIterChild (bfs tree 0) r (b % 64))
          else none := rfl
    rw [hsucc, ih (by omega) (b >>> 6) hp]
    by_cases hpar : b >>> 6 ∈ (tree.getD d []).map Prod.fst
    · obtain ⟨m, hm⟩ := Option.isSome_iff_exists.mp ((SortedMap.mem_keys_iff _ _).mp hpar)
      obtain ⟨hmask, hval⟩ := record_bfs h hne (by omega) hm
      have hbits := (h.mask d (by omega) _ m hm).2 (b % 64)
      rw [if_pos hpar, Option.bind_some, hmask]
      by_cases hbit : m.testBit (b % 64) = true
      · -- the block: the child record of its bit
        have hin : b ∈ (tree.getD (d + 1) []).map Prod.fst := by
          obtain ⟨-, k, hk, hkb⟩ := hbits.mp hbit
          exact hmem.mpr ⟨k, hk, by rw [hkb]; exact shiftRight_six_add_mod b⟩
        obtain ⟨hpair, hlt⟩ := getD_idxOf (h.wf _) hm
        have hget : (tree.getD d [])[((tree.getD d []).map Prod.fst).idxOf (b >>> 6)] = (b >>> 6, m) := by
          rw [← hpair, List.getD_eq_getElem _ _ hlt]
        have hnode : b ∈ blockNodes (tree.getD d [])[((tree.getD d []).map Prod.fst).idxOf (b >>> 6)] := by
          rw [hget, mem_blockNodes]
          exact ⟨rfl, hbit⟩
        rw [if_pos hbit, if_pos hin, h.keys_succ (by omega),
          idxOf_flatMap_blockNodes (h.wf _) hlt hnode, idxOf_blockNodes hnode, hget,
          mmbitSparseIterChild, hval, if_pos (by omega), hmask, mmbitMaskIndex_eq _ (Nat.mod_lt _ (by omega)).le]
        simp only [Option.some.injEq]
        omega
      · -- the bit is clear: neither the record nor the block
        have hout : b ∉ (tree.getD (d + 1) []).map Prod.fst := by
          rw [hmem]
          rintro ⟨k, hk, rfl⟩
          exact hbit (hbits.mpr ⟨Nat.mod_lt _ (by omega), k, hk, (shiftRight_six_add_mod _).symm⟩)
        rw [if_neg hbit, if_neg hout]
    · have hout : b ∉ (tree.getD (d + 1) []).map Prod.fst := by
        rw [hmem]
        rintro ⟨k, hk, rfl⟩
        exact hpar ((h.mem_iff d (by omega) _).mpr (Or.inr ⟨k, hk, rfl⟩))
      rw [if_neg hpar, Option.bind_none, if_neg hout]

include h hne hkeys in
/-- The iterator holds exactly the nodes of the keys' paths. -/
theorem sparseIterNode_bfs {d n : Nat} (hd : d ≤ maxLevel) (hn : n < 64 ^ (d + 1)) :
    sparseIterNode (bfs tree 0) d n = true ↔ ∃ k ∈ keys, k >>> mmbitGetKs maxLevel d = n := by
  have hb : n >>> 6 < 64 ^ d := by
    rw [Nat.shiftRight_eq_div_pow]
    rw [Nat.pow_succ] at hn
    simp only [Nat.reducePow]
    omega
  rw [sparseIterNode_iff, sparseIterBlockRecord_bfs h hne hkeys d hd (n >>> 6) hb]
  constructor
  · rintro ⟨r, hr, hbit⟩
    split at hr
    · rename_i hin
      cases hr
      obtain ⟨m, hm⟩ := Option.isSome_iff_exists.mp ((SortedMap.mem_keys_iff _ _).mp hin)
      rw [(record_bfs h hne hd hm).1] at hbit
      obtain ⟨-, k, hk, hkn⟩ := ((h.mask d hd _ m hm).2 _).mp hbit
      exact ⟨k, hk, by rw [hkn]; exact shiftRight_six_add_mod n⟩
    · cases hr
  · rintro ⟨k, hk, rfl⟩
    have hin := (h.mem_iff d hd (k >>> mmbitGetKs maxLevel d >>> 6)).mpr (Or.inr ⟨k, hk, rfl⟩)
    obtain ⟨m, hm⟩ := Option.isSome_iff_exists.mp ((SortedMap.mem_keys_iff _ _).mp hin)
    refine ⟨_, if_pos hin, ?_⟩
    rw [(record_bfs h hne hd hm).1]
    exact ((h.mask d hd _ m hm).2 _).mpr ⟨Nat.mod_lt _ (by omega), k, hk, (shiftRight_six_add_mod _).symm⟩

include h hne hkeys in
/-- The rank of a key is its position in the sorted keys. -/
theorem sparseIterRank_bfs (hsorted : keys.Pairwise (· < ·)) {k : Nat} (hk : k ∈ keys) :
    sparseIterRank (bfs tree 0) maxLevel k = keys.idxOf k := by
  have hb : k >>> 6 < 64 ^ maxLevel := by
    have := hkeys k hk
    rw [Nat.shiftRight_eq_div_pow]
    rw [Nat.pow_succ] at this
    simp only [Nat.reducePow]
    omega
  have hin := (h.mem_iff maxLevel le_rfl (k >>> 6)).mpr (Or.inr ⟨k, hk, by simp⟩)
  obtain ⟨m, hm⟩ := Option.isSome_iff_exists.mp ((SortedMap.mem_keys_iff _ _).mp hin)
  obtain ⟨hmask, hval⟩ := record_bfs h hne le_rfl hm
  obtain ⟨hpair, hlt⟩ := getD_idxOf (h.wf _) hm
  have hget : (tree.getD maxLevel [])[((tree.getD maxLevel []).map Prod.fst).idxOf (k >>> 6)] = (k >>> 6, m) := by
    rw [← hpair, List.getD_eq_getElem _ _ hlt]
  have hbit : m.testBit (k % 64) = true :=
    ((h.mask maxLevel le_rfl _ m hm).2 _).mpr ⟨Nat.mod_lt _ (by omega), k, hk, by simp [shiftRight_six_add_mod]⟩
  have hnode : k ∈ blockNodes (tree.getD maxLevel [])[((tree.getD maxLevel []).map Prod.fst).idxOf (k >>> 6)] := by
    rw [hget, mem_blockNodes]
    exact ⟨rfl, hbit⟩
  -- the rank is the key's position among the nodes under the last depth's blocks
  unfold sparseIterRank
  rw [sparseIterBlockRecord_bfs h hne hkeys maxLevel le_rfl _ hb, if_pos hin]
  dsimp only
  conv_rhs => rw [h.keys_last hsorted]
  rw [hmask, hval, if_neg (Nat.lt_irrefl _), idxOf_flatMap_blockNodes (h.wf _) hlt hnode,
    idxOf_blockNodes hnode, hget, mmbitMaskIndex_eq _ (Nat.mod_lt _ (by omega)).le, Nat.zero_add]

end Iterator

/-! ## `mmbBuildSparseIterator` -/

section Build

/-- The key shift that `mmbBuildSparseIterator` starts from: six bits for each
level below the root. -/
theorem buildKeyshift_eq {totalBits : Nat} (h1 : 1 ≤ totalBits) (hmax : totalBits ≤ mmbMaxBits) :
    (if totalBits > 1 then mmbitKeyshift totalBits else 0) = 6 * mmbitMaxlevel totalBits ∧
      totalBits ≤ 64 ^ (mmbitMaxlevel totalBits + 1) := by
  by_cases h2 : 2 ≤ totalBits
  · obtain ⟨-, hks, -, hcap⟩ := mmbitMaxlevel_spec h2 hmax
    rw [if_pos (by omega), hks]
    refine ⟨rfl, ?_⟩
    rwa [show 6 * mmbitMaxlevel totalBits + 6 = 6 * (mmbitMaxlevel totalBits + 1) by ring, Nat.pow_mul] at hcap
  · -- one key: the root is the last level
    obtain rfl : totalBits = 1 := by omega
    exact ⟨rfl, by decide⟩

variable {keys : List Nat} {totalBits : Nat} (h1 : 1 ≤ totalBits) (hmax : totalBits ≤ mmbMaxBits)
  (hkeys : ∀ k ∈ keys, k < totalBits) (hne : keys ≠ [])

include h1 hmax hkeys in
/-- The keys lie below the levels' reach. -/
theorem keys_lt_pow : ∀ k ∈ keys, k < 64 ^ (mmbitMaxlevel totalBits + 1) :=
  fun k hk => Nat.lt_of_lt_of_le (hkeys k hk) (buildKeyshift_eq h1 hmax).2

include h1 hmax hkeys in
theorem sparseTreeSpec_build :
    SparseTreeSpec (mmbitMaxlevel totalBits) keys
      (keys.foldl (fun tree bit => addNode tree 0 bit (6 * mmbitMaxlevel totalBits) 0)
        [[(0, 0)]]) :=
  sparseTreeSpec_foldl keys (keys_lt_pow h1 hmax hkeys)

include h1 hmax in
theorem mmbBuildSparseIterator_eq :
    mmbBuildSparseIterator keys totalBits =
      bfs (keys.foldl (fun tree bit => addNode tree 0 bit (6 * mmbitMaxlevel totalBits) 0)
        [[(0, 0)]]) 0 := by
  unfold mmbBuildSparseIterator
  rw [(buildKeyshift_eq h1 hmax).1]

include h1 hmax hkeys hne in
/-- **The nodes of a built iterator.**  `mmbBuildSparseIterator` holds, on
each level, exactly the nodes of its keys' paths. -/
theorem sparseIterNode_build {l n : Nat} (hl : l ≤ mmbitMaxlevel totalBits) (hn : n < 64 ^ (l + 1)) :
    sparseIterNode (mmbBuildSparseIterator keys totalBits) l n = true ↔
      ∃ k ∈ keys, k >>> mmbitGetKs (mmbitMaxlevel totalBits) l = n := by
  rw [mmbBuildSparseIterator_eq h1 hmax]
  exact sparseIterNode_bfs (sparseTreeSpec_build h1 hmax hkeys) hne (keys_lt_pow h1 hmax hkeys) hl hn

include h1 hmax hkeys hne in
/-- The keys of a built iterator are the keys it was built from. -/
theorem mmbitSparseIterKeys_build : mmbitSparseIterKeys (mmbBuildSparseIterator keys totalBits) totalBits = {k | k ∈ keys} := by
  ext k
  simp only [mmbitSparseIterKeys, Set.mem_ofPred_eq]
  constructor
  · rintro ⟨hk, hnode⟩
    obtain ⟨k', hk', hkk⟩ := (sparseIterNode_build h1 hmax hkeys hne le_rfl
      (Nat.lt_of_lt_of_le hk (buildKeyshift_eq h1 hmax).2)).mp hnode
    simpa [← hkk] using hk'
  · intro hk
    refine ⟨hkeys k hk, (sparseIterNode_build h1 hmax hkeys hne le_rfl
      (keys_lt_pow h1 hmax hkeys k hk)).mpr ⟨k, hk, by simp⟩⟩

include h1 hmax hkeys hne in
/-- A built iterator fits its multibit: every node it holds leads to a key
below `total_bits`. -/
theorem mmbitSparseIterValid_build : MmbitSparseIterValid (mmbBuildSparseIterator keys totalBits) totalBits := by
  intro l n hl hn hnode
  obtain ⟨k, hk, rfl⟩ := (sparseIterNode_build h1 hmax hkeys hne hl hn).mp hnode
  -- the node's first key is at most the key
  calc k >>> mmbitGetKs (mmbitMaxlevel totalBits) l <<< mmbitGetKs (mmbitMaxlevel totalBits) l ≤ k :=
        by rw [Nat.shiftRight_eq_div_pow, Nat.shiftLeft_eq]; exact Nat.div_mul_le_self _ _
    _ < totalBits := hkeys k hk

include h1 hmax hkeys hne in
/-- **The ranks of a built iterator.**  Over sorted keys, the index that the
runtime reports with a key is the key's position in the list. -/
theorem sparseIterRank_build (hsorted : keys.Pairwise (· < ·)) {k : Nat} (hk : k ∈ keys) :
    sparseIterRank (mmbBuildSparseIterator keys totalBits) (mmbitMaxlevel totalBits) k = keys.idxOf k := by
  rw [mmbBuildSparseIterator_eq h1 hmax]
  exact sparseIterRank_bfs (sparseTreeSpec_build h1 hmax hkeys) hne (keys_lt_pow h1 hmax hkeys) hsorted hk

end Build

end Multibit
end Vectorscan
