import Vectorscan.Parser.LogicalCombination

/-!
# The runtime evaluates the combination the parser built

`parseLogicalCombination` appends operations to a shared list; each refers to
its operands by a logical key or by the marked index of an earlier operation,
and the runtime evaluates the combination's operations in order, each into the
slot after the keys that `logicalKeyRenumber` gives it.  This module shows
that this straight-line evaluation computes the standard meaning of the tree
that the references describe.

**Invariant.**  `TreeIn nk base tree`: the operations from `base` on are the
ones the parse added; each is numbered by its index and refers only to keys
below `nk` and to operations before it from `base` on (`RefIn`).
`parseLogicalCombination_treeIn`: a successful parse leaves the operations it
added in that shape, starts the combination at the first of them and ends it
at a reference into them.  The step lemmas follow the parser: `popOperator`,
`popOne`, the two `while` loops, `pushSubID`, one character, the whole loop.

**Results.**  `refExpr`: the tree a reference denotes.  `foldl_evalOp_treeIn`:
evaluating the operations in order gives each the value of its tree.
`isLogicalCombination_parseLogicalCombination`: for every combination the
parser accepts, `isLogicalCombination` on the renumbered operations returns
the value of the tree the parser built, for every assignment of the keys.
-/

namespace Vectorscan
namespace Parser

/-! ## Keys and operation ids -/

theorem logicalOpBit_or_eq {j : Nat} (hj : j < 2 ^ 31) : logicalOpBit ||| j = 2 ^ 31 + j := by
  have h := @Nat.two_pow_add_eq_or_of_lt 31 j hj 1
  simpa [logicalOpBit] using h.symm

theorem and_logicalOpBit_of_lt {k : Nat} (hk : k < 2 ^ 31) : k &&& logicalOpBit = 0 := by
  apply Nat.eq_of_testBit_eq
  intro i
  rw [Nat.testBit_and, show logicalOpBit = 2 ^ 31 from rfl, Nat.testBit_two_pow]
  by_cases h : 31 = i
  · subst h
    simp [Nat.testBit_lt_two_pow hk]
  · simp [h]

theorem or_and_logicalOpBit_ne (j : Nat) : (logicalOpBit ||| j) &&& logicalOpBit ≠ 0 := by
  intro h
  have hL : logicalOpBit.testBit 31 = true := by decide
  have hbit := congrArg (Nat.testBit · 31) h
  simp [Nat.testBit_and, Nat.testBit_or, hL] at hbit

theorem or_and_low_eq {j : Nat} (hj : j < 2 ^ 31) : (logicalOpBit ||| j) &&& 0x7fffffff = j := by
  rw [logicalOpBit_or_eq hj, show (0x7fffffff : Nat) = 2 ^ 31 - 1 from rfl, Nat.and_two_pow_sub_one_eq_mod,
    Nat.add_mod_left]
  exact Nat.mod_eq_of_lt hj

@[simp] theorem tryRenumOp_key {nk k : Nat} (hk : k < 2 ^ 31) : tryRenumOp nk k = k := by
  simp [tryRenumOp, and_logicalOpBit_of_lt hk]

@[simp] theorem tryRenumOp_op {nk j : Nat} (hj : j < 2 ^ 31) : tryRenumOp nk (logicalOpBit ||| j) = j + nk := by
  rw [tryRenumOp, if_pos (or_and_logicalOpBit_ne j), or_and_low_eq hj]

/-! ## Well-formed operations -/

/-- `x` refers to a logical key below `nk`, or to an operation of index in
`[base, top)`. -/
def RefIn (nk base top x : Nat) : Prop :=
  x < nk ∨ ∃ j, base ≤ j ∧ j < top ∧ x = logicalOpBit ||| j

theorem RefIn.mono {nk nk' base top top' x : Nat} (h : RefIn nk base top x) (hnk : nk ≤ nk')
    (htop : top ≤ top') : RefIn nk' base top' x := by
  rcases h with hk | ⟨j, hj1, hj2, rfl⟩
  · exact .inl (by omega)
  · exact .inr ⟨j, hj1, by omega, rfl⟩

/-- The operations of `tree` from `base` on are numbered by their index and
refer only to keys below `nk` and to operations before them from `base` on. -/
def TreeIn (nk base : Nat) (tree : List LogicalOp) : Prop :=
  ∀ j, base ≤ j → j < tree.length →
    (tree.getD j default).id = logicalOpBit ||| j ∧ RefIn nk base j (tree.getD j default).ro ∧
      ((tree.getD j default).op ≠ .not → RefIn nk base j (tree.getD j default).lo)

theorem TreeIn.mono {nk nk' base : Nat} {tree : List LogicalOp} (h : TreeIn nk base tree) (hnk : nk ≤ nk') :
    TreeIn nk' base tree := by
  intro j hj1 hj2
  obtain ⟨hid, hro, hlo⟩ := h j hj1 hj2
  exact ⟨hid, hro.mono hnk (Nat.le_refl _), fun hop => (hlo hop).mono hnk (Nat.le_refl _)⟩

/-- `logicalTreeAdd` keeps the shape, given operands that refer back. -/
theorem logicalTreeAdd_treeIn {nk base : Nat} {tree : List LogicalOp} {op : LogicalOpType} {left right : Nat}
    (hT : TreeIn nk base tree) (hro : RefIn nk base tree.length right)
    (hlo : op ≠ .not → RefIn nk base tree.length left) :
    TreeIn nk base (logicalTreeAdd tree op left right).2 := by
  intro j hj1 hj2
  simp only [logicalTreeAdd, List.length_append, List.length_singleton] at hj2
  by_cases hj : j < tree.length
  · have hget : ((logicalTreeAdd tree op left right).2).getD j default = tree.getD j default := by
      simp [logicalTreeAdd, List.getD_eq_getElem?_getD, List.getElem?_append_left hj]
    rw [hget]
    exact hT j hj1 hj
  · have hjl : j = tree.length := by omega
    subst hjl
    have hget : ((logicalTreeAdd tree op left right).2).getD tree.length default =
        ⟨logicalOpBit ||| tree.length, op, left, right⟩ := by
      simp [logicalTreeAdd, List.getD_eq_getElem?_getD]
    rw [hget]
    exact ⟨rfl, hro, hlo⟩

/-! ## The parser keeps the operations well formed -/

/-- What the operand side of the parser keeps: the operations from `base` on
are well formed, every stacked operand refers to a key or to one of them, and
`lkey_start` is unset exactly while none has been added, and then the first. -/
structure OperandsInv (nk base : Nat) (s : Operands) : Prop where
  base_le : base ≤ s.tree.length
  tree : TreeIn nk base s.tree
  subids : ∀ x ∈ s.subids, RefIn nk base s.tree.length x
  start : (s.lkeyStart = none ∧ s.tree.length = base) ∨
    (s.lkeyStart = some (logicalOpBit ||| base) ∧ base < s.tree.length)

theorem OperandsInv.mono {nk nk' base : Nat} {s : Operands} (h : OperandsInv nk base s) (hnk : nk ≤ nk') :
    OperandsInv nk' base s :=
  ⟨h.base_le, h.tree.mono hnk, fun x hx => (h.subids x hx).mono hnk (Nat.le_refl _), h.start⟩

/-- The result of a sequence of two fallible steps: both succeeded. -/
theorem bind_eq_ok {ε α β : Type} {e : Except ε α} {f : α → Except ε β} {b : β} :
    e >>= f = .ok b ↔ ∃ a, e = .ok a ∧ f a = .ok b := by
  cases e with
  | error x => simp [bind, Except.bind]
  | ok a => simp [bind, Except.bind]

/-- An error mapped on the way out leaves a success as it was. -/
theorem mapError_eq_ok {ε ε' α : Type} {e : Except ε α} {f : ε → ε'} {a : α} :
    e.mapError f = .ok a ↔ e = .ok a := by
  cases e <;> simp [Except.mapError]

@[simp] theorem logicalTreeAdd_fst (tree : List LogicalOp) (op : LogicalOpType) (left right : Nat) :
    (logicalTreeAdd tree op left right).1 = logicalOpBit ||| tree.length := rfl

@[simp] theorem length_logicalTreeAdd (tree : List LogicalOp) (op : LogicalOpType) (left right : Nat) :
    (logicalTreeAdd tree op left right).2.length = tree.length + 1 := by
  simp [logicalTreeAdd]

/-- What a successful `popOperator` did: it took the right operand, and the
left one unless the operator is `!`, off the stack and pushed the id of the
operation it added. -/
theorem popOperator_eq_ok {top : LogicalOperator} {subids : List Nat} {tree : List LogicalOp}
    {r : List Nat × List LogicalOp} (h : popOperator top subids tree = .ok r) :
    ∃ left right rest, right ∈ subids ∧ (top.op ≠ .not → left ∈ subids) ∧ (∀ x ∈ rest, x ∈ subids) ∧
      r = ((logicalTreeAdd tree top.op left right).1 :: rest, (logicalTreeAdd tree top.op left right).2) := by
  rcases subids with _ | ⟨right, subids⟩
  · simp [popOperator] at h
  by_cases hop : top.op = .not
  · simp only [popOperator, hop, ne_eq, not_true_eq_false, if_false, Except.ok.injEq] at h
    refine ⟨0, right, subids, List.mem_cons_self, fun h' => absurd hop h', fun x hx => List.mem_cons_of_mem _ hx, ?_⟩
    rw [← h, hop]
  · rcases subids with _ | ⟨left, subids⟩
    · simp [popOperator, hop] at h
    simp only [popOperator, hop, ne_eq, not_false_eq_true, if_true, Except.ok.injEq] at h
    refine ⟨left, right, subids, by simp, fun _ => by simp, fun x hx => by simp [hx], ?_⟩
    rw [← h]

/-- `popOperator` adds one well-formed operation and stacks its id. -/
theorem popOperator_inv {nk base : Nat} {top : LogicalOperator} {subids subids' : List Nat}
    {tree tree' : List LogicalOp} (hb : base ≤ tree.length) (hT : TreeIn nk base tree)
    (hs : ∀ x ∈ subids, RefIn nk base tree.length x) (h : popOperator top subids tree = .ok (subids', tree')) :
    TreeIn nk base tree' ∧ tree'.length = tree.length + 1 ∧ subids'.head? = some (logicalOpBit ||| tree.length) ∧
      ∀ x ∈ subids', RefIn nk base tree'.length x := by
  obtain ⟨left, right, rest, hr, hl, hrest, heq⟩ := popOperator_eq_ok h
  simp only [Prod.mk.injEq] at heq
  obtain ⟨rfl, rfl⟩ := heq
  refine ⟨logicalTreeAdd_treeIn hT (hs right hr) (fun hop => hs left (hl hop)), length_logicalTreeAdd .., rfl, ?_⟩
  rw [length_logicalTreeAdd]
  intro x hx
  rcases List.mem_cons.mp hx with rfl | hx
  · -- the new operation
    exact .inr ⟨tree.length, hb, Nat.lt_succ_self _, rfl⟩
  · exact (hs x (hrest x hx)).mono (Nat.le_refl _) (Nat.le_succ _)

/-- `popOne` keeps the invariant; the first operation it adds becomes the start. -/
theorem popOne_inv {nk base : Nat} {top : LogicalOperator} {s s' : Operands} (hs : OperandsInv nk base s)
    (h : popOne top s = .ok s') : OperandsInv nk base s' := by
  obtain ⟨⟨subids, tree⟩, hp, h⟩ := bind_eq_ok.1 h
  obtain ⟨hT, hlen, hhead, hsub⟩ := popOperator_inv hs.base_le hs.tree hs.subids hp
  simp only [Except.ok.injEq] at h
  subst h
  have hb := hs.base_le
  refine ⟨by dsimp only; omega, hT, hsub, .inr ?_⟩
  dsimp only
  rcases hs.start with ⟨hnone, hbase⟩ | ⟨hsome, hlt⟩
  · refine ⟨?_, by omega⟩
    simp only [hnone, hhead, hbase]
  · refine ⟨?_, by omega⟩
    simp only [hsome]

theorem popWhile_inv {nk base : Nat} {op : LogicalOperator} {ops ops' : List LogicalOperator} {s s' : Operands}
    (hs : OperandsInv nk base s) (h : popWhile op ops s = .ok (ops', s')) : OperandsInv nk base s' := by
  induction ops generalizing s with
  | nil =>
    simp only [popWhile, Except.ok.injEq, Prod.mk.injEq] at h
    rw [← h.2]
    exact hs
  | cons top ops ih =>
    simp only [popWhile] at h
    split at h
    · obtain ⟨s1, hp, h⟩ := bind_eq_ok.1 h
      exact ih (popOne_inv hs hp) h
    · simp only [Except.ok.injEq, Prod.mk.injEq] at h
      rw [← h.2]
      exact hs

theorem popAll_inv {nk base : Nat} {ops : List LogicalOperator} {s s' : Operands}
    (hs : OperandsInv nk base s) (h : popAll ops s = .ok s') : OperandsInv nk base s' := by
  induction ops generalizing s with
  | nil =>
    simp only [popAll, Except.ok.injEq] at h
    rw [← h]
    exact hs
  | cons top ops ih =>
    obtain ⟨s1, hp, h⟩ := bind_eq_ok.1 h
    exact ih (popOne_inv hs hp) h

/-- The key of a sub-expression id is one of the keys, which only grow. -/
theorem getLogicalKey_lt (keys : List Nat) (a : Nat) :
    (getLogicalKey keys a).1 < (getLogicalKey keys a).2.length ∧ keys.length ≤ (getLogicalKey keys a).2.length := by
  unfold getLogicalKey
  split
  · rename_i k hk
    obtain ⟨hlt, -⟩ := List.idxOf?_eq_some_iff.mp hk
    exact ⟨hlt, (Nat.le_refl _)⟩
  · simp

/-- The invariant of the parser: that of its operand side, for the keys read so far. -/
def ParseInv (base : Nat) (st : ParseState) : Prop := OperandsInv st.keys.length base st.operands

theorem pushSubID_inv {base : Nat} {st : ParseState} (hs : ParseInv base st) (subid : Option Nat) :
    ParseInv base (pushSubID st subid) := by
  cases subid with
  | none => exact hs
  | some a =>
    obtain ⟨hk, hkeys⟩ := getLogicalKey_lt st.keys a
    have hs' := hs.mono hkeys
    refine ⟨hs'.base_le, hs'.tree, ?_, hs'.start⟩
    intro x hx
    rcases List.mem_cons.mp hx with rfl | hx
    · exact .inl hk
    · exact hs'.subids x hx

theorem parseChar_inv {base : Nat} {logical : List Char} {i : Nat} {c : Char} {st st' : ParseState}
    (hs : ParseInv base st) (h : parseChar logical i c st = .ok st') : ParseInv base st' := by
  unfold parseChar at h
  split at h
  · -- a digit only marks where the id starts
    simp only [Except.ok.injEq] at h
    subst h
    split <;> exact hs
  · obtain ⟨subid, -, h⟩ := bind_eq_ok.1 h
    have hp := pushSubID_inv (show ParseInv base { st with digit := none } from hs) subid
    dsimp only at h
    generalize pushSubID { st with digit := none } subid = st1 at h hp
    split at h
    · simp only [Except.ok.injEq] at h
      exact h ▸ hp
    split at h
    · simp only [Except.ok.injEq] at h
      exact h ▸ hp
    split at h
    · split at h
      · simp at h
      · simp only [Except.ok.injEq] at h
        exact h ▸ hp
    split at h
    · -- an operator pops the operators that apply before it
      obtain ⟨⟨ops, operands⟩, hw, h⟩ := bind_eq_ok.1 h
      simp only [Except.ok.injEq] at h
      subst h
      exact popWhile_inv hp hw
    · simp at h

theorem parseChars_inv {base : Nat} {logical : List Char} {i : Nat} {cs : List Char} {st st' : ParseState}
    (hs : ParseInv base st) (h : parseChars logical i cs st = .ok st') : ParseInv base st' := by
  induction cs generalizing i st with
  | nil =>
    simp only [parseChars, Except.ok.injEq] at h
    exact h ▸ hs
  | cons c cs ih =>
    obtain ⟨st1, hc, h⟩ := bind_eq_ok.1 h
    exact ih (parseChar_inv hs (mapError_eq_ok.1 hc)) h

/-- After the loop: the last id is pushed and every operator popped, keeping
the invariant, and one operand is left. -/
theorem parseEnd_inv {base : Nat} {logical : List Char} {st st' : ParseState} {operands : Operands}
    (hs : ParseInv base st) (h : parseEnd logical st = .ok (st', operands)) :
    OperandsInv st'.keys.length base operands ∧ operands.subids.length = 1 := by
  unfold parseEnd at h
  split at h
  · simp at h
  obtain ⟨subid, -, h⟩ := bind_eq_ok.1 h
  have h2 := pushSubID_inv (show ParseInv base { st with digit := none } from hs) subid
  obtain ⟨ops, hpop, h⟩ := bind_eq_ok.1 h
  split at h
  · simp at h
  rename_i hone
  simp only [Except.ok.injEq, Prod.mk.injEq] at h
  obtain ⟨rfl, rfl⟩ := h
  exact ⟨popAll_inv h2 hpop, not_not.mp hone⟩

/-- **The parser adds well-formed operations.**  After a successful parse,
the operations it added (those from the length of the tree it was given)
refer only to keys it returns and to operations before them, the combination
starts at the first of them, and its result refers to a key or to one of them. -/
theorem parseLogicalCombination_treeIn {logical : List Char} {keys : List Nat} {tree : List LogicalOp}
    {pc : ParsedCombination} (h : parseLogicalCombination logical keys tree = .ok pc) :
    TreeIn pc.keys.length tree.length pc.tree ∧ pc.start = logicalOpBit ||| tree.length ∧
      tree.length < pc.tree.length ∧ RefIn pc.keys.length tree.length pc.tree.length pc.result := by
  have h0 : ParseInv tree.length ⟨keys, [], ⟨[], tree, none⟩, 0, none⟩ :=
    ⟨(Nat.le_refl _), fun j hj1 hj2 => absurd hj2 (by simpa using hj1), by simp, .inl ⟨rfl, rfl⟩⟩
  obtain ⟨st, hst, h⟩ := bind_eq_ok.1 h
  have h1 := parseChars_inv h0 hst
  obtain ⟨⟨st2, operands⟩, hend, h⟩ := bind_eq_ok.1 h
  obtain ⟨h3, hone⟩ := parseEnd_inv h1 (mapError_eq_ok.1 hend)
  dsimp only at h
  split at h
  · simp at h
  rename_i start hstart
  simp only [Except.ok.injEq] at h
  subst h
  obtain ⟨r, hr⟩ : ∃ r, operands.subids = [r] := List.length_eq_one_iff.mp hone
  rcases h3.start with ⟨hnone, -⟩ | ⟨hsome, hlt⟩
  · simp [hnone] at hstart
  refine ⟨h3.tree, ?_, hlt, ?_⟩
  · rw [hstart] at hsome
    exact Option.some.inj hsome
  · simpa [hr] using h3.subids r (by simp [hr])

/-! ## The meaning of the operations -/

/-- The combination that a reference stands for: a key, or the operation it
marks applied to the combinations of its operands, unfolded at most `fuel`
times. -/
def refExpr (tree : List LogicalOp) : Nat → Nat → LogicalExpr
  | 0, x => .id x
  | fuel + 1, x =>
    if x &&& logicalOpBit ≠ 0 then
      let op := tree.getD (x &&& 0x7fffffff) default
      match op.op with
      | .not => .not (refExpr tree fuel op.ro)
      | .and => .and (refExpr tree fuel op.lo) (refExpr tree fuel op.ro)
      | .or => .or (refExpr tree fuel op.lo) (refExpr tree fuel op.ro)
    else .id x

attribute [grind] refExpr

theorem refExpr_key (tree : List LogicalOp) (fuel : Nat) {x : Nat} (hx : x < 2 ^ 31) :
    refExpr tree fuel x = .id x := by
  cases fuel with
  | zero => rfl
  | succ fuel => simp [refExpr, and_logicalOpBit_of_lt hx]

theorem refExpr_op (tree : List LogicalOp) (fuel : Nat) {j : Nat} (hj : j < 2 ^ 31) :
    refExpr tree (fuel + 1) (logicalOpBit ||| j) =
      match (tree.getD j default).op with
      | .not => .not (refExpr tree fuel (tree.getD j default).ro)
      | .and => .and (refExpr tree fuel (tree.getD j default).lo) (refExpr tree fuel (tree.getD j default).ro)
      | .or => .or (refExpr tree fuel (tree.getD j default).lo) (refExpr tree fuel (tree.getD j default).ro) := by
  rw [refExpr, if_pos (or_and_logicalOpBit_ne j), or_and_low_eq hj]

section Eval

variable {nk base : Nat} {tree : List LogicalOp}

/-- Enough fuel gives the same combination: a reference into the operations
below `top` needs `top - base` unfoldings. -/
theorem refExpr_fuel (hT : TreeIn nk base tree) (hnk : nk ≤ 2 ^ 31) (hlen : tree.length ≤ 2 ^ 31) :
    ∀ fuel fuel' top x, top ≤ tree.length → RefIn nk base top x → top - base ≤ fuel → top - base ≤ fuel' →
      refExpr tree fuel x = refExpr tree fuel' x := by
  intro fuel
  -- on the fuel: each unfolding moves to operands below the operation
  induction fuel with
  | zero =>
    intro fuel' top x htop hx h0 _
    rcases hx with hk | ⟨j, hj1, hj2, rfl⟩
    · rw [refExpr_key tree 0 (by omega), refExpr_key tree fuel' (by omega)]
    · omega
  | succ fuel ih =>
    intro fuel' top x htop hx hf hf'
    rcases hx with hk | ⟨j, hj1, hj2, rfl⟩
    · rw [refExpr_key tree _ (by omega), refExpr_key tree fuel' (by omega)]
    · obtain ⟨fuel', rfl⟩ : ∃ f, fuel' = f + 1 := ⟨fuel' - 1, by omega⟩
      obtain ⟨-, hro, hlo⟩ := hT j hj1 (by omega)
      have hsame : ∀ y, RefIn nk base j y → refExpr tree fuel y = refExpr tree fuel' y :=
        fun y hy => ih fuel' j y (by omega) hy (by omega) (by omega)
      rw [refExpr_op tree fuel (by omega), refExpr_op tree fuel' (by omega)]
      cases hop : (tree.getD j default).op with
      | not => simp only [hsame _ hro]
      | and => simp only [hsame _ hro, hsame _ (hlo (by rw [hop]; decide))]
      | or => simp only [hsame _ hro, hsame _ (hlo (by rw [hop]; decide))]

/-- The renumbered operation `j` of the parse: numbered after the keys, its
operands renumbered the same way. -/
theorem getD_renumberTree {j : Nat} (hj : j < tree.length) :
    (renumberTree nk tree).getD j default =
      ⟨tryRenumOp nk (tree.getD j default).id, (tree.getD j default).op, tryRenumOp nk (tree.getD j default).lo,
        tryRenumOp nk (tree.getD j default).ro⟩ := by
  simp [renumberTree, List.getD_eq_getElem?_getD, hj]

/-- The slot that the runtime keeps the value of a reference in. -/
theorem tryRenumOp_of_refIn {top x : Nat} (hnk : nk ≤ 2 ^ 31) (htop : top ≤ 2 ^ 31) (hx : RefIn nk base top x) :
    (x < nk ∧ tryRenumOp nk x = x) ∨ ∃ j, base ≤ j ∧ j < top ∧ x = logicalOpBit ||| j ∧ tryRenumOp nk x = j + nk := by
  rcases hx with hk | ⟨j, hj1, hj2, rfl⟩
  · exact .inl ⟨hk, tryRenumOp_key (by omega)⟩
  · exact .inr ⟨j, hj1, hj2, rfl, tryRenumOp_op (by omega)⟩

/-- **Straight-line evaluation.**  Evaluating the first `m` operations from
`base` on in order, each into its slot after the keys, leaves in the slot of
every reference into them the value of its combination. -/
theorem foldl_evalOp_treeIn (hT : TreeIn nk base tree) (hnk : nk ≤ 2 ^ 31) (hlen : tree.length ≤ 2 ^ 31)
    (lvec : Nat → Bool) :
    ∀ m, base + m ≤ tree.length → ∀ x, RefIn nk base (base + m) x →
      ((List.range' (base + nk) m).foldl (fun lvec i => evalOp lvec ((renumberTree nk tree).getD (i - nk) default))
        lvec) (tryRenumOp nk x) = (refExpr tree tree.length x).eval lvec := by
  intro m
  induction m with
  | zero =>
    intro _ x hx
    rcases tryRenumOp_of_refIn hnk (by omega) hx with ⟨hk, hslot⟩ | ⟨j, hj1, hj2, -⟩
    · rw [hslot, refExpr_key tree _ (by omega)]
      rfl
    · omega
  | succ m ih =>
    intro hm x hx
    -- the operation at `base + m` writes its slot; the others keep their values
    set L := (List.range' (base + nk) m).foldl
      (fun lvec i => evalOp lvec ((renumberTree nk tree).getD (i - nk) default)) lvec with hL
    obtain ⟨hid, hro, hlo⟩ := hT (base + m) (Nat.le_add_right _ _) (by omega)
    have hold : ∀ y, RefIn nk base (base + m) y → L (tryRenumOp nk y) = (refExpr tree tree.length y).eval lvec :=
      fun y hy => ih (by omega) y hy
    have hval : ∀ y, RefIn nk base (base + m) y →
        L (tryRenumOp nk y) = (refExpr tree (tree.length - 1) y).eval lvec := by
      intro y hy
      rw [hold y hy, refExpr_fuel hT hnk hlen tree.length (tree.length - 1) (base + m) y (by omega) hy
        (by omega) (by omega)]
    rw [List.range'_1_concat, List.foldl_append, List.foldl_cons, List.foldl_nil, ← hL,
      show base + nk + m - nk = base + m by omega, evalOp, getD_renumberTree (by omega), hid,
      tryRenumOp_op (by omega)]
    dsimp only
    rcases tryRenumOp_of_refIn hnk (by omega) hx with ⟨hk, hslot⟩ | ⟨j, hj1, hj2, rfl, hslot⟩
    · rw [Function.update_of_ne (by rw [hslot]; omega)]
      exact hold x (.inl hk)
    by_cases hjm : j = base + m
    · subst hjm
      rw [hslot, Function.update_self]
      obtain ⟨f, hf⟩ : ∃ f, tree.length = f + 1 := ⟨tree.length - 1, by omega⟩
      rw [hf, refExpr_op tree f (by omega), show f = tree.length - 1 by omega]
      cases hop : (tree.getD (base + m) default).op with
      | not => simp only [LogicalExpr.eval, hval _ hro]
      | and => simp only [LogicalExpr.eval, hval _ hro, hval _ (hlo (by rw [hop]; decide))]
      | or => simp only [LogicalExpr.eval, hval _ hro, hval _ (hlo (by rw [hop]; decide))]
    · rw [Function.update_of_ne (by rw [hslot]; omega)]
      exact hold _ (.inr ⟨j, hj1, by omega, rfl⟩)

end Eval

/-! ## The runtime evaluates what the parser built -/

/-- **The runtime evaluates the combination the parser built.**  For every
combination the parser accepts, the operations it adds refer only to its keys
and to earlier operations of the same parse; and once the operations are
renumbered after the `nk` keys of all parses, `isLogicalCombination` returns,
for every value of the keys, the value of the combination that the parse's
result refers to. -/
theorem isLogicalCombination_parseLogicalCombination {logical : List Char} {keys : List Nat}
    {tree : List LogicalOp} {pc : ParsedCombination} {nk : Nat}
    (h : parseLogicalCombination logical keys tree = .ok pc)
    (hkeys : pc.keys.length ≤ nk) (hnk : nk ≤ 2 ^ 31) (hlen : pc.tree.length ≤ 2 ^ 31) :
    (TreeIn pc.keys.length tree.length pc.tree ∧ pc.start = logicalOpBit ||| tree.length ∧
        tree.length < pc.tree.length ∧ RefIn pc.keys.length tree.length pc.tree.length pc.result) ∧
      ∀ lvec : Nat → Bool,
        isLogicalCombination (renumberTree nk pc.tree) nk lvec (tryRenumOp nk pc.start) (tryRenumOp nk pc.result) =
          (refExpr pc.tree pc.tree.length pc.result).eval lvec := by
  have hshape := parseLogicalCombination_treeIn h
  refine ⟨hshape, fun lvec => ?_⟩
  obtain ⟨hT, hstart, hbase, hres⟩ := hshape
  have hT' := hT.mono hkeys
  rw [hstart, tryRenumOp_op (by omega), isLogicalCombination]
  -- the runtime evaluates the operations from the first of the parse up to the result's slot
  rcases tryRenumOp_of_refIn hnk hlen (hres.mono hkeys (Nat.le_refl _)) with ⟨hk, hslot⟩ | ⟨j, hj1, hj2, hx, hslot⟩
  · have hfold := foldl_evalOp_treeIn hT' hnk hlen lvec 0 (by omega) pc.result (.inl hk)
    rw [hslot] at hfold ⊢
    rw [show pc.result + 1 - (tree.length + nk) = 0 by omega]
    exact hfold
  · have hfold := foldl_evalOp_treeIn hT' hnk hlen lvec (j + 1 - tree.length) (by omega) pc.result
      (.inr ⟨j, hj1, by omega, hx⟩)
    rw [hslot] at hfold ⊢
    rw [show j + nk + 1 - (tree.length + nk) = j + 1 - tree.length by omega]
    exact hfold

/-- `1&!2` with the first key matched and the second not: the parse builds
`!k1` and `k0 & !k1`, and the runtime returns the value of `k0 & !k1`. -/
theorem isLogicalCombination_one_and_not_two :
    parseLogicalCombination ['1', '&', '!', '2'] [] [] =
        .ok ⟨[1, 2], [⟨logicalOpBit, .not, 0, 1⟩, ⟨logicalOpBit ||| 1, .and, 0, logicalOpBit⟩],
          logicalOpBit, logicalOpBit ||| 1⟩ ∧
      refExpr [⟨logicalOpBit, .not, 0, 1⟩, ⟨logicalOpBit ||| 1, .and, 0, logicalOpBit⟩] 2 (logicalOpBit ||| 1) =
        .and (.id 0) (.not (.id 1)) ∧
      isLogicalCombination (renumberTree 2 [⟨logicalOpBit, .not, 0, 1⟩, ⟨logicalOpBit ||| 1, .and, 0, logicalOpBit⟩])
          2 (fun k => k == 0) (tryRenumOp 2 logicalOpBit) (tryRenumOp 2 (logicalOpBit ||| 1)) =
        (refExpr [⟨logicalOpBit, .not, 0, 1⟩, ⟨logicalOpBit ||| 1, .and, 0, logicalOpBit⟩] 2
          (logicalOpBit ||| 1)).eval (fun k => k == 0) := by
  have hparse : parseLogicalCombination ['1', '&', '!', '2'] [] [] =
      .ok ⟨[1, 2], [⟨logicalOpBit, .not, 0, 1⟩, ⟨logicalOpBit ||| 1, .and, 0, logicalOpBit⟩],
        logicalOpBit, logicalOpBit ||| 1⟩ := by decide
  exact ⟨hparse, by decide,
    (isLogicalCombination_parseLogicalCombination hparse (by decide) (by decide) (by decide)).2 _⟩

end Parser
end Vectorscan
