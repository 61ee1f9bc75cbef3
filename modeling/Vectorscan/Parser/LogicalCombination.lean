import Mathlib.Algebra.Group.Nat.Defs
import Mathlib.Data.List.Basic
import Mathlib.Logic.Function.Basic

/-!
# Logical combinations of sub-expressions

A logical combination (`HS_FLAG_COMBINATION`) is an expression over the ids of
other expressions with `!`, `&`, `|` and parentheses
(`src/parser/logical_combination.cpp`).  `parseLogicalCombination` reads it
with an operator stack: operators inside more parentheses bind tighter, and at
one depth `!` binds tighter than `&`, which binds tighter than `|`.  Every
operator it pops is appended to the shared `logicalTree` as one operation on
two earlier values (`logicalTreeAdd`); the combination is then the range of
operations from its first to its last (`lkey_start`, `lkey_result`), and the
runtime evaluates that range in order (`isLogicalCombination`, `report.h`),
after `logicalKeyRenumber` has put the operations after the sub-expression keys.

**Model.**  The combination is its list of characters (the C string before
its terminating zero).  Failures are `Except.error` with the text of the
error the source throws, with the index that `LocatedParseError::locate` adds
to those of the `try` block.  Of `ParsedLogical` the model keeps what the parse
and the evaluation read: the sub-expression id of each logical key (in the
order `getLogicalKey` numbers them) and the operations.  The combination keys
of `getCombKey`/`addRelateCKey` and the offsets and exhaustion key of
`combinationInfoAdd` are not used by either and are left out.  The runtime's
vector of logical values is a function from keys to `Bool`.

**Specification.**  `Sentence` is the grammar of well-formed combinations,
`LogicalExpr.eval` their meaning.
-/

namespace Vectorscan
namespace Parser

/-! ## Operators -/

/-- `enum LogicalOpType`, from the tightest to the loosest. -/
inductive LogicalOpType where
  | not
  | and
  | or
  deriving DecidableEq, Repr, Inhabited

/-- The number of an operator type, which `cmpOperator` compares. -/
def LogicalOpType.toNat : LogicalOpType → Nat
  | .not => 0
  | .and => 1
  | .or => 2

/-- `LOGICAL_OP_BIT`: marks the id of an operation, as opposed to a logical key. -/
def logicalOpBit : Nat := 0x80000000

/-- `struct LogicalOp`. -/
structure LogicalOp where
  id : Nat
  op : LogicalOpType
  lo : Nat
  ro : Nat
  deriving DecidableEq, Repr, Inhabited

/-- `struct LogicalOperator`: an operator waiting on the stack, with the depth
of parentheses it was read at. -/
structure LogicalOperator where
  op : LogicalOpType
  paren : Nat
  deriving DecidableEq, Repr

/-- `toOperator`. -/
def toOperator : Char → Option LogicalOpType
  | '!' => some .not
  | '&' => some .and
  | '|' => some .or
  | _ => none

/-- `cmpOperator op1 op2`: whether the stacked `op1` is applied before `op2`
is pushed: when it was read inside more parentheses, or at the same depth
when it binds at least as tightly. -/
def cmpOperator (op1 op2 : LogicalOperator) : Bool :=
  if op1.paren < op2.paren then false
  else if op1.paren > op2.paren then true
  else if op1.op.toNat > op2.op.toNat then false
  else if op1.op.toNat < op2.op.toNat then true
  else true

/-! ## The parser -/

/-- `fetchSubID`: the decimal number of the digits from `digit` to `endI`, if a
number is being read; more than nine digits are an error. -/
def fetchSubID (logical : List Char) (digit : Option Nat) (endI : Nat) : Except String (Option Nat) :=
  match digit with
  | none => .ok none
  | some d =>
    if endI - d > 9 then .error "Expression id too large"
    else
      -- the digits from the last one, each worth ten times the one after it
      let ds := (List.range (endI - d)).map fun k => (logical.getD (d + k) '0').toNat - '0'.toNat
      .ok (some (ds.foldr (fun x (sm : Nat × Nat) => (sm.1 + x * sm.2, sm.2 * 10)) (0, 1)).1)

/-- `getLogicalKey`: the key of a sub-expression id, numbered in order of
first use. -/
def getLogicalKey (keys : List Nat) (a : Nat) : Nat × List Nat :=
  match keys.idxOf? a with
  | some k => (k, keys)
  | none => (keys.length, keys ++ [a])

/-- `logicalTreeAdd`: append an operation; its id is its index, marked. -/
def logicalTreeAdd (tree : List LogicalOp) (op : LogicalOpType) (left right : Nat) : Nat × List LogicalOp :=
  (logicalOpBit ||| tree.length, tree ++ [⟨logicalOpBit ||| tree.length, op, left, right⟩])

/-- `popOperator`: apply the stacked operator `top` to the operands on top of
the operand stack (one for `!`, two otherwise). -/
def popOperator (top : LogicalOperator) (subids : List Nat) (tree : List LogicalOp) :
    Except String (List Nat × List LogicalOp) :=
  match subids with
  | [] => .error "Not enough operand"
  | right :: subids =>
    if top.op ≠ .not then
      match subids with
      | [] => .error "Not enough operand"
      | left :: subids =>
        let (id, tree) := logicalTreeAdd tree top.op left right
        .ok (id :: subids, tree)
    else
      let (id, tree) := logicalTreeAdd tree top.op 0 right
      .ok (id :: subids, tree)

/-- The operand side of the parser: the operand stack (top first), the
operations and `lkey_start`. -/
structure Operands where
  subids : List Nat
  tree : List LogicalOp
  lkeyStart : Option Nat
  deriving DecidableEq, Repr

/-- Pop one operator, and take the operation it makes as `lkey_start` if
there is none yet. -/
def popOne (top : LogicalOperator) (s : Operands) : Except String Operands := do
  let (subids, tree) ← popOperator top s.subids s.tree
  let lkeyStart := match s.lkeyStart with
    | none => subids.head?
    | some k => some k
  .ok ⟨subids, tree, lkeyStart⟩

/-- The `while` loop before an operator is pushed: pop the stacked operators
that apply before `op`. -/
def popWhile (op : LogicalOperator) : List LogicalOperator → Operands → Except String (List LogicalOperator × Operands)
  | [], s => .ok ([], s)
  | top :: ops, s =>
    if cmpOperator top op then do
      let s ← popOne top s
      popWhile op ops s
    else .ok (top :: ops, s)

/-- The `while` loop at the end: pop every stacked operator. -/
def popAll : List LogicalOperator → Operands → Except String Operands
  | [], s => .ok s
  | top :: ops, s => do
    let s ← popOne top s
    popAll ops s

/-- The state of `parseLogicalCombination` between two characters. -/
structure ParseState where
  keys : List Nat
  ops : List LogicalOperator
  operands : Operands
  paren : Nat
  digit : Option Nat
  deriving DecidableEq, Repr

/-- Push the key of a sub-expression id that has just been read. -/
def pushSubID (st : ParseState) : Option Nat → ParseState
  | none => st
  | some subid =>
    let (k, keys) := getLogicalKey st.keys subid
    { st with keys, operands := { st.operands with subids := k :: st.operands.subids } }

/-- One pass of the loop of `parseLogicalCombination`, at character `c` at
index `i`. -/
def parseChar (logical : List Char) (i : Nat) (c : Char) (st : ParseState) : Except String ParseState :=
  if c.isDigit then
    .ok (if st.digit = none then { st with digit := some i } else st)
  else do
    let subid ← fetchSubID logical st.digit i
    let st := pushSubID { st with digit := none } subid
    if c = ' ' then .ok st
    else if c = '(' then .ok { st with paren := st.paren + 1 }
    else if c = ')' then
      if st.paren ≤ 0 then .error "Not enough left parentheses"
      else .ok { st with paren := st.paren - 1 }
    else
      match toOperator c with
      | some prio =>
        let op : LogicalOperator := ⟨prio, st.paren⟩
        let (ops, operands) ← popWhile op st.ops st.operands
        .ok { st with ops := op :: ops, operands }
      | none => .error "Unknown character"

/-- `LocatedParseError::locate`: the reason, followed by the index at which
the error was thrown. -/
def locate (i : Nat) (reason : String) : String := reason ++ " at index " ++ toString i ++ "."

/-- The loop of `parseLogicalCombination` over the characters from index `i`. -/
def parseChars (logical : List Char) : Nat → List Char → ParseState → Except String ParseState
  | _, [], st => .ok st
  | i, c :: cs, st => do
    -- the `catch` locates an error of the loop at the index of its character
    let st ← (parseChar logical i c st).mapError (locate i)
    parseChars logical (i + 1) cs st

/-- The rest of the `try` block after the loop: the parentheses must be
closed, the last id is pushed, the stacked operators are popped and one operand
must be left. -/
def parseEnd (logical : List Char) (st : ParseState) : Except String (ParseState × Operands) :=
  if st.paren ≠ 0 then .error "Not enough right parentheses"
  else do
    let subid ← fetchSubID logical st.digit logical.length
    let st := pushSubID { st with digit := none } subid
    let operands ← popAll st.ops st.operands
    if operands.subids.length ≠ 1 then .error "Not enough operator"
    else .ok (st, operands)

/-- What a parse adds to `ParsedLogical`: the keys, the operations, and the
first and last operation of the combination (`combinationInfoAdd`). -/
structure ParsedCombination where
  keys : List Nat
  tree : List LogicalOp
  start : Nat
  result : Nat
  deriving DecidableEq, Repr

/-- `parseLogicalCombination`, from the keys and operations of the
combinations parsed before. -/
def parseLogicalCombination (logical : List Char) (keys : List Nat) (tree : List LogicalOp) :
    Except String ParsedCombination := do
  let st ← parseChars logical 0 logical ⟨keys, [], ⟨[], tree, none⟩, 0, none⟩
  -- after the loop the index is the length of the string
  let (st, operands) ← (parseEnd logical st).mapError (locate logical.length)
  -- a `CompileError`, thrown after the `try` block, is not located
  match operands.lkeyStart with
  | none => .error "No logical operation."
  | some start => .ok ⟨st.keys, operands.tree, start, operands.subids.headD 0⟩

/-! ## Renumbering and evaluation -/

/-- `TRY_RENUM_OP`: an operation id becomes its index after the `numKeys` keys. -/
def tryRenumOp (numKeys x : Nat) : Nat :=
  if x &&& logicalOpBit ≠ 0 then (x &&& 0x7fffffff) + numKeys else x

/-- `logicalKeyRenumber` on the operations. -/
def renumberTree (numKeys : Nat) (tree : List LogicalOp) : List LogicalOp :=
  tree.map fun op => ⟨tryRenumOp numKeys op.id, op.op, tryRenumOp numKeys op.lo, tryRenumOp numKeys op.ro⟩

/-- One operation of `isLogicalCombination`: set the value of its id. -/
def evalOp (lvec : Nat → Bool) (op : LogicalOp) : Nat → Bool :=
  Function.update lvec op.id
    (match op.op with
      | .not => !lvec op.ro
      | .and => lvec op.lo && lvec op.ro
      | .or => lvec op.lo || lvec op.ro)

/-- `isLogicalCombination`: evaluate the operations `start..result` in order
(operation `i` is entry `i - lkeyCount` of the tree) and read the value of
`result`. -/
def isLogicalCombination (tree : List LogicalOp) (lkeyCount : Nat) (lvec : Nat → Bool) (start result : Nat) :
    Bool :=
  ((List.range' start (result + 1 - start)).foldl (fun lvec i => evalOp lvec (tree.getD (i - lkeyCount) default))
    lvec) result

/-! ## Well-formed combinations -/

/-- A logical combination as a tree. -/
inductive LogicalExpr where
  | id (n : Nat)
  | not (e : LogicalExpr)
  | and (a b : LogicalExpr)
  | or (a b : LogicalExpr)
  deriving DecidableEq, Repr

/-- The standard meaning of a combination, given which sub-expressions matched. -/
def LogicalExpr.eval (val : Nat → Bool) : LogicalExpr → Bool
  | .id n => val n
  | .not e => !e.eval val
  | .and a b => a.eval val && b.eval val
  | .or a b => a.eval val || b.eval val

/-- The sentences of `E ::= id | '!' E | E '&' E | E '|' E | '(' E ')'`, an id
being one to nine decimal digits. -/
inductive Sentence : List Char → Prop where
  | id {ds : List Char} : ds ≠ [] → ds.length ≤ 9 → (∀ c ∈ ds, c.isDigit = true) → Sentence ds
  | not {e : List Char} : Sentence e → Sentence ('!' :: e)
  | and {a b : List Char} : Sentence a → Sentence b → Sentence (a ++ '&' :: b)
  | or {a b : List Char} : Sentence a → Sentence b → Sentence (a ++ '|' :: b)
  | paren {e : List Char} : Sentence e → Sentence ('(' :: e ++ [')'])

/-- Every sentence ends with a digit or a closing parenthesis. -/
theorem Sentence.getLast? {e : List Char} (h : Sentence e) :
    ∃ c, e.getLast? = some c ∧ (c.isDigit = true ∨ c = ')') := by
  induction h with
  | id hne _ hdig =>
    exact ⟨_, List.getLast?_eq_some_getLast hne, Or.inl (hdig _ (List.getLast_mem hne))⟩
  | not _ ih =>
    obtain ⟨c, hc, hd⟩ := ih
    exact ⟨c, by rw [List.getLast?_cons, hc]; rfl, hd⟩
  | and _ _ _ ihb =>
    obtain ⟨c, hc, hd⟩ := ihb
    exact ⟨c, by rw [List.getLast?_append, List.getLast?_cons, hc]; rfl, hd⟩
  | or _ _ _ ihb =>
    obtain ⟨c, hc, hd⟩ := ihb
    exact ⟨c, by rw [List.getLast?_append, List.getLast?_cons, hc]; rfl, hd⟩
  | paren _ _ => exact ⟨')', List.getLast?_concat, Or.inr rfl⟩

/-- **The parser takes `!` as prefix only when it is not doubled, and as a
postfix operator too.**  `!!1` is a sentence (`!` applied to `!1`), but the
second `!` pops the first one before any operand has been read and the parse
fails; `1!` is not a sentence, yet it parses as the combination `!1`. -/
theorem parseLogicalCombination_not_not :
    Sentence ['!', '!', '1'] ∧
      parseLogicalCombination ['!', '!', '1'] [] [] = .error "Not enough operand at index 1." ∧
      ¬ Sentence ['1', '!'] ∧
      parseLogicalCombination ['1', '!'] [] [] =
        .ok ⟨[1], [⟨logicalOpBit, .not, 0, 0⟩], logicalOpBit, logicalOpBit⟩ := by
  refine ⟨.not (.not (.id (by simp) (by simp) (by simp))), by decide, ?_, by decide⟩
  intro h
  obtain ⟨c, hc, hd⟩ := h.getLast?
  simp only [List.getLast?_cons_cons, List.getLast?_singleton, Option.some.injEq] at hc
  subst hc
  revert hd
  decide

end Parser
end Vectorscan
