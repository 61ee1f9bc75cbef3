import Vectorscan.Lib.Loop

/-!
# Subset construction

`determinise` (`src/util/determinise.h`) turns an automaton whose states are
sets of states (`Auto::StateSet`) into the DFA states of `raw_dfa`: the dead
set gets id `DEAD_STATE = 0`, the initial sets ids `1, 2, …` in order, and a
queue visits every set found, filling in its reports and its successor on
each symbol of the compressed alphabet, numbering new sets as it meets them.
A set whose reports `canPrune` accepts goes to the dead state on every
symbol and stays where it is on a top.  The construction gives up (returns
`false`) when an id reaches the state limit.

**Model.**  The automaton is the record `Automaton` of what `determinise`
reads.  `Auto::StateMap` is an association list in insertion order, with
`std::map`'s `find` and `emplace` (an `emplace` of a set already present
does nothing).  `dstate` keeps `next`, `daddy`, `reports` and `reports_eod`;
`impl_id` is not touched here and is left out.  The `while` loop is
`Loop.run` with fuel `stateLimit + |initial| + 2`, which the proofs show is
never exhausted; the `for` loop over the symbols is `List.foldlM` in
`Option`, `none` being the `return false`.  A result `some (dstates,
statesets)` is `true` with the two outputs.

**Specification.**  `Automaton.prunedRun` is the automaton the DFA is meant to
follow: the sets reached by `transition`, except that from a set whose
reports `canPrune` accepts a symbol leads to the dead set and a top stays.
`dfaRun` follows `next` from a DFA state.
-/

namespace Vectorscan
namespace Determinise

universe u v

variable {σ : Type u} {ρ : Type v}

/-- What `determinise` reads of the automaton `Auto`. -/
structure Automaton (σ : Type u) (ρ : Type v) where
  /-- `dead`: the set of no states. -/
  dead : σ
  /-- `initial()`. -/
  initial : List σ
  /-- `reports` and `reportsEod` of a set. -/
  reports : σ → List ρ
  reportsEod : σ → List ρ
  /-- `transition`: the set reached on each symbol of the compressed alphabet. -/
  transition : σ → Nat → σ
  /-- `alphasize`. -/
  alphasize : Nat
  /-- `canPrune`: whether a set with these reports can stop matching. -/
  canPrune : List ρ → Bool
  /-- `alpha[TOP]`: the symbol of a top. -/
  top : Nat
  /-- `unalpha`: the input character of each symbol; tops and other specials
  are at least `N_CHARS`. -/
  unalpha : Nat → Nat

/-- `N_CHARS`. -/
def nChars : Nat := 256

/-- `struct dstate`, as far as `determinise` fills it. -/
structure DState (ρ : Type v) where
  next : List Nat
  daddy : Nat
  reports : List ρ
  reportsEod : List ρ
  deriving DecidableEq, Repr

/-- `dstate(alphabet_size)`: every successor `0`, no reports. -/
def dstate (alphabetSize : Nat) : DState ρ := ⟨List.replicate alphabetSize 0, 0, [], []⟩

instance : Inhabited (DState ρ) := ⟨dstate 0⟩

/-! ## The map from sets to ids -/

section StateMap

variable [DecidableEq σ]

/-- `StateMap::find`. -/
def stateMapFind (m : List (σ × Nat)) (S : σ) : Option Nat :=
  (m.find? fun p => decide (p.1 = S)).map (·.2)

/-- `StateMap::emplace`: nothing happens when the set is already there. -/
def stateMapEmplace (m : List (σ × Nat)) (S : σ) (id : Nat) : List (σ × Nat) :=
  if m.any fun p => decide (p.1 = S) then m else m ++ [(S, id)]

end StateMap

/-- `statesets_out`: the set of each DFA state, from the map. -/
def statesets [Inhabited σ] (m : List (σ × Nat)) : List σ :=
  m.foldl (fun ss p => ss.set p.2 p.1) (List.replicate m.length default)

/-! ## The construction -/

/-- The variables of the construction: `dstate_ids`, `dstates` and the queue
`q` of sets with their ids. -/
structure DetState (σ : Type u) (ρ : Type v) where
  ids : List (σ × Nat)
  dstates : List (DState ρ)
  q : List (σ × Nat)

variable [DecidableEq σ]

/-- The start of `determinise`: the dead state, its successors all dead, then
one DFA state per initial set, each queued with its id. -/
def initState (n : Automaton σ ρ) : DetState σ ρ :=
  n.initial.foldl
    (fun st S => ⟨stateMapEmplace st.ids S st.dstates.length, st.dstates ++ [dstate n.alphasize],
      st.q ++ [(S, st.dstates.length)]⟩)
    ⟨[(n.dead, 0)], [{ dstate n.alphasize with next := List.replicate n.alphasize 0 }], [(n.dead, 0)]⟩

/-- The successor id on symbol `s` of the set `currId`, whose successors are
`succs`: the previous symbol's when the set is the same, else the id of the
set, found (marking `daddy` on the way) or newly numbered and queued. -/
def findSucc (n : Automaton σ ρ) (currId : Nat) (succs : Nat → σ) (st : DetState σ ρ) (s : Nat) :
    Nat × DetState σ ρ :=
  if s ≠ 0 ∧ succs s = succs (s - 1) then
    ((st.dstates.getD currId default).next.getD (s - 1) 0, st)
  else
    match stateMapFind st.ids (succs s) with
    | some succId =>
      (succId,
        if succId > currId ∧ (st.dstates.getD succId default).daddy = 0 ∧ n.unalpha s < nChars then
          { st with dstates := st.dstates.modify succId fun d => { d with daddy := currId } }
        else st)
    | none =>
      let succId := st.ids.length
      (succId,
        ⟨stateMapEmplace st.ids (succs s) succId,
          st.dstates ++ [{ dstate n.alphasize with daddy := if n.unalpha s < nChars then currId else 0 }],
          st.q ++ [(succs s, succId)]⟩)

/-- One pass of the loop over the symbols: set `next[s]` to the successor,
or `return false` (`none`) when its id reaches the state limit. -/
def symbolStep (n : Automaton σ ρ) (stateLimit currId : Nat) (succs : Nat → σ) (st : DetState σ ρ) (s : Nat) :
    Option (DetState σ ρ) :=
  let (succId, st) := findSucc n currId succs st s
  if succId ≥ stateLimit then none
  else some { st with dstates := st.dstates.modify currId fun d => { d with next := d.next.set s succId } }

/-- One pass of the `while` loop: take the first queued set, fill in its
reports, then either prune it or fill in its successors.  Each set is
dequeued once, so filling its (empty) report sets is setting them. -/
def determiniseStep [Inhabited σ] (n : Automaton σ ρ) (stateLimit : Nat) (st : DetState σ ρ) :
    Option (List (DState ρ) × List σ) ⊕ DetState σ ρ :=
  match st.q with
  | [] => .inl (some (st.dstates, statesets st.ids))
  | (curr, currId) :: q =>
    let st : DetState σ ρ := ⟨st.ids,
      st.dstates.modify currId fun d => { d with reports := n.reports curr, reportsEod := n.reportsEod curr }, q⟩
    if n.reports curr ≠ [] ∧ n.canPrune (n.reports curr) = true then
      -- dead on every symbol, a top stays
      .inr { st with
        dstates := st.dstates.modify currId fun d => { d with next := (List.replicate n.alphasize 0).set n.top currId } }
    else
      match (List.range n.alphasize).foldlM (symbolStep n stateLimit currId (n.transition curr)) st with
      | none => .inl none
      | some st => .inr st

/-- `determinise(n, dstates, state_limit, &statesets)`: `some (dstates,
statesets)` when it returns `true`, `none` when it returns `false`. -/
def determinise [Inhabited σ] (n : Automaton σ ρ) (stateLimit : Nat) : Option (List (DState ρ) × List σ) :=
  Loop.run (determiniseStep n stateLimit) (fun _ => none) (stateLimit + n.initial.length + 2) (initState n)

/-! ## What the DFA is meant to do -/

/-- The set of states reached by `transition` along a word. -/
def Automaton.transitionStar (n : Automaton σ ρ) (S : σ) (w : List Nat) : σ := w.foldl n.transition S

/-- A set whose reports `canPrune` accepts. -/
def Automaton.prunable (n : Automaton σ ρ) (S : σ) : Bool := !(n.reports S).isEmpty && n.canPrune (n.reports S)

/-- One symbol of the automaton the DFA follows: `transition`, except that
from a prunable set a top stays and every other symbol leads to the dead set. -/
def Automaton.prunedStep (n : Automaton σ ρ) (S : σ) (a : Nat) : σ :=
  if n.prunable S then (if a = n.top then S else n.dead) else n.transition S a

/-- The set the DFA stands for after a word. -/
def Automaton.prunedRun (n : Automaton σ ρ) (S : σ) (w : List Nat) : σ := w.foldl n.prunedStep S

/-- The DFA state reached by following `next` along a word. -/
def dfaRun (dstates : List (DState ρ)) (k : Nat) (w : List Nat) : Nat :=
  w.foldl (fun k a => (dstates.getD k default).next.getD a 0) k

end Determinise
end Vectorscan
