import Vectorscan.Repeat.Info

/-!
# Bounded repeats: the period of the triggers

A repeat is started by the literals that precede it in the pattern, its
triggers.  `minPeriod` (`src/nfa/repeatcompile.cpp`) measures how soon one
trigger can end again after another has ended, which bounds how close two
tops can be (the SPARSE model relies on it), and whether every trigger ends
in a byte outside the repeat's class, which makes each top a restart
(`can_reset`, after which the LAST model suffices).

**Model.**  A `CharReach` is a set of bytes held as a number: bit `c` is byte
`c`.  A trigger is a list of classes, first byte first.
-/

namespace Vectorscan
namespace Repeat

/-- `class CharReach`: the set of bytes whose bits are on. -/
abbrev CharReach := Nat

/-- `(a & b).any()`: the two classes share a byte. -/
def crOverlap (a b : CharReach) : Bool := a &&& b ≠ 0

/-- `CharReach::count` over the 256 bytes. -/
def crCount (c : CharReach) : Nat := (List.range 256).countP fun i => c.testBit i

/-- `CharReach::set`. -/
def crSet (c : CharReach) (b : Nat) : CharReach := c ||| 1 <<< b

/-- The bytes of the class in increasing order, as `find_first` and
`find_next` visit them. -/
def crChars (c : CharReach) : List Nat := (List.range 256).filter fun i => c.testBit i

@[simp] theorem testBit_crSet (c : CharReach) (b d : Nat) : (crSet c b).testBit d = (d == b || c.testBit d) := by
  simp only [crSet, Nat.testBit_or, Nat.one_shiftLeft, Nat.testBit_two_pow]
  by_cases h : d = b
  · simp [h]
  · simp [Ne.symm h, beq_eq_false_iff_ne.mpr h]

theorem mem_crChars {c : CharReach} {b : Nat} : b ∈ crChars c ↔ b < 256 ∧ c.testBit b = true := by
  simp [crChars]

/-- `CharReach::all`. -/
def crAll (c : CharReach) : Bool := crCount c = 256

/-- `~cr`. -/
def crNot (c : CharReach) : CharReach := Word.compl 256 (c % 2 ^ 256)

/-- `CharReach::find_first`. -/
def crFindFirst (c : CharReach) : Nat := Word.lowestBit 256 c

/-- `matches`: each class of `a` shares a byte with the class of `b` in the
same place. -/
def crMatches (a b : List CharReach) : Bool := (a.zip b).all fun p => crOverlap p.1 p.2

/-- `minDistAfterA`: the least `i ≥ 1` such that `b` can end `i` bytes after
`a` ended, overlapping it; `|b|` when no overlap works. -/
def minDistAfterA (a b : List CharReach) : Nat :=
  ((List.range' 1 (b.length - 1)).find? fun i =>
      let overlapLen := b.length - i
      if overlapLen ≤ a.length then crMatches (a.drop (a.length - overlapLen)) (b.take overlapLen)
      else crMatches a ((b.take overlapLen).drop (overlapLen - a.length))).getD b.length

/-- `minResetDistToEnd`: for each trigger, how many of its last bytes can be
in the class `cr` before one cannot. -/
def minResetDistToEnd (triggers : List (List CharReach)) (cr : CharReach) : List Nat :=
  triggers.map fun trig => (trig.reverse.takeWhile fun x => crOverlap x cr).length

/-- `minPeriod`: the least `minDistAfterA` over all pairs of triggers, and
`can_reset`, which fails when some trigger can end again before the bytes
that reset the repeat. -/
def minPeriod (triggers : List (List CharReach)) (cr : CharReach) : Nat × Bool :=
  let minResetDist := minResetDistToEnd triggers cr
  triggers.foldl (fun acc trigger =>
    (List.range triggers.length).foldl (fun acc j =>
      let minExt := minDistAfterA trigger (triggers.getD j [])
      (min acc.1 minExt, acc.2 && !decide (minExt ≤ minResetDist.getD j 0))) acc) (2 ^ 32 - 1, true)

/-- A one-byte trigger ends again one byte later: its period is `1`, and it
resets a repeat only if its byte is outside the repeat's class. -/
theorem minPeriod_single (c cr : CharReach) :
    minPeriod [[c]] cr = (1, !crOverlap c cr) := by
  cases h : crOverlap c cr <;> simp [minPeriod, minResetDistToEnd, minDistAfterA, h]

end Repeat
end Vectorscan
