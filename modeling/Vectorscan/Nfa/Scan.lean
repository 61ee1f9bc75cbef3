import Vectorscan.Repeat.Period

/-!
# The byte-class scanners

The engines that run a repeat of a byte class look for the bytes outside it
(the escapes) with SIMD scanners: `vermicelliExec` for one byte,
`nvermicelliExec` for anything but one byte, `shuftiExec` and
`truffleExec` for a class held in two 16-byte masks, each with a reverse
form (`src/nfa/vermicelli.hpp`, `shufti.h`, `truffle.h`).

**Model.**  The scanners are modelled by what they compute: the first (for
the reverse forms, the last) position of `[begin, end)` whose byte is in
their class, or `none`.  The masks of shufti and truffle stand for the class
they encode.
-/

namespace Vectorscan
namespace Nfa

open Repeat

/-- The forward scanners: the first byte of `[begin, end)` in the class `esc`. -/
def scanFwd (esc : Nat → Bool) (buf : Nat → Nat) (begin endIdx : Nat) : Option Nat :=
  (List.range' begin (endIdx - begin)).find? fun i => esc (buf i)

/-- The reverse scanners: the last byte of `[begin, end)` in the class `esc`. -/
def scanRev (esc : Nat → Bool) (buf : Nat → Nat) (begin endIdx : Nat) : Option Nat :=
  (List.range' begin (endIdx - begin)).reverse.find? fun i => esc (buf i)

/-- `vermicelliExec` (case-sensitive). -/
def vermicelliExec (c : Nat) (buf : Nat → Nat) (begin endIdx : Nat) : Option Nat :=
  scanFwd (fun b => b = c) buf begin endIdx

/-- `nvermicelliExec`. -/
def nvermicelliExec (c : Nat) (buf : Nat → Nat) (begin endIdx : Nat) : Option Nat :=
  scanFwd (fun b => b ≠ c) buf begin endIdx

/-- `shuftiExec` over the class its masks encode. -/
def shuftiExec (escapes : CharReach) (buf : Nat → Nat) (begin endIdx : Nat) : Option Nat :=
  scanFwd escapes.testBit buf begin endIdx

/-- `truffleExec` over the class its masks encode. -/
def truffleExec (escapes : CharReach) (buf : Nat → Nat) (begin endIdx : Nat) : Option Nat :=
  scanFwd escapes.testBit buf begin endIdx

/-- `rvermicelliExec`. -/
def rvermicelliExec (c : Nat) (buf : Nat → Nat) (begin endIdx : Nat) : Option Nat :=
  scanRev (fun b => b = c) buf begin endIdx

/-- `rnvermicelliExec`. -/
def rnvermicelliExec (c : Nat) (buf : Nat → Nat) (begin endIdx : Nat) : Option Nat :=
  scanRev (fun b => b ≠ c) buf begin endIdx

/-- `rshuftiExec`. -/
def rshuftiExec (escapes : CharReach) (buf : Nat → Nat) (begin endIdx : Nat) : Option Nat :=
  scanRev escapes.testBit buf begin endIdx

/-- `rtruffleExec`. -/
def rtruffleExec (escapes : CharReach) (buf : Nat → Nat) (begin endIdx : Nat) : Option Nat :=
  scanRev escapes.testBit buf begin endIdx

/-- Whether `shuftiBuildMasks` succeeds: at most eight distinct sets of low
nibbles among the high nibbles that the class uses. -/
def shuftiBuildable (c : CharReach) : Bool :=
  decide ((((List.range 16).map fun h => (c >>> (16 * h)) % 2 ^ 16).filter (· ≠ 0)).dedup.length ≤ 8)

end Nfa
end Vectorscan
