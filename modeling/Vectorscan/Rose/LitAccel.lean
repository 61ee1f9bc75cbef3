import Vectorscan.Hwlm.Hwlm
import Vectorscan.Lib.Loop

/-!
# Acceleration schemes for the literal matcher

`src/rose/rose_build_lit_accel.cpp` picks the acceleration scheme that the
literal matcher runs before FDR, for the literals of a group mask.

**Algorithm.**  `findForwardAccelScheme` keeps the literals whose groups meet
the mask (`filterLits`) and tries in turn

* `findDVerm`: a pair of bytes of the first literal that every literal has
  (among its first sixteen bytes), exactly or up to case; the offset is the
  largest first place of the pair in a literal plus the literal's
  `mask_overhang`;
* `findSVerm`: the same with one byte, the offset the largest place of the byte;
* a shufti or truffle scan for the bytes at one of the first sixteen places of
  the literals' windows (`reach[i]`, built with `litGuardedByCharReach`
  shortcuts), at the place with the fewest bytes, if there are at most 240.

Of the candidates that every literal has, the search keeps one by
`candidate::operator>`.

**Model.**  An `AccelString` is kept with its fields; its bytes are natural
numbers.  The loops of the source are folds: the check of a candidate against
the literals is `checkLits` (shared by `findDVerm` and `findSVerm`, which only
differ in their compares), a fold in `Option` that stops at the first literal
without the candidate (`goto next_candidate`); the loops that compute
`max_offset` fold that field alone.  `reach` is rebuilt as a list of sixteen
classes at each literal.  `AccelString.OccursAt` states what an occurrence of a
literal is: its window, the mask overhang and the literal, lies in the buffer,
the literal's bytes match up to case for a case-insensitive literal, and its
`msk`/`cmp` bytes, aligned with its end, hold.
-/

namespace Vectorscan
namespace Rose

open Word Hwlm Repeat Nfa.Accel

/-- `MAX_ACCEL_OFFSET`. -/
def maxAccelOffset : Nat := 16

/-- `MAX_SHUFTI_WIDTH`. -/
def maxShuftiWidth : Nat := 240

/-- `struct AccelString`: a literal for the acceleration analysis. -/
structure AccelString where
  s : List Nat
  nocase : Bool
  msk : List Nat
  cmp : List Nat
  groups : UInt64
  deriving DecidableEq, Repr

/-- `mask_overhang`: how far the mask reaches before the literal, once its
leading zero bytes are dropped. -/
def maskOverhang (lit : AccelString) : Nat :=
  let mskTrueSize := lit.msk.length - (lit.msk.takeWhile (· == 0)).length
  if lit.s.length ≥ mskTrueSize then 0 else mskTrueSize - lit.s.length

namespace AccelString

/-- The window of a literal: the mask overhang, then the literal. -/
def windowLen (lit : AccelString) : Nat := maskOverhang lit + lit.s.length

/-- The literal occurs in `buf` with its window starting at `w`.  A zero mask
byte that falls before the buffer reads its first byte, which it ignores. -/
def OccursAt (lit : AccelString) (buf : List Nat) (w : Nat) : Prop :=
  w + lit.windowLen ≤ buf.length ∧
    (∀ k < lit.s.length, charMatches lit.nocase (lit.s.getD k 0) (buf.getD (w + maskOverhang lit + k) 0) = true) ∧
    ∀ m < lit.msk.length, buf.getD (w + lit.windowLen + m - lit.msk.length) 0 &&& lit.msk.getD m 0 = lit.cmp.getD m 0

instance (lit : AccelString) (buf : List Nat) (w : Nat) : Decidable (lit.OccursAt buf w) :=
  inferInstanceAs (Decidable (_ ∧ (∀ k < lit.s.length, _) ∧ ∀ m < lit.msk.length, _))

end AccelString

/-! ## The candidate searches -/

/-- The search loop of `findDVerm` and `findSVerm` over the places `j < bound`
of one literal: `found` and `found_nc` when it stops, at the first place where
`found` holds.  `exact j` and `nc j` are the compares without and with
`CASE_CLEAR`; with `b5insens` only the second counts. -/
def searchLoop (exact nc : Nat → Bool) (b5insens : Bool) (bound : Nat) : Bool × Bool :=
  (List.range bound).foldl (fun (found, foundNc) j =>
    if found then (found, foundNc)
    else
      let found := found || exact j
      let foundNc := foundNc || nc j
      (if b5insens then foundNc else found, foundNc)) (false, false)

/-- The check of a candidate against the literals, in `findDVerm` and
`findSVerm`: it only sets `b5insens`, when a case-insensitive literal forces it
(`needsNocase`) or when a literal has the candidate only up to case, and it
goes on to the next candidate (`none`) at the first literal that does not have
it. -/
def checkLits (needsNocase : AccelString → Bool) (exact nc : AccelString → Nat → Bool) (bound : AccelString → Nat)
    (b5insens : Bool) (lits : List AccelString) : Option Bool :=
  lits.foldlM (fun b5insens lit =>
    let b5insens := b5insens || needsNocase lit
    let (found, foundNc) := searchLoop (exact lit) (nc lit) b5insens (bound lit)
    if !b5insens && !found && foundNc then some true
    else if found then some b5insens
    else none) b5insens

/-- The pair compare of `findDVerm` at place `j` of `s`. -/
def pairAt (c1 c2 : Nat) (b5insens : Bool) (s : List Nat) (j : Nat) : Bool :=
  if b5insens then
    (c1 &&& caseClear) == (s.getD j 0 &&& caseClear) && (c2 &&& caseClear) == (s.getD (j + 1) 0 &&& caseClear)
  else c1 == s.getD j 0 && c2 == s.getD (j + 1) 0

/-- The places of a literal where `findDVerm` looks for a pair. -/
def dvermBound (lit : AccelString) : Nat := min maxAccelOffset lit.s.length - 1

/-- The `candidate` of `findDVerm`. -/
structure DVermCandidate where
  c1 : Nat
  c2 : Nat
  maxOffset : Nat
  b5insens : Bool
  valid : Bool
  deriving DecidableEq, Repr

namespace DVermCandidate

/-- `candidate()`. -/
def empty : DVermCandidate := ⟨0, 0, 0, false, false⟩

/-- `candidate(base, offset)`. -/
def ofLit (base : AccelString) (offset : Nat) : DVermCandidate :=
  ⟨base.s.getD offset 0, base.s.getD (offset + 1) 0, 0, false, true⟩

/-- `cdiffers`. -/
def cdiffers (x : DVermCandidate) : Bool :=
  if !x.b5insens then x.c1 != x.c2 else (x.c1 &&& caseClear) != (x.c2 &&& caseClear)

/-- `operator>`. -/
def gt (x other : DVermCandidate) : Bool :=
  if !x.valid then false
  else if !other.valid then true
  else if other.cdiffers && !x.cdiffers then false
  else if !other.cdiffers && x.cdiffers then true
  else if !other.b5insens && x.b5insens then false
  else if other.b5insens && !x.b5insens then true
  else if x.maxOffset > other.maxOffset then false
  else true

end DVermCandidate

/-- The offset loop of `findDVerm`: the first place of the pair in each
literal, plus the literal's mask overhang, at least. -/
def dvermMaxOffset (curr : DVermCandidate) (lits : List AccelString) : Nat :=
  lits.foldl (fun maxOffset lit =>
    match firstIn (pairAt curr.c1 curr.c2 curr.b5insens lit.s) 0 (dvermBound lit) with
    | some j => max maxOffset (j + maskOverhang lit)
    | none => maxOffset) curr.maxOffset

/-- `findDVerm`; the caller passes at least one literal. -/
def findDVerm (lits : List AccelString) : Option AccelAux :=
  match lits with
  | [] => none
  | first :: _ =>
    let best := (List.range (dvermBound first)).foldl (fun best i =>
      let curr := DVermCandidate.ofLit first i
      match checkLits (fun lit => lit.nocase && (ourisalpha curr.c1 || ourisalpha curr.c2))
          (fun lit => pairAt curr.c1 curr.c2 false lit.s) (fun lit => pairAt curr.c1 curr.c2 true lit.s)
          dvermBound curr.b5insens lits with
      | none => best
      | some b5insens =>
        let curr := { curr with b5insens := b5insens }
        let curr := { curr with maxOffset := dvermMaxOffset curr lits }
        if curr.gt best then curr else best) DVermCandidate.empty
    if !best.valid then none
    else if !best.b5insens then some (.dverm best.c1 best.c2 best.maxOffset)
    else some (.dvermNocase (best.c1 &&& caseClear) (best.c2 &&& caseClear) best.maxOffset)

/-- The byte compare of `findSVerm` at place `j` of `s`. -/
def charAt (c : Nat) (b5insens : Bool) (s : List Nat) (j : Nat) : Bool :=
  if b5insens then (c &&& caseClear) == (s.getD j 0 &&& caseClear) else c == s.getD j 0

/-- The places of a literal where `findSVerm` looks for a byte. -/
def svermBound (lit : AccelString) : Nat := min maxAccelOffset lit.s.length

/-- The `candidate` of `findSVerm`. -/
structure SVermCandidate where
  c : Nat
  maxOffset : Nat
  b5insens : Bool
  valid : Bool
  deriving DecidableEq, Repr

namespace SVermCandidate

/-- `candidate()`. -/
def empty : SVermCandidate := ⟨0, 0, false, false⟩

/-- `candidate(base, offset)`. -/
def ofLit (base : AccelString) (offset : Nat) : SVermCandidate := ⟨base.s.getD offset 0, 0, false, true⟩

/-- `operator>`. -/
def gt (x other : SVermCandidate) : Bool :=
  if !x.valid then false
  else if !other.valid then true
  else if !other.b5insens && x.b5insens then false
  else if other.b5insens && !x.b5insens then true
  else if x.maxOffset > other.maxOffset then false
  else true

end SVermCandidate

/-- The offset loop of `findSVerm`: every place of the byte in each literal,
plus the literal's mask overhang, at least. -/
def svermMaxOffset (curr : SVermCandidate) (lits : List AccelString) : Nat :=
  lits.foldl (fun maxOffset lit =>
    (List.range (svermBound lit)).foldl (fun maxOffset j =>
      if charAt curr.c curr.b5insens lit.s j then max maxOffset (j + maskOverhang lit) else maxOffset)
      maxOffset) curr.maxOffset

/-- `findSVerm`; the caller passes at least one literal. -/
def findSVerm (lits : List AccelString) : Option AccelAux :=
  match lits with
  | [] => none
  | first :: _ =>
    let best := (List.range (svermBound first)).foldl (fun best i =>
      let curr := SVermCandidate.ofLit first i
      match checkLits (fun lit => lit.nocase && ourisalpha curr.c) (fun lit => charAt curr.c false lit.s)
          (fun lit => charAt curr.c true lit.s) svermBound curr.b5insens lits with
      | none => best
      | some b5insens =>
        let curr := { curr with b5insens := b5insens }
        let curr := { curr with maxOffset := svermMaxOffset curr lits }
        if curr.gt best then curr else best) SVermCandidate.empty
    if !best.valid then none
    else if !best.b5insens then some (.verm best.c best.maxOffset)
    else some (.vermNocase (best.c &&& caseClear) best.maxOffset)

/-! ## The shufti and truffle fallback -/

/-- `filterLits`: the literals whose groups meet the mask (the minimum length
that it also computes is not read by the scheme search). -/
def filterLits (lits : List AccelString) (expectedGroups : UInt64) : List AccelString :=
  lits.filter fun lit => lit.groups &&& expectedGroups != 0

/-- `litGuardedByCharReach`: a byte of the literal at a place up to
`maxOffset` is in the class already (both cases of it for a case-insensitive
literal). -/
def litGuardedByCharReach (cr : CharReach) (lit : AccelString) (maxOffset : Nat) : Bool :=
  (List.range (min (maxOffset + 1) lit.s.length)).any fun i =>
    let c := lit.s.getD i 0
    if lit.nocase then cr.testBit (mytoupper c) && cr.testBit (mytolower c) else cr.testBit c

/-- The bytes `j` with `j & msk == cmp`, added to a class. -/
def reachMasked (cr : CharReach) (m v : Nat) : CharReach :=
  (List.range 256).foldl (fun cr j => if j &&& m == v then crSet cr j else cr) cr

/-- What one literal adds to `reach[i]`: at a place of the overhang, the bytes
that pass its `msk`/`cmp` byte there; at a place of the literal (or past its
end, its last byte), its byte there unless the class guards the literal
already. -/
def reachAdd (lit : AccelString) (i : Nat) (cr : CharReach) : CharReach :=
  let overhang := maskOverhang lit
  if i < overhang then reachMasked cr (lit.msk.getD i 0) (lit.cmp.getD i 0)
  else
    let iEffective := i - overhang
    if litGuardedByCharReach cr lit iEffective then cr
    else
      let c := if iEffective < lit.s.length then lit.s.getD iEffective 0 else lit.s.getLastD 0
      if lit.nocase then crSet (crSet cr (mytoupper c)) (mytolower c) else crSet cr c

/-- `reach`: the classes of the first sixteen places of the windows of the
literals whose groups meet the mask. -/
def accelReach (lits : List AccelString) (expectedGroups : UInt64) : List CharReach :=
  lits.foldl (fun reach lit =>
    if lit.groups &&& expectedGroups == 0 then reach
    else (List.range maxAccelOffset).map fun i => reachAdd lit i (reach.getD i 0))
    (List.replicate maxAccelOffset 0)

/-- `min_count` and `min_offset`: the first place with the fewest bytes. -/
def minReach (reach : List CharReach) : Nat × Nat :=
  (List.range maxAccelOffset).foldl (fun (minCount, minOffset) i =>
    let count := crCount (reach.getD i 0)
    if count < minCount then (count, i) else (minCount, minOffset)) (0xFFFFFFFF, 0xFFFFFFFF)

/-- `findForwardAccelScheme`: the scheme for the literals whose groups meet
`expectedGroups`; when there is none the zeroed `ACCEL_NONE` stays. -/
def findForwardAccelScheme (lits : List AccelString) (expectedGroups : UInt64) : AccelAux :=
  let filtered := filterLits lits expectedGroups
  if filtered.isEmpty then .none
  else
    match findDVerm filtered with
    | some aux => aux
    | none =>
      match findSVerm filtered with
      | some aux => aux
      | none =>
        let reach := accelReach lits expectedGroups
        let (minCount, minOffset) := minReach reach
        if minCount > maxShuftiWidth then .none
        else
          let cr := reach.getD minOffset 0
          match shuftiBuildMasks cr with
          | some (lo, hi) => .shufti lo hi minOffset
          | none => .truffle (truffleBuildMasks cr).1 (truffleBuildMasks cr).2 minOffset

/-- `buildForwardAccel`: `accel1` for the initial groups, `accel0` for all. -/
def buildForwardAccel (h : HWLM) (lits : List AccelString) (expectedGroups : UInt64) : HWLM :=
  { h with
    accel1 := findForwardAccelScheme lits expectedGroups
    accel0 := findForwardAccelScheme lits hwlmAllGroups
    accel1Groups := expectedGroups }

end Rose
end Vectorscan
