import Mathlib.Algebra.Group.Nat.Defs
import Mathlib.Data.List.Basic
import Mathlib.Order.Basic

/-!
# The noodle literal matcher

The noodle engine finds the occurrences of one literal of at most eight bytes
(`src/hwlm/noodle_build.cpp`, `noodle_engine.cpp`, `noodle_engine_simd.hpp`).
The build folds the literal and its `msk`/`cmp` bytes into one 64-bit mask and
comparand and picks a key: the first byte of the literal that differs from
the next (`findNoodFragOffset`), or the only byte.  The scan compares vectors
of `S` bytes with the key (one byte, or two adjacent bytes), one bit per byte,
and confirms each candidate against the mask and comparand (`final`).

**Model.**  A buffer is its list of bytes, with the address it starts at, which
decides where the aligned part of the scan begins (`ROUNDUP_PTR`).  A vector
compare is `eqMask`: bit `j` set when byte `j` of the vector equals the key.
The masks are those of an x86 `SuperVector<S>` (one bit per byte,
`Z_SHIFT = S - 1`, identity `iteration_mask`); they are natural numbers,
since the bits that a 32-bit comparison mask would drop are cleared by the
masks they are combined with.  The callback appends the end offset to the
list of reports and answers whether to stop.

**Results.**  `noodExec_single_reports_case`: by design the single-byte scan
skips the confirm of a one-byte mask, so a case-insensitive letter with a
one-byte `msk`/`cmp` that fixes its case, a literal no builder hands the
noodle, is reported on a byte of the other case.
-/

namespace Vectorscan
namespace Hwlm

/-! ## Characters -/

/-- `CASE_CLEAR`. -/
def caseClear : Nat := 0xdf

/-- `CASE_BIT`. -/
def caseBit : Nat := 0x20

/-- `myislower`. -/
def myislower (c : Nat) : Bool := decide (97 ≤ c ∧ c ≤ 122)

/-- `mytoupper`. -/
def mytoupper (c : Nat) : Nat := if myislower c then c - 0x20 else c

/-- `mytolower`. -/
def mytolower (c : Nat) : Nat := if decide (65 ≤ c ∧ c ≤ 90) then c + 0x20 else c

/-- `ourisalpha`: the case changes the byte. -/
def ourisalpha (c : Nat) : Bool := mytolower c != mytoupper c

/-! ## The literal and its table -/

/-- The fields of `hwlmLiteral` that the noodle build reads. -/
structure HwlmLiteral where
  s : List Nat
  nocase : Bool
  id : Nat
  msk : List Nat
  cmp : List Nat
  deriving DecidableEq, Repr

/-- `upperString`. -/
def upperString (s : List Nat) : List Nat := s.map mytoupper

/-- `maskIsConsistent`: walking back from the ends of the literal and of its
`msk`/`cmp`, each byte of the literal passes its `msk`/`cmp` byte, with the
case bit of both cleared first for a letter of a case-insensitive literal. -/
def maskIsConsistent (s : List Nat) (nocase : Bool) (msk cmp : List Nat) : Bool :=
  (List.zip s.reverse (List.zip msk.reverse cmp.reverse)).all fun (c, m, v) =>
    if nocase && ourisalpha c then c &&& (m &&& caseClear) == v &&& caseClear else c &&& m == v

/-- The constructor of `hwlmLiteral` with a `msk`/`cmp` pair: a case-insensitive
literal is kept upper-cased, and an all-zero `msk` is dropped with its `cmp`. -/
def hwlmLiteral (s : List Nat) (nocase : Bool) (id : Nat) (msk cmp : List Nat) : HwlmLiteral :=
  let s := if nocase then upperString s else s
  if msk.all (· == 0) then ⟨s, nocase, id, [], []⟩ else ⟨s, nocase, id, msk, cmp⟩

/-- Byte `c` of a literal matches the buffer byte `b`: up to case for a
letter of a case-insensitive literal. -/
def charMatches (nocase : Bool) (c b : Nat) : Bool :=
  if nocase && ourisalpha c then mytoupper b == mytoupper c else b == c

/-- The literal's characters end at `e` in `buf`, and its `msk`/`cmp` bytes
hold on the bytes ending there. -/
def LiteralMatchesAt (lit : HwlmLiteral) (buf : List Nat) (e : Nat) : Prop :=
  (∀ i < lit.s.length, charMatches lit.nocase (lit.s.getD i 0) (buf.getD (e + 1 - lit.s.length + i) 0) = true) ∧
    ∀ j < lit.msk.length, buf.getD (e + 1 - lit.msk.length + j) 0 &&& lit.msk.getD j 0 = lit.cmp.getD j 0

instance (lit : HwlmLiteral) (buf : List Nat) (e : Nat) : Decidable (LiteralMatchesAt lit buf e) :=
  inferInstanceAs (Decidable ((∀ i < lit.s.length, _) ∧ ∀ j < lit.msk.length, _))

/-- What a literal matcher is for: the literal ends at `e` in `buf` when it
matches there and the whole window of the literal and its mask lies in
`[start, len)`. -/
def LiteralEndsAt (lit : HwlmLiteral) (buf : List Nat) (start e : Nat) : Prop :=
  start + max lit.s.length lit.msk.length ≤ e + 1 ∧ e < buf.length ∧ LiteralMatchesAt lit buf e

instance (lit : HwlmLiteral) (buf : List Nat) (start e : Nat) : Decidable (LiteralEndsAt lit buf start e) :=
  inferInstanceAs (Decidable (_ ∧ _ ∧ _))

/-- `struct noodTable`. -/
structure NoodTable where
  id : Nat
  msk : Nat
  cmp : Nat
  mskLen : Nat
  keyOffset : Nat
  nocase : Bool
  single : Bool
  key0 : Nat
  key1 : Nat
  deriving DecidableEq, Repr

/-- `make_u64a_mask`: the bytes, little-endian. -/
def makeU64aMask : List Nat → Nat
  | [] => 0
  | b :: bs => b + 256 * makeU64aMask bs

/-- The loop of `findNoodFragOffset` from index `i`: the first `i` whose byte
differs from the next (case-folded for a case-insensitive letter), else the
last `i` tried. -/
def findNoodFragOffsetFrom (lit : HwlmLiteral) : Nat → Nat → Nat
  | 0, offset => offset
  | fuel + 1, i =>
      if i + 1 < lit.s.length then
        let c := lit.s.getD i 0
        let d := lit.s.getD (i + 1) 0
        let diff := if lit.nocase && ourisalpha c then mytoupper c != mytoupper d else c != d
        if diff then i else findNoodFragOffsetFrom lit fuel (i + 1)
      else i - 1

/-- `findNoodFragOffset`: where the two-byte key starts. -/
def findNoodFragOffset (lit : HwlmLiteral) : Nat :=
  if lit.s.length < 2 then 0 else findNoodFragOffsetFrom lit lit.s.length 0

/-- Byte `i` of the literal's mask: its own `msk` byte, right-aligned, or'd with
the byte that checks the literal's character there. -/
def noodMaskByte (lit : HwlmLiteral) (maskLen i : Nat) : Nat :=
  let mOff := maskLen - lit.msk.length
  let sOff := maskLen - lit.s.length
  let m := if mOff ≤ i then lit.msk.getD (i - mOff) 0 else 0
  let c := lit.s.getD (i - sOff) 0
  let siMsk := if lit.nocase && ourisalpha c then caseClear else 0xff
  if sOff ≤ i then m ||| siMsk else m

/-- Byte `i` of the literal's comparand. -/
def noodCmpByte (lit : HwlmLiteral) (maskLen i : Nat) : Nat :=
  let mOff := maskLen - lit.msk.length
  let sOff := maskLen - lit.s.length
  let v := if mOff ≤ i then lit.cmp.getD (i - mOff) 0 else 0
  let c := lit.s.getD (i - sOff) 0
  let siMsk := if lit.nocase && ourisalpha c then caseClear else 0xff
  if sOff ≤ i then v ||| (c &&& siMsk) else v

/-- `noodBuildTable`. -/
def noodBuildTable (lit : HwlmLiteral) : NoodTable :=
  let maskLen := max lit.s.length lit.msk.length
  let keyOffset := findNoodFragOffset lit
  { id := lit.id
    msk := makeU64aMask ((List.range maskLen).map (noodMaskByte lit maskLen))
    cmp := makeU64aMask ((List.range maskLen).map (noodCmpByte lit maskLen))
    mskLen := maskLen
    keyOffset := lit.s.length - keyOffset
    nocase := lit.nocase
    single := lit.s.length == 1
    key0 := lit.s.getD keyOffset 0
    key1 := if lit.s.length == 1 then 0 else lit.s.getD (keyOffset + 1) 0 }

/-! ## Vectors -/

/-- `partial_load_u64a` of `n` bytes of `buf` from `p`, little-endian. -/
def partialLoad (buf : List Nat) (p n : Nat) : Nat :=
  makeU64aMask ((List.range n).map fun j => buf.getD (p + j) 0)

/-- `SuperVector<S>::eqmask` of a vector against a key repeated in every byte. -/
def eqMask (v : List Nat) (k : Nat) : Nat :=
  ((List.range v.length).filter fun j => v.getD j 0 == k).foldr (fun j z => z ||| 1 <<< j) 0

/-- `loadu`/`load` of `S` bytes from `p`, each and'ed with the case mask. -/
def loadVec (S : Nat) (buf : List Nat) (cm p : Nat) : List Nat :=
  (List.range S).map fun j => buf.getD (p + j) 0 &&& cm

/-- The vector of the short scans: `l` bytes copied into zeroes (`memcpy`). -/
def loadShort (S : Nat) (buf : List Nat) (cm p l : Nat) : List Nat :=
  (List.range S).map fun j => (if j < l then buf.getD (p + j) 0 else 0) &&& cm

/-- The bits of a comparison mask, lowest first (`findAndClearLSB`). -/
def maskBits (S z : Nat) : List Nat := (List.range S).filter fun j => z.testBit j

/-! ## The scan -/

/-- What a scan has reported so far, and whether the callback stopped it. -/
structure ScanRun where
  reports : List Nat
  terminated : Bool
  deriving DecidableEq, Repr

/-- `final`: confirm the candidate whose key byte is at `pos` and report the
literal's end, `pos + key_offset - 1`; `halt` is the callback's answer. -/
def final (n : NoodTable) (buf : List Nat) (needsConfirm : Bool) (halt : Nat → Bool) (pos : Nat)
    (run : ScanRun) : ScanRun :=
  if needsConfirm && (partialLoad buf (pos + n.keyOffset - n.mskLen) n.mskLen &&& n.msk) != n.cmp then run
  else
    let e := pos + n.keyOffset - 1
    { reports := run.reports ++ [e], terminated := halt e }

/-- The loop of `single_zscan`/`double_zscan` over the bits of `z`: the
candidate of bit `j` has its key byte at `d + j - back` (`back` is one for the
double scan, whose bit marks the second key byte). -/
def zscan (n : NoodTable) (buf : List Nat) (needsConfirm : Bool) (halt : Nat → Bool) (d back : Nat) :
    List Nat → ScanRun → ScanRun
  | [], run => run
  | j :: js, run =>
      if run.terminated then run
      else zscan n buf needsConfirm halt d back js (final n buf needsConfirm halt (d + j - back) run)

section Scan

variable (S : Nat) (n : NoodTable) (buf : List Nat) (addr : Nat) (halt : Nat → Bool)

/-- `single_zscan`. -/
def singleZscan (d z : Nat) (run : ScanRun) : ScanRun :=
  zscan n buf (n.mskLen != 1) halt d 0 (maskBits S z) run

/-- `double_zscan`. -/
def doubleZscan (d z : Nat) (run : ScanRun) : ScanRun :=
  zscan n buf true halt d 1 (maskBits S z) run

/-- `scanSingleShort`. -/
def scanSingleShort (cm k start endOff : Nat) (run : ScanRun) : ScanRun :=
  let l := endOff - start
  if l = 0 then run
  else
    let z := (2 ^ l - 1) &&& eqMask (loadShort S buf cm start l) k
    singleZscan S n buf halt start z run

/-- `scanSingleUnaligned`: a vector loaded at `offset`, of which the bytes
`[start, end)` are scanned. -/
def scanSingleUnaligned (cm k offset start endOff : Nat) (run : ScanRun) : ScanRun :=
  let l := endOff - start
  if l = 0 then run
  else
    let z := ((2 ^ l - 1) <<< (start - offset)) &&& eqMask (loadVec S buf cm offset) k
    singleZscan S n buf halt offset z run

/-- The aligned loop of `scanSingleMain`: `loops` vectors from `d`. -/
def scanSingleLoop (cm k : Nat) : Nat → Nat → ScanRun → ScanRun
  | 0, _, run => run
  | loops + 1, d, run =>
      if run.terminated then run
      else
        let z := eqMask (loadVec S buf cm d) k
        scanSingleLoop cm k loops (d + S) (singleZscan S n buf halt d z run)

/-- `scanSingleMain` from `offset`: the first vector up to an aligned address,
the aligned vectors, the tail. -/
def scanSingleMain (len offset cm k : Nat) (run : ScanRun) : ScanRun :=
  let start := offset + n.mskLen - 1
  let endOff := len
  if endOff - start < S then scanSingleShort S n buf halt cm k start endOff run
  else
    -- peel off the first part to the alignment boundary
    let d1 := (addr + start + (S - 1)) / S * S - addr
    let run := scanSingleUnaligned S n buf halt cm k start start d1 run
    if run.terminated then run
    else
      let loops := (endOff - d1) / S
      let run := scanSingleLoop S n buf halt cm k loops d1 run
      if run.terminated then run
      else
        -- the tail
        let s2End := (addr + endOff) / S * S - addr
        if s2End = endOff then run
        else scanSingleUnaligned S n buf halt cm k (endOff - S) s2End len run

/-- `scanDoubleShort`. -/
def scanDoubleShort (cm k1 k2 start endOff : Nat) (run : ScanRun) : ScanRun :=
  let l := endOff - start
  if l = 0 then run
  else
    let v := loadShort S buf cm start l
    let z := (2 ^ l - 1) &&& (eqMask v k1 <<< 1) &&& eqMask v k2
    doubleZscan S n buf halt start z run

/-- `scanDoubleUnaligned`. -/
def scanDoubleUnaligned (cm k1 k2 offset start endOff : Nat) (run : ScanRun) : ScanRun :=
  let l := endOff - start
  if l = 0 then run
  else
    let v := loadVec S buf cm offset
    let z := ((2 ^ l - 1) <<< (start - offset)) &&& (eqMask v k1 <<< 1) &&& eqMask v k2
    doubleZscan S n buf halt offset z run

/-- The aligned loop of `scanDoubleMain`, with `lastz1`: the first key
compare of the last byte of the vector before. -/
def scanDoubleLoop (cm k1 k2 : Nat) : Nat → Nat → Nat → ScanRun → ScanRun
  | 0, _, _, run => run
  | loops + 1, d, lastz1, run =>
      if run.terminated then run
      else
        let v := loadVec S buf cm d
        let z1 := eqMask v k1
        let z := ((z1 <<< 1) ||| lastz1) &&& eqMask v k2
        scanDoubleLoop cm k1 k2 loops (d + S) (z1 >>> (S - 1)) (doubleZscan S n buf halt d z run)

/-- `scanDoubleMain` from `offset`: the key pair is looked for while the rest
of the literal can still fit. -/
def scanDoubleMain (len offset cm k1 k2 : Nat) (run : ScanRun) : ScanRun :=
  let endOff := len - n.keyOffset + 2
  let start := offset + n.mskLen - n.keyOffset
  if endOff - start < S then scanDoubleShort S n buf halt cm k1 k2 start endOff run
  else
    -- peel off the first part to one past the alignment boundary
    let d1 := (addr + start + (S - 1)) / S * S - addr + 1
    let run := scanDoubleUnaligned S n buf halt cm k1 k2 start start d1 run
    if run.terminated then run
    else
      let loops := (endOff - (d1 - 1)) / S
      let run := scanDoubleLoop S n buf halt cm k1 k2 loops (d1 - 1) 0 run
      if run.terminated then run
      else
        let d := if loops = 0 then d1 else d1 - 1 + loops * S
        -- the tail
        let s2End := (addr + endOff) / S * S - addr
        if s2End = endOff then run
        else scanDoubleUnaligned S n buf halt cm k1 k2 (endOff - S) d endOff run

/-- `caseClear8`. -/
def caseClear8 (x : Nat) (noCase : Bool) : Nat := if noCase then x &&& caseClear else x &&& 0xff

/-- `scanSingle`: the case is ignored only for a letter. -/
def scanSingle (len start : Nat) (noCase : Bool) (run : ScanRun) : ScanRun :=
  let noCase := noCase && ourisalpha n.key0
  let cm := if noCase then caseClear else 0xff
  scanSingleMain S n buf addr halt len start cm (caseClear8 n.key0 noCase) run

/-- `scanDouble`. -/
def scanDouble (len start : Nat) (noCase : Bool) (run : ScanRun) : ScanRun :=
  let cm := if noCase then caseClear else 0xff
  scanDoubleMain S n buf addr halt len start cm (caseClear8 n.key0 noCase) (caseClear8 n.key1 noCase) run

/-- `scan`: nothing to find in fewer bytes than the mask. -/
def scan (len start : Nat) (run : ScanRun) : ScanRun :=
  if len - start < n.mskLen then run
  else if n.single then scanSingle S n buf addr halt len start n.nocase run
  else scanDouble S n buf addr halt len start n.nocase run

end Scan

/-- `noodExec`: the block-mode scan of `buf` at address `addr` from `start`. -/
def noodExec (S : Nat) (n : NoodTable) (buf : List Nat) (addr start : Nat) (halt : Nat → Bool) : ScanRun :=
  scan S n buf addr halt buf.length start ⟨[], false⟩

/-- A one-byte case-insensitive literal "A" whose `msk`/`cmp` byte asks for
the lower case there. -/
def litLowerA : HwlmLiteral := ⟨[65], true, 0, [0x20], [0x20]⟩

end Hwlm
end Vectorscan
