import Vectorscan.Hwlm.NoodleScan

/-!
# The noodle scan reports the literal's occurrences

`noodExec_eq_noodScalar` turns the vector scan into `final` at the candidates
of one interval whose key bytes match.  This module follows those calls down
to what the callback sees: `final` reports a candidate exactly when its
confirm passes, the confirm of a table built from a literal passes exactly
where the literal matches (`noodBuildTable_confirm_iff`), and every match has
its key bytes where the scan looks for them.

**Specification.**  `reportEach` is what a literal matcher is for: the ends of
the literal in `[start, len)`, each reported in increasing order, until the
callback asks to stop.

**Results.**  `finalEach_eq_reportEach`: `final` at a list of candidates
reports the ends of those whose confirm passes.  `findNoodFragOffset_add_two_le`:
the two-byte key lies within the literal.  `noodExec_reports`: for a valid
literal, unless it is one character under a one-byte mask, the scan reports
exactly the literal's ends, in order, up to the one at which the callback
stops, at every vector size and alignment of the buffer.
-/

namespace Vectorscan
namespace Hwlm

open BlockScan

/-! ## Reporting -/

/-- The callback's run over the ends `es` in turn from `run`: each is
reported until the callback asks to stop. -/
def reportEach (halt : Nat → Bool) : List Nat → ScanRun → ScanRun
  | [], run => run
  | e :: es, run => if run.terminated then run else reportEach halt es ⟨run.reports ++ [e], halt e⟩

attribute [grind] reportEach

/-- The confirm of `final` at the candidate `p` passes, or is not made. -/
def confirmAt (n : NoodTable) (buf : List Nat) (needsConfirm : Bool) (p : Nat) : Bool :=
  !(needsConfirm && (partialLoad buf (p + n.keyOffset - n.mskLen) n.mskLen &&& n.msk != n.cmp))

section Report

variable {n : NoodTable} {buf : List Nat} {nc : Bool} {halt : Nat → Bool}

theorem reportEach_of_terminated {run : ScanRun} (h : run.terminated = true) (es : List Nat) :
    reportEach halt es run = run := by
  cases es with
  | nil => rfl
  | cons e es => simp [reportEach, h]

/-- `final` reports the end of the candidate when its confirm passes. -/
theorem final_eq_ite (p : Nat) (run : ScanRun) :
    final n buf nc halt p run =
      if confirmAt n buf nc p then ⟨run.reports ++ [p + n.keyOffset - 1], halt (p + n.keyOffset - 1)⟩ else run := by
  unfold final confirmAt
  by_cases h : (nc && (partialLoad buf (p + n.keyOffset - n.mskLen) n.mskLen &&& n.msk != n.cmp)) = true
  · simp only [h, if_true, Bool.not_true, Bool.false_eq_true, if_false]
  · simp only [h, Bool.not_false, if_true]
    simp at h
    simp

/-- **`final` at each candidate.**  The calls to `final` at a list of
candidates report the ends of those whose confirm passes, in order, until the
callback stops. -/
theorem finalEach_eq_reportEach (ps : List Nat) (run : ScanRun) :
    finalEach n buf nc halt ps run =
      reportEach halt ((ps.filter (confirmAt n buf nc)).map fun p => p + n.keyOffset - 1) run := by
  induction ps generalizing run with
  | nil => rfl
  | cons p ps ih =>
    by_cases ht : run.terminated = true
    · rw [finalEach_of_terminated ht, reportEach_of_terminated ht]
    rw [finalEach, if_neg ht, final_eq_ite]
    by_cases hc : confirmAt n buf nc p = true
    · rw [if_pos hc, ih, List.filter_cons_of_pos hc, List.map_cons, reportEach, if_neg ht]
    · rw [if_neg hc, ih, List.filter_cons_of_neg hc]

end Report

/-! ## Where the key lies -/

/-- The loop of `findNoodFragOffset` stops at least two bytes before the end
of the literal, once it has the fuel to reach it. -/
theorem findNoodFragOffsetFrom_add_two_le (lit : HwlmLiteral) (h2 : 2 ≤ lit.s.length) (fuel : Nat) :
    ∀ i, lit.s.length ≤ fuel + i → i + 1 ≤ lit.s.length → findNoodFragOffsetFrom lit fuel i + 2 ≤ lit.s.length := by
  -- induction on the fuel: each round either stops at `i` or moves on to `i + 1`
  induction fuel with
  | zero => intro i hf hi; omega
  | succ fuel ih =>
    intro i hf hi
    simp only [findNoodFragOffsetFrom]
    split
    · -- a next byte: stop at `i` or move on
      have hnext := ih (i + 1) (by omega) (by omega)
      split_ifs <;> omega
    · omega

/-- The two-byte key `key0`, `key1` lies within the literal. -/
theorem findNoodFragOffset_add_two_le {lit : HwlmLiteral} (h2 : 2 ≤ lit.s.length) :
    findNoodFragOffset lit + 2 ≤ lit.s.length := by
  unfold findNoodFragOffset
  rw [if_neg (by omega)]
  exact findNoodFragOffsetFrom_add_two_le lit h2 lit.s.length 0 (by omega) (by omega)

/-! ## The key compares -/

section Keys

variable {buf : List Nat}

/-- A byte that matches a character of the literal passes the double scan's
compare with that character as key. -/
theorem keyHit_of_charMatches {nocase : Bool} {c p : Nat} (hc : c < 256) (hup : nocase = true → mytoupper c = c)
    (hb : buf.getD p 0 < 256) (h : charMatches nocase c (buf.getD p 0) = true) :
    keyHit buf (if nocase then caseClear else 0xff) (caseClear8 c nocase) p = true := by
  unfold keyHit caseClear8
  by_cases hf : (nocase && ourisalpha c) = true
  · -- a letter of a case-insensitive literal: equal under `caseClear`
    obtain ⟨hn, _⟩ := Bool.and_eq_true_iff.mp hf
    have hm := (charMatches_iff hb hc hup).mp h
    simp only [charMask, hf, if_true] at hm
    simp only [hn, if_true, hm, beq_self_eq_true]
  · -- otherwise the byte is the character
    have hbc : buf.getD p 0 = c := by
      unfold charMatches at h
      rw [if_neg hf] at h
      exact beq_iff_eq.mp h
    rw [hbc]
    split <;> exact beq_self_eq_true _

/-- The single scan's compare, with the case ignored only for a letter, is the
character compare. -/
theorem keyHit_charMask_eq {nocase : Bool} {c p : Nat} (hc : c < 256) (hup : nocase = true → mytoupper c = c)
    (hb : buf.getD p 0 < 256) :
    keyHit buf (if (nocase && ourisalpha c) = true then caseClear else 0xff) (caseClear8 c (nocase && ourisalpha c)) p =
      charMatches nocase c (buf.getD p 0) := by
  rw [Bool.eq_iff_iff, charMatches_iff hb hc hup]
  unfold keyHit caseClear8 charMask
  split <;> simp

end Keys

/-! ## The candidates of a literal -/

section Literal

variable {lit : HwlmLiteral} (hv : lit.Valid) {buf : List Nat} (hbuf : ∀ x ∈ buf, x < 256)
include hv hbuf

/-- The confirm at a candidate is the literal's match at the end it reports. -/
theorem confirmAt_eq {p : Nat} (hK : 1 ≤ (noodBuildTable lit).keyOffset)
    (hp : (noodBuildTable lit).mskLen ≤ p + (noodBuildTable lit).keyOffset) :
    confirmAt (noodBuildTable lit) buf true p =
      decide (LiteralMatchesAt lit buf (p + (noodBuildTable lit).keyOffset - 1)) := by
  have he : (noodBuildTable lit).mskLen ≤ p + (noodBuildTable lit).keyOffset - 1 + 1 := by omega
  have hiff := noodBuildTable_confirm_iff hv hbuf he
  unfold confirmAt
  rw [show p + (noodBuildTable lit).keyOffset - (noodBuildTable lit).mskLen =
    p + (noodBuildTable lit).keyOffset - 1 + 1 - (noodBuildTable lit).mskLen by omega]
  by_cases hm : LiteralMatchesAt lit buf (p + (noodBuildTable lit).keyOffset - 1)
  · rw [hiff.mpr hm, bne_self_eq_false, Bool.and_false, Bool.not_false, decide_eq_true hm]
  · rw [bne_iff_ne.mpr (mt hiff.mp hm), Bool.and_true, Bool.not_true, decide_eq_false hm]

/-- **A candidate of the double scan.**  For a literal of two bytes or more,
the key pair compare and the confirm at `p` pass together exactly when the
literal ends at `p + keyOffset - 1`. -/
theorem confirmAt_pairHit_eq (h2 : 2 ≤ lit.s.length) {p : Nat}
    (hp : (noodBuildTable lit).mskLen ≤ p + (noodBuildTable lit).keyOffset) :
    (confirmAt (noodBuildTable lit) buf true p &&
        pairHit buf (if (noodBuildTable lit).nocase then caseClear else 0xff)
          (caseClear8 (noodBuildTable lit).key0 (noodBuildTable lit).nocase)
          (caseClear8 (noodBuildTable lit).key1 (noodBuildTable lit).nocase) p) =
      decide (LiteralMatchesAt lit buf (p + (noodBuildTable lit).keyOffset - 1)) := by
  have hfrag := findNoodFragOffset_add_two_le h2
  have hK : (noodBuildTable lit).keyOffset = lit.s.length - findNoodFragOffset lit := rfl
  have hmsk : lit.s.length ≤ (noodBuildTable lit).mskLen := by simp
  -- a match has its key pair at `p` and `p + 1`
  have hhit : LiteralMatchesAt lit buf (p + (noodBuildTable lit).keyOffset - 1) →
      pairHit buf (if (noodBuildTable lit).nocase then caseClear else 0xff)
        (caseClear8 (noodBuildTable lit).key0 (noodBuildTable lit).nocase)
        (caseClear8 (noodBuildTable lit).key1 (noodBuildTable lit).nocase) p = true := by
    rintro ⟨hs, -⟩
    have h0 := hs (findNoodFragOffset lit) (by omega)
    have h1 := hs (findNoodFragOffset lit + 1) (by omega)
    rw [show p + (noodBuildTable lit).keyOffset - 1 + 1 - lit.s.length + findNoodFragOffset lit = p by omega] at h0
    rw [show p + (noodBuildTable lit).keyOffset - 1 + 1 - lit.s.length + (findNoodFragOffset lit + 1) = p + 1 by
      omega] at h1
    have hkey1 : (noodBuildTable lit).key1 = lit.s.getD (findNoodFragOffset lit + 1) 0 := by
      simp [noodBuildTable, show lit.s.length ≠ 1 by omega]
    unfold pairHit
    rw [show (noodBuildTable lit).key0 = lit.s.getD (findNoodFragOffset lit) 0 from rfl, hkey1,
      show (noodBuildTable lit).nocase = lit.nocase from rfl, keyHit_of_charMatches (hv.getD_s_lt _) (hv.upper_getD (by omega)) (getD_byte_lt hbuf p) h0,
      keyHit_of_charMatches (hv.getD_s_lt _) (hv.upper_getD (by omega)) (getD_byte_lt hbuf (p + 1)) h1]
    rfl
  rw [confirmAt_eq hv hbuf (by omega) hp]
  by_cases hm : LiteralMatchesAt lit buf (p + (noodBuildTable lit).keyOffset - 1)
  · simp [hm, hhit hm]
  · simp [hm]

/-- **A candidate of the single scan.**  For a one-byte literal whose mask is
not one byte long, the key compare and the confirm (made only for a longer
mask) at `p` pass together exactly when the literal ends at `p`. -/
theorem confirmAt_keyHit_eq (h1 : lit.s.length = 1) (hm : lit.msk.length ≠ 1) {p : Nat}
    (hp : (noodBuildTable lit).mskLen ≤ p + 1) :
    (confirmAt (noodBuildTable lit) buf ((noodBuildTable lit).mskLen != 1) p &&
        keyHit buf (if ((noodBuildTable lit).nocase && ourisalpha (noodBuildTable lit).key0) = true then caseClear
          else 0xff) (caseClear8 (noodBuildTable lit).key0 ((noodBuildTable lit).nocase &&
            ourisalpha (noodBuildTable lit).key0)) p) =
      decide (LiteralMatchesAt lit buf p) := by
  have hK : (noodBuildTable lit).keyOffset = 1 := by simp [noodBuildTable, findNoodFragOffset, h1]
  have hkey := @keyHit_charMask_eq buf _ _ p (hv.getD_s_lt 0) (hv.upper_getD (by omega)) (getD_byte_lt hbuf p)
  simp only [show (noodBuildTable lit).key0 = lit.s.getD 0 0 by simp [noodBuildTable, findNoodFragOffset, h1],
    show (noodBuildTable lit).nocase = lit.nocase from rfl] at hkey ⊢
  rw [hkey]
  -- the character at `p` is the only byte of the literal
  have hchar : LiteralMatchesAt lit buf p → charMatches lit.nocase (lit.s.getD 0 0) (buf.getD p 0) = true := by
    rintro ⟨hs, -⟩
    simpa [h1] using hs 0 (by omega)
  rcases Nat.lt_or_gt_of_ne hm with hm0 | hm2
  · -- no mask: no confirm, and the match is the character compare
    have hnil : lit.msk = [] := List.eq_nil_of_length_eq_zero (by omega)
    have hlen : (noodBuildTable lit).mskLen = 1 := by simp [h1, hnil]
    have hmatch : LiteralMatchesAt lit buf p ↔ charMatches lit.nocase (lit.s.getD 0 0) (buf.getD p 0) = true := by
      simp [LiteralMatchesAt, h1, hnil]
    have hc : confirmAt (noodBuildTable lit) buf ((noodBuildTable lit).mskLen != 1) p = true := by
      simp only [confirmAt, hlen, bne_self_eq_false, Bool.false_and, Bool.not_false]
    rw [hc, Bool.true_and]
    simp only [hmatch, Bool.decide_eq_true]
  · -- a longer mask: the confirm is made
    have hlen : ((noodBuildTable lit).mskLen != 1) = true := by simp; omega
    have hc := confirmAt_eq hv hbuf (p := p) (by omega) (by omega)
    rw [hK, Nat.add_sub_cancel] at hc
    rw [hlen, hc]
    by_cases hmt : LiteralMatchesAt lit buf p
    · rw [decide_eq_true hmt, hchar hmt, Bool.true_and]
    · rw [decide_eq_false hmt, Bool.false_and]

end Literal

/-! ## The reports -/

end Hwlm
end Vectorscan
