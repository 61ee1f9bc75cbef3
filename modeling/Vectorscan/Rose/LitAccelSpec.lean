import Mathlib.Data.List.TakeWhile
import Vectorscan.Hwlm.NoodleBuild
import Vectorscan.Rose.LitAccel

/-!
# The literal matcher's acceleration skips no literal

A scheme built by `findForwardAccelScheme` serves a literal (`Covers`) when,
wherever the literal occurs, the scheme stops within `offset` bytes after the
start of the literal's window and inside the window.  Then the start that
`do_accel_block` and `do_accel_streaming` hand to FDR is never past a window,
in the builds whose vector scanners are their specification (vectors of 16 or
32 bytes); with vectors of 64 bytes the single vermicelli's tail misses bytes,
and so does the block scan.

**Results.**  `findDVerm_covers`, `findSVerm_covers`: the pair or byte that the
searches keep is in every literal, within the offset they record, exactly or
up to case as the scheme compares (`DGood`, `SGood`: the best candidate so far
serves every literal).  `accelReach_covers`: every place `i` of `reach` holds a
byte of every occurrence, at most `i` bytes into its window.
`findForwardAccelScheme_covers`: the scheme serves every literal whose groups
meet the mask.  `hwlmAccel_no_skip`: with vectors of any size but 64, the
block and streaming scans, and the entry points that run them before FDR,
never move the start past the window of an occurrence of such a literal.
`hwlmAccel_skips_window_sixty_four`: with vectors of 64 bytes they do, for the
literal `a` after 64 other bytes.
-/

namespace Vectorscan
namespace Rose

open Word Hwlm Repeat Nfa.Accel

/-! ## Characters up to case -/

theorem mytoupper_of_not_alpha {c : Nat} (h : ourisalpha c = false) : mytoupper c = c := by
  have hnl : ¬ (97 ≤ c ∧ c ≤ 122) := fun hl => by
    have := ourisalpha_iff.2 (Or.inr hl)
    simp_all
  simp [mytoupper, myislower, hnl]

/-- A byte that upper-cases to the upper case of a character is one of its two cases. -/
theorem eq_upper_or_lower {b c : Nat} (h : mytoupper b = mytoupper c) : b = mytoupper c ∨ b = mytolower c := by
  simp only [mytoupper, mytolower, myislower, decide_eq_true_eq] at h ⊢
  split_ifs at h ⊢ <;> omega

theorem eq_of_charMatches {nocase : Bool} {c b : Nat} (hc : (nocase && ourisalpha c) = false)
    (h : charMatches nocase c b = true) : b = c := by
  simpa [charMatches, hc] using h

/-- A byte that matches a character agrees with it under `CASE_CLEAR`. -/
theorem and_caseClear_of_charMatches {nocase : Bool} {c b : Nat} (hb : b < 256)
    (h : charMatches nocase c b = true) : b &&& caseClear = c &&& caseClear := by
  unfold charMatches at h
  split at h
  · rename_i hf
    have ha : ourisalpha c = true := (Bool.and_eq_true_iff.mp hf).2
    have hup : 65 ≤ mytoupper c ∧ mytoupper c ≤ 90 := by
      rw [ourisalpha_iff] at ha
      unfold mytoupper myislower
      split_ifs with hl <;> simp at hl <;> omega
    have hc : c < 256 := by
      rw [ourisalpha_iff] at ha
      omega
    rw [(mytoupper_eq_iff hb hup).mp (beq_iff_eq.mp h), (mytoupper_eq_iff hc hup).mp rfl]
  · rw [beq_iff_eq.mp h]

/-- A class that has a character (both cases of it for a case-insensitive
compare) has every byte that matches it. -/
theorem test_of_charMatches {cr : CharReach} {nocase : Bool} {c b : Nat} (h : charMatches nocase c b = true)
    (hcr : (if nocase then cr.testBit (mytoupper c) && cr.testBit (mytolower c) else cr.testBit c) = true) :
    cr.testBit b = true := by
  by_cases hf : (nocase && ourisalpha c) = true
  · obtain ⟨hn, ha⟩ := Bool.and_eq_true_iff.mp hf
    rw [if_pos hn, Bool.and_eq_true_iff] at hcr
    have hup : mytoupper b = mytoupper c := by simpa [charMatches, hf] using h
    rcases eq_upper_or_lower hup with rfl | rfl
    · exact hcr.1
    · exact hcr.2
  · have hbc := eq_of_charMatches (Bool.eq_false_iff.mpr hf) h
    subst hbc
    cases hn : nocase
    · simpa [hn] using hcr
    · have ha : ourisalpha b = false := by simpa [hn] using hf
      rw [hn, if_pos rfl, mytoupper_of_not_alpha ha, Bool.and_eq_true_iff] at hcr
      exact hcr.1

/-! ## The window of an occurrence -/

section Window

variable (lit : AccelString)

/-- The leading zero bytes of the mask, which `mask_overhang` drops. -/
def leadingZeros : Nat := (lit.msk.takeWhile (· == 0)).length

theorem leadingZeros_le : leadingZeros lit ≤ lit.msk.length :=
  (List.takeWhile_prefix _).length_le

theorem getD_msk_of_lt_leadingZeros {i : Nat} (hi : i < leadingZeros lit) : lit.msk.getD i 0 = 0 := by
  have hpre := @List.takeWhile_prefix _ lit.msk (fun x => x == 0)
  have hmsk : i < lit.msk.length := Nat.lt_of_lt_of_le hi (leadingZeros_le lit)
  rw [List.getD_eq_getElem _ _ hmsk, ← hpre.getElem hi]
  simpa using List.mem_takeWhile_imp (List.getElem_mem hi)

/-- With an overhang, the window is the mask less its leading zeros. -/
theorem windowLen_of_overhang (h : 0 < maskOverhang lit) :
    lit.windowLen = lit.msk.length - leadingZeros lit := by
  unfold AccelString.windowLen maskOverhang at *
  unfold leadingZeros
  dsimp only at h ⊢
  split_ifs at h ⊢ <;> omega

theorem maskOverhang_le : maskOverhang lit ≤ lit.msk.length - leadingZeros lit := by
  unfold maskOverhang leadingZeros
  dsimp only
  split <;> omega

end Window

/-! ## What a scheme must do for a literal -/

/-- The scheme serves the literal: wherever the literal occurs in a buffer of
bytes, the scheme stops within `offset` bytes after the start of its window and
inside the window. -/
def Covers (aux : AccelAux) (lit : AccelString) : Prop :=
  ∀ (buf : List Nat) (w : Nat), (∀ x ∈ buf, x < 256) → lit.OccursAt buf w →
    aux.StopsNear buf w (w + lit.windowLen)

theorem stopsNear_mono {aux : AccelAux} {buf : List Nat} {w e e' : Nat} (h : aux.StopsNear buf w e) (he : e ≤ e') :
    aux.StopsNear buf w e' := by
  obtain ⟨q, h1, h2, h3, h4⟩ := h
  exact ⟨q, h1, h2, by omega, h4⟩

/-- `ACCEL_NONE` stops at once, at the start of every window. -/
theorem covers_none {lit : AccelString} (hs : lit.s ≠ []) : Covers .none lit := by
  intro buf w _ _
  have hlen : 0 < lit.s.length := List.length_pos_of_ne_nil hs
  exact ⟨w, le_rfl, by simp [AccelAux.offset], by simp [AccelString.windowLen]; omega, rfl⟩

/-! ## The candidate searches -/

section Search

/-- What the search loop finds is there. -/
theorem searchLoop_spec (exact nc : Nat → Bool) (b5insens : Bool) (bound : Nat) :
    ((searchLoop exact nc b5insens bound).1 = true →
        ∃ j < bound, (if b5insens then nc j else exact j) = true) ∧
      ((searchLoop exact nc b5insens bound).2 = true → ∃ j < bound, nc j = true) := by
  unfold searchLoop
  -- the invariant of the loop: `found` and `found_nc` were each seen at some place
  refine List.foldlRecOn (motive := fun st : Bool × Bool =>
    (st.1 = true → ∃ j < bound, (if b5insens then nc j else exact j) = true) ∧ (st.2 = true → ∃ j < bound, nc j = true))
    _ _ (by simp) ?_
  rintro ⟨found, foundNc⟩ ⟨hf, hnc⟩ j hj
  have hjb : j < bound := List.mem_range.mp hj
  dsimp only
  split
  · exact ⟨hf, hnc⟩
  · have hnc' : (foundNc || nc j) = true → ∃ j < bound, nc j = true := by
      intro h
      rcases Bool.or_eq_true_iff.mp h with h | h
      · exact hnc h
      · exact ⟨j, hjb, h⟩
    refine ⟨fun h => ?_, hnc'⟩
    cases hb : b5insens
    · rw [hb, if_neg (by simp)] at h
      rename_i hfound
      simp only [Bool.not_eq_true] at hfound
      rw [hfound, Bool.false_or] at h
      exact ⟨j, hjb, by simpa using h⟩
    · rw [hb, if_pos rfl] at h
      obtain ⟨j', hj', h'⟩ := hnc' h
      exact ⟨j', hj', by simpa using h'⟩

variable (needsNocase : AccelString → Bool) (exact nc : AccelString → Nat → Bool) (bound : AccelString → Nat)

/-- The mark that the check leaves on a literal: a forced case-insensitive
compare is on, and the literal has the candidate under the compare. -/
def CheckMark (lit : AccelString) (b5insens : Bool) : Prop :=
  (needsNocase lit = true → b5insens = true) ∧
    ∃ j < bound lit, (if b5insens then nc lit j else exact lit j) = true

/-- **The check keeps its candidate only if every literal has it.**  When the
check runs to its end, every literal has the candidate, under the compare that
the final `b5insens` selects, and a literal that forces a case-insensitive
compare has it. -/
theorem checkLits_spec (hexact : ∀ lit j, exact lit j = true → nc lit j = true) {b b5insens : Bool}
    {lits : List AccelString} (h : checkLits needsNocase exact nc bound b lits = some b5insens) :
    ∀ lit ∈ lits, CheckMark needsNocase exact nc bound lit b5insens := by
  refine Loop.foldlM_forall_mem (CheckMark needsNocase exact nc bound) _ ?_ ?_ lits b b5insens h
  · -- the pass over a literal marks it
    intro b lit b' hstep
    dsimp only at hstep
    obtain ⟨hfound, hfoundNc⟩ := searchLoop_spec (exact lit) (nc lit) (b || needsNocase lit) (bound lit)
    split at hstep
    · rename_i hflip
      obtain rfl := Option.some.inj hstep
      simp only [Bool.and_eq_true, Bool.not_eq_true'] at hflip
      obtain ⟨j, hj, hnc⟩ := hfoundNc hflip.2
      exact ⟨fun _ => rfl, j, hj, by simpa using hnc⟩
    · split at hstep
      · rename_i hf
        obtain rfl := Option.some.inj hstep
        exact ⟨fun hn => by simp [hn], hfound hf⟩
      · cases hstep
  · -- a later pass only turns `b5insens` on, and the compare grows with it
    intro b lit b' y hstep hy
    have hmono : b = true → b' = true := by
      intro hb
      dsimp only at hstep
      split at hstep
      · exact (Option.some.inj hstep).symm
      · split at hstep
        · rw [← Option.some.inj hstep, hb, Bool.true_or]
        · cases hstep
    cases hb : b
    · obtain ⟨hneeds, j, hj, hm⟩ := hy
      rw [hb] at hneeds hm
      cases hb' : b'
      · exact ⟨hb' ▸ hneeds, j, hj, hm⟩
      · exact ⟨fun _ => rfl, j, hj, by simpa using hexact y j (by simpa using hm)⟩
    · rw [hmono hb]
      rw [hb] at hy
      exact hy

end Search

/-! ## The double vermicelli -/

/-- The best candidate so far serves every literal: a forced case-insensitive
compare is on, and the pair is in the literal, under its compare, at a place
whose offset with the overhang is at most `max_offset`. -/
def DGood (lits : List AccelString) (best : DVermCandidate) : Prop :=
  ∀ lit ∈ lits, ((lit.nocase && (ourisalpha best.c1 || ourisalpha best.c2)) = true → best.b5insens = true) ∧
    ∃ j < dvermBound lit, pairAt best.c1 best.c2 best.b5insens lit.s j = true ∧ j + maskOverhang lit ≤ best.maxOffset

theorem pairAt_nocase_of_exact {c1 c2 : Nat} {s : List Nat} {j : Nat} (h : pairAt c1 c2 false s j = true) :
    pairAt c1 c2 true s j = true := by
  simp only [pairAt, Bool.false_eq_true, if_false, Bool.and_eq_true, beq_iff_eq] at h
  simp [pairAt, h.1, h.2]

/-- The offset loop reaches the first place of the pair in every literal that has it. -/
theorem dvermMaxOffset_spec (curr : DVermCandidate) (lits : List AccelString) :
    ∀ lit ∈ lits, (∃ j < dvermBound lit, pairAt curr.c1 curr.c2 curr.b5insens lit.s j = true) →
      ∃ j < dvermBound lit, pairAt curr.c1 curr.c2 curr.b5insens lit.s j = true ∧
        j + maskOverhang lit ≤ dvermMaxOffset curr lits := by
  refine Loop.foldl_forall_mem (fun lit m => (∃ j < dvermBound lit, pairAt curr.c1 curr.c2 curr.b5insens lit.s j = true) →
    ∃ j < dvermBound lit, pairAt curr.c1 curr.c2 curr.b5insens lit.s j = true ∧ j + maskOverhang lit ≤ m) _ ?_ ?_ lits _
  · intro m lit ⟨j, hj, hp⟩
    cases hfirst : firstIn (pairAt curr.c1 curr.c2 curr.b5insens lit.s) 0 (dvermBound lit) with
    | none => exact absurd (firstIn_eq_none_iff.1 hfirst j (Nat.zero_le j) hj) (by simp [hp])
    | some j₀ =>
      obtain ⟨-, hj₀, hp₀, -⟩ := firstIn_eq_some_iff.1 hfirst
      exact ⟨j₀, hj₀, hp₀, Nat.le_max_right _ _⟩
  · intro m lit y hy hex
    obtain ⟨j, hj, hp, hle⟩ := hy hex
    refine ⟨j, hj, hp, ?_⟩
    split <;> omega

/-- A candidate that passes the check, its offset loop run, serves every literal. -/
theorem dGood_of_checkLits {lits : List AccelString} {curr : DVermCandidate} {b5 : Bool}
    (h : checkLits (fun lit => lit.nocase && (ourisalpha curr.c1 || ourisalpha curr.c2))
      (fun lit => pairAt curr.c1 curr.c2 false lit.s) (fun lit => pairAt curr.c1 curr.c2 true lit.s)
      dvermBound curr.b5insens lits = some b5) :
    DGood lits { curr with b5insens := b5, maxOffset := dvermMaxOffset { curr with b5insens := b5 } lits } := by
  intro lit hlit
  obtain ⟨hneeds, j, hj, hm⟩ := checkLits_spec _ _ _ _ (fun _ _ => pairAt_nocase_of_exact) h lit hlit
  have hex : ∃ j < dvermBound lit, pairAt curr.c1 curr.c2 b5 lit.s j = true :=
    ⟨j, hj, by cases b5 <;> simpa using hm⟩
  exact ⟨hneeds, dvermMaxOffset_spec { curr with b5insens := b5 } lits lit hlit hex⟩

/-- The candidate search keeps only candidates that serve every literal. -/
theorem findDVerm_good {lits : List AccelString} {aux : AccelAux} (h : findDVerm lits = some aux) :
    ∃ best, DGood lits best ∧
      (best.b5insens = false ∧ aux = .dverm best.c1 best.c2 best.maxOffset ∨
        best.b5insens = true ∧ aux = .dvermNocase (best.c1 &&& caseClear) (best.c2 &&& caseClear) best.maxOffset) := by
  unfold findDVerm at h
  split at h
  · cases h
  rename_i first rest
  dsimp only at h
  generalize hbest : List.foldl _ DVermCandidate.empty _ = best at h
  -- the running best is the empty candidate or one that serves every literal
  have hinv : best.valid = true → DGood (first :: rest) best := by
    rw [← hbest]
    refine List.foldlRecOn (motive := fun b => b.valid = true → DGood (first :: rest) b) _ _ ?_ ?_
    · intro hvalid
      cases hvalid
    intro b hb i _
    split
    · exact hb
    · rename_i b5 hcheck
      have hgood := dGood_of_checkLits hcheck
      split
      · exact fun _ => hgood
      · exact hb
  split at h
  · cases h
  · rename_i hvalid
    refine ⟨best, hinv (by simpa using hvalid), ?_⟩
    cases hb5 : best.b5insens
    · simp only [hb5, Bool.not_false, ↓reduceIte, Option.some.injEq] at h
      exact Or.inl ⟨rfl, h.symm⟩
    · simp only [hb5, Bool.not_true, Bool.false_eq_true, ↓reduceIte, Option.some.injEq] at h
      exact Or.inr ⟨rfl, h.symm⟩

/-- **The double vermicelli serves every literal it was built for.** -/
theorem findDVerm_covers {lits : List AccelString} {aux : AccelAux} (h : findDVerm lits = some aux)
    {lit : AccelString} (hlit : lit ∈ lits) : Covers aux lit := by
  obtain ⟨best, hgood, hkind⟩ := findDVerm_good h
  intro buf w hbytes hocc
  obtain ⟨hwin, hchars, -⟩ := hocc
  obtain ⟨hneeds, j, hj, hpair, hoff⟩ := hgood lit hlit
  have hjs : j + 1 < lit.s.length := by unfold dvermBound maxAccelOffset at hj; omega
  -- the bytes of the occurrence under the pair
  have hm0 := hchars j (by omega)
  have hm1 := hchars (j + 1) hjs
  rw [← Nat.add_assoc] at hm1
  have hb0 := getD_byte_lt hbytes (w + maskOverhang lit + j)
  have hb1 := getD_byte_lt hbytes (w + maskOverhang lit + j + 1)
  have hq : w + maskOverhang lit + j < w + lit.windowLen := by simp only [AccelString.windowLen]; omega
  rcases hkind with ⟨hb5, rfl⟩ | ⟨hb5, rfl⟩
  · -- a case-sensitive pair: the literal's bytes under it are compared exactly
    rw [hb5] at hpair hneeds
    simp only [pairAt, Bool.false_eq_true, if_false, Bool.and_eq_true, beq_iff_eq] at hpair
    have hfold : (lit.nocase && (ourisalpha best.c1 || ourisalpha best.c2)) = false :=
      Bool.eq_false_iff.mpr fun hn => absurd (hneeds hn) (by simp)
    have hc1 : (lit.nocase && ourisalpha (lit.s.getD j 0)) = false := by
      rw [← hpair.1]
      revert hfold
      cases lit.nocase <;> cases ourisalpha best.c1 <;> simp
    have hc2 : (lit.nocase && ourisalpha (lit.s.getD (j + 1) 0)) = false := by
      rw [← hpair.2]
      revert hfold
      cases lit.nocase <;> cases ourisalpha best.c2 <;> simp
    refine ⟨w + maskOverhang lit + j, by omega, by simp only [AccelAux.offset]; omega, hq, ?_⟩
    simp only [AccelAux.hit, dvermHit, vermHit, Bool.false_eq_true, ↓reduceIte, eq_of_charMatches hc1 hm0,
      eq_of_charMatches hc2 hm1, hpair.1, hpair.2, beq_self_eq_true, Bool.and_self]
  · -- a case-insensitive pair: the bytes agree with it under `CASE_CLEAR`
    rw [hb5] at hpair
    simp only [pairAt, if_true, Bool.and_eq_true, beq_iff_eq] at hpair
    refine ⟨w + maskOverhang lit + j, by omega, by simp only [AccelAux.offset]; omega, hq, ?_⟩
    simp only [AccelAux.hit, dvermHit, vermHit, ↓reduceIte, and_caseClear_of_charMatches hb0 hm0,
      and_caseClear_of_charMatches hb1 hm1, hpair.1, hpair.2, beq_self_eq_true, Bool.and_self]

/-! ## The single vermicelli -/

/-- The best candidate so far serves every literal, as in `DGood`, with one byte. -/
def SGood (lits : List AccelString) (best : SVermCandidate) : Prop :=
  ∀ lit ∈ lits, ((lit.nocase && ourisalpha best.c) = true → best.b5insens = true) ∧
    ∃ j < svermBound lit, charAt best.c best.b5insens lit.s j = true ∧ j + maskOverhang lit ≤ best.maxOffset

theorem charAt_nocase_of_exact {c : Nat} {s : List Nat} {j : Nat} (h : charAt c false s j = true) :
    charAt c true s j = true := by
  simp only [charAt, Bool.false_eq_true, if_false, beq_iff_eq] at h
  simp [charAt, h]

/-- The offset loop reaches every place of the byte in every literal. -/
theorem svermMaxOffset_spec (curr : SVermCandidate) (lits : List AccelString) :
    ∀ lit ∈ lits, ∀ j < svermBound lit, charAt curr.c curr.b5insens lit.s j = true →
      j + maskOverhang lit ≤ svermMaxOffset curr lits := by
  -- the loop over the places of one literal, and over the literals, only raise `max_offset`
  have hinner : ∀ (lit : AccelString) (m : Nat),
      (∀ j < svermBound lit, charAt curr.c curr.b5insens lit.s j = true →
        j + maskOverhang lit ≤ (List.range (svermBound lit)).foldl (fun m j =>
          if charAt curr.c curr.b5insens lit.s j then max m (j + maskOverhang lit) else m) m) ∧
      m ≤ (List.range (svermBound lit)).foldl (fun m j =>
          if charAt curr.c curr.b5insens lit.s j then max m (j + maskOverhang lit) else m) m := by
    intro lit m
    refine ⟨fun j hj hc => ?_, ?_⟩
    · refine Loop.foldl_forall_mem (fun j m => charAt curr.c curr.b5insens lit.s j = true → j + maskOverhang lit ≤ m)
        _ ?_ ?_ _ m j (List.mem_range.mpr hj) hc
      · intro m j hc'
        rw [if_pos hc']
        exact Nat.le_max_right _ _
      · intro m j y hy hc'
        have hle := hy hc'
        split <;> omega
    · refine List.foldlRecOn (motive := fun m' => m ≤ m') _ _ le_rfl ?_
      intro m' hm j _
      split <;> omega
  refine Loop.foldl_forall_mem (fun lit m => ∀ j < svermBound lit, charAt curr.c curr.b5insens lit.s j = true →
    j + maskOverhang lit ≤ m) _ ?_ ?_ lits _
  · intro m lit
    exact (hinner lit m).1
  · intro m lit y hy j hj hc
    exact le_trans (hy j hj hc) (hinner lit m).2

/-- A candidate that passes the check, its offset loop run, serves every literal. -/
theorem sGood_of_checkLits {lits : List AccelString} {curr : SVermCandidate} {b5 : Bool}
    (h : checkLits (fun lit => lit.nocase && ourisalpha curr.c) (fun lit => charAt curr.c false lit.s)
      (fun lit => charAt curr.c true lit.s) svermBound curr.b5insens lits = some b5) :
    SGood lits { curr with b5insens := b5, maxOffset := svermMaxOffset { curr with b5insens := b5 } lits } := by
  intro lit hlit
  obtain ⟨hneeds, j, hj, hm⟩ := checkLits_spec _ _ _ _ (fun _ _ => charAt_nocase_of_exact) h lit hlit
  have hc : charAt curr.c b5 lit.s j = true := by cases b5 <;> simpa using hm
  exact ⟨hneeds, j, hj, hc, svermMaxOffset_spec { curr with b5insens := b5 } lits lit hlit j hj hc⟩

/-- The candidate search keeps only candidates that serve every literal. -/
theorem findSVerm_good {lits : List AccelString} {aux : AccelAux} (h : findSVerm lits = some aux) :
    ∃ best, SGood lits best ∧
      (best.b5insens = false ∧ aux = .verm best.c best.maxOffset ∨
        best.b5insens = true ∧ aux = .vermNocase (best.c &&& caseClear) best.maxOffset) := by
  unfold findSVerm at h
  split at h
  · cases h
  rename_i first rest
  dsimp only at h
  generalize hbest : List.foldl _ SVermCandidate.empty _ = best at h
  -- the running best is the empty candidate or one that serves every literal
  have hinv : best.valid = true → SGood (first :: rest) best := by
    rw [← hbest]
    refine List.foldlRecOn (motive := fun b => b.valid = true → SGood (first :: rest) b) _ _ ?_ ?_
    · intro hvalid
      cases hvalid
    intro b hb i _
    split
    · exact hb
    · rename_i b5 hcheck
      have hgood := sGood_of_checkLits hcheck
      split
      · exact fun _ => hgood
      · exact hb
  split at h
  · cases h
  · rename_i hvalid
    refine ⟨best, hinv (by simpa using hvalid), ?_⟩
    cases hb5 : best.b5insens
    · simp only [hb5, Bool.not_false, ↓reduceIte, Option.some.injEq] at h
      exact Or.inl ⟨rfl, h.symm⟩
    · simp only [hb5, Bool.not_true, Bool.false_eq_true, ↓reduceIte, Option.some.injEq] at h
      exact Or.inr ⟨rfl, h.symm⟩

/-- **The single vermicelli serves every literal it was built for.** -/
theorem findSVerm_covers {lits : List AccelString} {aux : AccelAux} (h : findSVerm lits = some aux)
    {lit : AccelString} (hlit : lit ∈ lits) : Covers aux lit := by
  obtain ⟨best, hgood, hkind⟩ := findSVerm_good h
  intro buf w hbytes hocc
  obtain ⟨hwin, hchars, -⟩ := hocc
  obtain ⟨hneeds, j, hj, hchar, hoff⟩ := hgood lit hlit
  have hjs : j < lit.s.length := by unfold svermBound maxAccelOffset at hj; omega
  have hm := hchars j hjs
  have hb := getD_byte_lt hbytes (w + maskOverhang lit + j)
  have hq : w + maskOverhang lit + j < w + lit.windowLen := by simp only [AccelString.windowLen]; omega
  rcases hkind with ⟨hb5, rfl⟩ | ⟨hb5, rfl⟩
  · -- a case-sensitive byte: the literal's byte there is compared exactly
    rw [hb5] at hchar hneeds
    simp only [charAt, Bool.false_eq_true, if_false, beq_iff_eq] at hchar
    have hc : (lit.nocase && ourisalpha (lit.s.getD j 0)) = false := by
      rw [← hchar]
      exact Bool.eq_false_iff.mpr fun hn => absurd (hneeds hn) (by simp)
    refine ⟨w + maskOverhang lit + j, by omega, by simp only [AccelAux.offset]; omega, hq, ?_⟩
    simp only [AccelAux.hit, vermHit, Bool.false_eq_true, ↓reduceIte, eq_of_charMatches hc hm, hchar,
      beq_self_eq_true]
  · -- a case-insensitive byte: the byte agrees with it under `CASE_CLEAR`
    rw [hb5] at hchar
    simp only [charAt, if_true, beq_iff_eq] at hchar
    refine ⟨w + maskOverhang lit + j, by omega, by simp only [AccelAux.offset]; omega, hq, ?_⟩
    simp only [AccelAux.hit, vermHit, ↓reduceIte, and_caseClear_of_charMatches hb hm, hchar, beq_self_eq_true]

/-! ## The shufti and truffle fallback -/

/-- The class holds a byte of every occurrence of the literal, at most `i`
bytes into its window. -/
def ReachCovers (lit : AccelString) (i : Nat) (cr : CharReach) : Prop :=
  ∀ (buf : List Nat) (w : Nat), (∀ x ∈ buf, x < 256) → lit.OccursAt buf w →
    ∃ q, w ≤ q ∧ q ≤ w + i ∧ q < w + lit.windowLen ∧ cr.testBit (buf.getD q 0) = true

theorem ReachCovers.mono {lit : AccelString} {i : Nat} {cr cr' : CharReach} (h : ReachCovers lit i cr)
    (hsub : ∀ c, cr.testBit c = true → cr'.testBit c = true) : ReachCovers lit i cr' := by
  intro buf w hbytes hocc
  obtain ⟨q, h1, h2, h3, h4⟩ := h buf w hbytes hocc
  exact ⟨q, h1, h2, h3, hsub _ h4⟩

theorem test_reachMasked (cr : CharReach) (m v b : Nat) :
    (reachMasked cr m v).testBit b = (cr.testBit b || (decide (b < 256) && b &&& m == v)) := by
  unfold reachMasked
  -- the loop over the bytes `j`, from any class
  suffices h : ∀ (l : List Nat) (cr : CharReach),
      (l.foldl (fun cr j => if j &&& m == v then crSet cr j else cr) cr).testBit b =
        (cr.testBit b || (decide (b ∈ l) && b &&& m == v)) by
    simpa using h (List.range 256) cr
  intro l
  induction l with
  | nil => simp
  | cons j l ih =>
    intro cr
    rw [List.foldl_cons, ih]
    by_cases hj : b = j
    · subst hj
      by_cases hm : b &&& m = v
      · have hbeq : (b &&& m == v) = true := beq_iff_eq.mpr hm
        simp [hbeq]
      · have hbeq : (b &&& m == v) = false := beq_eq_false_iff_ne.mpr hm
        simp [hbeq]
    · have hbj : (b == j) = false := beq_eq_false_iff_ne.mpr hj
      split <;> simp [hj, hbj]

theorem test_reachAdd_of_test {lit : AccelString} {i : Nat} {cr : CharReach} {c : Nat} (hc : cr.testBit c = true) :
    (reachAdd lit i cr).testBit c = true := by
  unfold reachAdd
  dsimp only
  split
  · simp [test_reachMasked, hc]
  · split
    · exact hc
    · split <;> simp [hc]

/-- **What one literal adds to `reach[i]` serves it.**  Over the overhang, the
bytes that pass the mask byte at place `i` hold the window's byte there (or,
over the leading zeros of the mask, every byte); over the literal, the class
holds a byte of the literal at place `i` or before. -/
theorem reachAdd_covers {lit : AccelString} (hs : lit.s ≠ []) (i : Nat) (cr : CharReach) :
    ReachCovers lit i (reachAdd lit i cr) := by
  intro buf w hbytes hocc
  obtain ⟨hwin, hchars, hmsk⟩ := hocc
  have hslen : 0 < lit.s.length := List.length_pos_of_ne_nil hs
  unfold reachAdd
  dsimp only
  split
  · rename_i hov
    have hwl := windowLen_of_overhang lit (by omega)
    have hle := maskOverhang_le lit
    have hm := hmsk i (by omega)
    by_cases hz : i < leadingZeros lit
    · -- a leading zero of the mask: it passes every byte, the window's first among them
      rw [getD_msk_of_lt_leadingZeros lit hz, Nat.and_zero] at hm
      refine ⟨w, le_rfl, by omega, by simp only [AccelString.windowLen]; omega, ?_⟩
      rw [test_reachMasked, getD_msk_of_lt_leadingZeros lit hz, ← hm, decide_eq_true (getD_byte_lt hbytes w)]
      simp
    · -- the mask byte at place `i` checks the window's byte `i - leadingZeros`
      have hidx : w + lit.windowLen + i - lit.msk.length = w + (i - leadingZeros lit) := by omega
      rw [hidx] at hm
      refine ⟨w + (i - leadingZeros lit), by omega, by omega, by omega, ?_⟩
      rw [test_reachMasked, hm, decide_eq_true (getD_byte_lt hbytes _)]
      simp
  · rename_i hov
    split
    · -- a byte of the literal up to place `i` guards it already
      rename_i hguard
      obtain ⟨k, hk, hck⟩ := List.any_eq_true.mp hguard
      rw [List.mem_range] at hk
      refine ⟨w + maskOverhang lit + k, by omega, by omega, by simp only [AccelString.windowLen]; omega, ?_⟩
      exact test_of_charMatches (hchars k (by omega)) hck
    · -- the literal's byte at place `i`, or its last byte, goes into the class
      have hk : ∃ k < lit.s.length, k ≤ i - maskOverhang lit ∧
          (if i - maskOverhang lit < lit.s.length then lit.s.getD (i - maskOverhang lit) 0 else lit.s.getLastD 0) =
            lit.s.getD k 0 := by
        split
        · exact ⟨i - maskOverhang lit, by omega, le_rfl, rfl⟩
        · refine ⟨lit.s.length - 1, by omega, by omega, ?_⟩
          rw [List.getLastD_eq_getLast?, List.getLast?_eq_getElem?, List.getD_eq_getElem?_getD]
      obtain ⟨k, hks, hki, hc⟩ := hk
      rw [hc]
      refine ⟨w + maskOverhang lit + k, by omega, by omega, by simp only [AccelString.windowLen]; omega, ?_⟩
      apply test_of_charMatches (hchars k hks)
      cases lit.nocase <;> simp

/-- **`reach` serves every literal whose groups meet the mask, at every place.** -/
theorem accelReach_covers {lits : List AccelString} {G : UInt64} {lit : AccelString} (hl : lit ∈ lits)
    (hg : lit.groups &&& G ≠ 0) (hs : lit.s ≠ []) {i : Nat} (hi : i < maxAccelOffset) :
    ReachCovers lit i ((accelReach lits G).getD i 0) := by
  unfold accelReach
  -- each literal's pass serves it, and the later passes only add bytes
  refine Loop.foldl_forall_mem (fun lit (reach : List CharReach) => lit.groups &&& G ≠ 0 → lit.s ≠ [] →
    ∀ i < maxAccelOffset, ReachCovers lit i (reach.getD i 0)) _ ?_ ?_ lits _ lit hl hg hs i hi
  · intro reach x hgx hsx j hj
    rw [if_neg (by simpa using hgx), getD_map_range _ _ hj]
    exact reachAdd_covers hsx j _
  · intro reach x y hy hgy hsy j hj
    have hold := hy hgy hsy j hj
    split
    · exact hold
    · rw [getD_map_range _ _ hj]
      exact hold.mono fun _ hc => test_reachAdd_of_test hc

theorem crCount_le (cr : CharReach) : crCount cr ≤ 256 := by
  unfold crCount
  exact List.countP_le_length.trans (by simp)

/-- The place of least reach is one of the sixteen places. -/
theorem minReach_lt (reach : List CharReach) : (minReach reach).2 < maxAccelOffset := by
  unfold minReach maxAccelOffset
  rw [List.range_eq_range', List.range'_succ, List.foldl_cons]
  -- a class has at most 256 bytes, so place `0` takes the minimum first
  have h0 : crCount (reach.getD 0 0) < 0xFFFFFFFF := by
    have := crCount_le (reach.getD 0 0)
    omega
  refine List.foldlRecOn (motive := fun st : Nat × Nat => st.2 < 16) _ _ ?_ ?_
  · dsimp only
    rw [if_pos h0]
    simp
  · rintro ⟨mc, mo⟩ hmo i hi
    have hi16 : i < 16 := by
      rw [List.mem_range'_1] at hi
      omega
    dsimp only
    split
    · exact hi16
    · exact hmo

/-! ## The scheme serves every literal -/

/-- **The scheme serves every literal whose groups meet the mask.** -/
theorem findForwardAccelScheme_covers {lits : List AccelString} {G : UInt64} {lit : AccelString}
    (hl : lit ∈ lits) (hg : lit.groups &&& G ≠ 0) (hs : lit.s ≠ []) :
    Covers (findForwardAccelScheme lits G) lit := by
  have hf : lit ∈ filterLits lits G := List.mem_filter.mpr ⟨hl, by simpa using hg⟩
  unfold findForwardAccelScheme
  dsimp only
  split
  · rename_i hempty
    exact absurd (List.isEmpty_iff.mp hempty ▸ hf) (by simp)
  split
  · rename_i aux hd
    exact findDVerm_covers hd hf
  split
  · rename_i aux hsv
    exact findSVerm_covers hsv hf
  split
  · exact covers_none hs
  -- shufti or truffle for the class of least reach
  have hreach := accelReach_covers hl hg hs (minReach_lt (accelReach lits G))
  split
  · rename_i lo hi hmasks
    intro buf w hbytes hocc
    obtain ⟨q, h1, h2, h3, h4⟩ := hreach buf w hbytes hocc
    refine ⟨q, h1, h2, h3, ?_⟩
    rw [AccelAux.hit, shuftiHit_eq_test _ hmasks (getD_byte_lt hbytes q)]
    exact h4
  · intro buf w hbytes hocc
    obtain ⟨q, h1, h2, h3, h4⟩ := hreach buf w hbytes hocc
    refine ⟨q, h1, h2, h3, ?_⟩
    rw [AccelAux.hit, truffleHit_eq_test _ (getD_byte_lt hbytes q)]
    exact h4

/-! ## No window is skipped -/

/-- A group set inside `a` that meets `x` shows that `a` meets `x`. -/
theorem and_ne_zero_of_sub {x g a : UInt64} (h1 : x &&& g ≠ 0) (h2 : g &&& ~~~a = 0) : x &&& a ≠ 0 := by
  intro h3
  apply h1
  -- `g` has no bit outside `a`
  have hg : g = g &&& a := by
    have h2' := congrArg UInt64.toBitVec h2
    apply UInt64.eq_of_toBitVec_eq
    simp only [UInt64.toBitVec_and, UInt64.toBitVec_not, UInt64.toBitVec_zero] at h2' ⊢
    ext i hi
    have hbit := congrArg (fun v => v.getLsbD i) h2'
    simp only [BitVec.getLsbD_and, BitVec.getLsbD_not, BitVec.getLsbD_zero, hi, decide_true, Bool.true_and] at hbit
    simp only [BitVec.getElem_and]
    cases hgi : g.toBitVec[i] <;> cases hai : a.toBitVec[i] <;> simp_all
  calc x &&& g = x &&& (g &&& a) := by rw [← hg]
    _ = (x &&& a) &&& g := by rw [UInt64.and_comm g a, UInt64.and_assoc]
    _ = 0 := by rw [h3, UInt64.zero_and]

/-- The scheme an entry point selects serves every literal whose groups meet
the scan's groups: `accel1` is only taken for groups inside `accel1_groups`. -/
theorem selectAccel_covers (h : HWLM) {lits : List AccelString} {G groups : UInt64} {lit : AccelString}
    (hl : lit ∈ lits) (hg : lit.groups &&& groups ≠ 0) (hs : lit.s ≠ []) :
    Covers (selectAccel (buildForwardAccel h lits G) groups) lit := by
  unfold selectAccel buildForwardAccel
  dsimp only
  split
  · rename_i hsub
    exact findForwardAccelScheme_covers hl (and_ne_zero_of_sub hg hsub) hs
  · refine findForwardAccelScheme_covers hl ?_ hs
    intro h0
    apply hg
    rw [hwlmAllGroups, show lit.groups &&& ~~~0 = lit.groups by simp] at h0
    rw [h0, UInt64.zero_and]

section NoSkip

variable {S : Nat} (hS : 0 < S) (h64 : S ≠ 64) {aux : AccelAux} {lit : AccelString} (hc : Covers aux lit)
include hS h64 hc

/-- `do_accel_block` with a scheme that serves the literal keeps its windows. -/
theorem doAccelBlock_le_of_covers {buf : List Nat} {start w : Nat} (hbytes : ∀ x ∈ buf, x < 256)
    (hocc : lit.OccursAt buf w) (hw : start ≤ w) : doAccelBlock S aux buf start ≤ w :=
  doAccelBlock_le hS h64 hbytes hw (stopsNear_mono (hc buf w hbytes hocc) hocc.1)

/-- `do_accel_streaming` with a scheme that serves the literal keeps its windows. -/
theorem doAccelStreaming_le_of_covers {hbuf buf : List Nat} {start w : Nat} (hbytes : ∀ x ∈ hbuf ++ buf, x < 256)
    (hocc : lit.OccursAt (hbuf ++ buf) w) (hw : start = 0 ∨ hbuf.length + start ≤ w) :
    doAccelStreaming S aux hbuf buf start = 0 ∨ hbuf.length + doAccelStreaming S aux hbuf buf start ≤ w := by
  have hend : w + lit.windowLen ≤ hbuf.length + buf.length := by
    simpa only [List.length_append] using hocc.1
  exact doAccelStreaming_le hS h64 hbytes hw (stopsNear_mono (hc _ w hbytes hocc) hend)

end NoSkip

/-- **Literal acceleration never skips a match.**  In a build with vectors of
any size but 64 bytes, for a literal of the set, with a non-empty string: the
block scan and the streaming scan of the scheme that `findForwardAccelScheme`
builds for a group mask that the literal's groups meet never move the start
past the window of an occurrence of the literal (at or after the start, or in
the history when the streaming scan starts at `0`); and `hwlmExec` and
`hwlmExecStreaming`, on a matcher that `buildForwardAccel` set up, call FDR
from such a start for every scan whose groups the literal's groups meet. -/
theorem hwlmAccel_no_skip {S : Nat} (hS : 0 < S) (h64 : S ≠ 64) {lits : List AccelString} {lit : AccelString}
    (hl : lit ∈ lits) (hs : lit.s ≠ []) :
    (∀ (G : UInt64) (buf : List Nat) (start w : Nat), lit.groups &&& G ≠ 0 → (∀ x ∈ buf, x < 256) →
      lit.OccursAt buf w → start ≤ w → doAccelBlock S (findForwardAccelScheme lits G) buf start ≤ w) ∧
    (∀ (G : UInt64) (hbuf buf : List Nat) (start w : Nat), lit.groups &&& G ≠ 0 → (∀ x ∈ hbuf ++ buf, x < 256) →
      lit.OccursAt (hbuf ++ buf) w → (start = 0 ∨ hbuf.length + start ≤ w) →
      doAccelStreaming S (findForwardAccelScheme lits G) hbuf buf start = 0 ∨
        hbuf.length + doAccelStreaming S (findForwardAccelScheme lits G) hbuf buf start ≤ w) ∧
    (∀ (h : HWLM) (G groups g : UInt64) (buf : List Nat) (start w s : Nat), lit.groups &&& groups ≠ 0 →
      (∀ x ∈ buf, x < 256) → lit.OccursAt buf w → start ≤ w →
      hwlmExec S (buildForwardAccel h lits G) buf start groups = .fdrExec s g → s ≤ w) ∧
    (∀ (h : HWLM) (G groups g : UInt64) (hbuf buf : List Nat) (start w s : Nat), lit.groups &&& groups ≠ 0 →
      (∀ x ∈ hbuf ++ buf, x < 256) → lit.OccursAt (hbuf ++ buf) w → (start = 0 ∨ hbuf.length + start ≤ w) →
      hwlmExecStreaming S (buildForwardAccel h lits G) hbuf buf start groups = .fdrExecStreaming s g →
        s = 0 ∨ hbuf.length + s ≤ w) := by
  refine ⟨?_, ?_, ?_, ?_⟩
  · intro G buf start w hg hbytes hocc hw
    exact doAccelBlock_le_of_covers hS h64 (findForwardAccelScheme_covers hl hg hs) hbytes hocc hw
  · intro G hbuf buf start w hg hbytes hocc hw
    exact doAccelStreaming_le_of_covers hS h64 (findForwardAccelScheme_covers hl hg hs) hbytes hocc hw
  · intro h G groups g buf start w s hg hbytes hocc hw hcall
    unfold hwlmExec at hcall
    split at hcall
    · cases hcall
    split at hcall
    · cases hcall
    · -- FDR runs from where the selected scheme left the start
      obtain ⟨rfl, -⟩ := HwlmCall.fdrExec.inj hcall
      exact doAccelBlock_le_of_covers hS h64 (selectAccel_covers h hl hg hs) hbytes hocc hw
  · intro h G groups g hbuf buf start w s hg hbytes hocc hw hcall
    unfold hwlmExecStreaming at hcall
    split at hcall
    · cases hcall
    split at hcall
    · split at hcall <;> cases hcall
    · obtain ⟨rfl, -⟩ := HwlmCall.fdrExecStreaming.inj hcall
      exact doAccelStreaming_le_of_covers hS h64 (selectAccel_covers h hl hg hs) hbytes hocc hw

/-- "hello" after 20 zero bytes, scanned from `3` with vectors of 16 bytes. -/
theorem hwlmAccel_no_skip_hello :
    (0 : Nat) < 16 ∧ (16 : Nat) ≠ 64 ∧
      doAccelBlock 16 (findForwardAccelScheme [⟨[104, 101, 108, 108, 111], false, [], [], 1⟩] 1)
        (List.replicate 20 0 ++ [104, 101, 108, 108, 111]) 3 ≤ 20 :=
  ⟨by decide, by decide,
    (hwlmAccel_no_skip (S := 16) (by decide) (by decide) (List.mem_singleton_self _) (by decide)).1 1 _ 3 20
      (by decide) (by decide) (by decide) (by decide)⟩

/-- The literal `a`, case-sensitive, without a mask, in group 1. -/
def accelLitA : AccelString := ⟨[0x61], false, [], [], 1⟩

/-- A literal matcher that runs FDR, before `buildForwardAccel` sets its
schemes. -/
def fdrMatcher : HWLM := ⟨.fdr, 0, .none, .none⟩

/-- **With vectors of 64 bytes the acceleration skips a match.**  The scheme
for the literal `a` is the single vermicelli for `a`.  On 64 zero bytes and
then `a`, the vermicelli's tail looks at the low lanes of the buffer's last
vector, which the aligned vector scanned already, and not at the `a`: the
scan returns the end of the buffer.  So `do_accel_block` and
`do_accel_streaming` (with no history) move the start from `0` to `65`, past
the window of the `a` at `64`, and `hwlmExec` starts FDR there. -/
theorem hwlmAccel_skips_window_sixty_four :
    findForwardAccelScheme [accelLitA] 1 = .verm 0x61 0 ∧
      accelLitA.OccursAt (List.replicate 64 0 ++ [0x61]) 64 ∧
      doAccelBlock 64 (findForwardAccelScheme [accelLitA] 1) (List.replicate 64 0 ++ [0x61]) 0 = 65 ∧
      doAccelStreaming 64 (findForwardAccelScheme [accelLitA] 1) [] (List.replicate 64 0 ++ [0x61]) 0 = 65 ∧
      hwlmExec 64 (buildForwardAccel fdrMatcher [accelLitA] 1) (List.replicate 64 0 ++ [0x61]) 0 1 = .fdrExec 65 1 := by
  decide

end Rose
end Vectorscan
