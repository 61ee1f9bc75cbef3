import Vectorscan.Hwlm.Noodle
import Vectorscan.Lib.Word

/-!
# The noodle table encodes its literal

`noodBuildTable` folds a literal and its `msk`/`cmp` bytes into one mask and
one comparand of `max |s| |msk|` bytes.  This module shows that the fold is
exact: the compare that `final` makes, of the bytes ending at `e` under the
mask, passes exactly when the literal matches there.

**Literals.**  `HwlmLiteral.Valid` collects what the constructor of
`hwlmLiteral` leaves and asserts: at most eight bytes of literal and of mask,
a `cmp` as long as the `msk`, a case-insensitive literal upper-cased, and the
mask consistent with the literal (`maskIsConsistent`).  `hwlmLiteral_valid`:
the constructor makes valid literals from arguments that pass its asserts.

**Results.**  `charMatches_iff`: a character compare is a compare under the
character's case mask.  `noodByte_iff`: byte `i` of the mask and comparand
checks exactly the literal's character and `msk`/`cmp` byte at `i`.
`noodBuildTable_confirm_iff`: the whole confirm is `LiteralMatchesAt`.
-/

namespace Vectorscan
namespace Hwlm

/-! ## Characters -/

theorem ourisalpha_iff {c : Nat} :
    ourisalpha c = true ↔ (65 ≤ c ∧ c ≤ 90) ∨ (97 ≤ c ∧ c ≤ 122) := by
  unfold ourisalpha mytolower mytoupper myislower
  by_cases hu : 65 ≤ c ∧ c ≤ 90
  · have hl : ¬ (97 ≤ c ∧ c ≤ 122) := by omega
    simp [hu, hl]
  · by_cases hl : 97 ≤ c ∧ c ≤ 122
    · simp [hu, hl]
      omega
    · simp [hu, hl]

theorem mytoupper_lt {c : Nat} (hc : c < 256) : mytoupper c < 256 := by
  unfold mytoupper
  split <;> omega

@[simp] theorem mytoupper_mytoupper (c : Nat) : mytoupper (mytoupper c) = mytoupper c := by
  unfold mytoupper myislower
  by_cases hl : 97 ≤ c ∧ c ≤ 122
  · simp [hl]
    omega
  · simp [hl]

/-- A letter that upper-casing leaves alone is an upper-case letter. -/
theorem upper_of_alpha {c : Nat} (hup : mytoupper c = c) (ha : ourisalpha c = true) :
    65 ≤ c ∧ c ≤ 90 := by
  rw [ourisalpha_iff] at ha
  unfold mytoupper myislower at hup
  split_ifs at hup with hl
  · simp at hl
    omega
  · simp at hl
    omega

theorem and_byteMask {b : Nat} (hb : b < 256) : b &&& 0xff = b := by
  rw [show (0xff : Nat) = 2 ^ 8 - 1 from rfl, Nat.and_two_pow_sub_one_eq_mod]
  exact Nat.mod_eq_of_lt hb

set_option maxRecDepth 4000 in
/-- **Case folding is the case mask.**  A byte is an upper-case letter `c`
once upper-cased exactly when it is `c` with the case bit cleared. -/
theorem mytoupper_eq_iff {b c : Nat} (hb : b < 256) (hc : 65 ≤ c ∧ c ≤ 90) :
    mytoupper b = c ↔ b &&& caseClear = c := by
  have hletter : ∀ k < 26, (k + 65) &&& caseClear = k + 65 ∧ (k + 97) &&& caseClear = k + 65 := by
    decide
  have hbyte : ∀ x < 256, x &&& caseClear = x ∨ (x &&& caseClear) + 32 = x := by
    decide
  obtain ⟨hc1, hc2⟩ := hletter (c - 65) (by omega)
  rw [show c - 65 + 65 = c by omega] at hc1 hc2
  rw [show c - 65 + 97 = c + 32 by omega] at hc2
  unfold mytoupper myislower
  constructor
  · intro h
    split_ifs at h with hl
    · simp at hl
      rw [show b = c + 32 by omega]
      exact hc2
    · rw [h]
      exact hc1
  · intro h
    rcases hbyte b hb with hb' | hb'
    · have hbc : b = c := by omega
      subst hbc
      simp
      omega
    · have hb32 : b = c + 32 := by omega
      rw [if_pos (by simp only [decide_eq_true_eq]; omega)]
      omega

/-- The case mask of a character of a literal: the case bit is ignored only
for a letter of a case-insensitive literal. -/
def charMask (nocase : Bool) (c : Nat) : Nat := if nocase && ourisalpha c then caseClear else 0xff

theorem charMask_lt (nocase : Bool) (c : Nat) : charMask nocase c < 256 := by
  unfold charMask caseClear
  split <;> decide

/-- **A character compare is a compare under the case mask.**  For a byte `b`
and a character `c` of a literal (upper-case if it is a letter of a
case-insensitive literal), `charMatches` holds exactly when `b` and `c` agree
under `charMask`. -/
theorem charMatches_iff {nocase : Bool} {b c : Nat} (hb : b < 256) (hc : c < 256)
    (hup : nocase = true → mytoupper c = c) :
    charMatches nocase c b = true ↔ b &&& charMask nocase c = c &&& charMask nocase c := by
  unfold charMatches charMask
  by_cases hf : (nocase && ourisalpha c) = true
  · obtain ⟨hn, ha⟩ := Bool.and_eq_true_iff.mp hf
    have hcu := hup hn
    have hlet := upper_of_alpha hcu ha
    have hcc : c &&& caseClear = c := (mytoupper_eq_iff hc hlet).mp hcu
    rw [if_pos hf, if_pos hf, hcc, hcu, beq_iff_eq]
    exact mytoupper_eq_iff hb hlet
  · rw [if_neg hf, if_neg hf, and_byteMask hb, and_byteMask hc, beq_iff_eq]

/-! ## Valid literals -/

/-- What the constructor of `hwlmLiteral` leaves and asserts. -/
structure HwlmLiteral.Valid (lit : HwlmLiteral) : Prop where
  s_ne : lit.s ≠ []
  s_len : lit.s.length ≤ 8
  msk_len : lit.msk.length ≤ 8
  cmp_len : lit.cmp.length = lit.msk.length
  s_byte : ∀ c ∈ lit.s, c < 256
  msk_byte : ∀ m ∈ lit.msk, m < 256
  cmp_byte : ∀ v ∈ lit.cmp, v < 256
  upper : lit.nocase = true → ∀ c ∈ lit.s, mytoupper c = c
  consistent : maskIsConsistent lit.s lit.nocase lit.msk lit.cmp = true

/-- **The constructor makes valid literals.**  Arguments that pass the asserts
of `hwlmLiteral` (lengths, and a mask consistent with the upper-cased literal)
give a valid literal, whether the mask is kept or dropped. -/
theorem hwlmLiteral_valid {s : List Nat} {nocase : Bool} {id : Nat} {msk cmp : List Nat}
    (hs : s ≠ []) (hslen : s.length ≤ 8) (hmlen : msk.length ≤ 8) (hclen : cmp.length = msk.length)
    (hsb : ∀ c ∈ s, c < 256) (hmb : ∀ m ∈ msk, m < 256) (hcb : ∀ v ∈ cmp, v < 256)
    (hcons : maskIsConsistent (if nocase then upperString s else s) nocase msk cmp = true) :
    (hwlmLiteral s nocase id msk cmp).Valid := by
  have hs' : (if nocase then upperString s else s) ≠ [] := by
    split <;> simp [upperString, hs]
  have hslen' : (if nocase then upperString s else s).length ≤ 8 := by
    split <;> simp [upperString, hslen]
  have hsb' : ∀ c ∈ (if nocase then upperString s else s), c < 256 := by
    split
    · intro c hc
      obtain ⟨c₀, hc₀, rfl⟩ := List.mem_map.mp hc
      exact mytoupper_lt (hsb c₀ hc₀)
    · exact hsb
  have hup : nocase = true → ∀ c ∈ (if nocase then upperString s else s), mytoupper c = c := by
    intro hn c hc
    rw [if_pos hn] at hc
    obtain ⟨c₀, _, rfl⟩ := List.mem_map.mp hc
    exact mytoupper_mytoupper c₀
  dsimp only [hwlmLiteral]
  by_cases hz : (msk.all fun x => x == 0) = true
  · rw [if_pos hz]
    exact ⟨hs', hslen', by simp, rfl, hsb', by simp, by simp, hup, by simp [maskIsConsistent]⟩
  · rw [if_neg hz]
    exact ⟨hs', hslen', hmlen, hclen, hsb', hmb, hcb, hup, hcons⟩

/-- Every entry of a list of bytes, read with the default `0`, is a byte. -/
theorem getD_byte_lt {l : List Nat} (h : ∀ x ∈ l, x < 256) (i : Nat) : l.getD i 0 < 256 := by
  rw [List.getD_eq_getElem?_getD]
  cases hx : l[i]? with
  | none => simp
  | some x => exact h x (List.mem_of_getElem? hx)

section Valid

variable {lit : HwlmLiteral} (hv : lit.Valid)
include hv

theorem HwlmLiteral.Valid.getD_s_lt (i : Nat) : lit.s.getD i 0 < 256 :=
  getD_byte_lt hv.s_byte i

theorem HwlmLiteral.Valid.getD_msk_lt (i : Nat) : lit.msk.getD i 0 < 256 :=
  getD_byte_lt hv.msk_byte i

theorem HwlmLiteral.Valid.getD_cmp_lt (i : Nat) : lit.cmp.getD i 0 < 256 :=
  getD_byte_lt hv.cmp_byte i

theorem HwlmLiteral.Valid.upper_getD {i : Nat} (hi : i < lit.s.length) :
    lit.nocase = true → mytoupper (lit.s.getD i 0) = lit.s.getD i 0 := by
  intro hn
  rw [List.getD_eq_getElem _ _ hi]
  exact hv.upper hn _ (List.getElem_mem hi)

/-- `maskIsConsistent` byte by byte: the literal's character and the `msk`/`cmp`
bytes that end `t` bytes before the ends agree, under the case mask. -/
theorem HwlmLiteral.Valid.consistent_rev {t : Nat} (hts : t < lit.s.length) (htm : t < lit.msk.length) :
    let c := lit.s.getD (lit.s.length - 1 - t) 0
    let m := lit.msk.getD (lit.msk.length - 1 - t) 0
    let v := lit.cmp.getD (lit.msk.length - 1 - t) 0
    c &&& (m &&& charMask lit.nocase c) = v &&& charMask lit.nocase c := by
  intro c m v
  have hcl := hv.cmp_len
  have htc : t < lit.cmp.length := by omega
  have hall := List.all_eq_true.mp hv.consistent
  have hts' : t < lit.s.reverse.length := by simpa using hts
  have htm' : t < lit.msk.reverse.length := by simpa using htm
  have htc' : t < lit.cmp.reverse.length := by simpa using htc
  have hmem : (lit.s.reverse[t], (lit.msk.reverse[t], lit.cmp.reverse[t])) ∈
      List.zip lit.s.reverse (List.zip lit.msk.reverse lit.cmp.reverse) := by
    have hlen : t < (List.zip lit.s.reverse (List.zip lit.msk.reverse lit.cmp.reverse)).length := by
      simp only [List.length_zip, List.length_reverse]
      omega
    have := List.getElem_mem hlen
    simpa [List.getElem_zip] using this
  have hpair := hall _ hmem
  simp only [List.getElem_reverse] at hpair
  have hc : c = lit.s[lit.s.length - 1 - t] := List.getD_eq_getElem _ _ (by omega)
  have hm : m = lit.msk[lit.msk.length - 1 - t] := List.getD_eq_getElem _ _ (by omega)
  have hidx : lit.msk.length - 1 - t < lit.cmp.length := by omega
  have hv' : v = lit.cmp[lit.msk.length - 1 - t] := List.getD_eq_getElem _ _ hidx
  have hmb : m < 256 := hv.getD_msk_lt _
  have hvb : v < 256 := hv.getD_cmp_lt _
  have hcmp : lit.cmp.length - 1 - t = lit.msk.length - 1 - t := by rw [hv.cmp_len]
  simp only [hcmp] at hpair
  rw [← hc, ← hm, ← hv'] at hpair
  unfold charMask
  split
  · rename_i hf
    rw [if_pos hf] at hpair
    exact beq_iff_eq.mp hpair
  · rename_i hf
    rw [if_neg hf] at hpair
    rw [and_byteMask hmb, and_byteMask hvb]
    exact beq_iff_eq.mp hpair

end Valid

/-! ## The bytes of the table -/

/-- What byte `i` of the last `L` bytes of a match must satisfy: the literal's
character there, and its `msk`/`cmp` byte there, where each reaches. -/
def windowByteOk (lit : HwlmLiteral) (L i b : Nat) : Prop :=
  (L - lit.s.length ≤ i → charMatches lit.nocase (lit.s.getD (i - (L - lit.s.length)) 0) b = true) ∧
    (L - lit.msk.length ≤ i →
      b &&& lit.msk.getD (i - (L - lit.msk.length)) 0 = lit.cmp.getD (i - (L - lit.msk.length)) 0)

/-- `noodMaskByte` with the case mask of its character named. -/
theorem noodMaskByte_eq (lit : HwlmLiteral) (L i : Nat) :
    noodMaskByte lit L i =
      if L - lit.s.length ≤ i then
        (if L - lit.msk.length ≤ i then lit.msk.getD (i - (L - lit.msk.length)) 0 else 0) |||
          charMask lit.nocase (lit.s.getD (i - (L - lit.s.length)) 0)
      else if L - lit.msk.length ≤ i then lit.msk.getD (i - (L - lit.msk.length)) 0 else 0 := rfl

/-- `noodCmpByte` with the case mask of its character named. -/
theorem noodCmpByte_eq (lit : HwlmLiteral) (L i : Nat) :
    noodCmpByte lit L i =
      if L - lit.s.length ≤ i then
        (if L - lit.msk.length ≤ i then lit.cmp.getD (i - (L - lit.msk.length)) 0 else 0) |||
          (lit.s.getD (i - (L - lit.s.length)) 0 &&& charMask lit.nocase (lit.s.getD (i - (L - lit.s.length)) 0))
      else if L - lit.msk.length ≤ i then lit.cmp.getD (i - (L - lit.msk.length)) 0 else 0 := rfl

theorem byte_or_lt {x y : Nat} (hx : x < 256) (hy : y < 256) : x ||| y < 256 :=
  @Nat.or_lt_two_pow x y 8 hx hy

section Table

variable {lit : HwlmLiteral} (hv : lit.Valid) {L : Nat} (hL : L = max lit.s.length lit.msk.length)
include hv hL

omit hL in
theorem noodMaskByte_lt (i : Nat) : noodMaskByte lit L i < 256 := by
  rw [noodMaskByte_eq]
  have hm : (if L - lit.msk.length ≤ i then lit.msk.getD (i - (L - lit.msk.length)) 0 else 0) < 256 := by
    split
    · exact hv.getD_msk_lt _
    · decide
  split
  · exact byte_or_lt hm (charMask_lt _ _)
  · exact hm

omit hL in
theorem noodCmpByte_lt (i : Nat) : noodCmpByte lit L i < 256 := by
  rw [noodCmpByte_eq]
  have hv' : (if L - lit.msk.length ≤ i then lit.cmp.getD (i - (L - lit.msk.length)) 0 else 0) < 256 := by
    split
    · exact hv.getD_cmp_lt _
    · decide
  split
  · exact byte_or_lt hv' (lt_of_le_of_lt Nat.and_le_left (hv.getD_s_lt _))
  · exact hv'

/-- **Byte `i` of the table checks byte `i` of the window.**  A byte passes
the table's mask and comparand at `i` exactly when it is the literal's
character there (up to case where the literal ignores it) and passes the
literal's own `msk`/`cmp` byte there. -/
theorem noodByte_iff {i b : Nat} (hi : i < L) (hb : b < 256) :
    b &&& noodMaskByte lit L i = noodCmpByte lit L i ↔ windowByteOk lit L i b := by
  by_cases hs : L - lit.s.length ≤ i
  · -- the literal's character sits at `i`: split the merged compare
    set c := lit.s.getD (i - (L - lit.s.length)) 0 with hc
    have hcb : c < 256 := hv.getD_s_lt _
    have hup : lit.nocase = true → mytoupper c = c := hv.upper_getD (by omega)
    by_cases hm : L - lit.msk.length ≤ i
    · have hcons := hv.consistent_rev (t := L - 1 - i) (by omega) (by omega)
      rw [show lit.s.length - 1 - (L - 1 - i) = i - (L - lit.s.length) by omega,
        show lit.msk.length - 1 - (L - 1 - i) = i - (L - lit.msk.length) by omega] at hcons
      have hmask : noodMaskByte lit L i = lit.msk.getD (i - (L - lit.msk.length)) 0 ||| charMask lit.nocase c := by
        rw [noodMaskByte_eq, if_pos hs, if_pos hm]
      have hcmp : noodCmpByte lit L i = lit.cmp.getD (i - (L - lit.msk.length)) 0 ||| (c &&& charMask lit.nocase c) := by
        rw [noodCmpByte_eq, if_pos hs, if_pos hm]
      rw [hmask, hcmp, Word.and_or_eq_or_and_iff hcons, ← charMatches_iff hb hcb hup]
      exact ⟨fun h => ⟨fun _ => h.1, fun _ => h.2⟩, fun h => ⟨h.1 hs, h.2 hm⟩⟩
    · -- only the character: the mask byte and comparand byte are the character's
      have hcons : c &&& (0 &&& charMask lit.nocase c) = 0 &&& charMask lit.nocase c := by simp
      have hmask : noodMaskByte lit L i = 0 ||| charMask lit.nocase c := by
        rw [noodMaskByte_eq, if_pos hs, if_neg hm]
      have hcmp : noodCmpByte lit L i = 0 ||| (c &&& charMask lit.nocase c) := by
        rw [noodCmpByte_eq, if_pos hs, if_neg hm]
      rw [hmask, hcmp, Word.and_or_eq_or_and_iff hcons, ← charMatches_iff hb hcb hup]
      simp only [Nat.and_zero, and_true]
      exact ⟨fun h => ⟨fun _ => h, fun hm' => absurd hm' hm⟩, fun h => h.1 hs⟩
  · -- only the `msk`/`cmp` byte: the literal is the shorter one
    have hm : L - lit.msk.length ≤ i := by omega
    have hmask : noodMaskByte lit L i = lit.msk.getD (i - (L - lit.msk.length)) 0 := by
      rw [noodMaskByte_eq, if_neg hs, if_pos hm]
    have hcmp : noodCmpByte lit L i = lit.cmp.getD (i - (L - lit.msk.length)) 0 := by
      rw [noodCmpByte_eq, if_neg hs, if_pos hm]
    rw [hmask, hcmp]
    exact ⟨fun h => ⟨fun hs' => absurd hs' hs, fun _ => h⟩, fun h => h.2 hm⟩

omit hv in
/-- The window bytes, reindexed: every byte of the last `L` bytes before
`e + 1` passes its check exactly when the literal matches at `e`. -/
theorem windowByteOk_iff {buf : List Nat} {e : Nat} (he : L ≤ e + 1) :
    (∀ i < L, windowByteOk lit L i (buf.getD (e + 1 - L + i) 0)) ↔ LiteralMatchesAt lit buf e := by
  constructor
  · intro h
    constructor
    · intro i hi
      have hw := (h (L - lit.s.length + i) (by omega)).1 (by omega)
      rwa [show L - lit.s.length + i - (L - lit.s.length) = i by omega,
        show e + 1 - L + (L - lit.s.length + i) = e + 1 - lit.s.length + i by omega] at hw
    · intro j hj
      have hw := (h (L - lit.msk.length + j) (by omega)).2 (by omega)
      rwa [show L - lit.msk.length + j - (L - lit.msk.length) = j by omega,
        show e + 1 - L + (L - lit.msk.length + j) = e + 1 - lit.msk.length + j by omega] at hw
  · rintro ⟨hc, hm⟩ i hi
    constructor
    · intro hs
      have hw := hc (i - (L - lit.s.length)) (by omega)
      rwa [show e + 1 - lit.s.length + (i - (L - lit.s.length)) = e + 1 - L + i by omega] at hw
    · intro hm'
      have hw := hm (i - (L - lit.msk.length)) (by omega)
      rwa [show e + 1 - lit.msk.length + (i - (L - lit.msk.length)) = e + 1 - L + i by omega] at hw

end Table

/-! ## The confirm -/

theorem makeU64aMask_eq_ofDigits (bs : List Nat) : makeU64aMask bs = Nat.ofDigits 256 bs := by
  induction bs with
  | nil => rfl
  | cons b bs ih => rw [makeU64aMask, ih, Nat.ofDigits_cons]

@[simp] theorem noodBuildTable_mskLen (lit : HwlmLiteral) :
    (noodBuildTable lit).mskLen = max lit.s.length lit.msk.length := rfl

/-- **The confirm is the literal.**  For a valid literal and a buffer of
bytes, the compare that `final` makes of the `mskLen` bytes ending at `e`
under the table's mask passes exactly when the literal matches at `e`. -/
theorem noodBuildTable_confirm_iff {lit : HwlmLiteral} (hv : lit.Valid) {buf : List Nat}
    (hbuf : ∀ x ∈ buf, x < 256) {e : Nat} (he : (noodBuildTable lit).mskLen ≤ e + 1) :
    partialLoad buf (e + 1 - (noodBuildTable lit).mskLen) (noodBuildTable lit).mskLen &&&
        (noodBuildTable lit).msk = (noodBuildTable lit).cmp ↔
      LiteralMatchesAt lit buf e := by
  rw [noodBuildTable_mskLen] at he ⊢
  have hbytes : ∀ j, buf.getD j 0 < 256 := getD_byte_lt hbuf
  simp only [partialLoad, noodBuildTable, makeU64aMask_eq_ofDigits]
  rw [Word.ofDigits_map_land_eq_iff (fun j _ => hbytes _) (fun j _ => noodMaskByte_lt hv j)
    (fun j _ => noodCmpByte_lt hv j), ← windowByteOk_iff rfl he]
  exact forall₂_congr fun i hi => noodByte_iff hv rfl hi (hbytes _)

end Hwlm
end Vectorscan
