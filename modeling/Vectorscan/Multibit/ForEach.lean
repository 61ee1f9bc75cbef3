import Vectorscan.Multibit.Query

/-!
# Multibit: the iteration idiom of the engines

The engines walk a multibit with

    for (i = mmbit_iterate(bits, n, MMB_INVALID); i != MMB_INVALID;
         i = mmbit_iterate(bits, n, i)) { ... }

and the body may change the multibit it walks (the Castle's match loop
switches repeats off as it goes) or leave the loop early (a callback that
halts).

**Model.**  `mmbitForEach` runs the body on a state `σ` from which the
multibit is read afresh before each `mmbit_iterate`; the body answers
whether to leave the loop.  The fuel bounds the passes: `n + 1` is enough
when every pass finds a greater key.

**Results.**  `mmbitForEach_sim`: two loops whose bodies go on in step over
related states end in related states.
-/

namespace Vectorscan
namespace Multibit

/-- The `for` loop over the keys of the multibit `bitsOf s`, from after `it`;
`true` when the body left the loop. -/
def mmbitForEach {σ : Type} (bitsOf : σ → Mem) (totalBits : Nat) (body : σ → Nat → Bool × σ) :
    Nat → Nat → σ → Bool × σ
  | 0, _, s => (false, s)
  | fuel + 1, it, s =>
      let i := mmbitIterate (bitsOf s) totalBits it
      if i = mmbInvalid then (false, s)
      else
        match body s i with
        | (true, s) => (true, s)
        | (false, s) => mmbitForEach bitsOf totalBits body fuel i s

/-- The loop from the first key, with the fuel of `totalBits + 1` passes. -/
def mmbitForEachKey {σ : Type} (bitsOf : σ → Mem) (totalBits : Nat) (body : σ → Nat → Bool × σ)
    (s : σ) : Bool × σ :=
  mmbitForEach bitsOf totalBits body (totalBits + 1) mmbInvalid s

section Sim

variable {σ τ : Type} {bitsOfS : σ → Mem} {bitsOfT : τ → Mem} {bodyS : σ → Nat → Bool × σ}
  {bodyT : τ → Nat → Bool × τ} {totalBits : Nat}

/-- **Two loops in step.**  Two loops over the keys of multibits that related
states agree on, where every pass of the second that goes on is matched by a
pass of the first that goes on, and every pass of the second that leaves the
loop leaves a state outside `ok`: when the second loop ends in a state of
`ok`, the first ends in a related state. -/
theorem mmbitForEach_sim (R : σ → τ → Prop) (ok : τ → Prop)
    (hbits : ∀ s t, R s t → bitsOfS s = bitsOfT t)
    (hgo : ∀ s t i, R s t → (bodyT t i).1 = false →
      (bodyS s i).1 = false ∧ R (bodyS s i).2 (bodyT t i).2)
    (hleave : ∀ t i, (bodyT t i).1 = true → ¬ ok (bodyT t i).2) :
    ∀ fuel it s t, R s t → ok (mmbitForEach bitsOfT totalBits bodyT fuel it t).2 →
      R (mmbitForEach bitsOfS totalBits bodyS fuel it s).2
        (mmbitForEach bitsOfT totalBits bodyT fuel it t).2 := by
  intro fuel
  -- induction on the fuel, one pass of both loops at a time
  induction fuel with
  | zero => intro it s t hst _; exact hst
  | succ fuel ih =>
      intro it s t hst hok
      have hi : mmbitIterate (bitsOfS s) totalBits it = mmbitIterate (bitsOfT t) totalBits it := by
        rw [hbits s t hst]
      simp only [mmbitForEach, hi] at hok ⊢
      split_ifs at hok ⊢ with hinv
      · exact hst
      rcases hT : bodyT t (mmbitIterate (bitsOfT t) totalBits it) with ⟨_ | _, t'⟩
      · -- the second loop goes on, so does the first
        obtain ⟨hS, hst'⟩ := hgo s t _ hst (by rw [hT])
        rcases hS' : bodyS s (mmbitIterate (bitsOfT t) totalBits it) with ⟨fs, s'⟩
        rw [hS'] at hS hst'
        rw [hT] at hst' hok
        cases hS
        exact ih _ s' t' hst' hok
      · -- the second loop left in a state outside ok
        have hout := hleave t _ (by rw [hT])
        rw [hT] at hout hok
        exact absurd hok hout

end Sim

end Multibit
end Vectorscan
