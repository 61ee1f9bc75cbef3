import Vectorscan.Lib.Word
import Mathlib.Order.Bounds.Basic
import Mathlib.Order.Interval.Set.Basic

/-!
# Deterministic machines refining an abstract one

A data structure whose updates are total functions `cstep : C → E → C` of its
state and of an update `e`, run over a list of updates with `List.foldl`, is
compared with an abstract machine `astep : A → E → A` through an abstraction
`abs : C → A`.

**Definitions.**  `Simulation cstep astep abs inv ok` says that every update
of `ok`, from a state of `inv`, keeps `inv` and is matched by the abstract
update.  `KeySet.leastIn S lo hi` is the abstract answer of a search for the
least key of a set `S` of natural numbers in `[lo, hi)`.

`OptSim R oa ob` says that a fallible computation `oa` refines `ob`: when
`ob` succeeds, so does `oa`, with a result related by `R`.

**Results.**  `Simulation.foldl`: a simulation carries the invariant and the
abstraction over any run of admissible updates.  `OptSim.bind` and
`OptSim.foldlM` carry a refinement of fallible steps through sequencing and
loops.  `KeySet.firstIn_eq_leastIn`:
the executable search `firstIn` of a predicate that decides `S` inside the
range is the abstract search, which `leastIn_eq_some_iff` and
`leastIn_eq_none_iff` characterise.

Nothing here names the program.
-/

namespace Vectorscan

/-! ## Forward simulation of deterministic machines -/

section Simulation

variable {C A E : Type*}

/-- The abstract machine `astep` simulates the concrete `cstep` through `abs`
on the states of `inv` and for the updates of `ok`. -/
structure Simulation (cstep : C → E → C) (astep : A → E → A) (abs : C → A)
    (inv : C → Prop) (ok : E → Prop) : Prop where
  inv_step : ∀ c e, inv c → ok e → inv (cstep c e)
  abs_step : ∀ c e, inv c → ok e → abs (cstep c e) = astep (abs c) e

variable {cstep : C → E → C} {astep : A → E → A} {abs : C → A} {inv : C → Prop}
  {ok : E → Prop}

/-- **The run rule.**  A run of admissible updates from a state of `inv` ends
in a state of `inv` whose abstraction is the abstract run. -/
theorem Simulation.foldl (sim : Simulation cstep astep abs inv ok) :
    ∀ (es : List E) (c : C), inv c → (∀ e ∈ es, ok e) →
      inv (es.foldl cstep c) ∧ abs (es.foldl cstep c) = es.foldl astep (abs c) := by
  intro es
  -- induction on the updates, the start state generalised
  induction es with
  | nil => intro c hc _; exact ⟨hc, rfl⟩
  | cons e es ih =>
      intro c hc hok
      have he := hok e List.mem_cons_self
      have hrest := ih (cstep c e) (sim.inv_step c e hc he) fun e' h => hok e' (List.mem_cons_of_mem e h)
      rw [List.foldl_cons, List.foldl_cons, ← sim.abs_step c e hc he]
      exact hrest

end Simulation

/-! ## Refinement of fallible computations -/

section OptSim

universe u

variable {α β γ δ : Type u} {E : Type*}

/-- The fallible computation `oa` refines `ob` up to `R`: whenever `ob`
succeeds, so does `oa`, with a result related to that of `ob`. -/
def OptSim (R : α → β → Prop) (oa : Option α) (ob : Option β) : Prop :=
  ∀ b, ob = some b → ∃ a, oa = some a ∧ R a b

variable {R : α → β → Prop} {S : γ → δ → Prop}

theorem OptSim.some {a : α} {b : β} (h : R a b) : OptSim R (some a) (some b) := by
  rintro b' hb
  cases hb
  exact ⟨a, rfl, h⟩

theorem OptSim.none (oa : Option α) : OptSim R oa none := by
  rintro b hb
  cases hb

theorem OptSim.elim {oa : Option α} {ob : Option β} {b : β} (h : OptSim R oa ob) (hb : ob = .some b) :
    ∃ a, oa = .some a ∧ R a b :=
  h b hb

theorem OptSim.ite {c : Prop} [Decidable c] {oa oa' : Option α} {ob ob' : Option β}
    (h : c → OptSim R oa ob) (h' : ¬ c → OptSim R oa' ob') :
    OptSim R (if c then oa else oa') (if c then ob else ob') := by
  by_cases hc : c
  · rw [if_pos hc, if_pos hc]; exact h hc
  · rw [if_neg hc, if_neg hc]; exact h' hc

/-- **The sequencing rule.**  Refinement is kept by binding both sides to
continuations that refine each other on related results. -/
theorem OptSim.bind {oa : Option α} {ob : Option β} {f : α → Option γ} {g : β → Option δ}
    (h : OptSim R oa ob) (hfg : ∀ a b, R a b → OptSim S (f a) (g b)) :
    OptSim S (oa >>= f) (ob >>= g) := by
  rintro d hd
  -- the second side succeeded, so did its first step
  obtain ⟨b, hb, hgb⟩ : ∃ b, ob = .some b ∧ g b = .some d := Option.bind_eq_some_iff.mp hd
  obtain ⟨a, ha, hab⟩ := h b hb
  obtain ⟨c, hfc, hcd⟩ := hfg a b hab d hgb
  exact ⟨c, by rw [ha]; exact hfc, hcd⟩

/-- **The loop rule.**  Two folds of fallible steps over the same list, whose
steps refine each other on related states, refine each other. -/
theorem OptSim.foldlM {f : α → E → Option α} {g : β → E → Option β}
    (hstep : ∀ a b e, R a b → OptSim R (f a e) (g b e)) :
    ∀ (es : List E) (a : α) (b : β), R a b → OptSim R (es.foldlM f a) (es.foldlM g b) := by
  intro es
  -- induction on the list, the start states generalised
  induction es with
  | nil => intro a b hab; exact OptSim.some hab
  | cons e es ih =>
      intro a b hab
      simp only [List.foldlM_cons]
      exact OptSim.bind (hstep a b e hab) fun a' b' h => ih a' b' h

end OptSim

/-! ## Least keys of a set -/

namespace KeySet

open Word

open Classical in
/-- The least key of `S` in `[lo, hi)`, if there is one. -/
noncomputable def leastIn (S : Set Nat) (lo hi : Nat) : Option Nat :=
  firstIn (fun k => decide (k ∈ S)) lo hi

variable {S : Set Nat} {lo hi : Nat}

theorem leastIn_eq_some_iff {k : Nat} : leastIn S lo hi = some k ↔ IsLeast (S ∩ Set.Ico lo hi) k := by
  classical
  unfold leastIn
  rw [firstIn_eq_some_iff]
  constructor
  · rintro ⟨h1, h2, hk, hmin⟩
    refine ⟨⟨by simpa using hk, h1, h2⟩, ?_⟩
    rintro j ⟨hj, hj1, -⟩
    by_contra hlt
    have := hmin j hj1 (by omega)
    simp [hj] at this
  · rintro ⟨⟨hk, h1, h2⟩, hmin⟩
    refine ⟨h1, h2, by simpa using hk, fun j hj hjk => ?_⟩
    by_contra hj'
    have := hmin ⟨by simpa using hj', hj, by omega⟩
    omega

theorem leastIn_eq_none_iff : leastIn S lo hi = none ↔ S ∩ Set.Ico lo hi = ∅ := by
  classical
  unfold leastIn
  rw [firstIn_eq_none_iff, Set.eq_empty_iff_forall_notMem]
  constructor
  · rintro h k ⟨hk, h1, h2⟩
    simpa [hk] using h k h1 h2
  · intro h j h1 h2
    simpa using fun hj => h j ⟨hj, h1, h2⟩

/-- A search by a predicate that decides `S` inside the range is the abstract
search. -/
theorem firstIn_eq_leastIn {p : Nat → Bool} (h : ∀ k, lo ≤ k → k < hi → (p k = true ↔ k ∈ S)) :
    firstIn p lo hi = leastIn S lo hi := by
  classical
  unfold leastIn
  exact firstIn_congr fun k h1 h2 => Bool.eq_iff_iff.mpr (by rw [h k h1 h2, decide_eq_true_iff])

end KeySet

end Vectorscan
