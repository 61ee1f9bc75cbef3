import Mathlib.Tactic.Linarith

/-!
# Loops with fuel

A `for (;;)` loop whose body either leaves the loop with a result or goes on
with new values of its variables is modelled by a body `step : σ → α ⊕ σ` on
the loop's state: `.inl a` is the `return a`, `.inr s'` the next pass.  The
loop itself is `Loop.run step exit fuel s`, at most `fuel` passes of the body,
and `exit s` should the fuel run out.

**Results.**  `run_spec` is the total-correctness rule for such loops: an
invariant that every pass keeps, a measure that every pass lowers and a
postcondition that every exit of the body meets give the postcondition of the
whole loop as soon as the fuel is above the measure of the first state.  The
models choose their fuel from the same measure, so that the fuel never runs out.
`foldlM_range_spec` is the rule of a counted `for` loop whose body may stop the
loop (`List.foldlM` in `Option`): an invariant indexed by the number of passes.
`foldl_forall_mem` and `foldlM_forall_mem` are the rules of a loop over a
list whose passes each leave a mark on the state that later passes keep.

Nothing here names the program.
-/

namespace Vectorscan
namespace Loop

variable {σ α : Type*}

/-- At most `fuel` passes of the loop body `step` from the state `s`. -/
def run (step : σ → α ⊕ σ) (exit : σ → α) : Nat → σ → α
  | 0, s => exit s
  | fuel + 1, s =>
    match step s with
    | .inl a => a
    | .inr s' => run step exit fuel s'

attribute [grind] run

section Rule

variable {step : σ → α ⊕ σ} {exit : σ → α}

@[simp] theorem run_succ_inl {fuel : Nat} {s : σ} {a : α} (h : step s = .inl a) :
    run step exit (fuel + 1) s = a := by
  simp [run, h]

@[simp] theorem run_succ_inr {fuel : Nat} {s s' : σ} (h : step s = .inr s') :
    run step exit (fuel + 1) s = run step exit fuel s' := by
  simp [run, h]

/-- **The loop rule.**  If every pass from a state of `inv` either returns a
value of `post` or goes on to a state of `inv` of smaller `measure`, then the
loop started in `inv` with more fuel than the measure returns a value of
`post`. -/
theorem run_spec (inv : σ → Prop) (post : α → Prop) (measure : σ → Nat)
    (hnext : ∀ s s', inv s → step s = .inr s' → inv s' ∧ measure s' < measure s)
    (hdone : ∀ s a, inv s → step s = .inl a → post a) :
    ∀ fuel s, inv s → measure s < fuel → post (run step exit fuel s) := by
  intro fuel
  -- induction on the fuel; the measure is below it at every pass
  induction fuel with
  | zero => intro s _ hlt; omega
  | succ fuel ih =>
      intro s hs hlt
      cases hstep : step s with
      | inl a =>
          rw [run_succ_inl hstep]
          exact hdone s a hs hstep
      | inr s' =>
          obtain ⟨hs', hdec⟩ := hnext s s' hs hstep
          rw [run_succ_inr hstep]
          exact ih s' hs' (by omega)

end Rule

/-- **The rule of a counted loop that may stop early.**  If the pass `i` of
the body, from a state of `inv i`, can only go on to a state of
`inv (i + 1)`, then a loop over `0, …, n - 1` that runs to its end from a
state of `inv 0` ends in a state of `inv n`. -/
theorem foldlM_range_spec {β : Type*} (f : β → Nat → Option β) (inv : Nat → β → Prop) (n : Nat)
    (hstep : ∀ i < n, ∀ b b', inv i b → f b i = some b' → inv (i + 1) b') :
    ∀ b b', inv 0 b → (List.range n).foldlM f b = some b' → inv n b' := by
  -- induction on the number of passes: the last pass comes after the others
  induction n with
  | zero =>
    intro b b' hb h
    simp only [List.range_zero, List.foldlM_nil, Option.pure_def, Option.some.injEq] at h
    exact h ▸ hb
  | succ n ih =>
    intro b b' hb h
    rw [List.range_succ, List.foldlM_append] at h
    cases hmid : (List.range n).foldlM f b with
    | none => simp [hmid] at h
    | some c =>
      have hc := ih (fun i hi => hstep i (by omega)) b c hb hmid
      simp only [hmid, Option.bind_eq_bind, Option.bind_some, List.foldlM_cons, List.foldlM_nil] at h
      cases hlast : f c n with
      | none => simp [hlast] at h
      | some d =>
        simp only [hlast, Option.bind_some, Option.pure_def, Option.some.injEq] at h
        exact h ▸ hstep n (by omega) c d hc hlast

/-! ## Marks left by the passes of a fold -/

section Marks

variable {β : Type*} (good : α → β → Prop)

/-- **Each element's mark survives the rest of a fold.**  If the pass over `x`
leaves the mark `good x` on any state, and every pass keeps the marks it
finds, then after a fold over `l` every element of `l` has its mark. -/
theorem foldl_forall_mem (f : β → α → β) (hnew : ∀ b x, good x (f b x))
    (hkeep : ∀ b x y, good y b → good y (f b x)) :
    ∀ (l : List α) (b : β), ∀ x ∈ l, good x (l.foldl f b) := by
  intro l
  induction l with
  | nil => intro b x hx; simp at hx
  | cons y l ih =>
    intro b x hx
    rw [List.foldl_cons]
    rcases List.mem_cons.mp hx with rfl | hx
    · -- the head's mark, kept by the passes over the tail
      exact List.foldlRecOn l f (hnew b x) fun b' hb' z _ => hkeep b' z x hb'
    · exact ih (f b y) x hx

/-- A fold in `Option` that runs to its end keeps the marks it finds. -/
theorem foldlM_keep (f : β → α → Option β) (hkeep : ∀ b x b' y, f b x = some b' → good y b → good y b')
    (y : α) : ∀ (l : List α) (b b' : β), l.foldlM f b = some b' → good y b → good y b' := by
  intro l
  induction l with
  | nil =>
    intro b b' h hb
    rw [List.foldlM_nil] at h
    obtain rfl : b = b' := Option.some.inj h
    exact hb
  | cons x l ih =>
    intro b b' h hb
    rw [List.foldlM_cons] at h
    obtain ⟨b1, h1, h2⟩ := Option.bind_eq_some_iff.mp h
    exact ih b1 b' h2 (hkeep b x b1 y h1 hb)

/-- **The rule of a fold that may stop early, by marks.**  If the pass over
`x`, when it goes on, leaves the mark `good x`, and every pass keeps the marks
it finds, then a fold over `l` in `Option` that runs to its end leaves every
element of `l` marked. -/
theorem foldlM_forall_mem (f : β → α → Option β) (hnew : ∀ b x b', f b x = some b' → good x b')
    (hkeep : ∀ b x b' y, f b x = some b' → good y b → good y b') :
    ∀ (l : List α) (b b' : β), l.foldlM f b = some b' → ∀ x ∈ l, good x b' := by
  intro l
  induction l with
  | nil => intro b b' _ x hx; simp at hx
  | cons y l ih =>
    intro b b' h x hx
    rw [List.foldlM_cons] at h
    obtain ⟨b1, h1, h2⟩ := Option.bind_eq_some_iff.mp h
    rcases List.mem_cons.mp hx with rfl | hx
    · exact foldlM_keep good f hkeep x l b1 b' h2 (hnew b x b1 h1)
    · exact ih b1 b' h2 x hx

end Marks

end Loop
end Vectorscan
