import Vectorscan.Util.Determinise
import Mathlib.Data.List.GetD

/-!
# The subset construction follows the pruned automaton

`determinise` numbers the sets it meets in the order it meets them, and the
queue holds the ones whose DFA state is not filled in yet, in the same order.

**Invariant.**  `Wf`: the map from sets to ids is the list of sets found so
far numbered by position (`ids`), with no set twice (`nodup`), starting with
the dead set and the initial sets (`begins`); there is one DFA state per set,
and the queue is the tail of the map not yet visited.  `Inv` adds that every
DFA state taken off the queue is done (`StateDone`): its reports are those of
its set, and `next` leads on each symbol to the set `prunedStep` gives.
`SymInv` is the invariant of the loop over the symbols of one set.
`initState_inv`, `symbolStep_inv` and `determiniseStep_inv` are the step
lemmas; a step lowers the queue plus the ids still free below the state limit,
so the fuel of `determinise` never runs out.

**Results.**  `determinise_spec`: when `determinise` returns `true`, the sets
of the DFA states are the dead set, the initial sets in order and then the
others, all distinct, and every DFA state is done.  `dfaRun_simulates`:
following `next` along any word from a done state reaches the state of the set
`prunedRun` gives.  `determinise_simulates` puts the two together for the
initial sets, given the assertion `determinise` makes on them (distinct, and
not the dead set); `determinise_duplicate_initial`: with two equal initial
sets the map keeps one id for both, and a DFA state stands for the wrong set.  `prunedRun_eq_transitionStar`: before the first prunable prefix
the pruned automaton is the automaton.
-/

namespace Vectorscan
namespace Determinise

universe u v

variable {σ : Type u} {ρ : Type v}

/-! ## The map from sets to ids -/

section StateMap

variable [DecidableEq σ]

theorem stateMapFind_eq_some {m : List (σ × Nat)} {S : σ} {i : Nat} (h : stateMapFind m S = some i) :
    (S, i) ∈ m := by
  simp only [stateMapFind, Option.map_eq_some_iff] at h
  obtain ⟨p, hp, rfl⟩ := h
  have hS : p.1 = S := by simpa using List.find?_some hp
  rw [← hS]
  exact List.mem_of_find?_eq_some hp

theorem stateMapFind_eq_none {m : List (σ × Nat)} {S : σ} (h : stateMapFind m S = none) :
    S ∉ m.map (·.1) := by
  simp only [stateMapFind, Option.map_eq_none_iff, List.find?_eq_none, decide_eq_true_eq] at h
  simp only [List.mem_map, not_exists, not_and]
  exact fun p hp hS => h p hp hS

theorem stateMapEmplace_of_not_mem {m : List (σ × Nat)} {S : σ} (h : S ∉ m.map (·.1)) (id : Nat) :
    stateMapEmplace m S id = m ++ [(S, id)] := by
  rw [stateMapEmplace, if_neg]
  simp only [List.any_eq_true, decide_eq_true_eq, not_exists, not_and]
  intro p hp hS
  exact h (List.mem_map.mpr ⟨p, hp, hS⟩)

end StateMap

/-- `statesets` of a map numbered by position is its list of sets. -/
theorem statesets_zipIdx [Inhabited σ] (l : List σ) : statesets l.zipIdx = l := by
  -- the sets before the one being placed are in place, the slots after it still default
  have key : ∀ (l pre rest : List σ), rest.length = l.length →
      (l.zipIdx pre.length).foldl (fun ss p => ss.set p.2 p.1) (pre ++ rest) = pre ++ l := by
    intro l
    induction l with
    | nil =>
      intro pre rest hrest
      simp_all
    | cons x l ih =>
      intro pre rest hrest
      obtain ⟨r, rest, rfl⟩ : ∃ r rest', rest = r :: rest' := List.exists_cons_of_length_eq_add_one hrest
      have hset : (pre ++ r :: rest).set pre.length x = (pre ++ [x]) ++ rest := by simp
      rw [List.zipIdx_cons, List.foldl_cons, hset, show pre.length + 1 = (pre ++ [x]).length by simp,
        ih (pre ++ [x]) rest (by simpa using hrest)]
      simp
  have h := key l [] (List.replicate l.length default) (by simp)
  simpa [statesets] using h

/-! ## The invariant -/

section Invariant

variable [DecidableEq σ] [Inhabited σ]

/-- The sets of the DFA states found so far, in the order of their ids. -/
def DetState.sets (st : DetState σ ρ) : List σ := st.ids.map (·.1)

/-- The number of DFA states taken off the queue. -/
def DetState.processed (st : DetState σ ρ) : Nat := st.ids.length - st.q.length

/-- The queue plus the ids still free below the state limit: every pass of
the `while` loop lowers it. -/
def DetState.measure (stateLimit : Nat) (st : DetState σ ρ) : Nat := st.q.length + (stateLimit - st.ids.length)

/-- DFA state `k` is done: its reports are those of its set, and on each
symbol `next` leads to a DFA state of the set that `prunedStep` gives. -/
def StateDone (n : Automaton σ ρ) (sets : List σ) (dstates : List (DState ρ)) (k : Nat) : Prop :=
  (dstates.getD k default).reports = n.reports (sets.getD k default) ∧
    (dstates.getD k default).reportsEod = n.reportsEod (sets.getD k default) ∧
    ∀ a < n.alphasize, (dstates.getD k default).next.getD a 0 < sets.length ∧
      sets.getD ((dstates.getD k default).next.getD a 0) default = n.prunedStep (sets.getD k default) a

/-- The shape of the construction's variables between two passes of either
loop. -/
structure Wf (n : Automaton σ ρ) (st : DetState σ ρ) : Prop where
  ids : st.ids = st.sets.zipIdx
  nodup : st.sets.Nodup
  begins : (n.dead :: n.initial) <+: st.sets
  length_dstates : st.dstates.length = st.sets.length
  queue : st.q <:+ st.ids
  next_length : ∀ k < st.sets.length, (st.dstates.getD k default).next.length = n.alphasize

/-- The invariant of the `while` loop: every DFA state off the queue is done. -/
structure Inv (n : Automaton σ ρ) (st : DetState σ ρ) : Prop extends Wf n st where
  done : ∀ k < st.processed, StateDone n st.sets st.dstates k

omit [DecidableEq σ] [Inhabited σ] in
@[simp] theorem length_sets (st : DetState σ ρ) : st.sets.length = st.ids.length := by
  simp [DetState.sets]

omit [Inhabited σ] in
/-- The start: the dead set and the initial sets, numbered in order and all
queued, each with a fresh DFA state, when they are distinct. -/
theorem initState_eq (n : Automaton σ ρ) (hinit : (n.dead :: n.initial).Nodup) :
    initState n = ⟨(n.dead :: n.initial).zipIdx, List.replicate (n.initial.length + 1) (dstate n.alphasize),
      (n.dead :: n.initial).zipIdx⟩ := by
  -- each initial set is new, so `emplace` appends it with the next id
  have key : ∀ (l pre : List σ), (pre ++ l).Nodup →
      l.foldl (fun st S => (⟨stateMapEmplace st.ids S st.dstates.length, st.dstates ++ [dstate n.alphasize],
          st.q ++ [(S, st.dstates.length)]⟩ : DetState σ ρ))
        ⟨pre.zipIdx, List.replicate pre.length (dstate n.alphasize), pre.zipIdx⟩ =
      ⟨(pre ++ l).zipIdx, List.replicate (pre ++ l).length (dstate n.alphasize), (pre ++ l).zipIdx⟩ := by
    intro l
    induction l with
    | nil => intro pre _; simp
    | cons S l ih =>
      intro pre hnd
      have hS : S ∉ (pre.zipIdx).map (·.1) := by
        rw [List.zipIdx_map_fst]
        intro hmem
        exact (List.nodup_append.mp hnd).2.2 S hmem S List.mem_cons_self rfl
      rw [List.foldl_cons, List.length_replicate, stateMapEmplace_of_not_mem hS]
      have hpre : (⟨pre.zipIdx ++ [(S, pre.length)], List.replicate pre.length (dstate n.alphasize) ++
          [dstate n.alphasize], pre.zipIdx ++ [(S, pre.length)]⟩ : DetState σ ρ) =
          ⟨(pre ++ [S]).zipIdx, List.replicate (pre ++ [S]).length (dstate n.alphasize), (pre ++ [S]).zipIdx⟩ := by
        simp [List.zipIdx_append, List.replicate_succ']
      rw [hpre, ih (pre ++ [S]) (by simpa using hnd)]
      simp
  exact key n.initial [n.dead] hinit

theorem initState_inv (n : Automaton σ ρ) (hinit : (n.dead :: n.initial).Nodup) : Inv n (initState n) := by
  rw [initState_eq n hinit]
  have hsets : DetState.sets (⟨(n.dead :: n.initial).zipIdx, List.replicate (n.initial.length + 1)
      (dstate n.alphasize), (n.dead :: n.initial).zipIdx⟩ : DetState σ ρ) = n.dead :: n.initial :=
    List.zipIdx_map_fst 0 _
  refine ⟨⟨?_, ?_, ?_, ?_, ?_, ?_⟩, ?_⟩
  · rw [hsets]
  · rw [hsets]
    exact hinit
  · simp only [hsets, List.prefix_refl]
  · simp
  · exact List.suffix_refl _
  · intro k hk
    rw [hsets, List.length_cons] at hk
    simp [List.getD_eq_getElem?_getD, hk, dstate]
  · intro k hk
    simp [DetState.processed] at hk

end Invariant

/-! ## Reading the DFA states -/

section Lists

variable {α : Type*}

theorem getD_modify_ne (l : List α) (f : α → α) {j k : Nat} (h : j ≠ k) (d : α) :
    (l.modify j f).getD k d = l.getD k d := by
  simp [List.getD_eq_getElem?_getD, List.getElem?_modify_ne f l h]

theorem getD_modify_self (l : List α) (f : α → α) {k : Nat} (h : k < l.length) (d : α) :
    (l.modify k f).getD k d = f (l.getD k d) := by
  simp [List.getD_eq_getElem?_getD, h]

theorem getD_set_ne (l : List α) {j k : Nat} (a : α) (h : j ≠ k) (d : α) : (l.set j a).getD k d = l.getD k d := by
  simp [List.getD_eq_getElem?_getD, h]

theorem getD_set_self (l : List α) {k : Nat} (a : α) (h : k < l.length) (d : α) : (l.set k a).getD k d = a := by
  simp [List.getD_eq_getElem?_getD, h]

end Lists

/-- Two DFA states with the same successors and reports: `daddy` aside. -/
def SameCore (d d' : DState ρ) : Prop := d'.next = d.next ∧ d'.reports = d.reports ∧ d'.reportsEod = d.reportsEod

theorem SameCore.refl (d : DState ρ) : SameCore d d := ⟨rfl, rfl, rfl⟩

section Invariant2

variable [Inhabited σ]

/-- A done DFA state stays done when more sets are found and other DFA
states change. -/
theorem StateDone.mono {n : Automaton σ ρ} {sets sets' : List σ} {ds ds' : List (DState ρ)} {k : Nat}
    (h : StateDone n sets ds k) (hk : k < sets.length) (hpre : sets <+: sets')
    (hsame : SameCore (ds.getD k default) (ds'.getD k default)) : StateDone n sets' ds' k := by
  obtain ⟨new, rfl⟩ := hpre
  obtain ⟨hrep, heod, hnext⟩ := h
  obtain ⟨hn, hr, he⟩ := hsame
  have hget : (sets ++ new).getD k default = sets.getD k default := List.getD_append _ _ _ _ hk
  refine ⟨by rw [hr, hrep, hget], by rw [he, heod, hget], ?_⟩
  intro a ha
  obtain ⟨hlt, hset⟩ := hnext a ha
  rw [hn, hget, List.getD_append _ _ _ _ hlt, List.length_append]
  exact ⟨by omega, hset⟩

end Invariant2

/-! ## The loop over the symbols -/

section Symbols

variable [Inhabited σ]

/-- What the search for the DFA state of the set `S` leaves: `succId` is a
DFA state of `S` in `st'`, which is either `st` up to `daddy` fields or `st`
with `S` numbered next and queued. -/
structure SuccFound (n : Automaton σ ρ) (st st' : DetState σ ρ) (S : σ) (succId : Nat) : Prop where
  wf : Wf n st'
  lt : succId < st'.sets.length
  get : st'.sets.getD succId default = S
  grows : (st'.sets = st.sets ∧ st'.q = st.q) ∨
    (st'.sets = st.sets ++ [S] ∧ st'.q.length = st.q.length + 1 ∧ succId = st.sets.length)
  same : ∀ k < st.sets.length, SameCore (st.dstates.getD k default) (st'.dstates.getD k default)

/-- A DFA state already there. -/
theorem succFound_self {n : Automaton σ ρ} {st : DetState σ ρ} {S : σ} {succId : Nat} (hwf : Wf n st)
    (hlt : succId < st.sets.length) (hget : st.sets.getD succId default = S) : SuccFound n st st S succId :=
  ⟨hwf, hlt, hget, .inl ⟨rfl, rfl⟩, fun _ _ => SameCore.refl _⟩

/-- Marking a `daddy` changes nothing that is found. -/
theorem SuccFound.daddy {n : Automaton σ ρ} {st st' : DetState σ ρ} {S : σ} {succId : Nat}
    (h : SuccFound n st st' S succId) (j x : Nat) :
    SuccFound n st { st' with dstates := st'.dstates.modify j fun d => { d with daddy := x } } S succId := by
  -- the DFA state `j` keeps its successors and reports
  have hcore : ∀ k, SameCore (st'.dstates.getD k default)
      ((st'.dstates.modify j fun d => { d with daddy := x }).getD k default) := by
    intro k
    by_cases hjk : j = k
    · subst hjk
      by_cases hk : j < st'.dstates.length
      · rw [getD_modify_self _ _ hk]
        exact SameCore.refl _
      · rw [List.getD_eq_getElem?_getD, List.getD_eq_getElem?_getD,
          List.getElem?_eq_none (by omega), List.getElem?_eq_none (by rw [List.length_modify]; omega)]
        exact SameCore.refl _
    · rw [getD_modify_ne _ _ hjk]
      exact SameCore.refl _
  obtain ⟨⟨hids, hnd, hbeg, hlen, hq, hnext⟩, hlt, hget, hgrows, hsame⟩ := h
  refine ⟨⟨hids, hnd, hbeg, by simpa using hlen, hq, fun k hk => ?_⟩, hlt, hget, hgrows, fun k hk => ?_⟩
  · rw [(hcore k).1]
    exact hnext k hk
  · obtain ⟨h1, h2, h3⟩ := hsame k hk
    obtain ⟨h1', h2', h3'⟩ := hcore k
    exact ⟨h1'.trans h1, h2'.trans h2, h3'.trans h3⟩

variable [DecidableEq σ]

/-- A set found in the map is the DFA state of its id. -/
theorem succFound_find {n : Automaton σ ρ} {st : DetState σ ρ} {S : σ} {succId : Nat} (hwf : Wf n st)
    (h : stateMapFind st.ids S = some succId) : SuccFound n st st S succId := by
  have hmem := stateMapFind_eq_some h
  rw [hwf.ids, List.mk_mem_zipIdx_iff_getElem?] at hmem
  obtain ⟨hlt, hget⟩ := List.getElem?_eq_some_iff.mp hmem
  exact succFound_self hwf hlt (by rw [List.getD_eq_getElem?_getD, List.getElem?_eq_getElem hlt, hget]; rfl)

/-- A set not in the map is numbered next, with a fresh DFA state, and queued. -/
theorem succFound_new {n : Automaton σ ρ} {st : DetState σ ρ} {S : σ} (hwf : Wf n st)
    (h : stateMapFind st.ids S = none) (D : DState ρ) (hD : D.next.length = n.alphasize) :
    SuccFound n st ⟨stateMapEmplace st.ids S st.ids.length, st.dstates ++ [D], st.q ++ [(S, st.ids.length)]⟩
      S st.ids.length := by
  have hS : S ∉ st.sets := stateMapFind_eq_none h
  have hids : stateMapEmplace st.ids S st.ids.length = st.ids ++ [(S, st.ids.length)] :=
    stateMapEmplace_of_not_mem hS _
  have hsets : DetState.sets (⟨stateMapEmplace st.ids S st.ids.length, st.dstates ++ [D],
      st.q ++ [(S, st.ids.length)]⟩ : DetState σ ρ) = st.sets ++ [S] := by
    simp [DetState.sets, hids]
  have hlen := hwf.length_dstates
  refine ⟨⟨?_, ?_, ?_, ?_, ?_, ?_⟩, ?_, ?_, .inr ⟨hsets, by simp, by simp⟩, ?_⟩
  · rw [hsets, List.zipIdx_append, ← hwf.ids]
    simp [hids, DetState.sets]
  · rw [hsets, List.nodup_append]
    exact ⟨hwf.nodup, by simp, fun a ha b hb hab => hS (by simp_all)⟩
  · rw [hsets]
    exact hwf.begins.trans (List.prefix_append _ _)
  · rw [hsets]
    simp [hlen]
  · obtain ⟨t, ht⟩ := hwf.queue
    exact ⟨t, by rw [hids, ← ht, List.append_assoc]⟩
  · intro k hk
    rw [hsets, List.length_append, List.length_singleton] at hk
    by_cases hkl : k < st.dstates.length
    · rw [List.getD_append _ _ _ _ hkl]
      exact hwf.next_length k (by omega)
    · rw [List.getD_append_right _ _ _ _ (by omega), show k - st.dstates.length = 0 by omega]
      exact hD
  · rw [hsets]
    simp
  · rw [hsets, List.getD_append_right _ _ _ _ (by simp)]
    simp
  · intro k hk
    rw [List.getD_append _ _ _ _ (by rw [hlen]; exact hk)]
    exact SameCore.refl _

/-- **The search for a successor.**  Given that the previous symbol's
successor is right, `findSucc` gives a DFA state of the successor set. -/
theorem findSucc_spec {n : Automaton σ ρ} {st : DetState σ ρ} (d i : Nat) (succs : Nat → σ) (hwf : Wf n st)
    (hprev : i ≠ 0 → (st.dstates.getD d default).next.getD (i - 1) 0 < st.sets.length ∧
      st.sets.getD ((st.dstates.getD d default).next.getD (i - 1) 0) default = succs (i - 1)) :
    SuccFound n st (findSucc n d succs st i).2 (succs i) (findSucc n d succs st i).1 := by
  unfold findSucc
  split
  · -- the same set as the previous symbol: its successor
    rename_i hsame
    obtain ⟨hlt, hget⟩ := hprev hsame.1
    exact succFound_self hwf hlt (by rw [hget, hsame.2])
  · cases hfind : stateMapFind st.ids (succs i) with
    | some succId =>
      dsimp only
      split
      · exact (succFound_find hwf hfind).daddy _ _
      · exact succFound_find hwf hfind
    | none => exact succFound_new hwf hfind _ (by simp [dstate])

omit [Inhabited σ] [DecidableEq σ] in
/-- Changing a DFA state but for the length of `next` keeps the shape. -/
theorem Wf.modify {n : Automaton σ ρ} {st : DetState σ ρ} (hwf : Wf n st) (d : Nat) (f : DState ρ → DState ρ)
    (hf : ∀ D : DState ρ, D.next.length = n.alphasize → (f D).next.length = n.alphasize) :
    Wf n { st with dstates := st.dstates.modify d f } := by
  refine ⟨hwf.ids, hwf.nodup, hwf.begins, by simpa using hwf.length_dstates, hwf.queue, fun k hk => ?_⟩
  by_cases hdk : d = k
  · subst hdk
    rw [getD_modify_self _ _ (by rw [hwf.length_dstates]; exact hk)]
    exact hf _ (hwf.next_length d hk)
  · rw [getD_modify_ne _ _ hdk]
    exact hwf.next_length k hk

/-- The invariant of the loop over the symbols of the set `S` of DFA state
`d`: the DFA states before `d` are done, `d` has its reports and its
successors on the symbols below `i`, and the measure is still `M`. -/
structure SymInv (n : Automaton σ ρ) (stateLimit d : Nat) (S : σ) (M i : Nat) (st : DetState σ ρ) : Prop
    extends Wf n st where
  processed_eq : st.processed = d + 1
  done : ∀ k < d, StateDone n st.sets st.dstates k
  curr : st.sets.getD d default = S
  reports : (st.dstates.getD d default).reports = n.reports S
  reportsEod : (st.dstates.getD d default).reportsEod = n.reportsEod S
  next : ∀ a < i, (st.dstates.getD d default).next.getD a 0 < st.sets.length ∧
    st.sets.getD ((st.dstates.getD d default).next.getD a 0) default = n.transition S a
  measure_eq : st.measure stateLimit = M

/-- **One symbol.**  A pass of the loop over the symbols that goes on sets
the successor of the symbol right and keeps the rest. -/
theorem symbolStep_inv {n : Automaton σ ρ} {L d M i : Nat} {S : σ} {st st' : DetState σ ρ}
    (hinv : SymInv n L d S M i st) (hi : i < n.alphasize)
    (h : symbolStep n L d (n.transition S) st i = some st') : SymInv n L d S M (i + 1) st' := by
  have hspec := findSucc_spec d i (n.transition S) hinv.toWf (fun hi0 => hinv.next (i - 1) (by omega))
  rcases hr : findSucc n d (n.transition S) st i with ⟨succId, st1⟩
  rw [hr] at hspec
  dsimp only at hspec
  simp only [symbolStep, hr] at h
  split at h
  · simp at h
  rename_i hL
  simp only [Option.some.injEq] at h
  subst h
  obtain ⟨hwf1, hlt, hget, hgrows, hsame⟩ := hspec
  have hd : d < st.sets.length := by
    have := hinv.processed_eq
    simp only [DetState.processed, length_sets] at this ⊢
    omega
  -- the search only added sets, and kept the queue's count of the visited ones
  obtain ⟨new, hnew, hproc, hmeas⟩ : ∃ new, st1.sets = st.sets ++ new ∧ st1.processed = st.processed ∧
      st1.measure L = st.measure L := by
    rcases hgrows with ⟨hs, hq⟩ | ⟨hs, hq, hid⟩
    · refine ⟨[], by simp [hs], ?_, ?_⟩
      · simp only [DetState.processed, ← length_sets, hs, hq]
      · simp only [DetState.measure, ← length_sets, hs, hq]
    · refine ⟨[n.transition S i], hs, ?_, ?_⟩
      · simp only [DetState.processed, ← length_sets, hs, hq, List.length_append, List.length_singleton]
        omega
      · simp only [DetState.measure, ← length_sets, hs, hq, List.length_append, List.length_singleton]
        omega
  have hd1 : d < st1.dstates.length := by
    rw [hwf1.length_dstates, hnew, List.length_append]
    omega
  have hcurr := hsame d hd
  have hget' : ∀ k < st.sets.length, st1.sets.getD k default = st.sets.getD k default := fun k hk => by
    rw [hnew, List.getD_append _ _ _ _ hk]
  have hnextLen : (st1.dstates.getD d default).next.length = n.alphasize :=
    hwf1.next_length d (by rw [← hwf1.length_dstates]; exact hd1)
  refine ⟨hwf1.modify d _ (fun D hD => by simpa using hD), hproc.trans hinv.processed_eq, fun k hk => ?_, ?_, ?_, ?_, fun a ha => ?_,
    hmeas.trans hinv.measure_eq⟩
  · -- an earlier DFA state: untouched but for `daddy`
    change StateDone n st1.sets _ k
    rw [hnew]
    refine (hinv.done k hk).mono (by omega) (List.prefix_append _ _) ?_
    rw [getD_modify_ne _ _ (by omega)]
    exact hsame k (by omega)
  · exact (hget' d hd).trans hinv.curr
  · rw [getD_modify_self _ _ hd1]
    exact hcurr.2.1.trans hinv.reports
  · rw [getD_modify_self _ _ hd1]
    exact hcurr.2.2.trans hinv.reportsEod
  · rw [getD_modify_self _ _ hd1]
    dsimp only
    by_cases hai : a = i
    · -- the symbol of this pass
      subst hai
      rw [getD_set_self _ _ (by omega)]
      exact ⟨hlt, hget⟩
    · rw [getD_set_ne _ _ (Ne.symm hai), hcurr.1]
      obtain ⟨hlt', hget''⟩ := hinv.next a (by omega)
      refine ⟨?_, ?_⟩
      · change _ < st1.sets.length
        rw [hnew, List.length_append]
        omega
      · exact (hget' _ hlt').trans hget''

end Symbols

/-! ## The `while` loop -/

section Worklist

variable [Inhabited σ] [DecidableEq σ]

omit [DecidableEq σ] in
/-- The head of the queue is the first DFA state not yet visited. -/
theorem Wf.queue_head {n : Automaton σ ρ} {st : DetState σ ρ} (hwf : Wf n st) {curr : σ} {currId : Nat}
    {rest : List (σ × Nat)} (hq : st.q = (curr, currId) :: rest) :
    currId = st.processed ∧ currId < st.sets.length ∧ st.sets.getD currId default = curr := by
  have hdrop : st.ids.drop st.processed = (curr, currId) :: rest := by
    rw [DetState.processed, ← hq]
    exact (List.suffix_iff_eq_drop.mp hwf.queue).symm
  have hget : st.ids[st.processed]? = some (curr, currId) := by
    have h0 := congrArg (·[0]?) hdrop
    simpa [List.getElem?_drop] using h0
  rw [hwf.ids, List.getElem?_zipIdx, Option.map_eq_some_iff] at hget
  obtain ⟨a, ha, hpair⟩ := hget
  simp only [Nat.zero_add, Prod.mk.injEq] at hpair
  obtain ⟨rfl, rfl⟩ := hpair
  obtain ⟨hlt, -⟩ := List.getElem?_eq_some_iff.mp ha
  exact ⟨rfl, hlt, by rw [List.getD_eq_getElem?_getD, ha]; rfl⟩

omit [DecidableEq σ] in
/-- DFA state `0` is the dead set's. -/
theorem Wf.getD_zero {n : Automaton σ ρ} {st : DetState σ ρ} (hwf : Wf n st) : st.sets.getD 0 default = n.dead := by
  obtain ⟨t, ht⟩ := hwf.begins
  rw [← ht]
  rfl

omit [DecidableEq σ] in
/-- Taking the head off the queue and filling in its reports: the loop over
the symbols starts from its invariant. -/
theorem pop_symInv {n : Automaton σ ρ} {L : Nat} {st : DetState σ ρ} (hinv : Inv n st) {curr : σ} {currId : Nat}
    {rest : List (σ × Nat)} (hq : st.q = (curr, currId) :: rest) :
    SymInv n L currId curr (st.measure L - 1) 0
      ⟨st.ids, st.dstates.modify currId fun d => { d with reports := n.reports curr, reportsEod := n.reportsEod curr },
        rest⟩ := by
  obtain ⟨hproc, hlt, hcurr⟩ := hinv.queue_head hq
  have hlt' : currId < st.dstates.length := by rw [hinv.length_dstates]; exact hlt
  have hwf : Wf n ⟨st.ids, st.dstates.modify currId fun d =>
      { d with reports := n.reports curr, reportsEod := n.reportsEod curr }, rest⟩ := by
    have hmod := hinv.modify currId (fun d => { d with reports := n.reports curr, reportsEod := n.reportsEod curr })
      (fun D hD => hD)
    refine ⟨hinv.ids, hinv.nodup, hinv.begins, by simpa using hinv.length_dstates, ?_,
      fun k hk => hmod.next_length k hk⟩
    obtain ⟨t, ht⟩ := hinv.queue
    exact ⟨t ++ [(curr, currId)], by rw [List.append_assoc, List.singleton_append, ← hq, ht]⟩
  have hqlen : st.q.length = rest.length + 1 := by rw [hq, List.length_cons]
  have hqle := hinv.queue.length_le
  refine ⟨hwf, ?_, fun k hk => ?_, hcurr, ?_, ?_, fun a ha => absurd ha (Nat.not_lt_zero a), ?_⟩
  · simp only [DetState.processed] at hproc ⊢
    omega
  · refine (hinv.done k (by omega)).mono (by omega) (List.prefix_refl _) ?_
    rw [getD_modify_ne _ _ (by omega)]
    exact SameCore.refl _
  · rw [getD_modify_self _ _ hlt']
  · rw [getD_modify_self _ _ hlt']
  · simp only [DetState.measure]
    omega

omit [DecidableEq σ] in
/-- A pruned set: dead on every symbol, a top stays.  It is done. -/
theorem prune_inv {n : Automaton σ ρ} {st : DetState σ ρ} (hinv : Inv n st) {curr : σ} {currId : Nat}
    {rest : List (σ × Nat)} (hq : st.q = (curr, currId) :: rest)
    (hprune : n.reports curr ≠ [] ∧ n.canPrune (n.reports curr) = true) :
    Inv n ⟨st.ids, (st.dstates.modify currId fun d =>
        { d with reports := n.reports curr, reportsEod := n.reportsEod curr }).modify currId fun d =>
        { d with next := (List.replicate n.alphasize 0).set n.top currId }, rest⟩ := by
  have hsym := pop_symInv (L := 0) hinv hq
  have hprunable : n.prunable curr = true := by
    simpa [Automaton.prunable, List.isEmpty_iff] using hprune
  have hlen : currId < st.sets.length := (hinv.queue_head hq).2.1
  -- the popped state, in terms of `st`
  have hcurr : st.sets.getD currId default = curr := hsym.curr
  have hdone : ∀ k < currId, StateDone n st.sets (st.dstates.modify currId fun d =>
      { d with reports := n.reports curr, reportsEod := n.reportsEod curr }) k := hsym.done
  have hlen' : currId < (st.dstates.modify currId fun d =>
      { d with reports := n.reports curr, reportsEod := n.reportsEod curr }).length := by
    rw [List.length_modify, hinv.length_dstates]
    exact hlen
  refine ⟨hsym.modify currId _ (fun D _ => by simp), fun k hk => ?_⟩
  have hk' : k < currId + 1 := hsym.processed_eq ▸ hk
  change StateDone n st.sets _ k
  by_cases hkc : k < currId
  · have hne : currId ≠ k := by omega
    refine (hdone k hkc).mono (by omega) (List.prefix_refl _) ?_
    simp only [getD_modify_ne _ _ hne]
    exact SameCore.refl _
  -- the pruned DFA state itself
  obtain rfl : k = currId := by omega
  rw [StateDone, getD_modify_self _ _ hlen', hcurr]
  refine ⟨hsym.reports, hsym.reportsEod, fun a ha => ?_⟩
  dsimp only
  rw [Automaton.prunedStep, if_pos hprunable]
  by_cases hat : a = n.top
  · subst hat
    rw [getD_set_self _ _ (by simpa using ha), if_pos rfl]
    exact ⟨hlen, hcurr⟩
  · have h0 : (List.replicate n.alphasize 0).getD a 0 = 0 := by simp [List.getD_eq_getElem?_getD, ha]
    rw [getD_set_ne _ _ (Ne.symm hat), h0, if_neg hat]
    exact ⟨by omega, hinv.getD_zero⟩

omit [DecidableEq σ] in
/-- After the last symbol the DFA state is done. -/
theorem symInv_done {n : Automaton σ ρ} {L d M : Nat} {S : σ} {st : DetState σ ρ}
    (hsym : SymInv n L d S M n.alphasize st) (hprune : ¬ (n.reports S ≠ [] ∧ n.canPrune (n.reports S) = true)) :
    Inv n st := by
  have hprunable : n.prunable S = false := by
    simpa [Automaton.prunable, List.isEmpty_iff] using hprune
  refine ⟨hsym.toWf, fun k hk => ?_⟩
  rw [hsym.processed_eq] at hk
  by_cases hkd : k < d
  · exact hsym.done k hkd
  obtain rfl : k = d := by omega
  refine ⟨by rw [hsym.reports, hsym.curr], by rw [hsym.reportsEod, hsym.curr], fun a ha => ?_⟩
  rw [hsym.curr, Automaton.prunedStep, if_neg (by simp [hprunable])]
  exact hsym.next a ha

/-- **One pass of the `while` loop.**  A pass that goes on keeps the
invariant and lowers the measure. -/
theorem determiniseStep_inv {n : Automaton σ ρ} {L : Nat} {st st' : DetState σ ρ} (hinv : Inv n st)
    (h : determiniseStep n L st = .inr st') : Inv n st' ∧ st'.measure L < st.measure L := by
  unfold determiniseStep at h
  cases hq : st.q with
  | nil => simp [hq] at h
  | cons p rest =>
    obtain ⟨curr, currId⟩ := p
    have hqlen : st.q.length = rest.length + 1 := by rw [hq, List.length_cons]
    have hpos : 0 < st.measure L := by
      simp only [DetState.measure]
      omega
    simp only [hq] at h
    split at h
    · -- pruned: its DFA state is done at once
      rename_i hprune
      simp only [Sum.inr.injEq] at h
      subst h
      refine ⟨prune_inv hinv hq hprune, ?_⟩
      simp only [DetState.measure] at hpos ⊢
      omega
    · rename_i hprune
      split at h
      · simp at h
      rename_i st2 hfold
      simp only [Sum.inr.injEq] at h
      subst h
      -- the loop over the symbols, from the popped state
      have hsym := Loop.foldlM_range_spec (symbolStep n L currId (n.transition curr))
        (fun i b => SymInv n L currId curr (st.measure L - 1) i b) n.alphasize
        (fun i hi b b' hb hstep => symbolStep_inv hb hi hstep) _ st2 (pop_symInv hinv hq) hfold
      exact ⟨symInv_done hsym hprune, by rw [hsym.measure_eq]; omega⟩

/-- What `determinise` promises when it returns `true`: the sets of the DFA
states start with the dead set and the initial sets, are distinct, and every
DFA state is done. -/
structure Result (n : Automaton σ ρ) (dstates : List (DState ρ)) (sets : List σ) : Prop where
  begins : (n.dead :: n.initial) <+: sets
  nodup : sets.Nodup
  length : dstates.length = sets.length
  done : ∀ k < sets.length, StateDone n sets dstates k

/-- A pass of the `while` loop that returns: `true` only with an empty
queue, and then every DFA state is done. -/
theorem determiniseStep_result {n : Automaton σ ρ} {L : Nat} {st : DetState σ ρ}
    {r : Option (List (DState ρ) × List σ)} (hinv : Inv n st) (h : determiniseStep n L st = .inl r)
    (dstates : List (DState ρ)) (sets : List σ) (hr : r = some (dstates, sets)) : Result n dstates sets := by
  unfold determiniseStep at h
  cases hq : st.q with
  | nil =>
    simp only [hq, Sum.inl.injEq] at h
    rw [← h, Option.some.injEq, Prod.mk.injEq] at hr
    obtain ⟨rfl, rfl⟩ := hr
    rw [hinv.ids, statesets_zipIdx]
    refine ⟨hinv.begins, hinv.nodup, hinv.length_dstates, fun k hk => hinv.done k ?_⟩
    simp only [DetState.processed, hq, List.length_nil, Nat.sub_zero, ← length_sets]
    exact hk
  | cons p rest =>
    simp only [hq] at h
    split at h
    · simp at h
    · split at h
      · simp only [Sum.inl.injEq] at h
        rw [← h] at hr
        simp at hr
      · simp at h

/-- **The construction.**  When `determinise` returns `true` on an
automaton whose initial sets are distinct and not the dead set (as it
asserts), its DFA states and their sets meet `Result`.  The fuel of the model
never runs out: every pass lowers the measure, which starts below it. -/
theorem determinise_spec {n : Automaton σ ρ} {L : Nat} (hinit : (n.dead :: n.initial).Nodup)
    {dstates : List (DState ρ)} {sets : List σ} (h : determinise n L = some (dstates, sets)) :
    Result n dstates sets := by
  have hrun := @Loop.run_spec _ _ (determiniseStep n L) (fun _ => none) (Inv n)
    (fun r => ∀ dstates sets, r = some (dstates, sets) → Result n dstates sets) (DetState.measure L)
    (fun st st' hinv hstep => determiniseStep_inv hinv hstep)
    (fun st r hinv hstep => determiniseStep_result hinv hstep)
    (L + n.initial.length + 2) (initState n) (initState_inv n hinit) (by
      rw [initState_eq n hinit]
      simp only [DetState.measure, List.length_zipIdx, List.length_cons]
      omega)
  exact hrun dstates sets h

end Worklist

/-! ## The DFA follows the pruned automaton -/

/-- Before the first prefix of the word whose set is prunable, the pruned
automaton is the automaton. -/
theorem prunedRun_eq_transitionStar (n : Automaton σ ρ) (w : List Nat) :
    ∀ S : σ, (∀ u a v, w = u ++ a :: v → n.prunable (n.transitionStar S u) = false) →
      n.prunedRun S w = n.transitionStar S w := by
  -- induction on the word: its first symbol is read from a set that is not prunable
  induction w with
  | nil => intro S _; rfl
  | cons a w ih =>
    intro S h
    have hS : n.prunable S = false := h [] a w rfl
    have hstep : n.prunedStep S a = n.transition S a := by
      rw [Automaton.prunedStep, if_neg (by simp [hS])]
    have hrest : ∀ u b v, w = u ++ b :: v → n.prunable (n.transitionStar (n.transition S a) u) = false :=
      fun u b v hw => h (a :: u) b v (by rw [hw, List.cons_append])
    simp only [Automaton.prunedRun, Automaton.transitionStar, List.foldl_cons, hstep] at ih ⊢
    exact ih _ hrest

section Simulation

variable [Inhabited σ]

/-- **Simulation.**  From a DFA state of a table whose states are all done,
`next` along a word over the alphabet reaches a DFA state of the set that the
pruned automaton reaches from the state's set. -/
theorem dfaRun_simulates {n : Automaton σ ρ} {dstates : List (DState ρ)} {sets : List σ}
    (hdone : ∀ k < sets.length, StateDone n sets dstates k) (w : List Nat) (hw : ∀ a ∈ w, a < n.alphasize) :
    ∀ k < sets.length, dfaRun dstates k w < sets.length ∧
      sets.getD (dfaRun dstates k w) default = n.prunedRun (sets.getD k default) w := by
  -- induction on the word, one `next` per symbol
  induction w with
  | nil => intro k hk; exact ⟨hk, rfl⟩
  | cons a w ih =>
    intro k hk
    obtain ⟨-, -, hnext⟩ := hdone k hk
    obtain ⟨hlt, hset⟩ := hnext a (hw a List.mem_cons_self)
    obtain ⟨hlt', hset'⟩ := ih (fun b hb => hw b (List.mem_cons_of_mem a hb)) _ hlt
    refine ⟨hlt', ?_⟩
    simp only [dfaRun, Automaton.prunedRun, List.foldl_cons] at hlt' hset' ⊢
    rw [hset', hset]

end Simulation

section Main

variable [Inhabited σ] [DecidableEq σ]

/-- **The DFA of `determinise` simulates the automaton's state sets.**  When
`determinise` returns `true` on an automaton whose initial sets are distinct
and not the dead set (the assertion it makes on them): DFA state `0` is the
dead set's, DFA state `i + 1` the `i`-th initial set's, distinct DFA states
have distinct sets, and from the DFA state of each initial set, `next` along
every word over the alphabet reaches the DFA state of the set that the pruned
automaton reaches, with that set's reports and EOD reports.  By
`prunedRun_eq_transitionStar` that set is `transition*` up to the first
prunable prefix. -/
theorem determinise_simulates {n : Automaton σ ρ} {stateLimit : Nat} {dstates : List (DState ρ)} {sets : List σ}
    (hinit : (n.dead :: n.initial).Nodup) (h : determinise n stateLimit = some (dstates, sets)) :
    sets.getD 0 default = n.dead ∧ (∀ i < n.initial.length, sets.getD (i + 1) default = n.initial.getD i default) ∧
      sets.Nodup ∧ dstates.length = sets.length ∧
      ∀ i < n.initial.length, ∀ w : List Nat, (∀ a ∈ w, a < n.alphasize) →
        sets.getD (dfaRun dstates (i + 1) w) default = n.prunedRun (n.initial.getD i default) w ∧
        (dstates.getD (dfaRun dstates (i + 1) w) default).reports =
          n.reports (n.prunedRun (n.initial.getD i default) w) ∧
        (dstates.getD (dfaRun dstates (i + 1) w) default).reportsEod =
          n.reportsEod (n.prunedRun (n.initial.getD i default) w) := by
  have hres := determinise_spec hinit h
  obtain ⟨t, ht⟩ := hres.begins
  -- the sets begin with the dead set and the initial sets
  have hbegin : ∀ i < n.initial.length + 1, sets.getD i default = (n.dead :: n.initial).getD i default := by
    intro i hi
    rw [← ht, List.getD_append _ _ _ _ (by simpa using hi)]
  have hlen : n.initial.length + 1 ≤ sets.length := by
    have := congrArg List.length ht
    simp only [List.length_append, List.length_cons] at this
    omega
  refine ⟨hbegin 0 (by omega), fun i hi => hbegin (i + 1) (by omega), hres.nodup, hres.length,
    fun i hi w hw => ?_⟩
  obtain ⟨hk, hset⟩ := dfaRun_simulates hres.done w hw (i + 1) (by omega)
  have hinit_i : sets.getD (i + 1) default = n.initial.getD i default := hbegin (i + 1) (by omega)
  rw [hinit_i] at hset
  obtain ⟨hrep, heod, -⟩ := hres.done _ hk
  exact ⟨hset, by rw [hrep, hset], by rw [heod, hset]⟩

/-- `b*a` over the symbols `a` (`0`) and `b` (`1`), with a top (`2`): the
sets of states are `0` (dead), `1` (start) and `2` (matched, report `7`). -/
def bStarA : Automaton Nat Nat :=
  ⟨0, [1], fun S => if S = 2 then [7] else [], fun _ => [], fun S a => if S = 1 then (if a = 0 then 2 else 1) else 0,
    3, fun _ => false, 2, fun a => if a < 2 then a + 97 else 256⟩

/-- The DFA that `determinise` builds for `bStarA`. -/
def bStarADfa : List (DState Nat) := [⟨[0, 0, 0], 0, [], []⟩, ⟨[2, 1, 1], 0, [], []⟩, ⟨[0, 0, 0], 1, [7], []⟩]

theorem determinise_simulates_bStarA :
    (bStarA.dead :: bStarA.initial).Nodup ∧ determinise bStarA 10 = some (bStarADfa, [0, 1, 2]) ∧
      ([0, 1, 2].getD 0 default = bStarA.dead ∧
        (∀ i < bStarA.initial.length, [0, 1, 2].getD (i + 1) default = bStarA.initial.getD i default) ∧
        [0, 1, 2].Nodup ∧ bStarADfa.length = [0, 1, 2].length ∧
        ∀ i < bStarA.initial.length, ∀ w : List Nat, (∀ a ∈ w, a < bStarA.alphasize) →
          [0, 1, 2].getD (dfaRun bStarADfa (i + 1) w) default = bStarA.prunedRun (bStarA.initial.getD i default) w ∧
          (bStarADfa.getD (dfaRun bStarADfa (i + 1) w) default).reports =
            bStarA.reports (bStarA.prunedRun (bStarA.initial.getD i default) w) ∧
          (bStarADfa.getD (dfaRun bStarADfa (i + 1) w) default).reportsEod =
            bStarA.reportsEod (bStarA.prunedRun (bStarA.initial.getD i default) w)) := by
  have hinit : (bStarA.dead :: bStarA.initial).Nodup := by decide
  have h : determinise bStarA 10 = some (bStarADfa, [0, 1, 2]) := by decide
  exact ⟨hinit, h, determinise_simulates hinit h⟩

/-- Two equal initial sets, against the assertion of `determinise`: one
symbol besides the top, the dead set `0` absorbing and without reports, the
start set `1` leading to the set `2` of report `7`. -/
def twoStarts : Automaton Nat Nat :=
  ⟨0, [1, 1], fun S => if S = 2 then [7] else [], fun _ => [], fun S _ => if S = 1 then 2 else 0, 2, fun _ => false,
    1, fun a => if a < 1 then 97 else 256⟩

/-- **Without the assertion the DFA is wrong.**  With the initial sets `1, 1`
the second one's DFA state `2` is numbered, but the map keeps only the first,
so the set `2` found next gets the id `2` as well: `determinise` returns `true`
with four DFA states and three sets, DFA state `2` stands for the set `2`
instead of the second initial set, and on the empty word it has the report
`7` of the set `2`, where the initial set has none. -/
theorem determinise_duplicate_initial :
    determinise twoStarts 10 =
        some ([⟨[0, 0], 0, [], []⟩, ⟨[2, 2], 0, [], []⟩, ⟨[0, 0], 0, [7], []⟩, ⟨[0, 0], 1, [], []⟩], [0, 1, 2]) ∧
      [0, 1, 2].getD 2 0 ≠ twoStarts.initial.getD 1 0 ∧
      (([⟨[0, 0], 0, [], []⟩, ⟨[2, 2], 0, [], []⟩, ⟨[0, 0], 0, [7], []⟩, ⟨[0, 0], 1, [], []⟩] : List (DState Nat)).getD
          (dfaRun [⟨[0, 0], 0, [], []⟩, ⟨[2, 2], 0, [], []⟩, ⟨[0, 0], 0, [7], []⟩, ⟨[0, 0], 1, [], []⟩] 2 [])
          default).reports ≠ twoStarts.reports (twoStarts.prunedRun (twoStarts.initial.getD 1 0) []) := by
  decide

end Main

end Determinise
end Vectorscan
