import Mathlib.Data.List.Induction
import Mathlib.Logic.Function.Iterate
import Mathlib.Tactic.TypeStar

/-!
# Machines Taking Input

A machine with an explicit state that answers every input it is given. A run is
the list of inputs, `after` is the state it leaves and `trace` is what was
answered to each input.

Invariants of such a machine usually speak about the past: a cache holds what
was stored, a gate has seen what was let through. `after_induction` is the rule
for them. The predicate takes the history together with the state, so a step
may use everything that was said about the inputs before it.

## Main definitions

* `after`: The state a run leaves.
* `trace`: The inputs of a run with the answers to them.
* `answerAt`: The input at one position with the answer to it.
* `share`: The part of an input and its answer that another machine has.
* `Follows`: A machine that keeps step with another on the inputs both take.

## Theorems

* `after_append`, `trace_append`: Cutting a run in two.
* `after_induction`: The invariant rule with history.
* `getElem_trace`: The trace holds the answers position by position.
* `mem_trace_iff`: An answer in the trace was given at some point of the run.
* `countP_trace_le_one_iff`: An answer is given at most once exactly when no two
  positions give it.
* `reading_after`: A reading that moves on with the answers of one kind counts
  them.
* `Follows.after`, `Follows.trace`: Keeping step, carried over a run.
-/

namespace Machine

variable {σ ι ω : Type*} (step : σ → ι → σ × ω)

/-- The state a run leaves. -/
def after (s : σ) (run : List ι) : σ :=
  run.foldl (fun s i => (step s i).1) s

/-- The inputs of a run with the answers to them. -/
def trace : σ → List ι → List (ι × ω)
  | _, [] => []
  | s, i :: run => (i, (step s i).2) :: trace (step s i).1 run

/-- The input at one position with the answer to it. -/
def answerAt (s : σ) (run : List ι) (n : Fin run.length) : ι × ω :=
  (run.get n, (step (after step s (run.take n)) (run.get n)).2)

@[simp] theorem after_nil (s : σ) : after step s [] = s := rfl

@[simp] theorem after_cons (s : σ) (i : ι) (run : List ι) :
    after step s (i :: run) = after step (step s i).1 run := rfl

theorem after_append (s : σ) (run run' : List ι) :
    after step s (run ++ run') = after step (after step s run) run' := by
  rw [after, after, after, List.foldl_append]

theorem after_concat (s : σ) (run : List ι) (i : ι) :
    after step s (run ++ [i]) = (step (after step s run) i).1 := by
  rw [after_append, after_cons, after_nil]

@[simp] theorem trace_nil (s : σ) : trace step s [] = [] := rfl

theorem trace_append (s : σ) (run run' : List ι) :
    trace step s (run ++ run') = trace step s run ++ trace step (after step s run) run' := by
  induction run generalizing s with
  | nil => rfl
  | cons i run ih => rw [List.cons_append, trace, trace, ih, after_cons, List.cons_append]

-- The last answer is given from the state the run before it left.
theorem trace_concat (s : σ) (run : List ι) (i : ι) :
    trace step s (run ++ [i]) = trace step s run ++ [(i, (step (after step s run) i).2)] := by
  rw [trace_append]
  rfl

@[simp] theorem length_trace (s : σ) (run : List ι) :
    (trace step s run).length = run.length := by
  induction run generalizing s with
  | nil => rfl
  | cons i run ih => rw [trace, List.length_cons, List.length_cons, ih]

/-- The invariant rule with history: what holds of the empty run, and passes
    from a run to the run with one more input, holds of every run. -/
theorem after_induction {P : List ι → σ → Prop} {s : σ} (hnil : P [] s)
    (hstep : ∀ run i, P run (after step s run) →
      P (run ++ [i]) (step (after step s run) i).1) (run : List ι) :
    P run (after step s run) := by
  induction run using List.reverseRecOn with
  | nil => exact hnil
  | append_singleton run i ih =>
      rw [after_concat]
      exact hstep run i ih

/-- The trace holds the answers position by position. -/
theorem getElem_trace (s : σ) (run : List ι) (n : Nat) (hn : n < (trace step s run).length) :
    (trace step s run)[n] = answerAt step s run ⟨n, length_trace step s run ▸ hn⟩ := by
  induction run generalizing s n with
  | nil => exact absurd hn (Nat.not_lt_zero n)
  | cons i run ih =>
      cases n with
      | zero => rfl
      | succ n => exact ih (step s i).1 n (Nat.lt_of_succ_lt_succ hn)

/-- What was answered to an input of a run was answered where it stands. -/
theorem mem_trace_iff (s : σ) (run : List ι) (i : ι) (o : ω) :
    (i, o) ∈ trace step s run ↔
      ∃ run₁ run₂, run = run₁ ++ i :: run₂ ∧ (step (after step s run₁) i).2 = o := by
  constructor
  · intro h
    induction run generalizing s with
    | nil => exact absurd h List.not_mem_nil
    | cons j run ih =>
        rcases List.mem_cons.mp h with heq | h
        · rw [Prod.mk.injEq] at heq
          exact ⟨[], run, by rw [heq.1, List.nil_append], by rw [after_nil, heq.1, heq.2]⟩
        · rcases ih _ h with ⟨run₁, run₂, hrun, ho⟩
          exact ⟨j :: run₁, run₂, by rw [hrun, List.cons_append], ho⟩
  · intro h
    rcases h with ⟨run₁, run₂, hrun, ho⟩
    rw [hrun, trace_append, trace, ho]
    exact List.mem_append_right _ List.mem_cons_self

/-- A property is had at most once in a list exactly when no two elements have
    it. -/
theorem countP_le_one_iff_pairwise {α : Type*} (p : α → Bool) (l : List α) :
    l.countP p ≤ 1 ↔ l.Pairwise fun a b => p a = true → ¬ p b = true := by
  induction l with
  | nil => simp only [List.countP_nil, Nat.zero_le, List.Pairwise.nil]
  | cons a l ih =>
      rw [List.pairwise_cons, ← ih]
      cases hp : p a with
      | false =>
          rw [List.countP_cons_of_neg (by rw [hp]; exact Bool.false_ne_true)]
          exact ⟨fun h => ⟨fun _ _ h' => absurd h' Bool.false_ne_true, h⟩, fun h => h.2⟩
      | true =>
          rw [List.countP_cons_of_pos hp]
          -- The head has the property, so nothing after it may.
          have hzero : (∀ b ∈ l, true = true → ¬ p b = true) ↔ l.countP p = 0 := by
            rw [List.countP_eq_zero]
            exact ⟨fun h b hb => h b hb rfl, fun h b hb _ => h b hb⟩
          rw [hzero]
          omega

/-- An answer is given at most once exactly when no two positions give it. -/
theorem countP_trace_le_one_iff (p : ι × ω → Bool) (s : σ) (run : List ι) :
    (trace step s run).countP p ≤ 1 ↔
      ∀ m n : Fin run.length, m < n →
        p (answerAt step s run m) = true → ¬ p (answerAt step s run n) = true := by
  -- Pairs of positions of the trace are pairs of positions of the run.
  rw [countP_le_one_iff_pairwise, List.pairwise_iff_getElem]
  simp only [getElem_trace, length_trace]
  constructor
  · intro h m n hmn
    exact h m n m.2 n.2 hmn
  · intro h m n hm hn hmn
    exact h ⟨m, hm⟩ ⟨n, hn⟩ hmn

/-- What holds of every input and its answer holds wherever they stand. -/
theorem forall_mem_trace_iff {P : ι × ω → Prop} (s : σ) (run : List ι) :
    (∀ io ∈ trace step s run, P io) ↔
      ∀ run₁ i run₂, run = run₁ ++ i :: run₂ → P (i, (step (after step s run₁) i).2) := by
  constructor
  · intro h run₁ i run₂ hrun
    exact h _ ((mem_trace_iff step s run i _).mpr ⟨run₁, run₂, hrun, rfl⟩)
  · intro h io hio
    rcases (mem_trace_iff step s run io.1 io.2).mp hio with ⟨run₁, run₂, hrun, ho⟩
    have hP := h run₁ io.1 run₂ hrun
    rwa [ho] at hP

/-- A reading of the state that moves on with the answers of one kind, and only
    with them, counts them. -/
theorem reading_after {α : Type*} (f : σ → α) (next : α → α) (p : ι × ω → Bool)
    (h : ∀ s i, f (step s i).1 = if p (i, (step s i).2) = true then next (f s) else f s) (s : σ)
    (run : List ι) : f (after step s run) = next^[(trace step s run).countP p] (f s) := by
  induction run generalizing s with
  | nil => rfl
  | cons i run ih =>
      rw [after_cons, ih, h, trace]
      cases hp : p (i, (step s i).2) with
      | false => rw [List.countP_cons_of_neg (by rw [hp]; exact Bool.false_ne_true), if_neg
          Bool.false_ne_true]
      | true => rw [List.countP_cons_of_pos hp, if_pos rfl, Function.iterate_succ_apply]

/-- Two nested kinds of elements are equally many when they are the same. -/
theorem countP_eq_countP_iff {α : Type*} {p q : α → Bool} {l : List α}
    (h : ∀ a ∈ l, p a = true → q a = true) :
    l.countP p = l.countP q ↔ ∀ a ∈ l, q a = true → p a = true := by
  refine ⟨fun heq => ?_, fun hconv => List.countP_congr fun a ha => ⟨h a ha, hconv a ha⟩⟩
  induction l with
  | nil => exact fun a ha => absurd ha List.not_mem_nil
  | cons b l ih =>
      rw [List.forall_mem_cons] at h ⊢
      have hle := List.countP_mono_left h.2
      rw [List.countP_cons, List.countP_cons] at heq
      cases hp : p b with
      | true =>
          rw [hp, h.1 hp] at heq
          exact ⟨fun _ => rfl, ih h.2 (Nat.add_right_cancel heq)⟩
      | false =>
          rw [hp] at heq
          cases hq : q b with
          | true =>
              -- The second kind would be ahead here, and never behind later.
              rw [hq, if_neg Bool.false_ne_true, if_pos rfl] at heq
              omega
          | false =>
              rw [hq] at heq
              exact ⟨fun hfalse => hfalse, ih h.2 (Nat.add_right_cancel heq)⟩

section Follows

variable {σ' ι' ω' : Type*}

/-- The other machine's share of an input and its answer. -/
def share (keep : ι → Option ι') (reply : ω → Option ω') (io : ι × ω) : Option (ι' × ω') :=
  (keep io.1).bind fun i => (reply io.2).map (i, ·)

/-- A machine that keeps step with another, as far as its inputs go: one that is
    kept is taken by both, with corresponding answers, and any other leaves the
    states related. -/
structure Follows (step : σ → ι → σ × ω) (step' : σ' → ι' → σ' × ω') (keep : ι → Option ι')
    (reply : ω → Option ω') (P : ι → Prop) (R : σ → σ' → Prop) : Prop where
  kept : ∀ {s s' i i'}, P i → R s s' → keep i = some i' →
    R (step s i).1 (step' s' i').1 ∧ reply (step s i).2 = some (step' s' i').2
  skipped : ∀ {s s' i}, P i → R s s' → keep i = none → R (step s i).1 s'

variable {step : σ → ι → σ × ω} {step' : σ' → ι' → σ' × ω'} {keep : ι → Option ι'}
  {reply : ω → Option ω'} {P : ι → Prop} {R : σ → σ' → Prop}

/-- The states stay related along a run. -/
theorem Follows.after (h : Follows step step' keep reply P R) {s : σ} {s' : σ'} (hs : R s s')
    {run : List ι} (hrun : ∀ i ∈ run, P i) :
    R (Machine.after step s run) (Machine.after step' s' (run.filterMap keep)) := by
  induction run generalizing s s' with
  | nil => exact hs
  | cons i run ih =>
      have hi : P i := hrun i List.mem_cons_self
      have hrun' : ∀ i ∈ run, P i := fun i hi => hrun i (List.mem_cons_of_mem _ hi)
      cases hkeep : keep i with
      | none =>
          rw [List.filterMap_cons_none hkeep]
          exact ih (h.skipped hi hs hkeep) hrun'
      | some i' =>
          rw [List.filterMap_cons_some hkeep]
          exact ih (h.kept hi hs hkeep).1 hrun'

/-- The answers to the inputs kept are the answers of the other machine. -/
theorem Follows.trace (h : Follows step step' keep reply P R) {s : σ} {s' : σ'} (hs : R s s')
    {run : List ι} (hrun : ∀ i ∈ run, P i) :
    (Machine.trace step s run).filterMap (share keep reply) =
      Machine.trace step' s' (run.filterMap keep) := by
  induction run generalizing s s' with
  | nil => rfl
  | cons i run ih =>
      have hi : P i := hrun i List.mem_cons_self
      have hrun' : ∀ i ∈ run, P i := fun i hi => hrun i (List.mem_cons_of_mem _ hi)
      rw [Machine.trace]
      cases hkeep : keep i with
      | none =>
          have hnone : share keep reply (i, (step s i).2) = none := by
            rw [share, hkeep, Option.bind_none]
          -- The other machine does not move, and nothing of the answer is its own.
          rw [List.filterMap_cons_none hkeep, List.filterMap_cons_none hnone]
          exact ih (h.skipped hi hs hkeep) hrun'
      | some i' =>
          rcases h.kept hi hs hkeep with ⟨hnext, hanswer⟩
          have hsome : share keep reply (i, (step s i).2) = some (i', (step' s' i').2) := by
            rw [share, hkeep, hanswer, Option.bind_some, Option.map_some]
          rw [List.filterMap_cons_some hkeep, List.filterMap_cons_some hsome, Machine.trace,
            ih hnext hrun']

end Follows

end Machine
