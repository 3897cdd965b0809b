import Mathlib.Data.List.Induction
import Mathlib.Tactic.TypeStar

/-!
# Machines That May Fail

A machine whose step gives the next state or fails. `run` feeds it inputs and
stops at the first failure, which it reports with its position.

Most results about such a machine compare two runs. `Agree R` says that two
results are both successes, in states related by `R`, or both failures. A
relation that one step keeps in this sense is kept by every run, and that is the
only induction the comparisons need.

Whether an input fails may depend on all of the inputs before it. `Judges` says
that a predicate of the history and the input decides it, and then the position
that a run reports is the first one that the predicate rejects.

A footprint is the usual reason why two runs agree. The state falls into parts,
every input has at most one of them, and a step reads and writes its own part
only. Inputs of different parts then commute, whatever they do there and
whether or not they fail.

## Main definitions

* `run`: Feeding a list of inputs.
* `AllGood`, `FirstBad`, `Judges`: Inputs judged by what comes before them.
* `Agree`: Two results that fail together or succeed in related states.
* `Footprint`: Steps confined to the part of their input.
* `SameView`: States that show the same at every part.

## Theorems

* `run_append`: Cutting a run in two.
* `run_induction`: The invariant rule with history.
* `Judges.run_cases`: A run reports the first input that is rejected.
* `agree_run`: A relation kept by a step is kept by a run.
* `exists_run_ok`: Inputs that no state refuses.
* `run_congr`: Inputs that a step does not tell apart.
* `Footprint.agree_step`: Steps do not tell states apart that show the same.
* `Footprint.agree_swap`: Inputs of different parts commute.
* `Footprint.agree_run_swap`: Exchanging two inputs of a run that commute.
-/

namespace Fallible

variable {σ τ ι ε : Type*}

/-- Feed the inputs in order, the first of them at position `n`. The first
    failure ends the run. -/
def run (step : σ → ι → Except ε σ) : Nat → σ → List ι → Except (Nat × ε) σ
  | _, s, [] => .ok s
  | n, s, i :: is =>
      match step s i with
      | .error e => .error (n, e)
      | .ok s' => run step (n + 1) s' is

section Run

variable (step : σ → ι → Except ε σ)

@[simp] theorem run_nil (n : Nat) (s : σ) : run step n s [] = .ok s := rfl

theorem run_cons_ok {s s' : σ} {i : ι} (h : step s i = .ok s') (n : Nat) (is : List ι) :
    run step n s (i :: is) = run step (n + 1) s' is := by
  rw [run, h]

theorem run_cons_error {s : σ} {i : ι} {e : ε} (h : step s i = .error e) (n : Nat)
    (is : List ι) : run step n s (i :: is) = .error (n, e) := by
  rw [run, h]

theorem run_cons_eq_ok_iff (n : Nat) (s t : σ) (i : ι) (is : List ι) :
    run step n s (i :: is) = .ok t ↔ ∃ s', step s i = .ok s' ∧ run step (n + 1) s' is = .ok t := by
  cases h : step s i with
  | error e => simp only [run_cons_error step h, reduceCtorEq, false_and, exists_false]
  | ok s' => simp only [run_cons_ok step h, Except.ok.injEq, exists_eq_left']

/-- Cutting a run in two. -/
theorem run_append (n : Nat) (s : σ) (is js : List ι) :
    run step n s (is ++ js) = run step n s is >>= fun t => run step (n + is.length) t js := by
  induction is generalizing n s with
  | nil => rfl
  | cons i is ih =>
      rw [List.cons_append]
      cases h : step s i with
      | error e =>
          rw [run_cons_error step h, run_cons_error step h]
          rfl
      | ok s' =>
          rw [run_cons_ok step h, run_cons_ok step h, ih, List.length_cons, Nat.add_right_comm,
            Nat.add_assoc]

theorem run_append_of_ok {n : Nat} {s t : σ} {is : List ι} (h : run step n s is = .ok t)
    (js : List ι) : run step n s (is ++ js) = run step (n + is.length) t js := by
  rw [run_append, h]
  rfl

theorem run_append_eq_ok_iff (n : Nat) (s t : σ) (is js : List ι) :
    run step n s (is ++ js) = .ok t ↔
      ∃ u, run step n s is = .ok u ∧ run step (n + is.length) u js = .ok t := by
  rw [run_append]
  cases run step n s is with
  | error e => simp only [bind, Except.bind, reduceCtorEq, false_and, exists_false]
  | ok u => simp only [bind, Except.bind, Except.ok.injEq, exists_eq_left']

/-- Where a run starts counting decides the position of a failure and nothing
    else. -/
theorem run_eq_ok_shift (m n : Nat) (s t : σ) (is : List ι) :
    run step m s is = .ok t ↔ run step n s is = .ok t := by
  induction is generalizing m n s with
  | nil => rfl
  | cons i is ih =>
      rw [run_cons_eq_ok_iff, run_cons_eq_ok_iff]
      exact exists_congr fun s' => and_congr_right fun _ => ih (m + 1) (n + 1) s'

/-- The invariant rule with history: what holds of the empty run, and passes from
    a run to the run with one more successful step, holds of every run that
    succeeds. -/
theorem run_induction {P : List ι → σ → Prop} {s : σ} (hnil : P [] s)
    (hstep : ∀ is i t t', run step 0 s is = .ok t → P is t → step t i = .ok t' →
      P (is ++ [i]) t') {is : List ι} {t : σ} (h : run step 0 s is = .ok t) : P is t := by
  induction is using List.reverseRecOn generalizing t with
  | nil =>
      rw [run_nil, Except.ok.injEq] at h
      exact h ▸ hnil
  | append_singleton is i ih =>
      rcases (run_append_eq_ok_iff step 0 s t is [i]).mp h with ⟨u, hu, hlast⟩
      rcases (run_cons_eq_ok_iff step _ u t i []).mp hlast with ⟨t', hi, ht⟩
      rw [run_nil, Except.ok.injEq] at ht
      exact hstep is i u t hu (ih hu) (ht ▸ hi)

/-- Inputs that no state refuses make a run that succeeds. -/
theorem exists_run_ok {is : List ι} (h : ∀ i ∈ is, ∀ s, ∃ t, step s i = .ok t) (n : Nat) (s : σ) :
    ∃ t, run step n s is = .ok t := by
  induction is generalizing n s with
  | nil => exact ⟨s, rfl⟩
  | cons i is ih =>
      rcases h i List.mem_cons_self s with ⟨s', hs'⟩
      rw [run_cons_ok step hs']
      exact ih (fun j hj => h j (List.mem_cons_of_mem i hj)) (n + 1) s'

/-- Inputs that the step does not tell apart make one run. -/
theorem run_congr {is js : List ι} (h : List.Forall₂ (fun i j => ∀ s, step s i = step s j) is js)
    (n : Nat) (s : σ) : run step n s is = run step n s js := by
  induction h generalizing n s with
  | nil => rfl
  | cons hij _ ih =>
      rw [run, run, hij s]
      cases step s _ with
      | error e => rfl
      | ok s' => exact ih (n + 1) s'

end Run

section Judgement

/-- Every input is good after the ones before it. -/
def AllGood (good : List ι → ι → Prop) (is : List ι) : Prop :=
  ∀ pre i post, is = pre ++ i :: post → good pre i

/-- The first input that is not good stands at position `n`. -/
def FirstBad (good : List ι → ι → Prop) (is : List ι) (n : Nat) : Prop :=
  ∃ pre i post, is = pre ++ i :: post ∧ pre.length = n ∧ AllGood good pre ∧ ¬ good pre i

/-- What comes before an input decides whether the step takes it. -/
def Judges (good : List ι → ι → Prop) (step : σ → ι → Except ε σ) (s : σ) : Prop :=
  ∀ is i t, run step 0 s is = .ok t → ((∃ t', step t i = .ok t') ↔ good is i)

variable {good : List ι → ι → Prop} {is : List ι}

theorem allGood_nil : AllGood good [] :=
  fun _ _ _ h => absurd h.symm (List.append_ne_nil_of_right_ne_nil _ (List.cons_ne_nil _ _))

theorem AllGood.concat (h : AllGood good is) {i : ι} (hi : good is i) :
    AllGood good (is ++ [i]) := by
  intro pre j post heq
  cases post using List.reverseRecOn with
  | nil =>
      rcases List.append_inj' heq rfl with ⟨hpre, hlast⟩
      rw [← hpre, ← List.singleton_inj.mp hlast]
      exact hi
  | append_singleton post k =>
      rw [← List.cons_append, ← List.append_assoc] at heq
      exact h pre j post (List.append_inj' heq rfl).1

theorem FirstBad.append {n : Nat} (h : FirstBad good is n) (js : List ι) :
    FirstBad good (is ++ js) n := by
  rcases h with ⟨pre, i, post, his, hand⟩
  exact ⟨pre, i, post ++ js, by rw [his, List.append_assoc, List.cons_append], hand⟩

theorem FirstBad.not_allGood {n : Nat} (h : FirstBad good is n) : ¬ AllGood good is := by
  rcases h with ⟨pre, i, post, his, _, _, hbad⟩
  exact fun hall => hbad (hall pre i post his)

/-- A run reports the first input that is rejected. -/
theorem Judges.run_cases {step : σ → ι → Except ε σ} {s : σ} (h : Judges good step s)
    (is : List ι) :
    (∃ t, run step 0 s is = .ok t ∧ AllGood good is) ∨
      ∃ n e, run step 0 s is = .error (n, e) ∧ FirstBad good is n := by
  induction is using List.reverseRecOn with
  | nil => exact Or.inl ⟨s, rfl, allGood_nil⟩
  | append_singleton is i ih =>
      rcases ih with ⟨t, ht, hall⟩ | ⟨n, e, he, hbad⟩
      · have hrun := run_append_of_ok step ht [i]
        rw [Nat.zero_add] at hrun
        cases hi : step t i with
        | ok t' =>
            rw [run_cons_ok step hi, run_nil] at hrun
            exact Or.inl ⟨t', hrun, hall.concat ((h is i t ht).mp ⟨t', hi⟩)⟩
        | error e =>
            rw [run_cons_error step hi] at hrun
            refine Or.inr ⟨is.length, e, hrun, is, i, [], rfl, rfl, hall, fun hgood => ?_⟩
            rcases (h is i t ht).mpr hgood with ⟨t', ht'⟩
            rw [hi] at ht'
            exact absurd ht' (by simp only [reduceCtorEq, not_false_eq_true])
      -- A failure in the part before ends the whole run.
      · refine Or.inr ⟨n, e, ?_, hbad.append [i]⟩
        rw [run_append, he]
        rfl

end Judgement

section Agreement

variable {ε' : Type*}

/-- Both fail, or both succeed and end in related states. -/
def Agree (R : σ → τ → Prop) : Except ε σ → Except ε' τ → Prop
  | .ok s, .ok t => R s t
  | .error _, .error _ => True
  | .ok _, .error _ => False
  | .error _, .ok _ => False

variable {R : σ → τ → Prop} {x : Except ε σ} {y : Except ε' τ}

theorem agree_iff : Agree R x y ↔
    ((∃ s, x = .ok s) ↔ ∃ t, y = .ok t) ∧ ∀ s t, x = .ok s → y = .ok t → R s t := by
  cases x with
  | error e =>
      cases y with
      | error e' => simp only [Agree, reduceCtorEq, exists_false, false_imp_iff, implies_true,
          and_self]
      | ok t => simp only [Agree, reduceCtorEq, exists_false, Except.ok.injEq, exists_eq',
          iff_true, false_and]
  | ok s =>
      cases y with
      | error e' => simp only [Agree, Except.ok.injEq, exists_eq', reduceCtorEq, exists_false,
          iff_false, not_true_eq_false, false_and]
      | ok t =>
          simp only [Agree, Except.ok.injEq, exists_eq', true_and]
          exact ⟨fun h s t hs ht => hs ▸ ht ▸ h, fun h => h s t rfl rfl⟩

theorem Agree.mono {R' : σ → τ → Prop} (h : Agree R x y) (himp : ∀ s t, R s t → R' s t) :
    Agree R' x y := by
  rw [agree_iff] at h ⊢
  exact ⟨h.1, fun s t hs ht => himp s t (h.2 s t hs ht)⟩

theorem agree_refl {R : σ → σ → Prop} (hR : ∀ s, R s s) (x : Except ε σ) : Agree R x x := by
  cases x with
  | error e => trivial
  | ok s => exact hR s

theorem agree_error_left {R' : σ → τ → Prop} {e : ε} {ε₁ : Type*} {e₁ : ε₁}
    (h : Agree R (Except.error e) y) : Agree R' (Except.error e₁ : Except ε₁ σ) y := by
  cases y with
  | error e' => trivial
  | ok t => exact h.elim

theorem agree_error_right {R' : τ → σ → Prop} {e : ε} {ε₁ : Type*} {e₁ : ε₁}
    (h : Agree R (Except.error e) y) : Agree R' y (Except.error e₁ : Except ε₁ σ) := by
  cases y with
  | error e' => trivial
  | ok t => exact h.elim

/-- Results that agree still do with what follows them. -/
theorem Agree.bind {σ' τ' : Type*} {R' : σ' → τ' → Prop} {f : σ → Except ε σ'}
    {g : τ → Except ε' τ'} (h : Agree R x y) (hfg : ∀ s t, R s t → Agree R' (f s) (g t)) :
    Agree R' (x.bind f) (y.bind g) := by
  cases x with
  | error e =>
      cases y with
      | error e' => trivial
      | ok t => exact h.elim
  | ok s =>
      cases y with
      | error e' => exact h.elim
      | ok t => exact hfg s t h

/-- A relation that a step keeps is kept by a run. -/
theorem agree_run {step : σ → ι → Except ε σ} {step' : τ → ι → Except ε' τ}
    (hstep : ∀ s t i, R s t → Agree R (step s i) (step' t i)) (m n : Nat) {s : σ} {t : τ}
    (h : R s t) (is : List ι) : Agree R (run step m s is) (run step' n t is) := by
  induction is generalizing m n s t with
  | nil => exact h
  | cons i is ih =>
      have hi := hstep s t i h
      -- The step fails on both sides or on none.
      cases hs : step s i with
      | error e =>
          cases ht : step' t i with
          | error e' =>
              rw [run_cons_error step hs, run_cons_error step' ht]
              trivial
          | ok t' =>
              rw [hs, ht] at hi
              exact hi.elim
      | ok s' =>
          cases ht : step' t i with
          | error e' =>
              rw [hs, ht] at hi
              exact hi.elim
          | ok t' =>
              rw [hs, ht] at hi
              rw [run_cons_ok step hs, run_cons_ok step' ht]
              exact ih (m + 1) (n + 1) hi

/-- Whether results agree depends on their successes alone. -/
theorem agree_congr {ε₁ ε₂ : Type*} {x' : Except ε₁ σ} {y' : Except ε₂ τ}
    (hx : ∀ s, x = .ok s ↔ x' = .ok s) (hy : ∀ t, y = .ok t ↔ y' = .ok t) :
    Agree R x y ↔ Agree R x' y' := by
  simp only [agree_iff, hx, hy]

/-- A run of two inputs is one step after the other. -/
theorem run_pair_eq_ok_iff (step : σ → ι → Except ε σ) (n : Nat) (s t : σ) (a b : ι) :
    run step n s [a, b] = .ok t ↔ ((step s a).bind fun s' => step s' b) = .ok t := by
  rw [run_cons_eq_ok_iff]
  cases step s a with
  | error e => simp only [Except.bind, reduceCtorEq, false_and, exists_false]
  | ok s' =>
      simp only [Except.bind, Except.ok.injEq, exists_eq_left', run_cons_eq_ok_iff, run_nil,
        exists_eq_right]

theorem agree_run_pair {step : σ → ι → Except ε σ} {R : σ → σ → Prop} {s : σ} {a b : ι} (n : Nat)
    (h : Agree R ((step s a).bind fun s' => step s' b) ((step s b).bind fun s' => step s' a)) :
    Agree R (run step n s [a, b]) (run step n s [b, a]) :=
  (agree_congr (fun t => run_pair_eq_ok_iff step n s t a b)
    fun t => run_pair_eq_ok_iff step n s t b a).mpr h

end Agreement

section Parts

variable {π υ : Type*}

/-- The states show the same at every part. -/
def SameView (view : σ → π → υ) (s t : σ) : Prop :=
  ∀ p, view s p = view t p

/-- Every input has at most one part, and a step on it reads and writes what is
    seen of the state at this part only. -/
structure Footprint (step : σ → ι → Except ε σ) (part : ι → Option π) (view : σ → π → υ) :
    Prop where
  frame : ∀ {s s' i p}, step s i = .ok s' → part i ≠ some p → view s' p = view s p
  locality : ∀ {s t i}, (∀ p, part i = some p → view s p = view t p) →
    Agree (fun s' t' => ∀ p, part i = some p → view s' p = view t' p) (step s i) (step t i)

namespace Footprint

variable {step : σ → ι → Except ε σ} {part : ι → Option π} {view : σ → π → υ}

/-- A step does not tell states apart that show the same. -/
theorem agree_step (h : Footprint step part view) (s t : σ) (i : ι) (hst : SameView view s t) :
    Agree (SameView view) (step s i) (step t i) := by
  have hlocal := agree_iff.mp (h.locality (i := i) fun p _ => hst p)
  refine agree_iff.mpr ⟨hlocal.1, fun s' t' hs ht p => ?_⟩
  by_cases hp : part i = some p
  · exact hlocal.2 s' t' hs ht p hp
  -- Elsewhere neither step changed anything.
  · rw [h.frame hs hp, h.frame ht hp, hst p]

/-- A step is not disturbed by one on another part before it. -/
theorem agree_after (h : Footprint step part view) {a b : ι}
    (hab : ∀ p, part a = some p → part b ≠ some p) {s s₁ : σ} (hb : step s b = .ok s₁) :
    Agree (fun s' t' => ∀ p, part a = some p → view s' p = view t' p) (step s a) (step s₁ a) :=
  h.locality fun p hp => (h.frame hb (hab p hp)).symm

/-- Inputs of different parts commute. -/
theorem agree_swap (h : Footprint step part view) {a b : ι}
    (hab : ∀ p, part a = some p → part b ≠ some p) (s : σ) :
    Agree (SameView view) ((step s a).bind fun s' => step s' b)
      ((step s b).bind fun s' => step s' a) := by
  have hba : ∀ p, part b = some p → part a ≠ some p := fun p hb ha => hab p ha hb
  cases ha : step s a with
  | error e =>
      cases hb : step s b with
      | error e' => trivial
      | ok s₂ =>
          -- The failure of the one is not repaired by the other before it.
          have hafter := h.agree_after hab hb
          rw [ha] at hafter
          exact agree_error_left hafter
  | ok s₁ =>
      have hafter := h.agree_after hba ha
      cases hb : step s b with
      | error e' =>
          rw [hb] at hafter
          exact agree_error_right hafter
      | ok s₂ =>
          have hafter' := h.agree_after hab hb
          rw [hb, agree_iff] at hafter
          rw [ha, agree_iff] at hafter'
          refine agree_iff.mpr ⟨iff_of_true (hafter.1.mp ⟨s₂, rfl⟩) (hafter'.1.mp ⟨s₁, rfl⟩),
            fun s₃ s₄ h₃ h₄ p => ?_⟩
          have hb₃ := hafter.2 s₂ s₃ rfl h₃ p
          have ha₄ := hafter'.2 s₁ s₄ rfl h₄ p
          -- A part is changed by the step that has it, and by that one alone.
          by_cases hpa : part a = some p
          · rw [h.frame h₃ (hab p hpa), ha₄ hpa]
          · by_cases hpb : part b = some p
            · rw [h.frame h₄ hpa, hb₃ hpb]
            · rw [h.frame h₃ hpb, h.frame ha hpa, h.frame h₄ hpa, h.frame hb hpb]

/-- Two inputs that commute in every state may be exchanged in a run. -/
theorem agree_run_swap (h : Footprint step part view) {a b : ι}
    (hswap : ∀ s, Agree (SameView view) ((step s a).bind fun s' => step s' b)
      ((step s b).bind fun s' => step s' a)) (n : Nat) (s : σ) (pre post : List ι) :
    Agree (SameView view) (run step n s (pre ++ a :: b :: post))
      (run step n s (pre ++ b :: a :: post)) := by
  rw [run_append, run_append]
  -- Both runs reach the pair in one state, or fail before it.
  refine Agree.bind (agree_refl (R := Eq) (fun _ => rfl) _) ?_
  intro t t' ht
  rw [← ht]
  change Agree _ (run step _ t ([a, b] ++ post)) (run step _ t ([b, a] ++ post))
  rw [run_append, run_append]
  exact Agree.bind (agree_run_pair (n + pre.length) (hswap t)) fun u u' hu =>
    agree_run (fun v v' i => h.agree_step v v' i) _ _ hu post

end Footprint

/-- Inputs that leave the state as it is, where they do not fail, commute. -/
theorem agree_swap_of_readOnly {R : σ → σ → Prop} (hR : ∀ s, R s s)
    {step : σ → ι → Except ε σ} {a b : ι} (ha : ∀ {s s'}, step s a = .ok s' → s' = s)
    (hb : ∀ {s s'}, step s b = .ok s' → s' = s) (s : σ) :
    Agree R ((step s a).bind fun s' => step s' b) ((step s b).bind fun s' => step s' a) := by
  cases hsa : step s a with
  | error e =>
      cases hsb : step s b with
      | error e' => trivial
      | ok s₂ =>
          rw [hb hsb]
          change Agree R (Except.error e) (step s a)
          rw [hsa]
          trivial
  | ok s₁ =>
      rw [ha hsa]
      cases hsb : step s b with
      | error e' =>
          change Agree R (step s b) (Except.error e')
          rw [hsb]
          trivial
      | ok s₂ =>
          rw [hb hsb]
          change Agree R (step s b) (step s a)
          rw [hsa, hsb, ha hsa, hb hsb]
          exact hR s

end Parts

end Fallible
