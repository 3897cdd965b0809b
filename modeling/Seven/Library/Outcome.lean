import Mathlib.Tactic.TypeStar

/-!
# Outcomes of Fallible Calls

What a call can end in: a value, an error it returns, or a panic that unwinds
past its caller. A program that slices a string at a bad offset does not return
an error, so an error monad alone cannot say that a function never panics.

`Outcome` keeps the three apart. Sequencing stops at the first error or panic.
Where no call depends on what an earlier one returned, a long function is a
sequence of checks, and `verdict_bind` reads off how it ends one call at a time.

## Main definitions

* `Outcome`: A value, an error or a panic.
* `ofExcept`: A call that cannot panic.
* `orPanic`: A partial operation whose undefined case panics.
* `Verdict`, `verdict`: How a call ends, and a sequence of checks.

## Theorems

* `except_bind_eq_ok`, `except_check_eq_ok`: A sequence of plain results succeeds.
* `except_forM_eq_ok`: A loop of checks succeeds.
* `verdict_bind`: A sequence of calls as a sequence of checks.
* `option_mapM_of_forall`, `option_mapM_of_exists`: A run of partial operations.
-/

/-- What a call ends in. -/
inductive Outcome (ε α : Type) where
  | ok (a : α)
  | err (e : ε)
  | panicked
  deriving DecidableEq, Repr

namespace Outcome

variable {ε α β : Type}

/-- Run the continuation on a value; stop at an error or a panic. -/
def bind (x : Outcome ε α) (f : α → Outcome ε β) : Outcome ε β :=
  match x with
  | ok a => f a
  | err e => err e
  | panicked => panicked

instance : Monad (Outcome ε) where
  pure := ok
  bind := bind

/-- A call that returns a result and cannot panic. -/
def ofExcept : Except ε α → Outcome ε α
  | .ok a => ok a
  | .error e => err e

/-- A partial operation whose undefined case panics. -/
def orPanic : Option α → Outcome ε α
  | some a => ok a
  | none => panicked

@[simp] theorem pure_eq (a : α) : (pure a : Outcome ε α) = ok a := rfl

@[simp] theorem ok_bind (a : α) (f : α → Outcome ε β) : ok a >>= f = f a := rfl

@[simp] theorem err_bind (e : ε) (f : α → Outcome ε β) : err e >>= f = err e := rfl

@[simp] theorem panicked_bind (f : α → Outcome ε β) : panicked >>= f = panicked := rfl

/-- A sequence of plain results succeeds when each of its calls does. -/
theorem except_bind_eq_ok (x : Except ε α) (f : α → Except ε β) (b : β) :
    x >>= f = .ok b ↔ ∃ a, x = .ok a ∧ f a = .ok b := by
  cases x with
  | ok a => simp only [Bind.bind, Except.bind, Except.ok.injEq, exists_eq_left']
  | error e => simp only [Bind.bind, Except.bind, reduceCtorEq, false_and, exists_false]

/-- What follows a check succeeds when the check does. -/
theorem except_check_eq_ok (x : Except ε Unit) (y : Except ε β) (b : β) :
    (x >>= fun _ => y) = .ok b ↔ x = .ok () ∧ y = .ok b := by
  rw [except_bind_eq_ok]
  constructor
  · intro h
    rcases h with ⟨⟨⟩, hx, hy⟩
    exact ⟨hx, hy⟩
  · intro h
    exact ⟨(), h⟩

/-- A loop of plain checks succeeds when each of them does. -/
theorem except_forM_eq_ok (xs : List α) (f : α → Except ε Unit) :
    xs.forM f = .ok () ↔ ∀ x ∈ xs, f x = .ok () := by
  rw [List.forM_eq_forM]
  induction xs with
  | nil => simp only [List.forM_nil, pure, Except.pure, List.not_mem_nil, false_imp_iff,
      implies_true]
  | cons x xs ih =>
      rw [List.forM_cons, except_check_eq_ok, List.forall_mem_cons, ih]

/-- How a call ends, without what it returns. -/
inductive Verdict where
  | pass
  | fail
  | crash
  deriving DecidableEq, Repr

/-- One check after another: the first that does not pass decides. -/
def Verdict.andThen : Verdict → Verdict → Verdict
  | pass, v => v
  | fail, _ => fail
  | crash, _ => crash

/-- A sequence of checks: the first that does not pass decides. -/
def Verdict.all (checks : List Verdict) : Verdict :=
  checks.foldr Verdict.andThen .pass

@[simp] theorem Verdict.pass_andThen (v : Verdict) : pass.andThen v = v := rfl

@[simp] theorem Verdict.andThen_pass (v : Verdict) : v.andThen .pass = v := by
  cases v <;> rfl

theorem Verdict.andThen_ne_crash_iff (v w : Verdict) :
    v.andThen w ≠ .crash ↔ v ≠ .crash ∧ (v = .pass → w ≠ .crash) := by
  cases v <;> simp only [andThen, ne_eq, reduceCtorEq, not_false_eq_true, not_true_eq_false,
    true_and, false_and, forall_const, false_imp_iff]

theorem Verdict.andThen_eq_pass_iff (v w : Verdict) :
    v.andThen w = .pass ↔ v = .pass ∧ w = .pass := by
  cases v <;> simp only [andThen, reduceCtorEq, true_and, false_and]

theorem Verdict.eq_fail_iff (v : Verdict) : v = .fail ↔ v ≠ .crash ∧ v ≠ .pass := by
  cases v <;> simp only [ne_eq, reduceCtorEq, not_false_eq_true, not_true_eq_false, and_self,
    and_false, false_and]

@[simp] theorem Verdict.all_nil : all [] = .pass := rfl

@[simp] theorem Verdict.all_cons (v : Verdict) (checks : List Verdict) :
    all (v :: checks) = v.andThen (all checks) := rfl

def verdict : Outcome ε α → Verdict
  | ok _ => .pass
  | err _ => .fail
  | panicked => .crash

@[simp] theorem verdict_ok (a : α) : (ok a : Outcome ε α).verdict = .pass := rfl

@[simp] theorem verdict_err (e : ε) : (err e : Outcome ε α).verdict = .fail := rfl

@[simp] theorem verdict_panicked : (panicked : Outcome ε α).verdict = .crash := rfl

theorem verdict_eq_crash_iff (x : Outcome ε α) : x.verdict = .crash ↔ x = panicked := by
  cases x <;> simp only [verdict, reduceCtorEq]

theorem verdict_eq_fail_iff (x : Outcome ε α) : x.verdict = .fail ↔ ∃ e, x = err e := by
  cases x <;> simp only [verdict, reduceCtorEq, err.injEq, exists_eq', exists_false]

/-- When what follows a call ends the same way on every value, the call and what
    follows it are two independent checks. -/
theorem verdict_bind (x : Outcome ε α) {f : α → Outcome ε β} {v : Verdict}
    (h : ∀ a, x = ok a → (f a).verdict = v) : (x >>= f).verdict = x.verdict.andThen v := by
  cases x with
  | ok a => exact h a rfl
  | err e => rfl
  | panicked => rfl

/-- A run of partial operations is defined when each of them is. -/
theorem option_mapM_of_forall {f : α → Option β} {g : α → β} {xs : List α}
    (h : ∀ x ∈ xs, f x = some (g x)) : xs.mapM f = some (xs.map g) := by
  induction xs with
  | nil => rfl
  | cons x xs ih =>
      rw [List.forall_mem_cons] at h
      rw [List.mapM_cons, h.1, ih h.2]
      rfl

/-- A run of partial operations is undefined when one of them is. -/
theorem option_mapM_of_exists {f : α → Option β} {xs : List α} (h : ∃ x ∈ xs, f x = none) :
    xs.mapM f = none := by
  induction xs with
  | nil =>
      rcases h with ⟨x, hx, _⟩
      exact absurd hx List.not_mem_nil
  | cons x xs ih =>
      rw [List.mapM_cons]
      cases hx : f x with
      | none => rfl
      | some y =>
          rcases h with ⟨z, hz, hfz⟩
          -- The undefined operation is the next one or a later one.
          rcases List.mem_cons.mp hz with rfl | hz
          · rw [hx] at hfz
            exact absurd hfz (by simp only [reduceCtorEq, not_false_eq_true])
          · rw [ih ⟨z, hz, hfz⟩]
            rfl

end Outcome
