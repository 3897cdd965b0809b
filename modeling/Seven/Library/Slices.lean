import Seven.Library.Fallible

/-!
# Slices of a Run

The inputs about one part of the state, in their order, are a slice of a run. A
footprint makes the slices independent: a run succeeds exactly when every slice
of it does, and at each part it ends with what the slice of that part ends with
(`Footprint.run_iff_slices`, `Footprint.view_eq_of_slice`).

A run is therefore known, up to what is seen of the state, by its slices. How
the slices were interleaved is not part of the result
(`Footprint.agree_run_of_slices`).

## Main definitions

* `slice`: The inputs about one part.

## Theorems

* `Footprint.run_slice`: A run that succeeds does so on every slice.
* `Footprint.run_iff_slices`: And only then.
* `Footprint.agree_run_of_slices`: Runs with the same slices agree.
-/

namespace Fallible

variable {σ ι ε π υ : Type*} [DecidableEq π]

/-- The inputs about one part. -/
def slice (part : ι → Option π) (p : π) (is : List ι) : List ι :=
  is.filter fun i => part i = some p

section Slice

variable {part : ι → Option π} {p : π} {i : ι}

theorem slice_concat_of_eq (h : part i = some p) (is : List ι) :
    slice part p (is ++ [i]) = slice part p is ++ [i] := by
  simp only [slice, List.filter_append, List.filter_cons, List.filter_nil, h, decide_true, if_true]

theorem slice_concat_of_ne (h : part i ≠ some p) (is : List ι) :
    slice part p (is ++ [i]) = slice part p is := by
  simp only [slice, List.filter_append, List.filter_cons, List.filter_nil, h, decide_false,
    Bool.false_eq_true, if_false, List.append_nil]

end Slice

namespace Footprint

variable {step : σ → ι → Except ε σ} {part : ι → Option π} {view : σ → π → υ} {s : σ}

/-- A run that succeeds does so on every slice, and ends with the same at the
    part of the slice. -/
theorem run_slice (h : Footprint step part view) {is : List ι} {t : σ}
    (hrun : run step 0 s is = .ok t) (p : π) :
    ∃ u, run step 0 s (slice part p is) = .ok u ∧ view u p = view t p := by
  refine run_induction step (s := s)
    (P := fun is t => ∃ u, run step 0 s (slice part p is) = .ok u ∧ view u p = view t p)
    ⟨s, rfl, rfl⟩ ?_ hrun
  intro is i t t' _ ih hstep
  rcases ih with ⟨u, hu, hview⟩
  by_cases hp : part i = some p
  · -- The slice takes the step too, having seen the same at its part.
    have hlocal := agree_iff.mp (h.locality (s := u) (t := t) (i := i) fun q hq => by
      rw [hp, Option.some.injEq] at hq
      rw [← hq, hview])
    rcases hlocal.1.mpr ⟨t', hstep⟩ with ⟨u', hu'⟩
    refine ⟨u', ?_, hlocal.2 u' t' hu' hstep p hp⟩
    rw [slice_concat_of_eq hp, run_append_of_ok step hu, run_cons_ok step hu', run_nil]
  · exact ⟨u, by rw [slice_concat_of_ne hp, hu], by rw [h.frame hstep hp, hview]⟩

/-- What a run and a slice of it end with at the part of the slice. -/
theorem view_eq_of_slice (h : Footprint step part view) {is : List ι} {t u : σ} {p : π}
    (hrun : run step 0 s is = .ok t) (hslice : run step 0 s (slice part p is) = .ok u) :
    view u p = view t p := by
  rcases h.run_slice hrun p with ⟨u', hu', hview⟩
  rw [hslice, Except.ok.injEq] at hu'
  rw [hu', hview]

/-- Where inputs about no part always succeed, a run succeeds exactly when every
    slice of it does. -/
theorem run_iff_slices (h : Footprint step part view)
    (hfree : ∀ i t, part i = none → ∃ t', step t i = .ok t') (is : List ι) :
    (∃ t, run step 0 s is = .ok t) ↔ ∀ p, ∃ u, run step 0 s (slice part p is) = .ok u := by
  constructor
  · intro hrun p
    rcases hrun with ⟨t, hrun⟩
    rcases h.run_slice hrun p with ⟨u, hu, _⟩
    exact ⟨u, hu⟩
  · intro hslices
    induction is using List.reverseRecOn with
    | nil => exact ⟨s, rfl⟩
    | append_singleton is i ih =>
        -- The slices of what comes before are beginnings of the slices.
        have hbefore : ∀ p, ∃ u, run step 0 s (slice part p is) = .ok u := by
          intro p
          rcases hslices p with ⟨u, hu⟩
          by_cases hp : part i = some p
          · rw [slice_concat_of_eq hp, run_append_eq_ok_iff] at hu
            rcases hu with ⟨mid, hmid, _⟩
            exact ⟨mid, hmid⟩
          · exact ⟨u, by rw [← slice_concat_of_ne hp is, hu]⟩
        rcases ih hbefore with ⟨t, ht⟩
        have hstep : ∃ t', step t i = .ok t' := by
          cases hi : part i with
          | none => exact hfree i t hi
          | some p =>
              rcases hslices p with ⟨u, hu⟩
              rw [slice_concat_of_eq hi, run_append_eq_ok_iff] at hu
              rcases hu with ⟨mid, hmid, hlast⟩
              rcases (run_cons_eq_ok_iff step _ mid u i []).mp hlast with ⟨u', hu', _⟩
              -- The step succeeds after the slice, so it does after the run.
              have hview := h.view_eq_of_slice ht hmid
              have hlocal := agree_iff.mp (h.locality (s := mid) (t := t) (i := i) fun q hq => by
                rw [hi, Option.some.injEq] at hq
                rw [← hq, hview])
              exact hlocal.1.mp ⟨u', hu'⟩
        rcases hstep with ⟨t', ht'⟩
        exact ⟨t', by rw [run_append_of_ok step ht, run_cons_ok step ht', run_nil]⟩

/-- Runs with the same slices fail together, or succeed and show the same. -/
theorem agree_run_of_slices (h : Footprint step part view)
    (hfree : ∀ i t, part i = none → ∃ t', step t i = .ok t') {is js : List ι}
    (hslices : ∀ p, slice part p is = slice part p js) :
    Agree (SameView view) (run step 0 s is) (run step 0 s js) := by
  refine agree_iff.mpr ⟨?_, fun t u ht hu p => ?_⟩
  · rw [h.run_iff_slices hfree, h.run_iff_slices hfree]
    simp only [hslices]
  · rcases h.run_slice ht p with ⟨t', ht', hview⟩
    rw [hslices p] at ht'
    rw [← hview, h.view_eq_of_slice hu ht']

end Footprint

end Fallible
