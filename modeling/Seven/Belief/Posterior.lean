import Seven.Belief.Exact

/-!
# The Posterior in Closed Form

Updating one dimension of a track again and again, with noises of any size. The code
writes the mean before the variance and takes both from the same gain, so one update
is the library's, and a list of them is its fold: precisions and informations add up,
whatever the gains on the way were.

## Main definitions

* `updates`: One dimension updated by a list of measurements.

## Theorems

* `dim_updates`: The dimension is fused, the others are left alone.
* `updates_closed_form`: What a list of measurements makes of a track.
-/

namespace Seven

namespace GaussianBelief

section Updates

variable {F : Type} [F64 F]

/-- Update one dimension by measurements, each with its noise. -/
def updates (track : GaussianBelief F) (d : Fin 6) (zs : List (F × F)) : GaussianBelief F :=
  zs.foldl (fun track z => track.updateDim d z.1 z.2) track

theorem updates_concat (track : GaussianBelief F) (d : Fin 6) (zs : List (F × F)) (z : F × F) :
    track.updates d (zs ++ [z]) = (track.updates d zs).updateDim d z.1 z.2 := by
  rw [updates, updates, List.foldl_append, List.foldl_cons, List.foldl_nil]

theorem independentUpdates_updates (track : GaussianBelief F) (d : Fin 6) (zs : List (F × F)) :
    (track.updates d zs).independentUpdates =
      track.independentUpdates + UInt64.ofNat zs.length := by
  induction zs using List.reverseRecOn with
  | nil => exact (UInt64.add_zero _).symm
  | append_singleton zs z ih =>
      have hcount (track : GaussianBelief F) :
          (track.updateDim d z.1 z.2).independentUpdates = track.independentUpdates + 1 := rfl
      rw [updates_concat, hcount, ih, List.length_append, List.length_singleton, UInt64.ofNat_add,
        UInt64.add_assoc]
      rfl

end Updates

variable {K : Type} [Field K] [LinearOrder K] [SquareRoot K]

/-- The dimension is fused, the others are left alone. -/
theorem dim_updates (track : GaussianBelief K) (d i : Fin 6) (zs : List (K × K)) :
    (track.updates d zs).dim i =
      if i = d then Fusion.fuse (track.dim i) zs else track.dim i := by
  induction zs using List.reverseRecOn with
  | nil => rw [updates, List.foldl_nil, Fusion.fuse_nil, ite_self]
  | append_singleton zs z ih =>
      rw [updates_concat, dim_updateDim, ih]
      by_cases hi : i = d
      · rw [if_pos hi, if_pos hi, if_pos hi, Fusion.fuse, Fusion.fuse, List.foldl_append]
        rfl
      · rw [if_neg hi, if_neg hi, if_neg hi]

theorem dim_updates_self (track : GaussianBelief K) (d : Fin 6) (zs : List (K × K)) :
    (track.updates d zs).dim d = Fusion.fuse (track.dim d) zs := by
  rw [dim_updates, if_pos rfl]

variable [IsStrictOrderedRing K]

theorem updates_perm {track : GaussianBelief K} {d : Fin 6} {zs zs' : List (K × K)}
    (hvar : 0 < track.var.get d) (hzs : ∀ z ∈ zs, 0 < z.2) (hperm : zs.Perm zs') :
    track.updates d zs = track.updates d zs' := by
  refine ext_dim ?_ ?_
  · intro i
    rw [dim_updates, dim_updates]
    by_cases hi : i = d
    · rw [if_pos hi, if_pos hi, hi]
      exact Fusion.fuse_perm (g := track.dim d) hvar hzs hperm
    · rw [if_neg hi, if_neg hi]
  · rw [independentUpdates_updates, independentUpdates_updates, hperm.length_eq]

/-- What a list of measurements makes of a track. None of the updates divides by
    zero, and every one leaves a smaller variance that is positive. At the end the
    dimension is the one Gaussian with the added precisions and informations, the
    other dimensions are as they were, and another order gives the same track. -/
theorem updates_closed_form (track : GaussianBelief K) (d : Fin 6) (zs : List (K × K))
    (hvar : 0 < track.var.get d) (hzs : ∀ z ∈ zs, 0 < z.2) :
    (∀ n (hn : n < zs.length),
        Fusion.Narrows ((track.updates d (zs.take n)).dim d) zs[n]
          ((track.updates d (zs.take (n + 1))).dim d)) ∧
      Fusion.IsPosterior (track.dim d) zs ((track.updates d zs).dim d) ∧
      (∀ i, i ≠ d → (track.updates d zs).dim i = track.dim i) ∧
      ∀ zs', zs.Perm zs' → track.updates d zs' = track.updates d zs := by
  have hg : 0 < (track.dim d).var := hvar
  refine ⟨?_, ?_, ?_, ?_⟩
  -- The variance before each update is one that the updates before it left.
  · intro n hn
    have hbefore : 0 < ((track.updates d (zs.take n)).dim d).var := by
      rw [dim_updates_self]
      exact Fusion.var_fuse_pos hg fun z hz => hzs z (List.mem_of_mem_take hz)
    have hstep : (track.updates d (zs.take (n + 1))).dim d =
        Fusion.update ((track.updates d (zs.take n)).dim d) zs[n] := by
      rw [List.take_succ_eq_append_getElem hn, updates_concat, dim_updateDim, if_pos rfl]
    rw [hstep]
    exact Fusion.narrows_update hbefore (hzs _ (List.getElem_mem hn))
  · rw [dim_updates_self]
    exact Fusion.isPosterior_fuse hg hzs
  · intro i hi
    rw [dim_updates, if_neg hi]
  · intro zs' hperm
    exact (updates_perm hvar hzs hperm).symm

/-- Two measurements of different noise after the prior. -/
theorem updates_closed_form_prior :
    Fusion.IsPosterior ((uninformative : GaussianBelief Rat).dim 0) [(100, 25), (104, 50)]
      (((uninformative : GaussianBelief Rat).updates 0 [(100, 25), (104, 50)]).dim 0) :=
  (updates_closed_form (uninformative : GaussianBelief Rat) 0 [(100, 25), (104, 50)]
    (by decide) (by decide)).2.1

end GaussianBelief

end Seven
