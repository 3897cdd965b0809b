import Seven.Belief.Engine
import Seven.Library.Fusion
import Mathlib.Algebra.Order.Ring.Rat

/-!
# Exact Arithmetic

The reading of `f64` as the elements of an ordered field, with any function in
the place of the square root. The square root enters conflict flagging alone,
so nothing about tracks depends on it.

Whatever the reading, the six dimensions are updated independently, each once
(`dim_fuse_measured`). Under this one each dimension of a track is a scalar Gaussian
and `updateDim` is the library's update of it. `dim_fuse` is that connection for one
whole observation.

## Main definitions

* `SquareRoot`: The function that stands for `sqrt`.
* `GaussianBelief.dim`, `measured`: One dimension of a track, and its update.

## Theorems

* `dim_fuse_measured`: A whole observation updates every dimension once.
* `dim_updateDim`, `dim_fuse`: The updates are those of scalar Gaussians.
-/

namespace Seven

/-- The function that stands for `sqrt`. -/
class SquareRoot (K : Type) where
  root : K → K

instance exactF64 {K : Type} [Field K] [LinearOrder K] [SquareRoot K] : F64 K where
  ofInt x := (x : K)
  abs x := |x|
  sqrt := SquareRoot.root
  gt x y := decide (y < x)

/-- The root of a rational, exact on the squares and rounded down elsewhere. -/
instance : SquareRoot Rat where
  root x := mkRat (Nat.sqrt x.num.toNat) (Nat.sqrt x.den)

namespace GaussianBelief

/-- One dimension of a track. -/
def dim {K : Type} (track : GaussianBelief K) (d : Fin 6) : Fusion.Gaussian K :=
  ⟨track.mean.get d, track.var.get d⟩

/-- Six dimensions and the update count are the whole track. -/
theorem ext_dim {K : Type} {track track' : GaussianBelief K}
    (hdim : ∀ d, track.dim d = track'.dim d)
    (hcount : track.independentUpdates = track'.independentUpdates) : track = track' := by
  have hmean : track.mean = track'.mean := by
    ext i hi
    exact congrArg Fusion.Gaussian.mean (hdim ⟨i, hi⟩)
  have hvar : track.var = track'.var := by
    ext i hi
    exact congrArg Fusion.Gaussian.var (hdim ⟨i, hi⟩)
  cases track
  cases track'
  simp only [mk.injEq]
  exact ⟨hmean, hvar, hcount⟩

theorem independentUpdates_fuse {F : Type} [F64 F] (track : GaussianBelief F) (z : Vector F 6) :
    (track.fuse z).independentUpdates = track.independentUpdates + 6 := by
  change track.independentUpdates + 1 + 1 + 1 + 1 + 1 + 1 = track.independentUpdates + 6
  simp only [UInt64.add_assoc]
  rfl

theorem get_set {F : Type} (xs : Vector F 6) (d i : Fin 6) (x : F) :
    (xs.set d x d.isLt).get i = if i = d then x else xs.get i := by
  change (xs.set d x d.isLt)[(i : Nat)] = _
  by_cases hi : i = d
  · subst hi
    rw [if_pos rfl, Vector.getElem_set_self]
  · have hne : (d : Nat) ≠ (i : Nat) := fun h => hi (Fin.ext h.symm)
    rw [if_neg hi, Vector.getElem_set_ne _ _ hne]
    rfl

section Measured

variable {F : Type} [F64 F]

/-- One dimension after a measurement of some noise. -/
def measured (g : Fusion.Gaussian F) (m r : F) : Fusion.Gaussian F :=
  let k := g.var / (g.var + r)
  ⟨g.mean + k * (m - g.mean), g.var * (F64.ofInt 1 - k)⟩

/-- One dimension is updated, the others are left alone. -/
theorem dim_updateDim_measured (track : GaussianBelief F) (d i : Fin 6) (m r : F) :
    (track.updateDim d m r).dim i =
      if i = d then measured (track.dim i) m r else track.dim i := by
  unfold dim updateDim
  -- Mean and variance are set at one index.
  by_cases hi : i = d
  · rw [hi]
    simp only [get_set, if_true]
    rfl
  · simp only [get_set, hi, if_false]

/-- Updating a list of dimensions, each at most once, updates those in it. -/
theorem dim_foldl_updateDim (z r : Vector F 6) (ds : List (Fin 6)) (hds : ds.Nodup)
    (track : GaussianBelief F) (i : Fin 6) :
    let updated := ds.foldl (fun track d => track.updateDim d (z.get d) (r.get d)) track
    (i ∈ ds → updated.dim i = measured (track.dim i) (z.get i) (r.get i)) ∧
      (i ∉ ds → updated.dim i = track.dim i) := by
  intro updated
  induction ds generalizing track with
  | nil => exact ⟨fun h => absurd h List.not_mem_nil, fun _ => rfl⟩
  | cons d ds ih =>
      rw [List.nodup_cons] at hds
      have hrest := ih hds.2 (track.updateDim d (z.get d) (r.get d))
      constructor
      · intro hmem
        rcases List.mem_cons.mp hmem with rfl | hmem
        · -- The head is updated here and not again.
          exact (hrest.2 hds.1).trans (by rw [dim_updateDim_measured, if_pos rfl])
        · have hne : i ≠ d := fun h => hds.1 (h ▸ hmem)
          exact (hrest.1 hmem).trans (by rw [dim_updateDim_measured, if_neg hne])
      · intro hnot
        rw [List.mem_cons, not_or] at hnot
        exact (hrest.2 hnot.2).trans (by rw [dim_updateDim_measured, if_neg hnot.1])

/-- A whole observation updates every dimension once. -/
theorem dim_fuse_measured (track : GaussianBelief F) (z : Vector F 6) (i : Fin 6) :
    (track.fuse z).dim i = measured (track.dim i) (z.get i) (noise.get i) :=
  (dim_foldl_updateDim z noise _ (List.nodup_finRange 6) track i).1 (List.mem_finRange i)

end Measured

variable {K : Type} [Field K] [LinearOrder K] [SquareRoot K]

/-- In exact arithmetic that is the update of a scalar Gaussian. -/
theorem measured_eq_update (g : Fusion.Gaussian K) (m r : K) :
    measured g m r = Fusion.update g (m, r) := by
  have hone : (F64.ofInt 1 : K) = 1 := Int.cast_one
  unfold measured
  rw [hone]
  rfl

theorem dim_updateDim (track : GaussianBelief K) (d i : Fin 6) (m r : K) :
    (track.updateDim d m r).dim i =
      if i = d then Fusion.update (track.dim i) (m, r) else track.dim i := by
  rw [dim_updateDim_measured, measured_eq_update]

theorem dim_fuse (track : GaussianBelief K) (z : Vector K 6) (i : Fin 6) :
    (track.fuse z).dim i = Fusion.update (track.dim i) (z.get i, noise.get i) := by
  rw [dim_fuse_measured, measured_eq_update]

end GaussianBelief

end Seven
