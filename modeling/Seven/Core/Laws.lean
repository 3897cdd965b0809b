import Seven.Core.Quantized

/-!
# Laws of Canonicalization

Three laws on exact numbers. What an observation becomes depends on the rotation
and not on the quaternion that gives it (`canonicalize_scaled`).

The stored attitude lies in the hemisphere exactly when the sign outlives rounding
(`inHemisphere_iff`): the sign is chosen before the components are quantized, and
the component that decided it may be gone afterwards.

A canonical state is canonicalized again by `recanonicalize`, which gives it back.
When it is taken for a new observation instead, its attitude is normalized a second
time, after the first rounding has changed the norm, and every component may move by
one (`canonicalize_again`).

## Main definitions

* `asObservation`: A canonical state as an observation.
* `scaled`: The same observation with a multiple of the attitude.

## Theorems

* `canonicalize_again`: Canonicalizing what is canonical.
* `inHemisphere_iff`: Which attitudes lie in the hemisphere.
* `canonicalize_scaled`: Only the rotation matters.
-/

namespace Seven

open Rounding Real64

namespace CanonicalState

theorem inBand_canonical {obs : PhysicalObservation ℝ}
    (h : 2 ^ (-1022 : ℤ) < √obs.attitude.normSq) : (canonical obs).attitude.InBand :=
  CanonicalQuaternion.inBand_fixed (Quaternion.normSq_unit (Quaternion.normSq_pos_of_large h))

section Again

theorem recanonicalize_eq (s : CanonicalState) : s.recanonicalize Exact64 = .ok s := by
  unfold recanonicalize
  simp only [quantize_dequantize _ Scale.quaternion_ne_zero]

/-- A canonical state as an observation. -/
noncomputable def asObservation (s : CanonicalState) : PhysicalObservation ℝ :=
  { positionM := s.positionMm.map fun x => (x.toInt : ℝ) / Scale.position.toInt
    velocityMs := s.velocityMms.map fun x => (x.toInt : ℝ) / Scale.velocity.toInt
    attitude := s.attitude.ints.map fun n : ℤ => (n : ℝ) / Scale.quaternion.toInt
    observedAtNanos := s.observedAtNanos }

theorem dequantized_eq (s : CanonicalState) :
    s.dequantized Exact64 = s.asObservation.map real := by
  have hvector (v : Vector Int64 3) {scale : Int64} (h : scale.toInt ≠ 0) :
      v.map (dequantize Exact64 · scale) =
        (v.map fun x => (x.toInt : ℝ) / scale.toInt).map real := by
    rw [Vector.map_map]
    exact congrArg (Vector.map · v) (funext fun x => dequantize_eq x h)
  unfold dequantized asObservation PhysicalObservation.map Quaternion.map
  rw [hvector _ Scale.position_ne_zero, hvector _ Scale.velocity_ne_zero]
  simp only [dequantize_eq _ Scale.quaternion_ne_zero]
  rfl

/-- Taking a state apart leaves a multiple of its attitude. -/
theorem attitude_asObservation (s : CanonicalState) :
    s.asObservation.attitude =
      (s.attitude.ints.map fun n : ℤ => (n : ℝ)).scale (1 / (Scale.quaternion.toInt : ℝ)) := by
  unfold asObservation Quaternion.scale Quaternion.map
  simp only [one_div_mul_eq_div]

theorem canonical_asObservation (s : CanonicalState) :
    canonical s.asObservation =
      { s with attitude := (s.attitude.ints.map fun n : ℤ => (n : ℝ)).unit.fixed } := by
  have hvector (v : Vector Int64 3) {scale : Int64} (h : scale.toInt ≠ 0) :
      (v.map fun x => (x.toInt : ℝ) / scale.toInt).map (fixed · scale) = v := by
    rw [Vector.map_map]
    refine (congrArg (Vector.map · v) (funext fun x => fixed_div x h)).trans ?_
    exact Vector.map_id v
  unfold canonical
  rw [attitude_asObservation,
    Quaternion.unit_scale (one_div_ne_zero (Int.cast_ne_zero.mpr Scale.quaternion_ne_zero))]
  unfold asObservation
  rw [hvector _ Scale.position_ne_zero, hvector _ Scale.velocity_ne_zero]

/-- A stored attitude is long enough to be taken for an observation. -/
theorem large_asObservation {s : CanonicalState} (h : s.attitude.InBand) :
    2 ^ (-1022 : ℤ) < √s.asObservation.attitude.normSq := by
  have hlow : ((10 ^ 6 - 1) ^ 2 : ℝ) ≤ (s.attitude.ints.normSq : ℝ) := by
    exact_mod_cast h.1
  have hscale : (Scale.quaternion.toInt : ℝ) = 10 ^ 6 := by
    have hint : Scale.quaternion.toInt = 10 ^ 6 := rfl
    rw [hint]
    norm_num
  refine Quaternion.large_of_quarter_lt ?_
  rw [attitude_asObservation, Quaternion.normSq_scale, Quaternion.normSq_map_cast, hscale]
  calc (1 / 4 : ℝ) < (1 / 10 ^ 6) ^ 2 * (10 ^ 6 - 1) ^ 2 := by norm_num
    _ ≤ (1 / 10 ^ 6) ^ 2 * (s.attitude.ints.normSq : ℝ) :=
        mul_le_mul_of_nonneg_left hlow (by positivity)

/-- A canonical state is given back by `recanonicalize`. Taken for a new observation
    it is accepted, and comes back with the same position, velocity and time and with
    an attitude that is off by at most one in every component, where its sign was
    right. -/
theorem canonicalize_again (raw : PhysicalObservation Exact64) (s : CanonicalState)
    (h : canonicalize raw = .ok s) :
    s.recanonicalize Exact64 = .ok s ∧
      ∃ s', canonicalize (s.dequantized Exact64) = .ok s' ∧ s'.positionMm = s.positionMm ∧
        s'.velocityMms = s.velocityMms ∧ s'.observedAtNanos = s.observedAtNanos ∧
        (s.attitude.InHemisphere → s'.attitude.ints.Close s.attitude.ints) := by
  rcases (canonicalize_exact_iff raw s).mp h with ⟨obs, _, hlarge, rfl⟩
  have hband := inBand_canonical hlarge
  have hlarge' := large_asObservation hband
  refine ⟨recanonicalize_eq _, canonical (canonical obs).asObservation, ?_, ?_⟩
  · rw [dequantized_eq]
    exact (canonicalize_map_real_iff _ _).mpr ⟨hlarge', rfl⟩
  · rw [canonical_asObservation]
    refine ⟨rfl, rfl, rfl, ?_⟩
    intro hsign
    have hpos : 0 < ((canonical obs).attitude.ints.map fun n : ℤ => (n : ℝ)).normSq := by
      rw [Quaternion.normSq_map_cast, Int.cast_pos]
      exact lt_of_lt_of_le (by norm_num) hband.1
    rw [CanonicalQuaternion.ints_fixed (Quaternion.normSq_unit hpos)]
    exact Quaternion.close_rounded_unit (by norm_num) hband hsign

/-- An observation at rest with an attitude. -/
def atAttitude (q : Quaternion ℝ) : PhysicalObservation ℝ :=
  { positionM := #v[0, 0, 0], velocityMs := #v[0, 0, 0], attitude := q, observedAtNanos := 5 }

/-- A turn about one axis by a little less than thirty degrees. -/
def tilted : Quaternion ℝ :=
  (⟨4, 1, 0, 0⟩ : Quaternion ℤ).map fun n : ℤ => (n : ℝ)

theorem normSq_tilted : tilted.normSq = 17 := by
  have hint : (⟨4, 1, 0, 0⟩ : Quaternion ℤ).normSq = 17 := rfl
  rw [tilted, Quaternion.normSq_map_cast, hint, Int.cast_ofNat]

theorem large_tilted : 2 ^ (-1022 : ℤ) < √tilted.normSq := by
  refine Quaternion.large_of_quarter_lt ?_
  rw [normSq_tilted]
  norm_num

theorem canonicalize_tilted :
    canonicalize ((atAttitude tilted).map real : PhysicalObservation Exact64) =
      .ok (canonical (atAttitude tilted)) :=
  (canonicalize_map_real_iff _ _).mpr ⟨large_tilted, rfl⟩

theorem ints_tilted : (canonical (atAttitude tilted)).attitude.ints = ⟨970143, 242536, 0, 0⟩ := by
  have hw : nearestEven (4 * ((10 ^ 6 : ℤ) : ℝ) / √17) = 970143 := by
    refine nearestEven_div_sqrt ?_ ?_ ?_ ?_ ?_ <;> norm_num
  have hx : nearestEven (1 * ((10 ^ 6 : ℤ) : ℝ) / √17) = 242536 := by
    refine nearestEven_div_sqrt ?_ ?_ ?_ ?_ ?_ <;> norm_num
  have hround : tilted.unit.rounded (10 ^ 6) = ⟨970143, 242536, 0, 0⟩ := by
    rw [Quaternion.rounded_unit_of_pos (by norm_num [tilted, Quaternion.map]), normSq_tilted]
    simp only [tilted, Quaternion.map, Int.cast_ofNat, Int.cast_one, Int.cast_zero, hw, hx,
      zero_mul, zero_div, nearestEven_zero]
  exact (ints_canonical (Quaternion.normSq_pos_of_large large_tilted)).trans hround

/-- The second time the first component is one less. -/
theorem ints_tilted_again :
    (canonical (canonical (atAttitude tilted)).asObservation).attitude.ints.w = 970142 := by
  have hw : nearestEven (970143 * ((10 ^ 6 : ℤ) : ℝ) / √1000001151745) = 970142 := by
    refine nearestEven_div_sqrt ?_ ?_ ?_ ?_ ?_ <;> norm_num
  have hnorm : ((⟨970143, 242536, 0, 0⟩ : Quaternion ℤ).map fun n : ℤ => (n : ℝ)).normSq =
      1000001151745 := by
    rw [Quaternion.normSq_map_cast]
    norm_num [Quaternion.normSq]
  have hband : (canonical (atAttitude tilted)).attitude.InBand := inBand_canonical large_tilted
  have hlarge := large_asObservation hband
  rw [ints_canonical (Quaternion.normSq_pos_of_large hlarge), attitude_asObservation, ints_tilted,
    Quaternion.unit_scale (one_div_ne_zero (Int.cast_ne_zero.mpr Scale.quaternion_ne_zero)),
    Quaternion.rounded_unit_of_pos (by norm_num [Quaternion.map]), hnorm]
  simp only [Quaternion.map, Int.cast_ofNat, hw]

theorem canonicalize_again_tilted :
    (canonical (atAttitude tilted)).recanonicalize Exact64 = .ok (canonical (atAttitude tilted)) ∧
      ∃ s', canonicalize ((canonical (atAttitude tilted)).dequantized Exact64) = .ok s' ∧
        s'.attitude.ints.Close ⟨970143, 242536, 0, 0⟩ := by
  rcases canonicalize_again _ _ canonicalize_tilted with ⟨hagain, s', hs', _, _, _, hclose⟩
  refine ⟨hagain, s', hs', ?_⟩
  rw [← ints_tilted]
  refine hclose ?_
  unfold CanonicalQuaternion.InHemisphere
  rw [ints_tilted]
  decide

/-- A state that is taken for a new observation may come back as another one. -/
theorem not_idempotent :
    ¬ ∀ (raw : PhysicalObservation Exact64) (s : CanonicalState), canonicalize raw = .ok s →
      canonicalize (s.dequantized Exact64) = .ok s := by
  intro h
  have hagain := h _ _ canonicalize_tilted
  rw [dequantized_eq, canonicalize_map_real_iff] at hagain
  have hw := ints_tilted_again
  rw [← hagain.2, ints_tilted] at hw
  exact absurd hw (by decide)

end Again

section Hemisphere

theorem inHemisphere_canonical_iff {obs : PhysicalObservation ℝ}
    (h : 2 ^ (-1022 : ℤ) < √obs.attitude.normSq) :
    (canonical obs).attitude.InHemisphere ↔ obs.attitude.SignSurvives (10 ^ 6) := by
  have hpos := Quaternion.normSq_pos_of_large h
  change 0 < leading obs.attitude.unit.fixed.ints.toList ↔ _
  rw [← Quaternion.leading_rounded_unit_pos_iff (by norm_num) hpos, ← ints_canonical hpos]
  rfl

theorem inHemisphere_iff_of_ok {raw : PhysicalObservation Exact64} {s : CanonicalState}
    (h : canonicalize raw = .ok s) :
    s.attitude.InHemisphere ↔ (raw.attitude.map toReal).SignSurvives (10 ^ 6) := by
  rcases (canonicalize_exact_iff raw s).mp h with ⟨obs, rfl, hlarge, rfl⟩
  exact inHemisphere_canonical_iff hlarge

/-- Negating all components leaves the hemisphere. -/
theorem not_inHemisphere_of_neg {q q' : CanonicalQuaternion} (hneg : q'.ints = q.ints.map (- ·))
    (h : q.InHemisphere) : ¬ q'.InHemisphere := by
  have hleading : leading q'.ints.toList = -leading q.ints.toList := by
    rw [hneg]
    exact leading_map_of_iff (- ·) (fun _ => neg_eq_zero) q.ints.toList
  unfold CanonicalQuaternion.InHemisphere at h ⊢
  omega

/-- The stored attitude lies in the hemisphere exactly when the first component that
    is not rounded to zero has the sign of the first nonzero one. Two observations
    for which this holds do not get attitudes that are negatives of each other. -/
theorem inHemisphere_iff (raw : PhysicalObservation Exact64) (s : CanonicalState)
    (h : canonicalize raw = .ok s) :
    (s.attitude.InHemisphere ↔ (raw.attitude.map toReal).SignSurvives (10 ^ 6)) ∧
      ∀ (raw' : PhysicalObservation Exact64) (s' : CanonicalState), canonicalize raw' = .ok s' →
        (raw.attitude.map toReal).SignSurvives (10 ^ 6) →
          (raw'.attitude.map toReal).SignSurvives (10 ^ 6) →
            s'.attitude.ints ≠ s.attitude.ints.map (- ·) := by
  refine ⟨inHemisphere_iff_of_ok h, ?_⟩
  intro raw' s' h' hsign hsign' hneg
  exact not_inHemisphere_of_neg hneg ((inHemisphere_iff_of_ok h).mpr hsign)
    ((inHemisphere_iff_of_ok h').mpr hsign')

/-- Nearly half a turn about one axis, with a small first component. -/
def sliver (x : ℝ) : Quaternion ℝ := ⟨1, x, 0, 0⟩

theorem normSq_sliver {x : ℝ} (hx : |x| = 10 ^ 9) : (sliver x).normSq = 10 ^ 18 + 1 := by
  have hsq : x * x = 10 ^ 18 := by
    rw [← abs_mul_abs_self, hx]
    norm_num
  unfold sliver Quaternion.normSq
  linarith

theorem large_sliver {x : ℝ} (hx : |x| = 10 ^ 9) : 2 ^ (-1022 : ℤ) < √(sliver x).normSq := by
  refine Quaternion.large_of_quarter_lt ?_
  rw [normSq_sliver hx]
  norm_num

theorem canonicalize_sliver {x : ℝ} (hx : |x| = 10 ^ 9) :
    canonicalize ((atAttitude (sliver x)).map real : PhysicalObservation Exact64) =
      .ok (canonical (atAttitude (sliver x))) :=
  (canonicalize_map_real_iff _ _).mpr ⟨large_sliver hx, rfl⟩

/-- The first component decides the sign and is rounded to zero. -/
theorem ints_sliver {x : ℝ} (hx : |x| = 10 ^ 9) :
    (canonical (atAttitude (sliver x))).attitude.ints =
      ⟨0, nearestEven (x * ((10 ^ 6 : ℤ) : ℝ) / √(10 ^ 18 + 1)), 0, 0⟩ := by
  have hw : nearestEven (1 * ((10 ^ 6 : ℤ) : ℝ) / √(10 ^ 18 + 1)) = 0 := by
    have hroot : (2000000 : ℝ) ≤ √(10 ^ 18 + 1) := Real.le_sqrt_of_sq_le (by norm_num)
    rw [nearestEven_eq_zero_iff, abs_of_nonneg (by positivity), div_le_iff₀ (by positivity)]
    calc 1 * ((10 ^ 6 : ℤ) : ℝ) = 1 / 2 * 2000000 := by norm_num
      _ ≤ 1 / 2 * √(10 ^ 18 + 1) := mul_le_mul_of_nonneg_left hroot one_half_pos.le
  have hround : (sliver x).unit.rounded (10 ^ 6) =
      ⟨0, nearestEven (x * ((10 ^ 6 : ℤ) : ℝ) / √(10 ^ 18 + 1)), 0, 0⟩ := by
    rw [Quaternion.rounded_unit_of_pos (by norm_num [sliver]), normSq_sliver hx]
    simp only [sliver, Quaternion.map, hw, zero_mul, zero_div, nearestEven_zero]
  exact (ints_canonical (Quaternion.normSq_pos_of_large (large_sliver hx))).trans hround

theorem nearestEven_sliver :
    nearestEven (10 ^ 9 * ((10 ^ 6 : ℤ) : ℝ) / √(10 ^ 18 + 1)) = 10 ^ 6 := by
  refine nearestEven_div_sqrt ?_ ?_ ?_ ?_ ?_ <;> norm_num

theorem ints_sliver_pos :
    (canonical (atAttitude (sliver (10 ^ 9)))).attitude.ints = ⟨0, 10 ^ 6, 0, 0⟩ := by
  rw [ints_sliver (by norm_num), nearestEven_sliver]

theorem ints_sliver_neg :
    (canonical (atAttitude (sliver (-10 ^ 9)))).attitude.ints = ⟨0, -10 ^ 6, 0, 0⟩ := by
  rw [ints_sliver (by norm_num), neg_mul, neg_div, nearestEven_neg, nearestEven_sliver]

theorem inHemisphere_iff_tilted :
    tilted.SignSurvives (10 ^ 6) ∧ ¬ (sliver (-10 ^ 9)).SignSurvives (10 ^ 6) := by
  refine ⟨(inHemisphere_iff _ _ canonicalize_tilted).1.mp ?_, ?_⟩
  · unfold CanonicalQuaternion.InHemisphere
    rw [ints_tilted]
    decide
  · intro h
    have hsign := (inHemisphere_iff _ _ (canonicalize_sliver (by norm_num))).1.mpr h
    unfold CanonicalQuaternion.InHemisphere at hsign
    rw [ints_sliver_neg] at hsign
    exact absurd hsign (by decide)

/-- An attitude outside of the hemisphere, and the opposite one. -/
theorem not_inHemisphere :
    (¬ ∀ (raw : PhysicalObservation Exact64) (s : CanonicalState), canonicalize raw = .ok s →
      s.attitude.InHemisphere) ∧
    ∃ (raw raw' : PhysicalObservation Exact64) (s s' : CanonicalState),
      canonicalize raw = .ok s ∧ canonicalize raw' = .ok s' ∧
        s'.attitude.ints = s.attitude.ints.map (- ·) := by
  constructor
  · intro h
    have hsign := h _ _ (canonicalize_sliver (x := -10 ^ 9) (by norm_num))
    unfold CanonicalQuaternion.InHemisphere at hsign
    rw [ints_sliver_neg] at hsign
    exact absurd hsign (by decide)
  · refine ⟨_, _, _, _, canonicalize_sliver (x := 10 ^ 9) (by norm_num),
      canonicalize_sliver (x := -10 ^ 9) (by norm_num), ?_⟩
    rw [ints_sliver_pos, ints_sliver_neg]
    rfl

end Hemisphere

section Scaled

/-- The same observation with a multiple of the attitude. -/
def scaled {F : Type} [Mul F] (c : F) (raw : PhysicalObservation F) : PhysicalObservation F :=
  { raw with attitude := raw.attitude.scale c }

/-- A multiple fails the same checks. -/
theorem validateF64_scaled {c : ℝ} (hc : c ≠ 0) (v : Exact64) (field : String) :
    validateF64 (real c * v) field = validateF64 v field := by
  cases v with
  | nan => rfl
  | inf s =>
      change validateF64 (if c = 0 then nan else inf (decide (c < 0) != s)) field = _
      rw [if_neg hc]
      rfl
  | real x => rfl

theorem validate_scaled {c : ℝ} (hc : c ≠ 0) (q : Quaternion Exact64) :
    (q.scale (real c)).validate = q.validate := by
  unfold Quaternion.validate Quaternion.scale Quaternion.map
  simp only [validateF64_scaled hc]

theorem scale_map_real (c : ℝ) (q : Quaternion ℝ) :
    (q.map real : Quaternion Exact64).scale (real c) = (q.scale c).map real := rfl

/-- The opposite quaternion is canonicalized to the same, or fails the same. -/
theorem canonicalized_neg (q : Quaternion Exact64) :
    (q.scale (real (-1))).canonicalized = q.canonicalized := by
  have hne : (-1 : ℝ) ≠ 0 := neg_ne_zero.mpr one_ne_zero
  by_cases hfinite : ∀ v ∈ q.toList, Finite64 v
  · rw [Quaternion.eq_map_real hfinite, scale_map_real,
      Quaternion.canonicalized_real (fits_exact _) (fits_exact _),
      Quaternion.canonicalized_real (fits_exact _) (fits_exact _), Quaternion.unit_scale hne,
      Quaternion.normSq_scale, neg_one_sq, one_mul]
  · exact Quaternion.canonicalized_of_not_finite hfinite (validate_scaled hne q)

/-- When a multiple of the attitude is accepted as well, the state is the same. The
    opposite attitude is always accepted as well, or gives the same error. -/
theorem canonicalize_scaled (raw : PhysicalObservation Exact64) (c : ℝ) (hc : c ≠ 0) :
    (∀ s s', canonicalize raw = .ok s → canonicalize (scaled (real c) raw) = .ok s' → s = s') ∧
      canonicalize (scaled (real (-1)) raw) = canonicalize raw := by
  constructor
  · intro s s' h h'
    rcases (canonicalize_exact_iff raw s).mp h with ⟨obs, rfl, _, rfl⟩
    have hobs : scaled (real c) (obs.map real : PhysicalObservation Exact64) =
        (scaled c obs).map real := rfl
    rw [hobs, canonicalize_map_real_iff] at h'
    rw [h'.2]
    unfold canonical scaled
    rw [Quaternion.unit_scale hc]
  · exact canonicalize_congr raw (canonicalized_neg raw.attitude)

theorem canonicalize_scaled_tilted :
    canonicalize (scaled (real 2) ((atAttitude tilted).map real : PhysicalObservation Exact64)) =
      .ok (canonical (atAttitude tilted)) := by
  have hlarge : 2 ^ (-1022 : ℤ) < √(scaled 2 (atAttitude tilted)).attitude.normSq := by
    refine Quaternion.large_of_quarter_lt ?_
    change 1 / 4 < (tilted.scale 2).normSq
    rw [Quaternion.normSq_scale, normSq_tilted]
    norm_num
  have htwice : canonicalize
      (scaled (real 2) ((atAttitude tilted).map real : PhysicalObservation Exact64)) =
        .ok (canonical (scaled 2 (atAttitude tilted))) :=
    (canonicalize_map_real_iff _ _).mpr ⟨hlarge, rfl⟩
  rw [(canonicalize_scaled _ 2 two_ne_zero).1 _ _ canonicalize_tilted htwice]
  exact htwice

end Scaled

end CanonicalState

end Seven
