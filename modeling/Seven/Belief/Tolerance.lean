import Seven.Belief.Update

/-!
# Agreement and Disagreement in Rounded Arithmetic

The band of evidence that is flagged, and that is not, in the arithmetic of `f64`. Every
track that evidence in the intervals makes is `Held`: its means are in the intervals, up
to a margin that covers what the prior pulls and all rounding there is, and its
variances are hardly above the noise. Both are kept by every further update, so a run of
any length does not drift out of them.

The intervals leave room for the margin inside of the threshold, and so does what is far
outside of them (`width_margin`, `ceiling_le`). Evidence is therefore flagged, and not
flagged, as it is on exact numbers (`rounded_band`).

## Main definitions

* `slip`, `margin`: How far off a reading and a mean may be.
* `spread`, `deviation`, `ceiling`: How large variances and thresholds are.
* `Held`: Where mean and variance are after evidence in the intervals.

## Theorems

* `held_fuse_prior`, `held_fuse`: The first evidence and every other one.
* `held_track`: Where the track of a subject is after a run.
* `not_disagreesIn_of_within`, `disagreesIn_of_beyond`: What is flagged.
* `rounded_band`: No false alarm, and no miss.
-/

namespace Seven

namespace Rounded

open GaussianBelief BeliefEngine

variable {R : Rounder ℝ}

section Band

/-- How far a reading may be off. -/
def slip : ℚ := 1 / 1000000

/-- How far outside of the interval a mean may be. -/
def margin (d : Fin 6) : ℚ := if d.val < 3 then 1 / 2 else 1 / 100

/-- How large a variance may be, but for the prior's. -/
def spread (d : Fin 6) : ℚ := variance d + 1 / 1000

/-- The standard deviation of a measurement. -/
def deviation (d : Fin 6) : ℤ := if d.val < 3 then 5 else 1

/-- How large the threshold may be. -/
def ceiling (d : Fin 6) : ℚ := if d.val < 3 then 213 / 10 else 43 / 10

/-- Where mean and variance are after evidence in the intervals. -/
def Held (a : Fin 6 → ℝ) (g : Fusion.Gaussian (Rounded R)) (d : Fin 6) : Prop :=
  Between (a d - (margin d : ℝ)) (a d + (width d : ℝ) + (margin d : ℝ)) g.mean ∧
    Between 0 (spread d : ℝ) g.var

variable {a : Fin 6 → ℝ} (ha : InBounds a)

theorem noise_eq (d : Fin 6) : (noise : Vector (Rounded R) 6).get d = F64.ofInt (variance d) :=
  get_noise d

theorem variance_eq (d : Fin 6) : variance d = deviation d * deviation d := by
  unfold variance deviation
  split <;> rfl

theorem deviation_le (d : Fin 6) : 1 ≤ deviation d ∧ deviation d ≤ 5 := by
  unfold deviation
  split <;> decide

theorem variance_le (d : Fin 6) : 1 ≤ variance d ∧ variance d ≤ 25 := by
  unfold variance
  split <;> decide

/-- The margin has room for what the prior pulls, and for the errors. -/
theorem margin_le (d : Fin 6) :
    (bound d + slip) * (variance d + 1 / 1000000) + 10 ≤ (margin d - slip) * 1000000000 := by
  unfold bound slip variance margin
  split <;> norm_num

/-- The intervals have room for the margin inside of the threshold. -/
theorem width_margin (d : Fin 6) : width d + margin d + slip ≤ 3 * deviation d := by
  unfold width margin slip deviation
  split <;> norm_num

/-- And so has what is far outside. -/
theorem ceiling_le (d : Fin 6) :
    0 ≤ ceiling d ∧ 9 * (2 * variance d + 1 / 500) ≤ ceiling d ^ 2 ∧
      ceiling d + 1 / 500 ≤ far d - margin d - slip := by
  unfold ceiling variance far margin slip
  split <;> norm_num

theorem margin_bounds (d : Fin 6) : slip + 1 / 1000000 ≤ margin d ∧ margin d ≤ 1 := by
  unfold margin slip
  split <;> norm_num

theorem spread_le (d : Fin 6) : spread d ≤ 26 := by
  unfold spread variance
  split <;> norm_num

theorem bound_le (d : Fin 6) : bound d ≤ 10 ^ 7 := by
  unfold bound
  split <;> norm_num

theorem cast_slip : (slip : ℝ) = 1000000⁻¹ := by
  unfold slip
  norm_num

theorem cast_spread (d : Fin 6) : (spread d : ℝ) = variance d + 1000⁻¹ := by
  unfold spread
  push_cast
  rw [one_div]

theorem cast_bound_le (d : Fin 6) : (bound d : ℝ) ≤ 10 ^ 7 := by
  exact_mod_cast bound_le d

theorem cast_margin_le (d : Fin 6) : (margin d : ℝ) ≤ 1 := by
  exact_mod_cast (margin_bounds d).2

include ha in
theorem abs_le_of_within {z : Vector ℝ 6} (hz : Within a z) (d : Fin 6) :
    |z.get d| ≤ (bound d : ℝ) :=
  abs_le.mpr ⟨(ha d).1.trans (hz d).1, (hz d).2.trans (ha d).2⟩

variable (hR : R.Near)

include hR ha in
/-- What is read of evidence in the intervals. -/
theorem exists_reading_within {state : CanonicalState}
    (h : Within a (measurements state : Vector ℝ 6)) (d : Fin 6) :
    ∃ y has, (measurements state : Vector (Rounded R) 6).get d = finite y has ∧
      |y| ≤ (bound d : ℝ) + (slip : ℝ) ∧ a d - (slip : ℝ) ≤ y ∧
        y ≤ a d + (width d : ℝ) + (slip : ℝ) := by
  have hsize := abs_le_of_within ha h d
  have hbound := cast_bound_le d
  have hin := h d
  have hslip := cast_slip
  rcases exists_reading hR state d with ⟨y, has, hy, _, herr⟩
  have habs := abs_sub_abs_le_abs_sub y ((measurements state : Vector ℝ 6).get d)
  rw [ulp_eq] at herr
  have herr' := abs_le.mp herr
  rw [hslip]
  exact ⟨y, has, hy, by linarith, by linarith [herr'.1], by linarith [herr'.2]⟩

theorem dim_prior (d : Fin 6) : (uninformative : GaussianBelief (Rounded R)).dim d =
    ⟨F64.ofInt 0, F64.ofInt 1000000000⟩ := by
  have hget (x : Rounded R) : (Vector.replicate 6 x).get d = x := by
    change (Vector.replicate 6 x)[(d : Nat)] = x
    rw [Vector.getElem_replicate]
  exact Fusion.Gaussian.ext (hget _) (hget _)

include hR ha

/-- The first evidence. -/
theorem held_fuse_prior {state : CanonicalState}
    (h : Within a (measurements state : Vector ℝ 6)) (d : Fin 6) :
    Held a (((uninformative : GaussianBelief (Rounded R)).fuse (measurements state)).dim d) d := by
  have hroom : ((bound d : ℝ) + slip) * (variance d + 1000000⁻¹) + 10 ≤
      (margin d - slip) * 1000000000 := by
    have hcast := (Rat.cast_le (K := ℝ)).mpr (margin_le d)
    push_cast at hcast
    rwa [one_div] at hcast
  have hbound := cast_bound_le d
  have hslip : (slip : ℝ) ≤ 1 := by
    rw [cast_slip]
    norm_num
  have hspread := cast_spread d
  rcases exists_reading_within ha hR h d with ⟨z, hasz, hz, hsize, hlow, hhigh⟩
  rcases exists_measured_prior hR (variance_le d).1 (variance_le d).2 hasz hsize (by linarith) with
    ⟨m, hasm, v, hasv, hupdate, hmean, hv0, hv⟩
  have hdist : |m - z| ≤ margin d - slip := by linarith
  rw [abs_le] at hdist
  rw [dim_fuse_measured, dim_prior, noise_eq, hz, hupdate]
  refine ⟨⟨m, hasm, rfl, ?_, ?_⟩, v, hasv, rfl, hv0, by rwa [hspread]⟩
  · linarith [hdist.1]
  · linarith [hdist.2]

/-- Every other one. -/
theorem held_fuse {track : GaussianBelief (Rounded R)} {state : CanonicalState}
    (h : Within a (measurements state : Vector ℝ 6)) {d : Fin 6} (hheld : Held a (track.dim d) d) :
    Held a ((track.fuse (measurements state)).dim d) d := by
  have hbound := cast_bound_le d
  have hmargin := cast_margin_le d
  have hslip : (slip : ℝ) + 1000000⁻¹ ≤ margin d := by
    have hcast := (Rat.cast_le (K := ℝ)).mpr (margin_bounds d).1
    push_cast at hcast
    rwa [one_div] at hcast
  have hspread : (spread d : ℝ) ≤ 26 := by exact_mod_cast spread_le d
  have hnoise : (1 : ℝ) ≤ variance d := by exact_mod_cast (variance_le d).1
  have hnoise' : (variance d : ℝ) ≤ 25 := by exact_mod_cast (variance_le d).2
  have hasn : R.Has (variance d : ℝ) :=
    R.has_int _ (abs_le.mpr ⟨by linarith [(variance_le d).1], by linarith [(variance_le d).2]⟩)
  have hpow : (100 : ℝ) ≤ ((2 ^ 62 : ℤ) : ℝ) := by norm_num
  have hinterval := ha d
  rcases exists_reading_within ha hR h d with ⟨z, hasz, hz, hsize, hzlow, hzhigh⟩
  rcases hheld with ⟨⟨μ, hasμ, hμ, hlow, hhigh⟩, v, hasv, hv, hv0, hvhi⟩
  have hdim : track.dim d = ⟨finite μ hasμ, finite v hasv⟩ := Fusion.Gaussian.ext hμ hv
  rcases (between_gain hasv hasn hv0 (by linarith) (by linarith)).2 with ⟨k, hask, hk, hk0, hk1⟩
  have hone : (F64.ofInt 1 : Rounded R) = finite 1 R.has_one := by
    rw [ofInt_eq 1 (by norm_num)]
    simp only [Int.cast_one]
  -- The variance does not grow, and the mean is drawn to the measurement.
  rcases between_var hasv hv0 (by linarith) ⟨k, hask, rfl, hk0, hk1⟩ with
    ⟨w, hasw, hw, hw0, hwv⟩
  rcases exists_toward hR hasμ hasz hask hk0 hk1 (abs_le.mpr ⟨by linarith, by linarith⟩)
    (hsize.trans (by linarith)) with ⟨m, hasm, t, hm, ht, hmin, hmax⟩
  rw [abs_le] at ht
  have hgain : (finite v hasv : Rounded R) / (finite v hasv + F64.ofInt (variance d)) =
      finite k hask := by
    rw [ofInt_eq (variance d) (abs_le.mpr ⟨by linarith [(variance_le d).1],
      by linarith [(variance_le d).2]⟩)]
    exact hk
  have hupdate : measured (⟨finite μ hasμ, finite v hasv⟩ : Fusion.Gaussian (Rounded R))
      (finite z hasz) (F64.ofInt (variance d)) = ⟨finite m hasm, finite w hasw⟩ := by
    unfold measured
    dsimp only
    rw [hgain, hone]
    exact Fusion.Gaussian.ext hm hw
  rw [dim_fuse_measured, hdim, noise_eq, hz, hupdate]
  refine ⟨⟨m, hasm, rfl, ?_, ?_⟩, w, hasw, rfl, hw0, hwv.trans hvhi⟩
  · exact (le_min hlow (by linarith [ht.1])).trans hmin
  · exact hmax.trans (max_le hhigh (by linarith [ht.2]))

/-- Where evidence in the intervals leaves a track. -/
theorem held_trackOf {states : List CanonicalState}
    (h : ∀ state ∈ states, Within a (measurements state : Vector ℝ 6))
    {track : GaussianBelief (Rounded R)} (htrack : trackOf (Rounded R) states = some track)
    (d : Fin 6) : Held a (track.dim d) d := by
  induction states using List.reverseRecOn generalizing track with
  | nil => exact absurd htrack (by simp only [trackOf, if_true, reduceCtorEq, not_false_eq_true])
  | append_singleton states state ih =>
      have hlast := h state (List.mem_append_right _ (List.mem_singleton_self state))
      rw [trackOf_concat, Option.some.injEq] at htrack
      rw [← htrack]
      cases hbefore : trackOf (Rounded R) states with
      | none => exact held_fuse_prior ha hR hlast d
      | some before =>
          exact held_fuse ha hR hlast (ih (fun x hx => h x (List.mem_append_left _ hx)) hbefore)

/-- Where the track of the subject is. -/
theorem held_track {c : Crypto} {run : List Evidence} {s : SubjectId}
    (h : CountedWithin c run s a) {track : GaussianBelief (Rounded R)}
    (htrack : (folded (Rounded R) c run).tracks[s]? = some track) (d : Fin 6) :
    Held a (track.dim d) d := by
  rw [tracks_folded, counted_eq (Rounded R) ℝ] at htrack
  exact held_trackOf ha hR h.within htrack d

omit ha in
/-- The threshold of a track. -/
theorem exists_threshold_of_spread {d : Fin 6} {v : ℝ} (hasv : R.Has v) (hv : 0 ≤ v)
    (hv' : v ≤ (spread d : ℝ)) :
    ∃ t has, (F64.ofInt 3 : Rounded R) * F64.sqrt (finite v hasv + F64.ofInt (variance d)) =
        finite t has ∧ ((3 * deviation d : ℤ) : ℝ) ≤ t ∧ t ≤ (ceiling d : ℝ) + 1000⁻¹ := by
  have hspread := cast_spread d
  have htop : (0 : ℝ) ≤ ceiling d := by exact_mod_cast (ceiling_le d).1
  have hsq : 9 * (2 * (variance d : ℝ) + 500⁻¹) ≤ (ceiling d : ℝ) ^ 2 := by
    have hcast := (Rat.cast_le (K := ℝ)).mpr (ceiling_le d).2.1
    push_cast at hcast
    rwa [one_div] at hcast
  rw [hspread] at hv'
  exact exists_threshold hR (deviation_le d).1 (deviation_le d).2 (variance_eq d) hasv hv hv' htop
    hsq

/-- What is read of evidence far outside of the intervals. -/
theorem exists_reading_beyond {state : CanonicalState} {d : Fin 6}
    (hx : (measurements state : Vector ℝ 6).get d < a d - (far d : ℝ) ∨
      a d + (width d : ℝ) + (far d : ℝ) < (measurements state : Vector ℝ 6).get d) :
    ∃ y has, (measurements state : Vector (Rounded R) 6).get d = finite y has ∧ |y| ≤ 2 ^ 60 ∧
      (y ≤ a d - (far d : ℝ) + slip ∨ a d + (width d : ℝ) + (far d : ℝ) - slip ≤ y) := by
  have hinterval := ha d
  have hbound := cast_bound_le d
  have hfar : 0 ≤ (far d : ℝ) ∧ (far d : ℝ) ≤ 22 := by
    have hrat : 0 ≤ far d ∧ far d ≤ 22 := by
      unfold far
      split <;> norm_num
    exact ⟨by exact_mod_cast hrat.1, by exact_mod_cast hrat.2⟩
  have hwidth : (0 : ℝ) ≤ width d := by
    have hrat : 0 ≤ width d := by
      unfold width
      split <;> norm_num
    exact_mod_cast hrat
  have hslip := cast_slip
  rcases exists_reading hR state d with ⟨y, has, hy, hsize, herr⟩
  generalize (measurements state : Vector ℝ 6).get d = x at hx herr
  rw [ulp_eq] at herr
  refine ⟨y, has, hy, hsize, ?_⟩
  rw [hslip]
  -- The error grows with the reading, but not as fast as the reading itself.
  have herr' := abs_le.mp herr
  rcases hx with hx | hx
  · left
    have habs : |x| ≤ 2 * 10 ^ 7 + (a d - far d - x) := by
      rw [abs_le]
      constructor <;> linarith
    linarith [herr'.2]
  · right
    have habs : |x| ≤ 2 * 10 ^ 7 + (x - (a d + width d + far d)) := by
      rw [abs_le]
      constructor <;> linarith
    linarith [herr'.1]

/-- Evidence in the intervals does not disagree. -/
theorem not_disagreesIn_of_within {track : GaussianBelief (Rounded R)} {state : CanonicalState}
    (h : Within a (measurements state : Vector ℝ 6)) {d : Fin 6} (hheld : Held a (track.dim d) d) :
    ¬ track.DisagreesIn (measurements state) d := by
  have hroom : (width d : ℝ) + margin d + slip ≤ ((3 * deviation d : ℤ) : ℝ) := by
    have hcast := (Rat.cast_le (K := ℝ)).mpr (width_margin d)
    push_cast at hcast ⊢
    exact hcast
  rcases exists_reading_within ha hR h d with ⟨z, hasz, hz, _, hzlow, hzhigh⟩
  rcases hheld with ⟨⟨μ, hasμ, hμ, hlow, hhigh⟩, v, hasv, hv, hv0, hvhi⟩
  rcases exists_threshold_of_spread hR hasv hv0 hvhi with ⟨t, hast, ht, htlow, _⟩
  have hdist : |z - μ| ≤ ((3 * deviation d : ℤ) : ℝ) :=
    abs_le.mpr ⟨by linarith, by linarith⟩
  have hsmall : 3 * deviation d ≤ 100 := by linarith [(deviation_le d).2]
  have hgt := not_gt_of_near hR hasz hasμ hast hsmall hdist htlow
  change track.mean.get d = finite μ hasμ at hμ
  change track.var.get d = finite v hasv at hv
  rw [DisagreesIn, hz, hμ, hv, noise_eq, ht, hgt]
  exact Bool.false_ne_true

/-- Evidence far outside does. -/
theorem disagreesIn_of_beyond {track : GaussianBelief (Rounded R)} {state : CanonicalState}
    {d : Fin 6} (hx : (measurements state : Vector ℝ 6).get d < a d - (far d : ℝ) ∨
      a d + (width d : ℝ) + (far d : ℝ) < (measurements state : Vector ℝ 6).get d)
    (hheld : Held a (track.dim d) d) : track.DisagreesIn (measurements state) d := by
  have hroom : (ceiling d : ℝ) + 500⁻¹ ≤ far d - margin d - slip := by
    have hcast := (Rat.cast_le (K := ℝ)).mpr (ceiling_le d).2.2
    push_cast at hcast
    rwa [one_div] at hcast
  have hinterval := ha d
  have hbound := cast_bound_le d
  have hmargin := cast_margin_le d
  rcases exists_reading_beyond ha hR hx with ⟨z, hasz, hz, hsize, hfar⟩
  rcases hheld with ⟨⟨μ, hasμ, hμ, hlow, hhigh⟩, v, hasv, hv, hv0, hvhi⟩
  rcases exists_threshold_of_spread hR hasv hv0 hvhi with ⟨t, hast, ht, _, hthigh⟩
  have hdist : (ceiling d : ℝ) + 500⁻¹ ≤ |z - μ| := by
    rw [le_abs]
    rcases hfar with hfar | hfar
    · right
      linarith
    · left
      linarith
  have hsmall : (ceiling d : ℝ) + 500⁻¹ ≤ 100 := by
    have hrat : ceiling d + 1 / 500 ≤ 100 := by
      unfold ceiling
      split <;> norm_num
    have hcast := (Rat.cast_le (K := ℝ)).mpr hrat
    push_cast at hcast
    rwa [one_div] at hcast
  have hpow : (2 : ℝ) ^ 60 + 10 ^ 8 ≤ 2 ^ 62 := by norm_num
  have hμsize : |μ| ≤ 10 ^ 8 := abs_le.mpr ⟨by linarith, by linarith⟩
  have hgt := gt_of_far hR hasz hasμ hast ((abs_sub z μ).trans (by linarith)) hdist hsmall
    (by linarith)
  change track.mean.get d = finite μ hasμ at hμ
  change track.var.get d = finite v hasv at hv
  rw [DisagreesIn, hz, hμ, hv, noise_eq, ht, hgt]

/-- No conflict is recorded while the evidence lies in the intervals. -/
theorem not_mem_conflicts_of_within {c : Crypto} {run : List Evidence} {s : SubjectId}
    (h : CountedWithin c run s a) :
    ∀ entry ∈ (folded (Rounded R) c run).conflicts, entry.1 ≠ s := by
  refine not_mem_conflicts_of_not_flags fun pre e post hrun hs hflags => ?_
  rw [hrun, ← hs] at h
  rcases hflags with ⟨hans, track, state, htrack, hstate, d, hd⟩
  have hwithin := h.within_of_counts ((answer_true_iff c pre e).mp hans) hstate
  exact not_disagreesIn_of_within ha hR hwithin (held_track ha hR h.of_append htrack d) hd

end Band

/-- No false alarm, and no miss, in the arithmetic of `f64`. While everything that
    counted for a subject lies in the intervals, no conflict is recorded for it, and
    every mean is in its interval, up to half a metre or a centimetre per second; and
    after at least one of these the next evidence that counts appends a conflict, if
    some coordinate lies far outside. -/
theorem rounded_band (hR : R.Near) (c : Crypto) (run : List Evidence) (s : SubjectId)
    (a : Fin 6 → ℝ) (ha : InBounds a) (hne : counted ℝ c run s ≠ []) (h : CountedWithin c run s a) :
    (∀ entry ∈ (folded (Rounded R) c run).conflicts, entry.1 ≠ s) ∧
      (∀ d, Between (a d - (margin d : ℝ)) (a d + (width d : ℝ) + (margin d : ℝ))
        (((folded (Rounded R) c run).track s).mean.get d)) ∧
      ∀ e state, e.subject = s → (incorporate c (folded (Rounded R) c run) e).2 = .ok true →
        CanonicalState.fromCanonicalBytes e.payload = .ok state →
          Beyond a (measurements state) →
            ∃ prev, (incorporate c (folded (Rounded R) c run) e).1.conflicts =
              (folded (Rounded R) c run).conflicts ++ [(s, prev, e)] := by
  rw [counted_eq ℝ (Rounded R)] at hne
  rcases exists_track_of_counted hne with ⟨track, htrack⟩
  have hheld := held_track ha hR h htrack
  refine ⟨not_mem_conflicts_of_within ha hR h, fun d => ?_, ?_⟩
  · rw [BeliefEngine.track, htrack]
    exact (hheld d).1
  · intro e state hs hans hstate hbeyond
    rcases hbeyond with ⟨d, hd⟩
    have hflags : Flags c (folded (Rounded R) c run) e := by
      refine ⟨hans, track, state, ?_, hstate, d, disagreesIn_of_beyond ha hR hd (hheld d)⟩
      rw [hs]
      exact htrack
    rcases conflicts_folded_of_flags hflags with ⟨prev, _, hstep⟩
    exact ⟨prev, by rw [hstep, hs]⟩

/-- Forty metres from the one observation before, in the format of `f64`. -/
theorem rounded_band_moved :
    let R : Rounder ℝ := .binary64
    let e := Evidence.minted (Vector.replicate 32 7) ⟨"ac"⟩ (.atRest 5)
    let e' := Evidence.minted (Vector.replicate 32 7) ⟨"ac"⟩ moved
    let c := Evidence.ledgerOf [e, e']
    (∀ entry ∈ (folded (Rounded R) c [e]).conflicts, entry.1 ≠ ⟨"ac"⟩) ∧
      ∃ prev, (incorporate c (folded (Rounded R) c [e]) e').1.conflicts =
        (folded (Rounded R) c [e]).conflicts ++ [(⟨"ac"⟩, prev, e')] := by
  intro R e e' c
  have hv : e.verify c = .ok () := Evidence.verify_minted _ List.mem_cons_self
  have hcounted := counted_atRest hv
  have hnear : R.Near := near_binary64
  have hband := rounded_band hnear c [e] ⟨"ac"⟩ (fun _ => 0) inBounds_zero hcounted.1 hcounted.2
  exact ⟨hband.1, hband.2.2 e' moved rfl (answer_minted_of_ne (Rounded R) (by decide))
    (Evidence.fromCanonicalBytes_minted _ _ _) beyond_moved⟩

end Rounded

end Seven
