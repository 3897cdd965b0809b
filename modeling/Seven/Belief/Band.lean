import Seven.Belief.Conflicts
import Seven.Belief.Convergence
import Mathlib.Analysis.Real.Sqrt
import Mathlib.Tactic.FinCases

/-!
# Agreement and Disagreement

How far apart evidence may be before a conflict is flagged. The measurements that
counted for a subject pull its mean into the interval they lie in, up to the little
that the prior still weighs, and bring the variance below that of a single
measurement (`near_of_within`). The threshold is three standard deviations of the
predictive variance, which lies between once and twice the noise. So evidence in the
interval is never that far from the mean, and evidence far outside always is.

## Main definitions

* `width`, `bound`, `far`: Intervals of evidence that agrees, and what is far away.
* `Within`, `Beyond`: Measurements in the intervals, and far outside.
* `Apart`: The flagging criterion on real numbers.

## Theorems

* `near_of_within`: Where mean and variance of a track are.
* `not_apart_of_within`, `apart_of_beyond`: What is flagged.
* `conflicts_band`: No false alarm, and no miss.
-/

namespace Seven

namespace GaussianBelief

/-- How far evidence that agrees may be apart, in metres and metres per second. -/
def width (d : Fin 6) : ℚ := if d.val < 3 then 10 else 2

/-- How large evidence may be. -/
def bound (d : Fin 6) : ℚ := if d.val < 3 then 10 ^ 7 else 10 ^ 4

/-- What is far from the evidence so far. -/
def far (d : Fin 6) : ℚ := if d.val < 3 then 22 else 9 / 2

/-- The noise of a measurement. -/
def variance (d : Fin 6) : ℤ := if d.val < 3 then 25 else 1

/-- Intervals of the width of evidence that agrees. -/
def InBounds (a : Fin 6 → ℝ) : Prop :=
  ∀ d, -(bound d : ℝ) ≤ a d ∧ a d + (width d : ℝ) ≤ (bound d : ℝ)

/-- Every coordinate lies in its interval. -/
def Within (a : Fin 6 → ℝ) (z : Vector ℝ 6) : Prop :=
  ∀ d, a d ≤ z.get d ∧ z.get d ≤ a d + (width d : ℝ)

/-- Some coordinate lies far outside of its interval. -/
def Beyond (a : Fin 6 → ℝ) (z : Vector ℝ 6) : Prop :=
  ∃ d, z.get d < a d - (far d : ℝ) ∨ a d + (width d : ℝ) + (far d : ℝ) < z.get d

/-- A measurement is further from a mean than the criterion allows. -/
noncomputable def Apart (x mean var noise : ℝ) : Prop :=
  ((3 : ℤ) : ℝ) * √(var + noise) < |x - mean|

/-- How far the prior pulls a mean at most. -/
def slack (d : Fin 6) : ℚ := bound d * variance d / 1000000000

/-- Where mean and variance are after evidence in the intervals. -/
def Near (a : Fin 6 → ℝ) (g : Fusion.Gaussian ℝ) (d : Fin 6) : Prop :=
  0 < g.var ∧ g.var < (variance d : ℝ) ∧ a d - (slack d : ℝ) ≤ g.mean ∧
    g.mean ≤ a d + (width d : ℝ) + (slack d : ℝ)

theorem variance_pos (d : Fin 6) : 0 < variance d := by
  unfold variance
  split <;> norm_num

/-- Inside, the threshold is at least three standard deviations of the noise. -/
theorem width_slack (d : Fin 6) :
    0 ≤ width d + slack d ∧ (width d + slack d) ^ 2 ≤ 9 * variance d := by
  unfold width slack bound variance
  split <;> norm_num

/-- Outside, it is at most three of twice the noise. -/
theorem far_slack (d : Fin 6) :
    0 ≤ far d - slack d ∧ 9 * (2 * variance d) ≤ (far d - slack d) ^ 2 := by
  unfold far slack bound variance
  split <;> norm_num

/-- Evidence in the intervals is not flagged. -/
theorem not_apart_of_within {a : Fin 6 → ℝ} {z : Vector ℝ 6} (hz : Within a z)
    {g : Fusion.Gaussian ℝ} {d : Fin 6} (hg : Near a g d) :
    ¬ Apart (z.get d) g.mean g.var (variance d) := by
  rcases hg with ⟨hpos, _, hlow, hhigh⟩
  rcases width_slack d with ⟨_, hsq⟩
  have hnoise : (0 : ℝ) < variance d := by exact_mod_cast variance_pos d
  have hdist : |z.get d - g.mean| ≤ (width d : ℝ) + slack d := by
    rw [abs_le]
    constructor <;> linarith [(hz d).1, (hz d).2]
  -- The square of the distance is at most nine times the noise.
  have hroot : ((width d : ℝ) + slack d) ≤ 3 * √(variance d) := by
    have hsq' : ((width d : ℝ) + slack d) ^ 2 ≤ 9 * variance d := by exact_mod_cast hsq
    refine (Real.le_sqrt_of_sq_le hsq').trans ?_
    rw [Real.sqrt_mul (by norm_num)]
    refine mul_le_mul_of_nonneg_right ?_ (Real.sqrt_nonneg _)
    exact Real.sqrt_le_iff.mpr (by norm_num)
  have hmono : √(variance d : ℝ) ≤ √(g.var + variance d) := Real.sqrt_le_sqrt (by linarith)
  rw [Apart, not_lt, Int.cast_ofNat]
  linarith

/-- Evidence far outside is. -/
theorem apart_of_beyond {a : Fin 6 → ℝ} {x : ℝ} {g : Fusion.Gaussian ℝ} {d : Fin 6}
    (hx : x < a d - (far d : ℝ) ∨ a d + (width d : ℝ) + (far d : ℝ) < x) (hg : Near a g d) :
    Apart x g.mean g.var (variance d) := by
  rcases hg with ⟨hpos, hvar, hlow, hhigh⟩
  rcases far_slack d with ⟨hnonneg, hsq⟩
  have hnonneg' : (0 : ℝ) ≤ (far d : ℝ) - slack d := by exact_mod_cast hnonneg
  have hdist : (far d : ℝ) - slack d < |x - g.mean| := by
    rw [lt_abs]
    rcases hx with hx | hx
    · right
      linarith
    · left
      linarith
  -- The predictive variance is less than twice the noise.
  have hroot : 3 * √(g.var + variance d) ≤ (far d : ℝ) - slack d := by
    have hsq' : 9 * (2 * (variance d : ℝ)) ≤ ((far d : ℝ) - slack d) ^ 2 := by
      exact_mod_cast hsq
    have hthree : (3 : ℝ) = √9 := by
      rw [eq_comm, Real.sqrt_eq_iff_mul_self_eq (by norm_num) (by norm_num)]
      norm_num
    rw [hthree, ← Real.sqrt_mul (by norm_num), Real.sqrt_le_left hnonneg']
    linarith
  rw [Apart, Int.cast_ofNat]
  exact lt_of_le_of_lt hroot hdist

theorem abs_le_bound {a : Fin 6 → ℝ} (ha : InBounds a) (d : Fin 6) :
    |0 - a d| ≤ (bound d : ℝ) ∧ |0 - (a d + (width d : ℝ))| ≤ (bound d : ℝ) := by
  have hwidth : (0 : ℝ) ≤ width d := by
    unfold width
    split <;> norm_num
  have hlow := (ha d).1
  have hhigh := (ha d).2
  constructor <;> rw [zero_sub, abs_neg, abs_le] <;> constructor <;> linarith

/-- What measurements in an interval leave of the prior. -/
theorem near_fuse {a : Fin 6 → ℝ} (ha : InBounds a) {d : Fin 6} {xs : List ℝ} (hne : xs ≠ [])
    (hxs : ∀ x ∈ xs, a d ≤ x ∧ x ≤ a d + width d) :
    Near a (Fusion.fuse ⟨((0 : ℤ) : ℝ), ((1000000000 : ℤ) : ℝ)⟩
      (xs.map fun x => (x, (variance d : ℝ)))) d := by
  have hpairs : ∀ y ∈ xs.map fun x => (x, (variance d : ℝ)),
      0 < y.2 ∧ a d ≤ y.1 ∧ y.1 ≤ a d + width d := by
    intro y hy
    rcases List.mem_map.mp hy with ⟨x, hx, rfl⟩
    exact ⟨Int.cast_pos.mpr (variance_pos d), hxs x hx⟩
  have hprior : (0 : ℝ) < ((1000000000 : ℤ) : ℝ) := Int.cast_pos.mpr (by decide)
  have hslack : (slack d : ℝ) = bound d * variance d / ((1000000000 : ℤ) : ℝ) := by
    unfold slack
    push_cast
    rfl
  have hlimits := abs_le_bound ha d
  rw [← Int.cast_zero] at hlimits
  -- One measurement is enough for the bounds.
  rcases List.exists_mem_of_ne_nil xs hne with ⟨x, hx⟩
  have hmem := List.mem_map_of_mem (f := fun x => (x, (variance d : ℝ))) hx
  have hnoise : ∀ y ∈ xs.map fun x => (x, (variance d : ℝ)), 0 < y.2 := fun y hy => (hpairs y hy).1
  let g : Fusion.Gaussian ℝ := ⟨((0 : ℤ) : ℝ), ((1000000000 : ℤ) : ℝ)⟩
  have hlow := Fusion.le_mean_fuse (g := g) hprior hnoise hmem (fun y hy => (hpairs y hy).2.1)
    hlimits.1
  have hhigh := Fusion.mean_fuse_le (g := g) hprior hnoise hmem (fun y hy => (hpairs y hy).2.2)
    hlimits.2
  rw [Near, hslack]
  exact ⟨Fusion.var_fuse_pos (g := g) hprior hnoise, Fusion.var_fuse_lt (g := g) hprior hnoise hmem,
    hlow, hhigh⟩

/-- The square root of the real numbers. -/
noncomputable scoped instance : SquareRoot ℝ where
  root := Real.sqrt

theorem noise_eq_variance (d : Fin 6) : (noise : Vector ℝ 6).get d = (variance d : ℝ) :=
  get_noise d

theorem disagreesIn_iff (track : GaussianBelief ℝ) (z : Vector ℝ 6) (d : Fin 6) :
    track.DisagreesIn z d ↔
      Apart (z.get d) (track.dim d).mean (track.dim d).var (variance d) := by
  unfold DisagreesIn
  rw [noise_eq_variance]
  exact decide_eq_true_iff

/-- Where evidence in the intervals leaves a track. -/
theorem near_of_within {a : Fin 6 → ℝ} (ha : InBounds a) {zs : List (Vector ℝ 6)} (hne : zs ≠ [])
    (hzs : ∀ z ∈ zs, Within a z) (d : Fin 6) :
    Near a ((zs.foldl fuse (uninformative : GaussianBelief ℝ)).dim d) d := by
  have hxs : ∀ x ∈ zs.map fun z => z.get d, a d ≤ x ∧ x ≤ a d + width d := by
    intro x hx
    rcases List.mem_map.mp hx with ⟨z, hz, rfl⟩
    exact hzs z hz d
  have hnear := near_fuse ha (fun h => hne (List.map_eq_nil_iff.mp h)) hxs
  rw [List.map_map] at hnear
  rw [dim_foldl_fuse, noise_eq_variance, dim_uninformative]
  exact hnear

end GaussianBelief

namespace BeliefEngine

open GaussianBelief

/-- What a run counted for a subject lies in the intervals. -/
def CountedWithin (c : Crypto) (run : List Evidence) (s : SubjectId) (a : Fin 6 → ℝ) : Prop :=
  ∀ p ∈ counted ℝ c run s, ∀ state, CanonicalState.fromCanonicalBytes p = .ok state →
    Within a (measurements state)

/-- What the beginning of a run counted, the run counted. -/
theorem CountedWithin.of_append {c : Crypto} {run later : List Evidence} {s : SubjectId}
    {a : Fin 6 → ℝ} (h : CountedWithin c (run ++ later) s a) : CountedWithin c run s a := by
  induction later using List.reverseRecOn with
  | nil => rwa [List.append_nil] at h
  | append_singleton later e ih =>
      rw [← List.append_assoc] at h
      exact ih fun p hp => h p (mem_counted_concat_iff.mpr (Or.inl hp))

/-- The states that were counted lie in the intervals. -/
theorem CountedWithin.within {c : Crypto} {run : List Evidence} {s : SubjectId}
    {a : Fin 6 → ℝ} (h : CountedWithin c run s a) :
    ∀ state ∈ (counted ℝ c run s).filterMap decoded, Within a (measurements state) := by
  intro state hstate
  rcases List.mem_filterMap.mp hstate with ⟨p, hp, hdecoded⟩
  rcases (observed_of_mem_counted hp).2 with ⟨state', hstate'⟩
  rw [decoded, hstate'] at hdecoded
  rw [← Option.some.inj hdecoded]
  exact h p hp state' hstate'

/-- And so does the one of a call that counts. -/
theorem CountedWithin.within_of_counts {c : Crypto} {run later : List Evidence} {e : Evidence}
    {a : Fin 6 → ℝ} (h : CountedWithin c (run ++ e :: later) e.subject a)
    (hcounts : Introduces c run e ∧ e.Decodes) {state : CanonicalState}
    (hstate : CanonicalState.fromCanonicalBytes e.payload = .ok state) :
    Within a (measurements state) := by
  rw [← List.singleton_append, ← List.append_assoc] at h
  exact h.of_append e.payload (mem_counted_concat_iff.mpr (Or.inr ⟨⟨rfl, hcounts⟩, rfl⟩)) state
    hstate

/-- Where the track of the subject is. -/
theorem near_track {c : Crypto} {run : List Evidence} {s : SubjectId} {a : Fin 6 → ℝ}
    (ha : InBounds a) (h : CountedWithin c run s a) {track : GaussianBelief ℝ}
    (htrack : (folded ℝ c run).tracks[s]? = some track) (d : Fin 6) : Near a (track.dim d) d := by
  rw [tracks_folded, trackOf] at htrack
  by_cases hnil : (counted ℝ c run s).filterMap decoded = []
  · rw [if_pos hnil] at htrack
    exact absurd htrack (by simp only [reduceCtorEq, not_false_eq_true])
  · rw [if_neg hnil, Option.some.injEq] at htrack
    rw [← htrack]
    refine near_of_within ha (fun hmap => hnil (List.map_eq_nil_iff.mp hmap)) ?_ d
    intro z hz
    rcases List.mem_map.mp hz with ⟨state, hstate, rfl⟩
    exact h.within state hstate

/-- Evidence in the intervals is not flagged. -/
theorem not_flags_of_within {c : Crypto} {run later : List Evidence} {e : Evidence}
    {a : Fin 6 → ℝ} (ha : InBounds a) (h : CountedWithin c (run ++ e :: later) e.subject a) :
    ¬ Flags c (folded ℝ c run) e := by
  intro hflags
  rcases hflags with ⟨hans, track, state, htrack, hstate, d, hd⟩
  have hwithin := h.within_of_counts ((answer_true_iff c run e).mp hans) hstate
  rw [disagreesIn_iff] at hd
  exact not_apart_of_within hwithin (near_track ha h.of_append htrack d) hd

/-- No conflict is recorded for the subject. -/
theorem not_mem_conflicts_of_within {c : Crypto} {run : List Evidence} {s : SubjectId}
    {a : Fin 6 → ℝ} (ha : InBounds a) (h : CountedWithin c run s a) :
    ∀ entry ∈ (folded ℝ c run).conflicts, entry.1 ≠ s := by
  refine not_mem_conflicts_of_not_flags fun pre e post hrun hs => ?_
  rw [hrun, ← hs] at h
  exact not_flags_of_within ha h

/-- No false alarm, and no miss. While everything that counted for a subject lies in
    the intervals, no conflict is recorded for it; and after at least one of these the
    next evidence that counts appends one, if some coordinate lies far outside. -/
theorem conflicts_band (c : Crypto) (run : List Evidence) (s : SubjectId) (a : Fin 6 → ℝ)
    (ha : InBounds a) (hne : counted ℝ c run s ≠ []) (h : CountedWithin c run s a) :
    (∀ entry ∈ (folded ℝ c run).conflicts, entry.1 ≠ s) ∧
      ∀ e state, e.subject = s → (incorporate c (folded ℝ c run) e).2 = .ok true →
        CanonicalState.fromCanonicalBytes e.payload = .ok state → Beyond a (measurements state) →
          ∃ prev, (incorporate c (folded ℝ c run) e).1.conflicts =
            (folded ℝ c run).conflicts ++ [(s, prev, e)] := by
  refine ⟨not_mem_conflicts_of_within ha h, ?_⟩
  intro e state hs hans hstate hbeyond
  -- Something counted, so there is a track to disagree with.
  rcases exists_track_of_counted hne with ⟨track, htrack⟩
  rcases hbeyond with ⟨d, hd⟩
  have hapart := apart_of_beyond hd (near_track ha h htrack d)
  have hflags : Flags c (folded ℝ c run) e := by
    refine ⟨hans, track, state, ?_, hstate, d, ?_⟩
    · rw [hs]
      exact htrack
    · rw [disagreesIn_iff]
      exact hapart
  rcases conflicts_folded_of_flags hflags with ⟨prev, _, hstep⟩
  exact ⟨prev, by rw [hstep, hs]⟩

/-- Forty metres along the first axis. -/
def moved : CanonicalState :=
  { CanonicalState.atRest 6 with positionMm := #v[40000, 0, 0] }

theorem get_measurements_atRest (t : Int64) (d : Fin 6) :
    (measurements (CanonicalState.atRest t) : Vector ℝ 6).get d = 0 := by
  have hzero : (fromMilli 0 : ℝ) = 0 := by
    change ((0 : ℤ) : ℝ) / ((1000 : ℤ) : ℝ) = 0
    rw [Int.cast_zero, zero_div]
  fin_cases d <;> exact hzero

theorem beyond_moved : Beyond (fun _ => 0) (measurements moved : Vector ℝ 6) := by
  refine ⟨0, Or.inr ?_⟩
  change (0 : ℝ) + (width 0 : ℝ) + (far 0 : ℝ) < ((40000 : ℤ) : ℝ) / ((1000 : ℤ) : ℝ)
  unfold width far
  norm_num

theorem inBounds_zero : InBounds fun _ => 0 := by
  intro d
  unfold bound width
  split <;> norm_num

/-- One observation at rest is counted, and lies in the intervals. -/
theorem counted_atRest {c : Crypto} {source : SigningKey} {subject : SubjectId} {t : Int64}
    (hv : (Evidence.minted source subject (.atRest t)).verify c = .ok ()) :
    counted ℝ c [Evidence.minted source subject (.atRest t)] subject ≠ [] ∧
      CountedWithin c [Evidence.minted source subject (.atRest t)] subject fun _ => 0 := by
  have hcounted : counted ℝ c [Evidence.minted source subject (.atRest t)] subject =
      [(Evidence.minted source subject (.atRest t)).payload] :=
    @counted_concat_of_counts ℝ _ c [] _ _ ⟨rfl, introduces_nil hv, Evidence.decodes_minted _ _ _⟩
  rw [CountedWithin, hcounted]
  refine ⟨List.cons_ne_nil _ _, fun p hp state hstate d => ?_⟩
  rw [List.mem_singleton.mp hp, Evidence.fromCanonicalBytes_minted, Except.ok.injEq] at hstate
  rw [← hstate, get_measurements_atRest]
  exact ⟨le_refl _, by unfold width; split <;> norm_num⟩

/-- Forty metres from the one observation before. -/
theorem conflicts_band_moved :
    let e := Evidence.minted (Vector.replicate 32 7) ⟨"ac"⟩ (.atRest 5)
    let e' := Evidence.minted (Vector.replicate 32 7) ⟨"ac"⟩ moved
    let c := Evidence.ledgerOf [e, e']
    ∃ prev, (incorporate c (folded ℝ c [e]) e').1.conflicts =
      (folded ℝ c [e]).conflicts ++ [(⟨"ac"⟩, prev, e')] := by
  intro e e' c
  have hv : e.verify c = .ok () := Evidence.verify_minted _ List.mem_cons_self
  have hcounted := counted_atRest hv
  have hband := conflicts_band c [e] ⟨"ac"⟩ (fun _ => 0) inBounds_zero hcounted.1 hcounted.2
  exact hband.2 e' moved rfl (answer_minted_of_ne ℝ (by decide))
    (Evidence.fromCanonicalBytes_minted _ _ _) beyond_moved

end BeliefEngine

end Seven
