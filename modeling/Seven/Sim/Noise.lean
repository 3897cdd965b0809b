import Seven.Belief.Band
import Seven.Core.Range
import Seven.Sim.Random

/-!
# Noisy Observations

Observations of one aircraft with noise on its position. Each coordinate moves by a
draw between the negative and the positive of the noise, so the generator needs an
interval that is not empty: it panics for a noise of zero, and it panics when the
observation it starts from is not valid. Otherwise every state it returns has the
velocity, the attitude and the time of the one observation, and a position that is off
by the noise and the rounding (`noisyObservations_exact`).

Noise below five metres does not look like a disagreement. In any run over evidence
from such observations, in any order and with any copies, no conflict is recorded for
the subject, and the estimate stays with the aircraft (`no_conflict_of_noisy`).

## Main definitions

* `Sampler`, `Sampler.Uniform`: Draws from intervals.
* `noisyObservations`: The generator.
* `shifted`: An observation moved by some noise.
* `center`: Where the aircraft is.

## Theorems

* `noisyFrom_real`: What the generator returns.
* `noisyObservations_exact`: When it returns, and how far off the states are.
* `no_conflict_of_noisy`: What the engine makes of the states.
-/

namespace Seven

open Rounding Real64

/-- A source of draws from intervals, with states in `σ`. -/
structure Sampler (σ F : Type) where
  seedFromU64 : UInt64 → σ
  /-- `random_range(lo..hi)`; nothing where it panics. -/
  range : σ → F → F → Option (F × σ)

instance {r : Reading} : Neg (Real64 r) :=
  ⟨Real64.neg⟩

section Noise

variable {σ F : Type} [CanonicalF64 F] [Neg F]

/-- One draw of noise. -/
def jitter (g : Sampler σ F) (sigma : F) (rng : σ) : Option (F × σ) :=
  g.range rng (-sigma) sigma

/-- The states that are drawn one after the other; nothing when it panics. -/
def noisyFrom (g : Sampler σ F) (base : PhysicalObservation F) (noiseStddevM : F) :
    Nat → σ → Option (List CanonicalState)
  | 0, _ => some []
  | count + 1, rng => do
      let (dx, rng) ← jitter g noiseStddevM rng
      let (dy, rng) ← jitter g noiseStddevM rng
      let (dz, rng) ← jitter g noiseStddevM rng
      let noisy : PhysicalObservation F :=
        { base with positionM := base.positionM.zipWith (· + ·) #v[dx, dy, dz] }
      let state ← (CanonicalState.canonicalize noisy).toOption
      let states ← noisyFrom g base noiseStddevM count rng
      return state :: states

/-- Generate a stream of noisy observations. -/
def noisyObservations (g : Sampler σ F) (seed : UInt64) (base : PhysicalObservation F)
    (count : Nat) (noiseStddevM : F) : Option (List CanonicalState) :=
  noisyFrom g base noiseStddevM count (g.seedFromU64 seed)

end Noise

/-- Draws lie in their interval. There is none from an interval that is empty or has
    no finite bounds. -/
structure Sampler.Uniform {σ : Type} (g : Sampler σ Exact64) : Prop where
  drawn : ∀ rng lo hi, lo < hi → ∃ v rng', g.range rng (real lo) (real hi) = some (real v, rng') ∧
    lo ≤ v ∧ v < hi
  empty : ∀ rng lo hi, hi ≤ lo → g.range rng (real lo) (real hi) = none
  special : ∀ rng lo hi, ¬ Finite64 hi → g.range rng lo hi = none

/-- The observation moved by some noise. -/
def shifted (obs : PhysicalObservation ℝ) (noise : Vector ℝ 3) : PhysicalObservation ℝ :=
  { obs with positionM := obs.positionM.zipWith (· + ·) noise }

/-- Noise of at most so much in every coordinate. -/
def Bounded (sigma : ℝ) (noise : Vector ℝ 3) : Prop :=
  ∀ i, |noise.get i| ≤ sigma

theorem get_zipWith_add {K : Type} [Add K] {n : Nat} (v w : Vector K n) (i : Fin n) :
    (v.zipWith (· + ·) w).get i = v.get i + w.get i :=
  Vector.getElem_zipWith i.isLt

theorem get_shifted (obs : PhysicalObservation ℝ) (noise : Vector ℝ 3) (i : Fin 3) :
    (shifted obs noise).positionM.get i = obs.positionM.get i + noise.get i :=
  get_zipWith_add obs.positionM noise i

/-- How a coordinate is stored. -/
theorem stored_get_map (v : Vector ℝ 3) {scale : Int64} (hscale : scale.toInt = 1000) (i : Fin 3) :
    Stored ((v.map (fixed · scale)).get i) (v.get i * 1000) := by
  have hstored := stored_fixed (v.get i) scale
  rw [hscale, Int.cast_ofNat] at hstored
  change Stored (v.map (fixed · scale))[(i : Nat)] _
  rw [Vector.getElem_map]
  exact hstored

theorem stored_position (obs : PhysicalObservation ℝ) (i : Fin 3) :
    Stored ((CanonicalState.canonical obs).positionMm.get i) (obs.positionM.get i * 1000) :=
  stored_get_map obs.positionM rfl i

theorem stored_velocity (obs : PhysicalObservation ℝ) (i : Fin 3) :
    Stored ((CanonicalState.canonical obs).velocityMms.get i) (obs.velocityMs.get i * 1000) :=
  stored_get_map obs.velocityMs rfl i

section Draws

variable {σ : Type} {g : Sampler σ Exact64}

theorem get_map_real (v : Vector ℝ 3) (i : Fin 3) :
    (v.map real : Vector Exact64 3).get i = real (v.get i) := by
  change (v.map real : Vector Exact64 3)[(i : Nat)] = real v[(i : Nat)]
  rw [Vector.getElem_map]

theorem zipWith_map_real (v w : Vector ℝ 3) :
    (v.map real : Vector Exact64 3).zipWith (· + ·) (w.map real) =
      (v.zipWith (· + ·) w).map real := by
  ext i hi
  rw [Vector.getElem_zipWith, Vector.getElem_map, Vector.getElem_map, Vector.getElem_map,
    Vector.getElem_zipWith]
  rfl

/-- A draw of noise that is there. -/
theorem exists_jitter (hg : g.Uniform) {sigma : ℝ} (hsigma : 0 < sigma) (rng : σ) :
    ∃ v rng', jitter g (real sigma) rng = some (real v, rng') ∧ |v| ≤ sigma := by
  rcases hg.drawn rng (-sigma) sigma (by linarith) with ⟨v, rng', hdraw, hlo, hhi⟩
  exact ⟨v, rng', hdraw, abs_le.mpr ⟨hlo, hhi.le⟩⟩

/-- There is none without a positive noise. -/
theorem jitter_eq_none (hg : g.Uniform) {sigma : Exact64}
    (hsigma : ¬ ∃ v, sigma = real v ∧ 0 < v) (rng : σ) : jitter g sigma rng = none := by
  cases sigma with
  | nan => exact hg.special rng _ _ fun h => Bool.noConfusion h.1
  | inf s => exact hg.special rng _ _ fun h => Bool.noConfusion h.2
  | real v =>
      refine hg.empty rng (-v) v ?_
      by_contra hneg
      exact hsigma ⟨v, rfl, by linarith⟩

/-- One state more is the observation moved by what was drawn. -/
theorem noisyFrom_succ_of_draws {obs : PhysicalObservation ℝ}
    (hlarge : 2 ^ (-1022 : ℤ) < √obs.attitude.normSq) {sigma : Exact64} {x y z : ℝ}
    {rng rng₁ rng₂ rng₃ : σ} (hx : jitter g sigma rng = some (real x, rng₁))
    (hy : jitter g sigma rng₁ = some (real y, rng₂))
    (hz : jitter g sigma rng₂ = some (real z, rng₃)) (count : Nat) :
    noisyFrom g (obs.map real) sigma (count + 1) rng =
      (noisyFrom g (obs.map real) sigma count rng₃).map
        (CanonicalState.canonical (shifted obs #v[x, y, z]) :: ·) := by
  have hnoisy : ({ obs.map real with positionM :=
        (obs.map real).positionM.zipWith (· + ·) #v[real x, real y, real z] } :
        PhysicalObservation Exact64) = (shifted obs #v[x, y, z]).map real := by
    have hdraws : #v[real x, real y, real z] = (#v[x, y, z].map real : Vector Exact64 3) := by
      simp only [Vector.map_mk, List.map_toArray, List.map_cons, List.map_nil]
    rw [PhysicalObservation.map, PhysicalObservation.map, shifted, ← zipWith_map_real, hdraws]
  have hok := (CanonicalState.canonicalize_map_real_iff (shifted obs #v[x, y, z]) _).mpr
    ⟨hlarge, rfl⟩
  rw [← hnoisy] at hok
  rw [noisyFrom, hx]
  simp only [Option.bind_eq_bind, Option.bind_some, hy, hz, hok, Except.toOption]
  cases noisyFrom g (obs.map real) sigma count rng₃ with
  | none => rfl
  | some states => rfl

/-- Which is a bounded noise. -/
theorem noisyFrom_succ (hg : g.Uniform) {obs : PhysicalObservation ℝ}
    (hlarge : 2 ^ (-1022 : ℤ) < √obs.attitude.normSq) {sigma : ℝ} (hsigma : 0 < sigma) (count : Nat)
    (rng : σ) :
    ∃ noise rng', Bounded sigma noise ∧
      noisyFrom g (obs.map real) (real sigma) (count + 1) rng =
        (noisyFrom g (obs.map real) (real sigma) count rng').map
          (CanonicalState.canonical (shifted obs noise) :: ·) := by
  rcases exists_jitter hg hsigma rng with ⟨x, rng₁, hx, hxle⟩
  rcases exists_jitter hg hsigma rng₁ with ⟨y, rng₂, hy, hyle⟩
  rcases exists_jitter hg hsigma rng₂ with ⟨z, rng₃, hz, hzle⟩
  refine ⟨#v[x, y, z], rng₃, ?_, noisyFrom_succ_of_draws hlarge hx hy hz count⟩
  intro i
  fin_cases i
  · exact hxle
  · exact hyle
  · exact hzle

/-- What the generator returns of a valid observation. -/
theorem noisyFrom_real (hg : g.Uniform) {obs : PhysicalObservation ℝ}
    (hlarge : 2 ^ (-1022 : ℤ) < √obs.attitude.normSq) {sigma : ℝ} (hsigma : 0 < sigma) (count : Nat)
    (rng : σ) :
    ∃ states, noisyFrom g (obs.map real) (real sigma) count rng = some states ∧
      states.length = count ∧ ∀ state ∈ states, ∃ noise, Bounded sigma noise ∧
        state = CanonicalState.canonical (shifted obs noise) := by
  induction count generalizing rng with
  | zero => exact ⟨[], rfl, rfl, fun _ h => absurd h List.not_mem_nil⟩
  | succ count ih =>
      rcases noisyFrom_succ hg hlarge hsigma count rng with ⟨noise, rng', hnoise, hstep⟩
      rcases ih rng' with ⟨states, hstates, hlen, hall⟩
      refine ⟨CanonicalState.canonical (shifted obs noise) :: states, ?_, ?_, ?_⟩
      · rw [hstep, hstates, Option.map_some]
      · rw [List.length_cons, hlen]
      · intro state hstate
        rcases List.mem_cons.mp hstate with rfl | hstate
        · exact ⟨noise, hnoise, rfl⟩
        · exact hall state hstate

/-- What is added to a number that is not finite does not make it finite. -/
theorem Finite64.of_add {x y : Exact64} (h : Finite64 (x + y)) : Finite64 x := by
  cases x with
  | nan =>
      have hsum : nan + y = nan := by
        cases y <;> rfl
      rw [hsum] at h
      exact h
  | inf s =>
      have hsum : inf s + y = inf s ∨ inf s + y = nan := by
        cases y with
        | nan => exact Or.inr rfl
        | real y => exact Or.inl rfl
        | inf t =>
            change (if s = t then inf s else nan) = inf s ∨ (if s = t then inf s else nan) = nan
            by_cases hst : s = t
            · exact Or.inl (if_pos hst)
            · exact Or.inr (if_neg hst)
      rcases hsum with hsum | hsum
      · rwa [hsum] at h
      · rw [hsum] at h
        exact Bool.noConfusion h.1
  | real x => exact finite64_real x

/-- An observation that is valid with noise is valid without. -/
theorem valid_of_noisy {base : PhysicalObservation Exact64} {noise : Vector Exact64 3}
    {state : CanonicalState}
    (h : CanonicalState.canonicalize
      { base with positionM := base.positionM.zipWith (· + ·) noise } = .ok state) :
    ∃ s, CanonicalState.canonicalize base = .ok s := by
  rcases (CanonicalState.canonicalize_eq_ok_iff _ _).mp h with ⟨hp, hv, q, hq, _⟩
  refine ⟨_, (CanonicalState.canonicalize_eq_ok_iff _ _).mpr ⟨?_, hv, q, hq, rfl⟩⟩
  intro i
  have hsum := hp i
  rw [get_zipWith_add] at hsum
  exact hsum.of_add

/-- A generator that returns something drew a noise and found the observation valid. -/
theorem valid_of_noisyFrom (hg : g.Uniform) {base : PhysicalObservation Exact64} {sigma : Exact64}
    {count : Nat} {rng : σ} {states : List CanonicalState}
    (h : noisyFrom g base sigma (count + 1) rng = some states) :
    (∃ v, sigma = real v ∧ 0 < v) ∧ ∃ s, CanonicalState.canonicalize base = .ok s := by
  by_cases hsigma : ∃ v, sigma = real v ∧ 0 < v
  · refine ⟨hsigma, ?_⟩
    rcases hsigma with ⟨v, rfl, hv⟩
    rcases exists_jitter hg hv rng with ⟨x, rng₁, hx, _⟩
    rcases exists_jitter hg hv rng₁ with ⟨y, rng₂, hy, _⟩
    rcases exists_jitter hg hv rng₂ with ⟨z, rng₃, hz, _⟩
    rw [noisyFrom, hx] at h
    simp only [Option.bind_eq_bind, Option.bind_some, hy, hz] at h
    rcases Option.bind_eq_some_iff.mp h with ⟨state, hstate, _⟩
    generalize hnoisy : CanonicalState.canonicalize (F := Exact64) _ = result at hstate
    cases result with
    | error e => exact absurd hstate (by simp only [Except.toOption, reduceCtorEq,
        not_false_eq_true])
    | ok state' => exact valid_of_noisy hnoisy
  · rw [noisyFrom, jitter_eq_none hg hsigma] at h
    exact absurd h.symm (Option.some_ne_none states)

/-- Where a state puts the observation that was moved by a bounded noise. -/
theorem stored_shifted {obs : PhysicalObservation ℝ} {sigma : ℝ} {noise : Vector ℝ 3}
    (h : Bounded sigma noise) (i : Fin 3) :
    ∃ p, |p - (((obs.map real : PhysicalObservation Exact64).positionM).get i).toReal| ≤ sigma ∧
      Stored ((CanonicalState.canonical (shifted obs noise)).positionMm.get i) (p * 1000) := by
  refine ⟨obs.positionM.get i + noise.get i, ?_, ?_⟩
  · change |_ - ((obs.positionM.map real : Vector Exact64 3).get i).toReal| ≤ sigma
    rw [get_map_real]
    change |_ - obs.positionM.get i| ≤ sigma
    rw [add_sub_cancel_left]
    exact h i
  · rw [← get_shifted]
    exact stored_position (shifted obs noise) i

/-- When the generator returns and what. It panics on a noise that is not positive or
    not finite and on an observation that is not valid, unless it has nothing to
    return. Otherwise it returns as many states as asked for. Each has the velocity, the
    attitude and the time of the observation, and in each coordinate the position of it
    moved by no more than the noise, off by at most half a millimetre or at the bound of
    what can be stored. -/
theorem noisyObservations_exact (hg : g.Uniform) (seed : UInt64)
    (base : PhysicalObservation Exact64) (count : Nat) (sigma : Exact64) :
    ((∃ states, noisyObservations g seed base count sigma = some states) ↔
        count = 0 ∨ (∃ v, sigma = real v ∧ 0 < v) ∧
          ∃ s, CanonicalState.canonicalize base = .ok s) ∧
      ∀ states, noisyObservations g seed base count sigma = some states →
        states.length = count ∧
          ∀ s, CanonicalState.canonicalize base = .ok s → ∀ state ∈ states,
            state.velocityMms = s.velocityMms ∧ state.attitude = s.attitude ∧
              state.observedAtNanos = s.observedAtNanos ∧
              ∀ i, ∃ p, |p - (base.positionM.get i).toReal| ≤ sigma.toReal ∧
                Stored (state.positionMm.get i) (p * 1000) := by
  unfold noisyObservations
  rcases count with _ | count
  · refine ⟨iff_of_true ⟨[], rfl⟩ (Or.inl rfl), ?_⟩
    intro states h
    have hnil : states = [] := (Option.some.inj h).symm
    rw [hnil]
    exact ⟨rfl, fun _ _ state hstate => absurd hstate List.not_mem_nil⟩
  · by_cases hvalid : (∃ v, sigma = real v ∧ 0 < v) ∧ ∃ s, CanonicalState.canonicalize base = .ok s
    · rcases hvalid with ⟨⟨v, rfl, hv⟩, s, hs⟩
      rcases (CanonicalState.canonicalize_exact_iff base s).mp hs with ⟨obs, rfl, hlarge, rfl⟩
      rcases noisyFrom_real hg hlarge hv (count + 1) (g.seedFromU64 seed) with
        ⟨states, hstates, hlen, hall⟩
      refine ⟨iff_of_true ⟨states, hstates⟩ (Or.inr ⟨⟨v, rfl, hv⟩, _, hs⟩), ?_⟩
      intro states' h
      rw [hstates, Option.some.injEq] at h
      rw [← h]
      refine ⟨hlen, ?_⟩
      intro s' hs' state hstate
      rw [hs, Except.ok.injEq] at hs'
      rw [← hs']
      rcases hall state hstate with ⟨noise, hnoise, rfl⟩
      exact ⟨rfl, rfl, rfl, stored_shifted hnoise⟩
    · refine ⟨iff_of_false ?_ ?_, ?_⟩
      · intro h
        rcases h with ⟨states, hstates⟩
        exact hvalid (valid_of_noisyFrom hg hstates)
      · rintro (hzero | h)
        · exact Nat.succ_ne_zero count hzero
        · exact hvalid h
      · intro states h
        exact absurd (valid_of_noisyFrom hg h) hvalid

open Classical in
/-- The least number of every interval and zero in turn, if it is in the interval. -/
noncomputable def swinging : Sampler Bool Exact64 :=
  { seedFromU64 := fun _ => false
    range := fun up lo hi =>
      match lo, hi with
      | real lo, real hi =>
          if lo < hi then some (real (if up = true ∧ lo < 0 ∧ 0 < hi then 0 else lo), !up) else none
      | _, _ => none }

theorem uniform_swinging : swinging.Uniform where
  drawn up lo hi h := by
    refine ⟨_, !up, if_pos h, ?_⟩
    split
    · rename_i hzero
      exact ⟨hzero.2.1.le, hzero.2.2⟩
    · exact ⟨le_rfl, h⟩
  empty _ lo hi h := if_neg (not_lt.mpr h)
  special _ lo hi h := by
    cases hi with
    | nan => cases lo <;> rfl
    | inf s => cases lo <;> rfl
    | real hi => exact absurd (finite64_real hi) h

/-- A metre of noise, drawn from below and not at all in turn. -/
theorem jitter_swinging :
    jitter swinging (real 1) false = some (real (-1), true) ∧
      jitter swinging (real 1) true = some (real 0, false) := by
  have hneg : -(real 1 : Exact64) = real (-1) := rfl
  have hlt : (-1 : ℝ) < 1 := by norm_num
  unfold jitter swinging
  simp only [hneg, if_pos hlt, Bool.false_eq_true, false_and, if_false,
    neg_lt_zero, zero_lt_one, and_self, if_true, Bool.not_false, Bool.not_true]

/-- The first two states of an observation with a metre of noise. -/
theorem noisyObservations_swinging (seed : UInt64) {obs : PhysicalObservation ℝ}
    (hlarge : 2 ^ (-1022 : ℤ) < √obs.attitude.normSq) :
    noisyObservations swinging seed (obs.map real) 2 (real 1) =
      some [CanonicalState.canonical (shifted obs #v[-1, 0, -1]),
        CanonicalState.canonical (shifted obs #v[0, -1, 0])] := by
  rcases jitter_swinging with ⟨hdown, hup⟩
  change noisyFrom swinging (obs.map real) (real 1) (1 + 1) false = _
  rw [noisyFrom_succ_of_draws hlarge hdown hup hdown, noisyFrom_succ_of_draws hlarge hup hdown hup]
  rfl

/-- A metre of noise gives the states asked for, without noise nothing is generated. -/
theorem noisyObservations_exact_tilted :
    let base : PhysicalObservation Exact64 :=
      (CanonicalState.atAttitude CanonicalState.tilted).map real
    (¬ ∃ states, noisyObservations swinging 7 base 2 (real 0) = some states) ∧
      ∃ s states, CanonicalState.canonicalize base = .ok s ∧
        noisyObservations swinging 7 base 2 (real 1) = some states ∧ states.length = 2 ∧
        ∀ state ∈ states, state.velocityMms = s.velocityMms ∧ state.attitude = s.attitude ∧
          ∀ i, ∃ p, |p - (base.positionM.get i).toReal| ≤ (real 1 : Exact64).toReal ∧
            Stored (state.positionMm.get i) (p * 1000) := by
  intro base
  have hexact := noisyObservations_exact uniform_swinging 7 base 2
  constructor
  · intro h
    rcases (hexact (real 0)).1.mp h with hzero | ⟨⟨v, hv, hpos⟩, _⟩
    · exact absurd hzero (by decide)
    · rw [← real.inj hv] at hpos
      exact lt_irrefl 0 hpos
  · have hs := CanonicalState.canonicalize_tilted
    rcases (hexact (real 1)).1.mpr (Or.inr ⟨⟨1, rfl, one_pos⟩, _, hs⟩) with ⟨states, hstates⟩
    rcases (hexact (real 1)).2 states hstates with ⟨hlen, hall⟩
    refine ⟨_, states, hs, hstates, hlen, fun state hstate => ?_⟩
    rcases hall _ hs state hstate with ⟨hvelocity, hattitude, _, hposition⟩
    exact ⟨hvelocity, hattitude, hposition⟩

end Draws

section Belief

open GaussianBelief BeliefEngine

/-- Where the aircraft is and how fast it moves. -/
def center (obs : PhysicalObservation ℝ) : Vector ℝ 6 :=
  obs.positionM ++ obs.velocityMs

theorem get_center_position (obs : PhysicalObservation ℝ) (i : Fin 3) :
    (center obs).get (i.castAdd 3) = obs.positionM.get i :=
  Vector.getElem_append_left i.isLt

theorem get_center_velocity (obs : PhysicalObservation ℝ) (i : Fin 3) :
    (center obs).get (i.natAdd 3) = obs.velocityMs.get i := by
  have hlt := i.isLt
  change (obs.positionM ++ obs.velocityMs)[3 + i.val] = obs.velocityMs[i.val]
  refine (Vector.getElem_append_right (by omega) (Nat.le_add_right 3 i.val)).trans ?_
  simp only [Nat.add_sub_cancel_left]

/-- How far off a measurement may read, half of the width. -/
def reach (d : Fin 6) : ℚ := if d.val < 3 then 5 else 1

theorem width_eq (d : Fin 6) : (width d : ℝ) = 2 * (reach d : ℝ) := by
  unfold width reach
  split <;> norm_num

/-- The evidence carries a state that the generator made of an observation. -/
def Simulated {σ : Type} (g : Sampler σ Exact64) (obs : PhysicalObservation ℝ) (sigma : ℝ)
    (e : Evidence) : Prop :=
  ∃ seed count states state,
    noisyObservations g seed (obs.map real) count (real sigma) = some states ∧
      state ∈ states ∧ state.canonicalBytes = .ok e.payload

/-- What is stored of a number that is not too large reads as about that number. -/
theorem abs_fromMilli_sub_le {x : Int64} {c : ℝ} (h : Stored x (c * 1000)) (hc : |c| ≤ 10 ^ 8) :
    |(fromMilli x : ℝ) - c| ≤ 2000⁻¹ := by
  have hsize := abs_le.mp hc
  have hmin : (Int64.minValue.toInt : ℝ) ≤ -(10 ^ 11) := by
    rw [show Int64.minValue.toInt = -9223372036854775808 by decide]
    norm_num
  have hmax : (10 ^ 11 : ℝ) ≤ (Int64.maxValue.toInt : ℝ) := by
    rw [show Int64.maxValue.toInt = 9223372036854775807 by decide]
    norm_num
  have hhalf := abs_le.mp (h.1 (by linarith) (by linarith))
  have hread : (fromMilli x : ℝ) = (x.toInt : ℝ) / 1000 := by
    change (x.toInt : ℝ) / ((1000 : ℤ) : ℝ) = _
    rw [Int.cast_ofNat]
  rw [hread, abs_le]
  constructor <;> linarith

/-- A state of the generator reads as about where the aircraft is. -/
theorem abs_measurement_sub_le {obs : PhysicalObservation ℝ} {sigma : ℝ}
    (hsigma : sigma + 2000⁻¹ ≤ 5)
    (hcenter : ∀ d, |(center obs).get d| + (reach d : ℝ) ≤ (bound d : ℝ))
    {noise : Vector ℝ 3} (hnoise : Bounded sigma noise) (d : Fin 6) :
    |(measurements (CanonicalState.canonical (shifted obs noise)) : Vector ℝ 6).get d -
      (center obs).get d| ≤ (reach d : ℝ) := by
  have hposition (i : Fin 3) (d : Fin 6) (hd : (center obs).get d = obs.positionM.get i)
      (hlt : d.val < 3) :
      |(fromMilli ((CanonicalState.canonical (shifted obs noise)).positionMm.get i) : ℝ) -
        (center obs).get d| ≤ (reach d : ℝ) := by
    have hstored := stored_position (shifted obs noise) i
    have hbound := hcenter d
    rw [get_shifted] at hstored
    rw [hd, reach, bound, if_pos hlt, if_pos hlt] at hbound
    rw [hd, reach, if_pos hlt]
    norm_num at hbound ⊢
    have hmoved := abs_le.mp (hnoise i)
    have hsize := abs_le.mp (le_sub_iff_add_le.mpr hbound)
    have hread := abs_le.mp (abs_fromMilli_sub_le hstored
      (abs_le.mpr ⟨by linarith, by linarith⟩))
    exact abs_le.mpr ⟨by linarith, by linarith⟩
  have hvelocity (i : Fin 3) (d : Fin 6) (hd : (center obs).get d = obs.velocityMs.get i)
      (hge : ¬ d.val < 3) :
      |(fromMilli ((CanonicalState.canonical (shifted obs noise)).velocityMms.get i) : ℝ) -
        (center obs).get d| ≤ (reach d : ℝ) := by
    have hstored : Stored ((CanonicalState.canonical (shifted obs noise)).velocityMms.get i)
        (obs.velocityMs.get i * 1000) := stored_velocity (shifted obs noise) i
    have hbound := hcenter d
    rw [hd, reach, bound, if_neg hge, if_neg hge] at hbound
    rw [hd, reach, if_neg hge]
    norm_num at hbound ⊢
    have hread := abs_fromMilli_sub_le hstored (by linarith)
    linarith
  fin_cases d
  · exact hposition 0 0 (get_center_position obs 0) (by decide)
  · exact hposition 1 1 (get_center_position obs 1) (by decide)
  · exact hposition 2 2 (get_center_position obs 2) (by decide)
  · exact hvelocity 0 3 (get_center_velocity obs 0) (by decide)
  · exact hvelocity 1 4 (get_center_velocity obs 1) (by decide)
  · exact hvelocity 2 5 (get_center_velocity obs 2) (by decide)

/-- A simulated payload decodes to the observation moved by a bounded noise. -/
theorem Simulated.exists_noise {σ : Type} {g : Sampler σ Exact64} (hg : g.Uniform)
    {obs : PhysicalObservation ℝ} {sigma : ℝ} {e : Evidence} (h : Simulated g obs sigma e) :
    ∃ noise, Bounded sigma noise ∧ CanonicalState.fromCanonicalBytes e.payload =
      .ok (CanonicalState.canonical (shifted obs noise)) := by
  rcases h with ⟨seed, count, states, state, hstates, hmem, hbytes⟩
  have hdecoded : CanonicalState.fromCanonicalBytes e.payload = .ok state := by
    rw [← Except.ok.inj hbytes]
    exact CanonicalState.fromCanonicalBytes_writeI64s state
  rcases count with _ | count
  · rw [← Option.some.inj hstates] at hmem
    exact absurd hmem List.not_mem_nil
  · -- Something was drawn, so the noise is positive and the observation valid.
    rcases valid_of_noisyFrom hg hstates with ⟨⟨v, hv, hpos⟩, s, hs⟩
    rw [← real.inj hv] at hpos
    have hlarge := ((CanonicalState.canonicalize_map_real_iff obs s).mp hs).1
    rcases noisyFrom_real hg hlarge hpos (count + 1) (g.seedFromU64 seed) with
      ⟨states', hstates', _, hall⟩
    rw [noisyObservations, hstates', Option.some.injEq] at hstates
    rcases hall state (hstates ▸ hmem) with ⟨noise, hnoise, rfl⟩
    exact ⟨noise, hnoise, hdecoded⟩

/-- What counted for a subject lies around the aircraft, when all evidence of it is
    simulated. -/
theorem countedWithin_of_simulated {σ : Type} {g : Sampler σ Exact64} (hg : g.Uniform)
    {c : Crypto} {run : List Evidence} {s : SubjectId} {obs : PhysicalObservation ℝ} {sigma : ℝ}
    (hsigma : sigma + 2000⁻¹ ≤ 5)
    (hcenter : ∀ d, |(center obs).get d| + (reach d : ℝ) ≤ (bound d : ℝ))
    (hrun : ∀ e ∈ run, e.subject = s → Simulated g obs sigma e) :
    CountedWithin c run s fun d => (center obs).get d - (reach d : ℝ) := by
  intro p hp state hstate
  rcases (observed_of_mem_counted hp).1 with ⟨e, he, _, hs, rfl⟩
  rcases (hrun e he hs).exists_noise hg with ⟨noise, hnoise, hdecoded⟩
  rw [hdecoded, Except.ok.injEq] at hstate
  rw [← hstate]
  intro d
  have hread := abs_le.mp (abs_measurement_sub_le hsigma hcenter hnoise d)
  have hwidth := width_eq d
  constructor <;> linarith

/-- Noise below five metres is no disagreement. When all evidence of a subject carries
    states that the generator made of one observation, then in every run, whatever else
    is in it, no conflict is recorded for the subject, and every coordinate of the
    estimate is about that of the observation. -/
theorem no_conflict_of_noisy {σ : Type} (g : Sampler σ Exact64) (hg : g.Uniform) (c : Crypto)
    (run : List Evidence) (s : SubjectId) (obs : PhysicalObservation ℝ) (sigma : ℝ)
    (hsigma : sigma + 2000⁻¹ ≤ 5)
    (hcenter : ∀ d, |(center obs).get d| + (reach d : ℝ) ≤ (bound d : ℝ))
    (hrun : ∀ e ∈ run, e.subject = s → Simulated g obs sigma e) :
    (∀ entry ∈ (folded ℝ c run).conflicts, entry.1 ≠ s) ∧
      ∀ track, (folded ℝ c run).tracks[s]? = some track → ∀ d,
        |track.mean.get d - (center obs).get d| ≤ (reach d : ℝ) + slack d := by
  have hbounds : InBounds fun d => (center obs).get d - (reach d : ℝ) := by
    intro d
    have hsize := abs_le.mp (le_sub_iff_add_le.mpr (hcenter d))
    have hwidth := width_eq d
    constructor <;> linarith
  have hwithin := countedWithin_of_simulated hg (c := c) hsigma hcenter hrun
  refine ⟨not_mem_conflicts_of_within hbounds hwithin, ?_⟩
  intro track htrack d
  rcases near_track hbounds hwithin htrack d with ⟨_, _, hlow, hhigh⟩
  have hmean : (track.dim d).mean = track.mean.get d := rfl
  have hwidth := width_eq d
  rw [hmean] at hlow hhigh
  exact abs_le.mpr ⟨by linarith, by linarith⟩

theorem center_atAttitude (q : Quaternion ℝ) (d : Fin 6) :
    (center (CanonicalState.atAttitude q)).get d = 0 := by
  fin_cases d <;> rfl

/-- Where the still aircraft is stored when it is moved by whole millimetres. -/
theorem positionMm_shifted (noise : Vector ℝ 3) (i : Fin 3) {x : Int64}
    (h : noise.get i * 1000 = (x.toInt : ℝ)) :
    (CanonicalState.canonical (shifted (CanonicalState.atAttitude CanonicalState.tilted)
      noise)).positionMm.get i = x := by
  have hstored :=
    stored_position (shifted (CanonicalState.atAttitude CanonicalState.tilted) noise) i
  have hzero : (CanonicalState.atAttitude CanonicalState.tilted).positionM.get i = 0 := by
    fin_cases i <;> rfl
  rw [get_shifted, hzero, zero_add, h] at hstored
  exact hstored.eq_of_toInt

/-- The first byte of a payload is that of the first coordinate. -/
theorem getD_writeI64s_fields (s : CanonicalState) :
    (Postcard.writeI64s s.fields.toList).getD 0 0 =
      (Postcard.writeI64 (s.positionMm.get 0)).getD 0 0 := by
  have hpos := (Postcard.accepted_writeI64 (s.positionMm.get 0)).1.length_pos
  have hfields : s.fields.toList = s.positionMm.get 0 :: s.fields.toList.tail := rfl
  rw [Postcard.writeI64s, hfields, List.flatMap_cons, List.getD_eq_getElem?_getD,
    List.getElem?_append_left hpos, List.getD_eq_getElem?_getD]

/-- Payloads that begin with another byte have another observation id. -/
theorem observationId_ne_of_head {source : SigningKey} {subject : SubjectId} {s s' : CanonicalState}
    (h : (Postcard.writeI64 (s.positionMm.get 0)).getD 0 0 ≠
      (Postcard.writeI64 (s'.positionMm.get 0)).getD 0 0) :
    (Evidence.minted source subject s).observationId ≠
      (Evidence.minted source subject s').observationId := by
  intro hsame
  have hprefix := congrArg (·.get 0) (ObservationId.mk.inj hsame)
  change (Vector.ofFn (n := 32) fun i => (Postcard.writeI64s s.fields.toList).getD i 0)[0] =
    (Vector.ofFn (n := 32) fun i => (Postcard.writeI64s s'.fields.toList).getD i 0)[0] at hprefix
  rw [Vector.getElem_ofFn, Vector.getElem_ofFn, getD_writeI64s_fields, getD_writeI64s_fields]
    at hprefix
  exact h hprefix

/-- The two states that swinging draws lead to have different ids. -/
theorem observationId_ne_swinging {source : SigningKey} {subject : SubjectId} :
    let obs := CanonicalState.atAttitude CanonicalState.tilted
    (Evidence.minted source subject
        (CanonicalState.canonical (shifted obs #v[-1, 0, -1]))).observationId ≠
      (Evidence.minted source subject
        (CanonicalState.canonical (shifted obs #v[0, -1, 0]))).observationId := by
  intro obs
  have hmoved : (#v[-1, 0, -1] : Vector ℝ 3).get 0 * 1000 = ((-1000 : Int64).toInt : ℝ) := by
    rw [show (-1000 : Int64).toInt = -1000 by decide]
    change (-1 : ℝ) * 1000 = _
    norm_num
  have hstill : (#v[0, -1, 0] : Vector ℝ 3).get 0 * 1000 = ((0 : Int64).toInt : ℝ) := by
    rw [show (0 : Int64).toInt = 0 by decide]
    change (0 : ℝ) * 1000 = _
    norm_num
  refine observationId_ne_of_head ?_
  rw [positionMm_shifted _ 0 hmoved, positionMm_shifted _ 0 hstill]
  decide

/-- Two states that were drawn differently: both count, and the second is checked
    against the track of the first. -/
theorem no_conflict_of_noisy_swinging :
    ∃ e e', Simulated swinging (CanonicalState.atAttitude CanonicalState.tilted) 1 e ∧
      Simulated swinging (CanonicalState.atAttitude CanonicalState.tilted) 1 e' ∧
      let c := Evidence.ledgerOf [e, e']
      (∃ track, (folded ℝ c [e]).tracks[e'.subject]? = some track) ∧
        (incorporate c (folded ℝ c [e]) e').2 = .ok true ∧
        ∀ entry ∈ (folded ℝ c [e, e']).conflicts, entry.1 ≠ ⟨"ac"⟩ := by
  let obs := CanonicalState.atAttitude CanonicalState.tilted
  have hlarge : 2 ^ (-1022 : ℤ) < √obs.attitude.normSq := CanonicalState.large_tilted
  have hstates := noisyObservations_swinging 7 hlarge
  let e := Evidence.minted (Vector.replicate 32 7) ⟨"ac"⟩
    (CanonicalState.canonical (shifted obs #v[-1, 0, -1]))
  let e' := Evidence.minted (Vector.replicate 32 7) ⟨"ac"⟩
    (CanonicalState.canonical (shifted obs #v[0, -1, 0]))
  let c := Evidence.ledgerOf [e, e']
  have he : Simulated swinging obs 1 e :=
    ⟨7, 2, _, _, hstates, List.mem_cons_self, rfl⟩
  have he' : Simulated swinging obs 1 e' :=
    ⟨7, 2, _, _, hstates, List.mem_cons_of_mem _ List.mem_cons_self, rfl⟩
  have hv : e.verify c = .ok () := Evidence.verify_minted _ List.mem_cons_self
  have hid : e.observationId ≠ e'.observationId := observationId_ne_swinging
  have hcounted : counted ℝ c ([] ++ [e]) ⟨"ac"⟩ = [e.payload] :=
    counted_concat_of_counts ⟨rfl, introduces_nil hv, Evidence.decodes_minted _ _ _⟩
  refine ⟨e, e', he, he', exists_track_of_counted ?_, answer_minted_of_ne ℝ hid, ?_⟩
  · rw [List.nil_append] at hcounted
    exact hcounted ▸ List.cons_ne_nil _ _
  · refine (no_conflict_of_noisy swinging uniform_swinging c [e, e'] ⟨"ac"⟩ obs 1 (by norm_num)
      ?_ ?_).1
    · intro d
      rw [center_atAttitude, abs_zero, zero_add]
      unfold reach bound
      split <;> norm_num
    · intro x hx _
      rcases List.mem_pair.mp hx with rfl | rfl
      · exact he
      · exact he'

end Belief

end Seven
