import Seven.Belief.Engine
import Seven.Library.Maps

/-!
# The Conflict Log

When evidence disagrees with the track it is about, the engine keeps the pair:
the evidence before and the new one. The pair needs a previous evidence, which
comes from a map of its own, and an entry would be lost if that map missed a
subject that has a track.

It never does. Both maps are written by the calls that count and by nothing
else, so they have the same keys, and the map of evidence holds the one of the
latest counted call (`lastEvidence_folded`). `conflicts_exact` then says for
every call after every run what it appends.

## Main definitions

* `lastCounted`: The evidence of the latest counted call, read from the answers.
* `Flags`: A call that counts and disagrees with the track before it.

## Theorems

* `lastEvidence_folded`: The previous half of a pair is the latest counted one.
* `mem_tracks_folded_iff`: Tracks and previous evidence have the same keys.
* `conflicts_exact`: What a call appends to the conflict log.
-/

namespace Seven

variable {F : Type} [F64 F]

namespace GaussianBelief

/-- The measurement is further from the mean than three standard deviations of
    the predictive variance. -/
def DisagreesIn (track : GaussianBelief F) (measurements : Vector F 6) (d : Fin 6) : Prop :=
  F64.gt (F64.abs (measurements.get d - track.mean.get d))
    (F64.ofInt 3 * F64.sqrt (track.var.get d + noise.get d)) = true

theorem conflicts_eq_true_iff (track : GaussianBelief F) (measurements : Vector F 6) :
    track.conflicts measurements = true ↔ ∃ d, track.DisagreesIn measurements d := by
  unfold conflicts
  rw [List.any_eq_true]
  exact ⟨fun ⟨d, _, h⟩ => ⟨d, h⟩, fun ⟨d, h⟩ => ⟨d, List.mem_finRange d, h⟩⟩

end GaussianBelief

namespace BeliefEngine

/-- The subject has a track, and the evidence disagrees with it in some
    dimension. -/
def Disagrees (eng : BeliefEngine F) (e : Evidence) : Prop :=
  ∃ track state, eng.tracks[e.subject]? = some track ∧
    CanonicalState.fromCanonicalBytes e.payload = .ok state ∧
    ∃ d, track.DisagreesIn (measurements state) d

/-- The call counts its evidence, which disagrees with the track before. -/
def Flags (c : Crypto) (eng : BeliefEngine F) (e : Evidence) : Prop :=
  (eng.incorporate c e).2 = .ok true ∧ eng.Disagrees e

/-- The call counted for this subject. -/
def countsFor (s : SubjectId) (call : Evidence × Except BeliefError Bool) : Bool :=
  decide (call.1.subject = s) && decide (call.2 = .ok true)

/-- The evidence of the latest call of a run that counted for a subject. -/
def lastCounted (F : Type) [F64 F] (c : Crypto) (run : List Evidence) (s : SubjectId) :
    Option Evidence :=
  ((answers F c run).reverse.find? (countsFor s)).map Prod.fst

/-- The previous evidence after a call. -/
theorem lastEvidence_incorporate (c : Crypto) (eng : BeliefEngine F) (e : Evidence)
    (s : SubjectId) :
    (eng.incorporate c e).1.lastEvidence[s]? =
      if countsFor s (e, (eng.incorporate c e).2) then some e else eng.lastEvidence[s]? := by
  unfold countsFor
  rcases incorporate_counted_cases c eng e with ⟨hans, _, _, hlast⟩ | ⟨state, _, h⟩
  · simp only [hlast, hans, decide_false, Bool.and_false, Bool.false_eq_true, if_false]
  · simp only [h, decide_true, Bool.and_true, decide_eq_true_eq]
    unfold absorb mark
    by_cases hs : e.subject = s
    · rw [if_pos hs, hs, Std.ExtTreeMap.getElem?_insert_self]
    · rw [if_neg hs, Maps.getElem?_insert_of_ne _ _ hs]

/-- The subjects with a track after a call. -/
theorem mem_tracks_incorporate_iff (c : Crypto) (eng : BeliefEngine F) (e : Evidence)
    (s : SubjectId) :
    s ∈ (eng.incorporate c e).1.tracks ↔
      countsFor s (e, (eng.incorporate c e).2) = true ∨ s ∈ eng.tracks := by
  unfold countsFor
  rcases incorporate_counted_cases c eng e with ⟨hans, htracks, _⟩ | ⟨state, _, h⟩
  · simp only [htracks, hans, decide_false, Bool.and_false, Bool.false_eq_true, false_or]
  · simp only [h, decide_true, Bool.and_true, decide_eq_true_eq]
    unfold absorb mark
    rw [Std.ExtTreeMap.mem_insert, Std.compare_eq_iff_eq]

theorem lastCounted_concat (c : Crypto) (run : List Evidence) (e : Evidence) (s : SubjectId) :
    lastCounted F c (run ++ [e]) s =
      if countsFor s (e, ((folded F c run).incorporate c e).2) then some e
      else lastCounted F c run s := by
  unfold lastCounted answers
  rw [Machine.trace_concat, List.reverse_concat, ← folded]
  by_cases h : countsFor s (e, ((folded F c run).incorporate c e).2) = true
  · rw [if_pos h, List.find?_cons_of_pos h, Option.map_some]
  · rw [if_neg h, List.find?_cons_of_neg h]

/-- The previous half of a pair is the evidence of the latest counted call. -/
theorem lastEvidence_folded (c : Crypto) (run : List Evidence) (s : SubjectId) :
    (folded F c run).lastEvidence[s]? = lastCounted F c run s := by
  induction run using List.reverseRecOn with
  | nil => rfl
  | append_singleton run e ih =>
      rw [folded_concat, lastEvidence_incorporate, lastCounted_concat, ih]

/-- Tracks and previous evidence have the same keys. -/
theorem mem_tracks_folded_iff (c : Crypto) (run : List Evidence) (s : SubjectId) :
    s ∈ (folded F c run).tracks ↔ s ∈ (folded F c run).lastEvidence := by
  induction run using List.reverseRecOn with
  | nil => exact iff_of_false Std.ExtTreeMap.not_mem_empty Std.ExtTreeMap.not_mem_empty
  | append_singleton run e ih =>
      rw [folded_concat, mem_tracks_incorporate_iff, ih]
      simp only [Std.ExtTreeMap.mem_iff_isSome_getElem?, lastEvidence_incorporate]
      -- A call writes both maps, when it counts, or neither.
      by_cases h : countsFor s (e, ((folded F c run).incorporate c e).2) = true
      · simp only [h, true_or, if_true, Option.isSome_some]
      · simp only [h, false_or, Bool.false_eq_true, if_false]

/-- A call that flags appends the pair, when there is a previous evidence. -/
theorem conflicts_incorporate_of_flags {c : Crypto} {eng : BeliefEngine F} {e prev : Evidence}
    (h : Flags c eng e) (hprev : eng.lastEvidence[e.subject]? = some prev) :
    (eng.incorporate c e).1.conflicts = eng.conflicts ++ [(e.subject, prev, e)] := by
  rcases h with ⟨hans, track, state, htrack, hstate, hd⟩
  rcases incorporate_counted_cases c eng e with ⟨hne, _⟩ | ⟨state', hstate', h⟩
  · exact absurd hans hne
  · rw [hstate, Except.ok.injEq] at hstate'
    have hconflict := (GaussianBelief.conflicts_eq_true_iff track _).mpr hd
    rw [hstate'] at hconflict
    rw [h]
    unfold absorb mark
    simp only [htrack, Option.any_some, hconflict, hprev]

/-- Any other call leaves the log alone. -/
theorem conflicts_incorporate_of_not {c : Crypto} {eng : BeliefEngine F} {e : Evidence}
    (h : ¬ Flags c eng e) : (eng.incorporate c e).1.conflicts = eng.conflicts := by
  rcases incorporate_counted_cases c eng e with ⟨_, _, hconflicts, _⟩ | ⟨state, hstate, hstep⟩
  · exact hconflicts
  · rw [hstep]
    -- The call counts, so it is the check against the track that failed.
    have hconflict : (eng.tracks[e.subject]?.any fun track =>
        track.conflicts (measurements state)) = false := by
      by_contra htrue
      rw [Bool.not_eq_false, Option.any_eq_true] at htrue
      rcases htrue with ⟨track, htrack, hd⟩
      exact h ⟨by rw [hstep], track, state, htrack, hstate,
        (GaussianBelief.conflicts_eq_true_iff track _).mp hd⟩
    unfold absorb mark
    simp only [hconflict]

/-- A conflict is not lost: a subject with a track has a previous evidence. -/
theorem exists_lastCounted_of_flags {c : Crypto} {run : List Evidence} {e : Evidence}
    (h : Flags c (folded F c run) e) : ∃ prev, lastCounted F c run e.subject = some prev := by
  rcases h with ⟨_, track, _, htrack, _⟩
  have hmem : e.subject ∈ (folded F c run).tracks := by
    rw [Std.ExtTreeMap.mem_iff_isSome_getElem?, htrack, Option.isSome_some]
  rw [mem_tracks_folded_iff, Std.ExtTreeMap.mem_iff_isSome_getElem?, lastEvidence_folded] at hmem
  exact Option.isSome_iff_exists.mp hmem

/-- What a call appends after a run. -/
theorem conflicts_folded_of_flags {c : Crypto} {run : List Evidence} {e : Evidence}
    (h : Flags c (folded F c run) e) :
    ∃ prev, lastCounted F c run e.subject = some prev ∧
      ((folded F c run).incorporate c e).1.conflicts =
        (folded F c run).conflicts ++ [(e.subject, prev, e)] := by
  rcases exists_lastCounted_of_flags h with ⟨prev, hprev⟩
  exact ⟨prev, hprev, conflicts_incorporate_of_flags h (by rw [lastEvidence_folded, hprev])⟩

/-- A subject whose evidence is never flagged has no conflict. -/
theorem not_mem_conflicts_of_not_flags {c : Crypto} {run : List Evidence} {s : SubjectId}
    (h : ∀ pre e post, run = pre ++ e :: post → e.subject = s → ¬ Flags c (folded F c pre) e) :
    ∀ entry ∈ (folded F c run).conflicts, entry.1 ≠ s := by
  induction run using List.reverseRecOn with
  | nil => exact fun entry hentry => absurd hentry List.not_mem_nil
  | append_singleton run e ih =>
      have hrest := ih fun pre x post hrun => h pre x (post ++ [e]) (by
        rw [hrun, List.append_assoc, List.cons_append])
      rw [folded_concat]
      by_cases hflags : Flags c (folded F c run) e
      · rcases conflicts_folded_of_flags hflags with ⟨prev, _, hstep⟩
        rw [hstep]
        intro entry hentry
        rcases List.mem_append.mp hentry with hentry | hentry
        · exact hrest entry hentry
        · -- What is flagged is about another subject.
          rw [List.mem_singleton.mp hentry]
          exact fun hs => h run e [] rfl hs hflags
      · rw [conflicts_incorporate_of_not hflags]
        exact hrest

/-- The log only grows, and by appending. -/
theorem conflicts_prefix_folded (c : Crypto) (run later : List Evidence) :
    (folded F c run).conflicts <+: (folded F c (run ++ later)).conflicts := by
  induction later using List.reverseRecOn with
  | nil => rw [List.append_nil]
  | append_singleton later e ih =>
      rw [← List.append_assoc, folded_concat]
      refine ih.trans ?_
      by_cases h : Flags c (folded F c (run ++ later)) e
      · rcases conflicts_folded_of_flags h with ⟨prev, _, hstep⟩
        rw [hstep]
        exact List.prefix_append _ _
      · rw [conflicts_incorporate_of_not h]

/-- The conflict log is exact. After every run tracks and previous evidence have
    the same keys, and the log only grows by appending. The next call appends one
    entry when it counts and its evidence disagrees with the track as it was, and
    nothing otherwise; the entry pairs the evidence with that of the latest call
    that counted for the subject. -/
theorem conflicts_exact (F : Type) [F64 F] (c : Crypto) (run : List Evidence) (e : Evidence) :
    (∀ s, s ∈ (folded F c run).tracks ↔ s ∈ (folded F c run).lastEvidence) ∧
      (∀ later, (folded F c run).conflicts <+: (folded F c (run ++ later)).conflicts) ∧
      (Flags c (folded F c run) e → ∃ prev, lastCounted F c run e.subject = some prev ∧
        ((folded F c run).incorporate c e).1.conflicts =
          (folded F c run).conflicts ++ [(e.subject, prev, e)]) ∧
      (¬ Flags c (folded F c run) e →
        ((folded F c run).incorporate c e).1.conflicts = (folded F c run).conflicts) :=
  ⟨mem_tracks_folded_iff c run, conflicts_prefix_folded c run, conflicts_folded_of_flags,
    conflicts_incorporate_of_not⟩

end BeliefEngine

end Seven
