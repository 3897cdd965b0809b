import Seven.Belief.Gate

/-!
# Belief Convergence

Two nodes that received the same observations hold the same tracks, in whatever
order and however often the copies arrived, as long as the observation id of
every copy is the hash of its payload.

The proof goes through the list of payloads a run counted for a subject. Which
payloads are on that list depends only on the verified evidence of the run as a
set (`mem_counted_iff`), and each is on it once (`nodup_counted`), so the lists
of the two runs are permutations of each other. A track is the prior updated by
the list (`tracks_folded`), and each of its dimensions is a Gaussian fold, in
which order does not matter.

Arithmetic is exact here. Floating-point addition does not associate, so the
statement is false of the machine's numbers bit for bit.

## Main definitions

* `counted`: The payloads a run counted for a subject, in order.
* `countedPairs`: The same for all subjects.
* `trackOf`: The track that a list of states makes.

## Theorems

* `mem_counted_iff`: Which payloads are counted.
* `nodup_counted`: None is counted twice.
* `counted_perm`: The same observations count the same payloads.
* `nodup_countedPairs`: No subject counts one payload twice.
* `tracks_folded`: A track is the prior updated by what was counted.
* `foldl_fuse_perm`: The order of the updates does not matter.
* `tracks_eq_of_observed`, `tracks_converge`: The same observations make the same
  tracks.
-/

namespace Seven

namespace GaussianBelief

variable {K : Type} [Field K] [LinearOrder K] [SquareRoot K]

theorem dim_foldl_fuse (zs : List (Vector K 6)) (track : GaussianBelief K) (d : Fin 6) :
    (zs.foldl fuse track).dim d =
      Fusion.fuse (track.dim d) (zs.map fun z => (z.get d, noise.get d)) := by
  induction zs generalizing track with
  | nil => rfl
  | cons z zs ih => rw [List.foldl_cons, ih, dim_fuse, List.map_cons, Fusion.fuse_cons]

omit [Field K] [LinearOrder K] [SquareRoot K] in
theorem independentUpdates_foldl_fuse [F64 K] (zs : List (Vector K 6)) (track : GaussianBelief K) :
    (zs.foldl fuse track).independentUpdates =
      track.independentUpdates + 6 * UInt64.ofNat zs.length := by
  induction zs generalizing track with
  | nil => exact (UInt64.add_zero _).symm
  | cons z zs ih =>
      rw [List.foldl_cons, ih, independentUpdates_fuse, List.length_cons, UInt64.ofNat_add,
        UInt64.mul_add, UInt64.add_assoc, UInt64.add_comm 6]
      rfl

/-- Three position noises, then three velocity noises. -/
theorem get_noise (d : Fin 6) :
    (noise : Vector K 6).get d = ((if d.val < 3 then 25 else 1 : Int) : K) := by
  rcases d with ⟨i, hi⟩
  interval_cases i <;> rfl

theorem noise_pos [IsStrictOrderedRing K] (d : Fin 6) : (0 : K) < (noise : Vector K 6).get d := by
  rw [get_noise, Int.cast_pos]
  split <;> decide

theorem dim_uninformative (d : Fin 6) :
    (uninformative : GaussianBelief K).dim d = ⟨((0 : Int) : K), ((1000000000 : Int) : K)⟩ := by
  have hget (x : K) : (Vector.replicate 6 x).get d = x := by
    change (Vector.replicate 6 x)[(d : Nat)] = x
    rw [Vector.getElem_replicate]
  exact Fusion.Gaussian.ext (hget _) (hget _)

theorem var_uninformative_pos [IsStrictOrderedRing K] (d : Fin 6) :
    0 < ((uninformative : GaussianBelief K).dim d).var := by
  rw [dim_uninformative, Int.cast_pos]
  decide

/-- The order of the updates of a track does not matter. -/
theorem foldl_fuse_perm [IsStrictOrderedRing K] {zs zs' : List (Vector K 6)}
    (hperm : zs.Perm zs') :
    zs.foldl fuse (uninformative : GaussianBelief K) = zs'.foldl fuse uninformative := by
  -- Six Gaussian folds and one count.
  refine ext_dim (fun d => ?_) ?_
  · rw [dim_foldl_fuse, dim_foldl_fuse]
    refine Fusion.fuse_perm (var_uninformative_pos d) ?_ (hperm.map _)
    intro z hz
    rcases List.mem_map.mp hz with ⟨m, _, rfl⟩
    exact noise_pos d
  · rw [independentUpdates_foldl_fuse, independentUpdates_foldl_fuse, hperm.length_eq]

end GaussianBelief

/-- Every observation id is the hash of the payload beside it. -/
def HashedIds (c : Crypto) (run : List Evidence) : Prop :=
  ∀ e ∈ run, e.observationId = ⟨c.blake3 e.payload⟩

/-- The run has verified evidence of this subject with this payload. -/
def Observed (c : Crypto) (run : List Evidence) (s : SubjectId) (p : Bytes) : Prop :=
  ∃ e ∈ run, e.verify c = .ok () ∧ e.subject = s ∧ e.payload = p

namespace BeliefEngine

section Counted

variable (F : Type) [F64 F]

/-- The payload a call counted for a subject. -/
def countedBy (s : SubjectId) (call : Evidence × Except BeliefError Bool) : Option Bytes :=
  if call.1.subject = s ∧ call.2 = .ok true then some call.1.payload else none

/-- The payloads a run counted for a subject, in order. -/
def counted (c : Crypto) (run : List Evidence) (s : SubjectId) : List Bytes :=
  (answers F c run).filterMap (countedBy s)

/-- The track that a list of states makes; there is none without a state. -/
def trackOf (states : List CanonicalState) : Option (GaussianBelief F) :=
  if states = [] then none
  else some ((states.map measurements).foldl GaussianBelief.fuse .uninformative)

variable {F}

/-- A counted call adds its payload. -/
theorem counted_concat_of_counts {c : Crypto} {run : List Evidence} {e : Evidence} {s : SubjectId}
    (h : e.subject = s ∧ Introduces c run e ∧ e.Decodes) :
    counted F c (run ++ [e]) s = counted F c run s ++ [e.payload] := by
  have htrue : (incorporate c (folded F c run) e).2 = .ok true :=
    (answer_true_iff c run e).mpr h.2
  have hby : countedBy s (e, (incorporate c (folded F c run) e).2) = some e.payload :=
    if_pos ⟨h.1, htrue⟩
  rw [folded] at hby
  rw [counted, answers, Machine.trace_concat, List.filterMap_append, counted, answers,
    List.filterMap_cons_some hby, List.filterMap_nil]

/-- Any other call adds nothing. -/
theorem counted_concat_of_not {c : Crypto} {run : List Evidence} {e : Evidence} {s : SubjectId}
    (h : ¬ (e.subject = s ∧ Introduces c run e ∧ e.Decodes)) :
    counted F c (run ++ [e]) s = counted F c run s := by
  rw [← answer_true_iff (F := F)] at h
  have hby : countedBy s (e, (incorporate c (folded F c run) e).2) = none := if_neg h
  rw [folded] at hby
  rw [counted, answers, Machine.trace_concat, List.filterMap_append, counted, answers,
    List.filterMap_cons_none hby, List.filterMap_nil, List.append_nil]

theorem mem_counted_concat_iff {c : Crypto} {run : List Evidence} {e : Evidence} {s : SubjectId}
    {p : Bytes} :
    p ∈ counted F c (run ++ [e]) s ↔
      p ∈ counted F c run s ∨ (e.subject = s ∧ Introduces c run e ∧ e.Decodes) ∧ p = e.payload := by
  by_cases hcount : e.subject = s ∧ Introduces c run e ∧ e.Decodes
  · rw [counted_concat_of_counts hcount, List.mem_append, List.mem_singleton,
      and_iff_right hcount]
  · rw [counted_concat_of_not hcount, or_iff_left fun h => hcount h.1]

/-- What is counted is the payload of verified evidence, and decodes. -/
theorem observed_of_mem_counted {c : Crypto} {run : List Evidence} {s : SubjectId} {p : Bytes}
    (h : p ∈ counted F c run s) :
    Observed c run s p ∧ ∃ state, CanonicalState.fromCanonicalBytes p = .ok state := by
  induction run using List.reverseRecOn with
  | nil => exact absurd h List.not_mem_nil
  | append_singleton run e ih =>
      rcases mem_counted_concat_iff.mp h with h | ⟨⟨hs, hnew, hd⟩, rfl⟩
      · rcases ih h with ⟨⟨x, hx, hv⟩, hd⟩
        exact ⟨⟨x, List.mem_append_left _ hx, hv⟩, hd⟩
      · exact ⟨⟨e, List.mem_append_right _ (List.mem_singleton_self e), hnew.1, hs, rfl⟩, hd⟩

/-- The payloads counted for a subject are those of verified evidence that
    decode, when ids are hashes without collisions. -/
theorem mem_counted_iff {c : Crypto} {run : List Evidence} (hids : HashedIds c run)
    (hfree : CollisionFree c run) (s : SubjectId) (p : Bytes) :
    p ∈ counted F c run s ↔
      Observed c run s p ∧ ∃ state, CanonicalState.fromCanonicalBytes p = .ok state := by
  refine ⟨observed_of_mem_counted, ?_⟩
  induction run using List.reverseRecOn with
  | nil =>
      rintro ⟨⟨x, hx, _⟩, _⟩
      exact absurd hx List.not_mem_nil
  | append_singleton run e ih =>
      have hmem : ∀ x ∈ run, x ∈ run ++ [e] := fun x => List.mem_append_left [e]
      have hlast : e ∈ run ++ [e] := List.mem_append_right _ (List.mem_singleton_self e)
      have hrec := ih (fun x hx => hids x (hmem x hx)) (hfree.mono hmem)
      rintro ⟨⟨x, hx, hv, hs, hp⟩, hd⟩
      rw [mem_counted_concat_iff]
      rcases List.mem_append.mp hx with hx | hx
      · exact Or.inl (hrec ⟨⟨x, hx, hv, hs, hp⟩, hd⟩)
      · rw [List.mem_singleton.mp hx] at hv hs hp
        by_cases hcar : Carried c run e.subject e.observationId
        · -- The id was carried before, and with it the payload.
          rcases hcar with ⟨y, hy, hvy, hsy, hidy⟩
          rw [hids y (hmem y hy), hids e hlast, ObservationId.mk.injEq] at hidy
          have hpy : y.payload = e.payload := hfree.payload_eq (hmem y hy) hlast hidy
          exact Or.inl (hrec ⟨⟨y, hy, hvy, hsy.trans hs, hpy.trans hp⟩, hd⟩)
        · exact Or.inr ⟨⟨hs, ⟨hv, hcar⟩, by rwa [Evidence.Decodes, hp]⟩, hp.symm⟩

/-- No payload is counted twice, when ids are hashes without collisions. -/
theorem nodup_counted {c : Crypto} {run : List Evidence} (hids : HashedIds c run)
    (hfree : CollisionFree c run) (s : SubjectId) :
    (counted F c run s).Nodup := by
  induction run using List.reverseRecOn with
  | nil => exact List.nodup_nil
  | append_singleton run e ih =>
      have hmem : ∀ x ∈ run, x ∈ run ++ [e] := fun x => List.mem_append_left [e]
      have hlast : e ∈ run ++ [e] := List.mem_append_right _ (List.mem_singleton_self e)
      have hids' : HashedIds c run := fun x hx => hids x (hmem x hx)
      have hrec := ih hids' (hfree.mono hmem)
      by_cases hcount : e.subject = s ∧ Introduces c run e ∧ e.Decodes
      · rw [counted_concat_of_counts hcount]
        refine List.nodup_append.mpr ⟨hrec, List.nodup_singleton _, ?_⟩
        rintro p hp q hq rfl
        -- A payload counted before would have brought this id before.
        rcases (observed_of_mem_counted hp).1 with ⟨x, hx, hv, hs, hxp⟩
        refine hcount.2.1.2 ⟨x, hx, hv, hs.trans hcount.1.symm, ?_⟩
        rw [hids x (hmem x hx), hids e hlast, hxp, List.mem_singleton.mp hq]
      · rw [counted_concat_of_not hcount]
        exact hrec

/-- Runs with the same verified observations count the same payloads, up to
    order. -/
theorem counted_perm {c : Crypto} {run run' : List Evidence} (hids : HashedIds c run)
    (hids' : HashedIds c run') (hfree : CollisionFree c run) (hfree' : CollisionFree c run')
    {s : SubjectId} (hsame : ∀ p, Observed c run s p ↔ Observed c run' s p) :
    (counted F c run s).Perm (counted F c run' s) := by
  -- Lists without repetitions and with the same elements are permutations.
  rw [List.perm_ext_iff_of_nodup (nodup_counted hids hfree s) (nodup_counted hids' hfree' s)]
  intro p
  rw [mem_counted_iff hids hfree, mem_counted_iff hids' hfree', hsame]

/-- The call counted its evidence. -/
def isCounted (call : Evidence × Except BeliefError Bool) : Bool :=
  decide (call.2 = .ok true)

variable (F) in
/-- The subject and payload of every call that counted, in order. -/
def countedPairs (c : Crypto) (run : List Evidence) : List (SubjectId × Bytes) :=
  ((answers F c run).filter isCounted).map fun call => (call.1.subject, call.1.payload)

theorem mem_countedPairs_iff {c : Crypto} {run : List Evidence} {s : SubjectId} {p : Bytes} :
    (s, p) ∈ countedPairs F c run ↔ p ∈ counted F c run s := by
  unfold countedPairs counted countedBy isCounted
  simp only [List.mem_map, List.mem_filter, decide_eq_true_eq, Prod.mk.injEq, List.mem_filterMap,
    Option.ite_none_right_eq_some, Option.some.injEq]
  constructor
  · intro h
    rcases h with ⟨call, ⟨hmem, hans⟩, hs, hp⟩
    exact ⟨call, hmem, ⟨hs, hans⟩, hp⟩
  · intro h
    rcases h with ⟨call, hmem, ⟨hs, hans⟩, hp⟩
    exact ⟨call, ⟨hmem, hans⟩, hs, hp⟩

/-- No pair is counted twice when ids are hashes. -/
theorem nodup_countedPairs {c : Crypto} {run : List Evidence} (hids : HashedIds c run) :
    (countedPairs F c run).Nodup := by
  rw [List.nodup_iff_count_le_one]
  intro pair
  have hcount : (countedPairs F c run).count pair =
      (answers F c run).countP (counts pair.1 pair.2) := by
    unfold countedPairs
    rw [List.count, List.countP_map, List.countP_filter]
    refine List.countP_congr fun call _ => ?_
    rw [counts_eq_true_iff]
    simp only [Function.comp_apply, isCounted, Bool.and_eq_true, beq_iff_eq, Prod.ext_iff,
      decide_eq_true_eq, and_assoc]
  rw [hcount]
  refine (countedOnce_iff_answer F c run).mpr ?_ pair.1 pair.2
  intro m n hmn hs hp hm hn
  -- The second call brings the id of the first, which is the hash of one payload.
  rw [answer_eq_true_iff] at hm hn
  refine hn.1.2 ⟨run.get m, ?_, hm.1.1, hs, ?_⟩
  · exact List.mem_take_iff_getElem.mpr ⟨m, by omega, rfl⟩
  · rw [hids _ (List.get_mem run m), hids _ (List.get_mem run n), hp]

theorem trackOf_concat (states : List CanonicalState) (state : CanonicalState) :
    trackOf F (states ++ [state]) =
      some (((trackOf F states).getD .uninformative).fuse (measurements state)) := by
  have hne : states ++ [state] ≠ [] := by
    simp only [ne_eq, List.append_eq_nil_iff, List.cons_ne_self, and_false, not_false_eq_true]
  rw [trackOf, if_neg hne, List.map_append, List.foldl_append, trackOf]
  by_cases hnil : states = []
  · rw [if_pos hnil, hnil]
    rfl
  · rw [if_neg hnil]
    rfl

/-- The state a payload decodes to. -/
def decoded (p : Bytes) : Option CanonicalState :=
  (CanonicalState.fromCanonicalBytes p).toOption

/-- After any run a track is the prior updated by what was counted. -/
theorem tracks_folded (c : Crypto) (run : List Evidence) (s : SubjectId) :
    (folded F c run).tracks[s]? = trackOf F ((counted F c run s).filterMap decoded) := by
  induction run using List.reverseRecOn with
  | nil => rfl
  | append_singleton run e ih =>
      rw [folded_concat]
      have hcount := answer_true_iff (F := F) c run e
      -- Only a counted call touches the tracks; the mark of a failed one does not.
      rcases incorporate_counted_cases c (folded F c run) e with ⟨hne, htracks, _⟩ | ⟨state, hd, h⟩
      · rw [counted_concat_of_not fun hand => hne (hcount.mpr hand.2), htracks, ih]
      · rw [h] at hcount ⊢
        rw [tracks_absorb_mark, ih]
        by_cases hs : e.subject = s
        · have hdec : decoded e.payload = some state := by
            rw [decoded, hd]
            rfl
          rw [if_pos hs, counted_concat_of_counts ⟨hs, hcount.mp rfl⟩, List.filterMap_append,
            List.filterMap_cons_some hdec, List.filterMap_nil, trackOf_concat]
        · rw [if_neg hs, counted_concat_of_not fun hand => hs hand.1]

/-- Where something counted there is a track. -/
theorem exists_track_of_counted {c : Crypto} {run : List Evidence} {s : SubjectId}
    (h : counted F c run s ≠ []) : ∃ track, (folded F c run).tracks[s]? = some track := by
  rcases List.exists_mem_of_ne_nil _ h with ⟨p, hp⟩
  rcases (observed_of_mem_counted hp).2 with ⟨state, hstate⟩
  have hmem : state ∈ (counted F c run s).filterMap decoded := by
    refine List.mem_filterMap.mpr ⟨p, hp, ?_⟩
    rw [decoded, hstate]
    rfl
  rw [tracks_folded, trackOf, if_neg (List.ne_nil_of_mem hmem)]
  exact ⟨_, rfl⟩

/-- What counts does not depend on the arithmetic. -/
theorem counted_eq (F G : Type) [F64 F] [F64 G] (c : Crypto) (run : List Evidence)
    (s : SubjectId) : counted F c run s = counted G c run s := by
  induction run using List.reverseRecOn with
  | nil => rfl
  | append_singleton run e ih =>
      by_cases h : e.subject = s ∧ Introduces c run e ∧ e.Decodes
      · rw [counted_concat_of_counts h, counted_concat_of_counts h, ih]
      · rw [counted_concat_of_not h, counted_concat_of_not h, ih]

end Counted

theorem trackOf_perm {K : Type} [Field K] [LinearOrder K] [IsStrictOrderedRing K] [SquareRoot K]
    {states states' : List CanonicalState} (hperm : states.Perm states') :
    trackOf K states = trackOf K states' := by
  have hnil : states = [] ↔ states' = [] := by
    rw [← List.length_eq_zero_iff, ← List.length_eq_zero_iff, hperm.length_eq]
  rw [trackOf, trackOf]
  by_cases h : states = []
  · rw [if_pos h, if_pos (hnil.mp h)]
  · rw [if_neg h, if_neg (fun h' => h (hnil.mpr h')),
      GaussianBelief.foldl_fuse_perm (hperm.map measurements)]

/-- Runs with the same verified observations leave the same tracks. -/
theorem tracks_eq_of_observed {K : Type} [Field K] [LinearOrder K] [IsStrictOrderedRing K]
    [SquareRoot K] {c : Crypto} {run run' : List Evidence} (hids : HashedIds c run)
    (hids' : HashedIds c run') (hfree : CollisionFree c run) (hfree' : CollisionFree c run')
    (hsame : ∀ s p, Observed c run s p ↔ Observed c run' s p) :
    (folded K c run).tracks = (folded K c run').tracks := by
  refine Std.ExtTreeMap.ext_getElem? fun s => ?_
  have hstates := (counted_perm (F := K) hids hids' hfree hfree' (hsame s)).filterMap decoded
  rw [tracks_folded, tracks_folded]
  exact trackOf_perm hstates

/-- Runs with the same verified observations, all copies under the hash of their
    payload, leave the same tracks. -/
theorem tracks_converge {K : Type} [Field K] [LinearOrder K] [IsStrictOrderedRing K]
    [SquareRoot K] (c : Crypto) (run run' : List Evidence)
    (hids : HashedIds c run) (hids' : HashedIds c run')
    (hfree : CollisionFree c (run ++ run'))
    (hsame : ∀ s p, Observed c run s p ↔ Observed c run' s p) :
    (folded K c run).tracks = (folded K c run').tracks := by
  have hleft : CollisionFree c run := hfree.mono fun e => List.mem_append_left run'
  have hright : CollisionFree c run' := hfree.mono fun e => List.mem_append_right run
  exact tracks_eq_of_observed hids hids' hleft hright hsame

/-- Two observations and, on another node, a forwarded copy of the second, an
    unsigned copy of the first, and the first twice. -/
theorem tracks_converge_relayed :
    let e₁ := Evidence.minted (Vector.replicate 32 7) ⟨"ac"⟩ (.atRest 5)
    let e₂ := Evidence.minted (Vector.replicate 32 7) ⟨"ac"⟩ (.atRest 6)
    let c := Evidence.ledgerOf [e₁, e₂]
    (folded Rat c [e₁, e₂]).tracks =
      (folded Rat c
        [e₂.forwards [⟨⟨"relay"⟩, 6⟩], { e₁ with signature := none }, e₁, e₁]).tracks := by
  intro e₁ e₂ c
  have hv₁ : e₁.verify c = .ok () :=
    Evidence.verify_ledgerOf List.mem_cons_self rfl rfl
  have hv₂ : e₂.verify c = .ok () :=
    Evidence.verify_ledgerOf (List.mem_cons_of_mem _ List.mem_cons_self) rfl rfl
  have hvf : (e₂.forwards [⟨⟨"relay"⟩, 6⟩]).verify c = .ok () := by
    rw [Evidence.verify_forwards, hv₂]
  -- Stripped of its signature, the copy observes nothing.
  have hbad : ¬ ({ e₁ with signature := none } : Evidence).verify c = .ok () := by
    rw [Evidence.verify_eq_ok_iff]
    intro hexists
    rcases hexists with ⟨_, _, hsig, _⟩
    exact absurd hsig (by simp only [reduceCtorEq, not_false_eq_true])
  have hhash : c.blake3 e₁.payload ≠ c.blake3 e₂.payload := by decide
  have hpay : ∀ e ∈ [e₁, e₂] ++
      [e₂.forwards [⟨⟨"relay"⟩, 6⟩], { e₁ with signature := none }, e₁, e₁],
      e.observationId = ⟨c.blake3 e.payload⟩ ∧
        (e.payload = e₁.payload ∨ e.payload = e₂.payload) := by
    intro e he
    simp only [List.cons_append, List.nil_append, List.mem_cons, List.not_mem_nil, or_false] at he
    rcases he with rfl | rfl | rfl | rfl | rfl | rfl
    · exact ⟨rfl, Or.inl rfl⟩
    · exact ⟨rfl, Or.inr rfl⟩
    · exact ⟨rfl, Or.inr rfl⟩
    · exact ⟨rfl, Or.inl rfl⟩
    · exact ⟨rfl, Or.inl rfl⟩
    · exact ⟨rfl, Or.inl rfl⟩
  refine tracks_converge c _ _ (fun e he => (hpay e (List.mem_append_left _ he)).1)
    (fun e he => (hpay e (List.mem_append_right _ he)).1) ?_ ?_
  · rintro p ⟨x, hx, rfl⟩ q ⟨y, hy, rfl⟩ hxy
    rcases (hpay x hx).2 with h | h <;> rcases (hpay y hy).2 with h' | h'
    · rw [h, h']
    · exact absurd (by rw [← h, ← h', hxy]) hhash
    · exact absurd (by rw [← h, ← h', hxy]) hhash
    · rw [h, h']
  · intro s p
    simp only [Observed, List.mem_cons, List.not_mem_nil, or_false, or_and_right, exists_or,
      exists_eq_left, hv₁, hv₂, hvf, hbad, false_and, false_or, true_and]
    exact ⟨fun h => h.elim (fun h => Or.inr (Or.inl h)) Or.inl,
      fun h => h.elim Or.inr (fun h => h.elim Or.inl Or.inl)⟩

end BeliefEngine

end Seven
