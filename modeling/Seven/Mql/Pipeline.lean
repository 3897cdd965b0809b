import Seven.Belief.Convergence
import Seven.Mql.Projection
import Seven.Sim.Random

/-!
# The Pipeline

From origin evidence to belief through theMQL: evidence is projected onto a
message, a link loses or doubles the message, the receiver reads evidence from
what arrives and incorporates it.

Three facts that were proved apart meet here. A message is read back as the
evidence it was made from, up to the receipt time; the engine does not look at
the receipt time, so what arrives counts as if it had never travelled; and the
tracks depend on which evidence was seen and neither on its order nor on its
copies. So belief on the far side of the link is the one that the delivered
originals make when they are incorporated directly (`pipeline_transparent`).

## Main definitions

* `LossyMql`, `deliver`: The link.
* `Sending`: Origin evidence with its message.
* `arrivals`, `delivered`: What comes out of the link, and of which originals.
* `receive`: Reading and incorporating what arrives.

## Theorems

* `receive_map`: The receiver incorporates what the originals said.
* `mem_copies_iff`: What arrives is copies of what was delivered.
* `tracks_stamped`, `countP_answers_stamped`: What origin evidence makes of belief
  under any receipt times.
* `pipeline_transparent`: The link is transparent to belief.
-/

namespace Seven

namespace Mql

/-- In-memory lossy transport. Its probabilities are not checked. -/
structure LossyMql (F : Type) where
  seed : UInt64
  lossP : F
  dupP : F

/-- Deliver or drop a message. The message itself is never altered. -/
def LossyMql.deliver {σ F : Type} [F64 F] (g : Generator σ F) (link : LossyMql F) (msg : Message)
    (seq : UInt64) : List Message :=
  (g.fate (link.seed ^^^ seq) link.lossP link.dupP).copies msg

/-- Origin evidence, the message it was projected onto and the number it is sent
    under. -/
structure Sending (c : Crypto) (t : TheMql) (domain : String) where
  evidence : Evidence
  message : Message
  seq : UInt64
  originated : evidence.Originated c
  projected : toMessage t evidence domain = .ok message

namespace Sending

variable {c : Crypto} {t : TheMql} {domain : String}

/-- The evidence under another receipt time. -/
def stamped (s : Sending c t domain) (receivedAtNanos : Int64) : Evidence :=
  { s.evidence with receivedAtNanos }

/-- What the receiver makes of the message: it stamps the receipt itself. -/
def recovered (s : Sending c t domain) : Evidence :=
  s.stamped 0

/-- The subject and payload that belief is about. -/
def observation (s : Sending c t domain) : SubjectId × Bytes :=
  (s.evidence.subject, s.evidence.payload)

theorem fromMessage_eq (ht : t.Faithful) (s : Sending c t domain) (original : SubjectId) :
    fromMessage t s.message original = .ok s.recovered := by
  rcases s.originated.state with ⟨state, hstate, htime⟩
  exact fromMessage_of_toMessage ht hstate htime s.projected original

theorem verify_stamped (hc : c.Correct) (s : Sending c t domain) (receivedAtNanos : Int64) :
    (s.stamped receivedAtNanos).verify c = .ok () :=
  (Evidence.verify_congr c rfl rfl rfl rfl).trans (s.originated.verify hc)

theorem decodes_stamped (s : Sending c t domain) (receivedAtNanos : Int64) :
    (s.stamped receivedAtNanos).Decodes := by
  rcases s.originated.state with ⟨state, hstate, _⟩
  exact ⟨state, hstate⟩

/-- Origin evidence under any receipt times has hashes as its ids. -/
theorem hashedIds_stamped (sent : List (Sending c t domain)) (stamp : Sending c t domain → Int64) :
    HashedIds c (sent.map fun s => s.stamped (stamp s)) := by
  intro e he
  rcases List.mem_map.mp he with ⟨s, _, rfl⟩
  exact s.originated.observationId

/-- Receipt times say nothing about what was observed. -/
theorem observed_stamped_iff (hc : c.Correct) (sent : List (Sending c t domain))
    (stamp : Sending c t domain → Int64) (subject : SubjectId) (p : Bytes) :
    Observed c (sent.map fun s => s.stamped (stamp s)) subject p ↔
      (subject, p) ∈ sent.map observation := by
  unfold Observed
  rw [List.mem_map]
  constructor
  · intro h
    rcases h with ⟨e, he, _, hs, hp⟩
    rcases List.mem_map.mp he with ⟨s, hmem, rfl⟩
    exact ⟨s, hmem, Prod.ext hs hp⟩
  · intro h
    rcases h with ⟨s, hmem, hobs⟩
    rw [observation, Prod.mk.injEq] at hobs
    exact ⟨s.stamped (stamp s), List.mem_map_of_mem hmem, s.verify_stamped hc _, hobs.1, hobs.2⟩

theorem collisionFree_stamped {sends sent : List (Sending c t domain)}
    (hfree : CollisionFree c (sends.map evidence)) (hsub : ∀ s ∈ sent, s ∈ sends)
    (stamp : Sending c t domain → Int64) :
    CollisionFree c (sent.map fun s => s.stamped (stamp s)) := by
  refine Set.InjOn.mono ?_ hfree
  intro p hp
  rcases hp with ⟨e, he, hpayload⟩
  rcases List.mem_map.mp he with ⟨s, hmem, rfl⟩
  exact ⟨s.evidence, List.mem_map_of_mem (hsub s hmem), hpayload⟩

/-- Every pair is counted once, when origin evidence is incorporated under any
    receipt times. -/
theorem countedPairs_perm (K : Type) [F64 K] (hc : c.Correct) {sent : List (Sending c t domain)}
    (stamp : Sending c t domain → Int64)
    (hfree : CollisionFree c (sent.map fun s => s.stamped (stamp s))) :
    (BeliefEngine.countedPairs K c (sent.map fun s => s.stamped (stamp s))).Perm
      (sent.map observation).dedup := by
  have hids := hashedIds_stamped sent stamp
  rw [List.perm_ext_iff_of_nodup (BeliefEngine.nodup_countedPairs hids) (List.nodup_dedup _)]
  intro ⟨subject, p⟩
  rw [List.mem_dedup, BeliefEngine.mem_countedPairs_iff, BeliefEngine.mem_counted_iff hids hfree,
    observed_stamped_iff hc]
  refine and_iff_left_of_imp fun hmem => ?_
  -- What was observed decodes, being the payload of origin evidence.
  rcases List.mem_map.mp hmem with ⟨s, _, hobs⟩
  rw [observation, Prod.mk.injEq] at hobs
  rw [← hobs.2]
  exact s.decodes_stamped 0

/-- The tracks that origin evidence makes depend on which of it there is, and not
    on receipt times, order or copies. -/
theorem tracks_stamped {K : Type} [Field K] [LinearOrder K] [IsStrictOrderedRing K] [SquareRoot K]
    (hc : c.Correct) {sent sent' : List (Sending c t domain)}
    (hsame : ∀ s, s ∈ sent ↔ s ∈ sent') (stamp stamp' : Sending c t domain → Int64)
    (hfree : CollisionFree c (sent.map fun s => s.stamped (stamp s)))
    (hfree' : CollisionFree c (sent'.map fun s => s.stamped (stamp' s))) :
    (BeliefEngine.folded K c (sent.map fun s => s.stamped (stamp s))).tracks =
      (BeliefEngine.folded K c (sent'.map fun s => s.stamped (stamp' s))).tracks := by
  refine BeliefEngine.tracks_eq_of_observed (hashedIds_stamped sent stamp)
    (hashedIds_stamped sent' stamp') hfree hfree' fun subject p => ?_
  rw [observed_stamped_iff hc, observed_stamped_iff hc, List.mem_map, List.mem_map]
  exact exists_congr fun s => and_congr_left' (hsame s)

/-- The number of calls that count is the number of pairs observed. -/
theorem countP_answers_stamped (K : Type) [F64 K] (hc : c.Correct)
    {sent sent' : List (Sending c t domain)} (hsame : ∀ s, s ∈ sent ↔ s ∈ sent')
    (stamp : Sending c t domain → Int64)
    (hfree : CollisionFree c (sent.map fun s => s.stamped (stamp s))) :
    (BeliefEngine.answers K c (sent.map fun s => s.stamped (stamp s))).countP
        BeliefEngine.isCounted = (sent'.map observation).dedup.length := by
  have hdedup : (sent.map observation).dedup.Perm (sent'.map observation).dedup := by
    rw [List.perm_ext_iff_of_nodup (List.nodup_dedup _) (List.nodup_dedup _)]
    intro pair
    rw [List.mem_dedup, List.mem_dedup, List.mem_map, List.mem_map]
    exact exists_congr fun s => and_congr_left' (hsame s)
  rw [List.countP_eq_length_filter, ← hdedup.length_eq,
    ← (countedPairs_perm K hc stamp hfree).length_eq, BeliefEngine.countedPairs, List.length_map]

end Sending

section Link

variable {σ F : Type} [F64 F] {c : Crypto} {t : TheMql} {domain : String}

/-- What comes out of the link, message by message. -/
def arrivals (g : Generator σ F) (link : LossyMql F) (sends : List (Sending c t domain)) :
    List Message :=
  sends.flatMap fun s => link.deliver g s.message s.seq

/-- The originals that were delivered at least once. -/
def delivered (g : Generator σ F) (link : LossyMql F) (sends : List (Sending c t domain)) :
    List (Sending c t domain) :=
  sends.filter fun s => !(link.deliver g s.message s.seq).isEmpty

/-- What comes out of the link, as the originals. -/
def copies (g : Generator σ F) (link : LossyMql F) (sends : List (Sending c t domain)) :
    List (Sending c t domain) :=
  sends.flatMap fun s => (g.fate (link.seed ^^^ s.seq) link.lossP link.dupP).copies s

/-- Read what arrives and incorporate it: the engine at the end and the answers. -/
def receive (K : Type) [F64 K] (c : Crypto) (t : TheMql) (originals : Message → SubjectId) :
    BeliefEngine K → List Message →
      Outcome MqlError (BeliefEngine K × List (Except BeliefError Bool))
  | eng, [] => .ok (eng, [])
  | eng, msg :: msgs => do
      let recovered ← fromMessage t msg (originals msg)
      let (eng, included) := eng.incorporate c recovered
      let (eng, answers) ← receive K c t originals eng msgs
      return (eng, included :: answers)

/-- The receiver incorporates what the originals said. -/
theorem receive_map (K : Type) [F64 K] (ht : t.Faithful) (originals : Message → SubjectId)
    (eng : BeliefEngine K) (sends : List (Sending c t domain)) :
    receive K c t originals eng (sends.map Sending.message) =
      .ok (Machine.after (BeliefEngine.incorporate c) eng (sends.map Sending.recovered),
        (Machine.trace (BeliefEngine.incorporate c) eng (sends.map Sending.recovered)).map
          Prod.snd) := by
  induction sends generalizing eng with
  | nil => rfl
  | cons s sends ih =>
      rw [List.map_cons, receive]
      simp only [s.fromMessage_eq ht, Outcome.ok_bind, ih, Outcome.pure_eq]
      rfl

theorem map_copies (g : Generator σ F) (link : LossyMql F) (sends : List (Sending c t domain)) :
    (copies g link sends).map Sending.message = arrivals g link sends := by
  unfold copies arrivals LossyMql.deliver
  rw [List.map_flatMap]
  refine List.flatMap_congr fun s _ => ?_
  cases g.fate (link.seed ^^^ s.seq) link.lossP link.dupP with
  | lost => rfl
  | duplicated => rfl
  | delivered => rfl

/-- What arrives is copies of what was delivered. -/
theorem mem_copies_iff (g : Generator σ F) (link : LossyMql F) (sends : List (Sending c t domain))
    (s : Sending c t domain) : s ∈ copies g link sends ↔ s ∈ delivered g link sends := by
  have hcopies : ∀ s' : Sending c t domain,
      s ∈ (g.fate (link.seed ^^^ s'.seq) link.lossP link.dupP).copies s' ↔
        s = s' ∧ (link.deliver g s'.message s'.seq).isEmpty = false := by
    intro s'
    unfold LossyMql.deliver
    cases g.fate (link.seed ^^^ s'.seq) link.lossP link.dupP with
    | lost => exact iff_of_false List.not_mem_nil fun h => Bool.noConfusion h.2
    | duplicated => simp only [Fate.copies, List.mem_cons, List.not_mem_nil, or_false, or_self,
        List.isEmpty_cons, and_true]
    | delivered => simp only [Fate.copies, List.mem_singleton, List.isEmpty_cons, and_true]
  unfold copies delivered
  simp only [List.mem_flatMap, hcopies, List.mem_filter, Bool.not_eq_true']
  constructor
  · intro h
    rcases h with ⟨s', hs', rfl, hne⟩
    exact ⟨hs', hne⟩
  · intro h
    exact ⟨s, h.1, rfl, h.2⟩

/-- What arrives, in any order, are the messages of originals, and of all that
    were delivered. -/
theorem exists_sent_of_perm {g : Generator σ F} {link : LossyMql F}
    {sends : List (Sending c t domain)} {arrived : List Message}
    (hperm : arrived.Perm (arrivals g link sends)) :
    ∃ sent : List (Sending c t domain), arrived = sent.map Sending.message ∧
      ∀ s, s ∈ sent ↔ s ∈ delivered g link sends := by
  rw [← map_copies] at hperm
  have hcomp : Relation.Comp (· = List.map Sending.message ·) List.Perm arrived
      (copies g link sends) := by
    rw [List.eq_map_comp_perm]
    exact hperm
  rcases hcomp with ⟨sent, hmap, hsent⟩
  exact ⟨sent, hmap, fun s => hsent.mem_iff.trans (mem_copies_iff g link sends s)⟩

/-- The link is transparent to belief. Origin evidence that went through messages,
    loss, duplication and any reordering is read back and incorporated without an
    error, leaves the tracks that the delivered originals leave when they are
    incorporated directly, and counts once for each subject and payload that was
    delivered. -/
theorem pipeline_transparent {K : Type} [Field K] [LinearOrder K] [IsStrictOrderedRing K]
    [SquareRoot K] (hc : c.Correct) (ht : t.Faithful) (g : Generator σ F) (link : LossyMql F)
    (sends : List (Sending c t domain)) (hfree : CollisionFree c (sends.map Sending.evidence))
    (originals : Message → SubjectId) (arrived : List Message)
    (hperm : arrived.Perm (arrivals g link sends)) :
    ∃ eng answers, receive K c t originals .new arrived = .ok (eng, answers) ∧
      (∀ answer ∈ answers, ∃ included, answer = .ok included) ∧
      eng.tracks =
        (BeliefEngine.folded K c ((delivered g link sends).map Sending.evidence)).tracks ∧
      answers.countP (fun answer => decide (answer = .ok true)) =
        ((delivered g link sends).map Sending.observation).dedup.length := by
  rcases exists_sent_of_perm hperm with ⟨sent, rfl, hmem⟩
  have hsub : ∀ s ∈ delivered g link sends, s ∈ sends := fun s => List.mem_of_mem_filter
  have hfar := Sending.collisionFree_stamped hfree (fun s hs => hsub s ((hmem s).mp hs)) fun _ => 0
  have hnear := Sending.collisionFree_stamped hfree hsub fun s => s.evidence.receivedAtNanos
  -- What arrives is the evidence sent, in some order and with repetitions.
  refine ⟨_, _, receive_map K ht originals .new sent, ?_, ?_, ?_⟩
  · intro answer hanswer
    rcases List.mem_map.mp hanswer with ⟨call, hcall, rfl⟩
    refine BeliefEngine.exists_ok_of_mem_answers ?_ hcall
    intro e he
    rcases List.mem_map.mp he with ⟨s, _, rfl⟩
    exact ⟨s.verify_stamped hc 0, s.decodes_stamped 0⟩
  · exact Sending.tracks_stamped hc hmem (fun _ => 0) _ hfar hnear
  · rw [List.countP_map]
    exact Sending.countP_answers_stamped K hc hmem (fun _ => 0) hfar

end Link

/-- A signature that names the key and the evidence id, with nothing secret in
    it. -/
def nameTag (key : Bytes32) (m : Bytes) : Vector UInt8 64 :=
  key ++ Crypto.prefixHash (m.drop Evidence.signingDomain.length)

/-- The scheme of these signatures. -/
def naming : Crypto where
  blake3 := Crypto.prefixHash
  verifyingKey source := source
  sign := nameTag
  validKey _ := true
  verifies key m sig := decide (sig = nameTag key m)

theorem naming_correct : naming.Correct where
  validKey_verifyingKey _ := rfl
  verifies_sign source m := by simp only [naming, decide_true]

/-- Low draws for the seed 0 and high ones for the others. -/
def bySeed : Generator UInt64 Float :=
  { seedFromU64 := fun seed => seed
    unit := fun rng => (if rng = 0 then F64.ofInt 0 else F64.ofInt 3 / F64.ofInt 4, rng)
    upTo := fun rng n => (⟨0, Nat.succ_pos n⟩, rng) }

/-- Half of the messages are lost, the others doubled. -/
def halving : LossyMql Float :=
  { seed := 0
    lossP := F64.ofInt 1 / F64.ofInt 2
    dupP := F64.ofInt 1 }

/-- Two observations of one aircraft: the first message is lost and the second
    doubled. -/
theorem pipeline_transparent_halved :
    ∃ lost doubled : Sending naming verbatim "aviation",
      delivered bySeed halving [lost, doubled] = [doubled] ∧
      ∃ eng answers, receive Rat naming verbatim (fun _ => ⟨"ac1"⟩) .new
          [doubled.message, doubled.message] = .ok (eng, answers) ∧
        (∀ answer ∈ answers, ∃ included, answer = .ok included) ∧
        eng.tracks = (BeliefEngine.folded Rat naming [doubled.evidence]).tracks ∧
        answers.countP (fun answer => decide (answer = .ok true)) = 1 := by
  let key : SigningKey := Vector.replicate 32 7
  have hmint : ∀ time : Int64, ∃ e : Evidence, e.Originated naming ∧ e.subject = ⟨"ac1"⟩ ∧
      e.payload = Postcard.writeI64s (CanonicalState.atRest time).fields.toList :=
    fun time => ⟨_, ⟨key, ⟨"ac1"⟩, .atRest time, 0, 0, Evidence.originate_eq _ _ _ _ _ _⟩, rfl, rfl⟩
  have hsend : ∀ e : Evidence, e.subject = ⟨"ac1"⟩ →
      ∃ m, toMessage verbatim e "aviation" = .ok m :=
    fun e hs => toMessage_verbatim e "aviation" (by decide) (by decide) (by rw [hs]; decide)
      (by rw [hs]; decide)
  rcases hmint 5 with ⟨e₁, horigin₁, hs₁, hp₁⟩
  rcases hmint 6 with ⟨e₂, horigin₂, hs₂, hp₂⟩
  rcases hsend e₁ hs₁ with ⟨m₁, hm₁⟩
  rcases hsend e₂ hs₂ with ⟨m₂, hm₂⟩
  let lost : Sending naming verbatim "aviation" := ⟨e₁, m₁, 0, horigin₁, hm₁⟩
  let doubled : Sending naming verbatim "aviation" := ⟨e₂, m₂, 1, horigin₂, hm₂⟩
  have hnone : halving.deliver bySeed m₁ 0 = [] := by
    have hfate : bySeed.fate (halving.seed ^^^ 0) halving.lossP halving.dupP = .lost := by decide
    rw [LossyMql.deliver, hfate]
    rfl
  have htwo : halving.deliver bySeed m₂ 1 = [m₂, m₂] := by
    have hfate : bySeed.fate (halving.seed ^^^ 1) halving.lossP halving.dupP = .duplicated := by
      decide
    rw [LossyMql.deliver, hfate]
    rfl
  have hdelivered : delivered bySeed halving [lost, doubled] = [doubled] := by
    simp only [delivered, lost, doubled, List.filter_cons, hnone, htwo, List.isEmpty_nil,
      List.isEmpty_cons, Bool.not_true, Bool.not_false, Bool.false_eq_true, if_false, if_true,
      List.filter_nil]
  have harrivals : arrivals bySeed halving [lost, doubled] = [m₂, m₂] := by
    simp only [arrivals, lost, doubled, List.flatMap_cons, List.flatMap_nil, hnone, htwo,
      List.nil_append, List.append_nil]
  have hfree : CollisionFree naming ([lost, doubled].map Sending.evidence) := by
    refine .of_pairwise (List.pairwise_pair.mpr ?_)
    change naming.blake3 e₁.payload ≠ naming.blake3 e₂.payload
    rw [hp₁, hp₂]
    decide
  have htransparent := pipeline_transparent (K := Rat) naming_correct verbatim_faithful bySeed
    halving [lost, doubled] hfree (fun _ => ⟨"ac1"⟩) [m₂, m₂] (by rw [harrivals])
  rw [hdelivered] at htransparent
  exact ⟨lost, doubled, hdelivered, htransparent⟩

end Mql

end Seven
