import Seven.Mql.Pipeline
import Seven.Mql.Quic

/-!
# Routes of Evidence

Evidence comes to a node over any route: it is forwarded by some nodes, projected
onto a message and read back by others, and on the way the message may be framed
for QUIC and taken from the front of a buffer. A route is any sequence of these.

A copy is its origin but for the receipt time and the custody chain, and the chain
is the forwards of the route, in order (`Route.eq_origin`). So it verifies as the
origin does, and belief cannot tell which route it came: nodes that incorporated
copies of the same origins hold the same tracks (`routes_converge`), and each origin
counted once.

## Main definitions

* `Handed`: One operation on a copy, with the hops that it adds.
* `Route`: What a copy went through.
* `Delivery`: Origin evidence with a copy of it.

## Theorems

* `Route.eq_origin`: What a route leaves of the origin.
* `route_custody`: Copies verify, and their chain is the route.
* `countedPairs_perm_of_sound`: What sound evidence counts for.
* `routes_converge`: Belief does not depend on routes.
-/

namespace Seven

namespace Mql

/-- One operation on a copy: what it makes of it, and the hops that it adds. -/
inductive Handed (t : TheMql) (j : Quic.Json Message) :
    Evidence → List ProvenanceHop → Evidence → Prop where
  | forward (e : Evidence) (hop : ProvenanceHop) :
      Handed t j e [hop] (e.forward hop.node hop.receivedAtNanos)
  /-- Projected onto a message and read back. -/
  | project {e e' : Evidence} {domain : String} {m : Message} {original : SubjectId}
      (hm : toMessage t e domain = .ok m) (hread : fromMessage t m original = .ok e') :
      Handed t j e [] e'
  /-- The message was framed, and taken from the front of what arrived. -/
  | frame {e e' : Evidence} {domain : String} {m m' : Message} {original : SubjectId}
      {cfg : Quic.QuicAdapterConfig} {bytes more : Bytes} {n : Nat}
      (hcfg : cfg.maxMessageBytes.toNat < 2 ^ 32) (hm : toMessage t e domain = .ok m)
      (hframe : Quic.encodeFrame j cfg m = .ok bytes)
      (hdecode : Quic.decodeFrame j cfg (bytes ++ more) = .ok (some (m', n)))
      (hread : fromMessage t m' original = .ok e') :
      Handed t j e [] e'

/-- What a copy went through, with the hops that were added on the way. -/
inductive Route (t : TheMql) (j : Quic.Json Message) :
    Evidence → List ProvenanceHop → Evidence → Prop where
  | origin (e : Evidence) : Route t j e [] e
  | step {e e' e'' : Evidence} {hops hops' : List ProvenanceHop} (h : Route t j e hops e')
      (hstep : Handed t j e' hops' e'') : Route t j e (hops ++ hops') e''

/-- The payload decodes to a state of the time that the evidence says. -/
def Timed (e : Evidence) : Prop :=
  ∃ state, CanonicalState.fromCanonicalBytes e.payload = .ok state ∧
    state.observedAtNanos = e.observedAtNanos

section Route

variable {t : TheMql} {j : Quic.Json Message}

/-- One operation leaves everything but the receipt time and the chain. -/
theorem Handed.eq_before (ht : t.Faithful) (hj : j.RoundTrips) {e e' : Evidence}
    {hops : List ProvenanceHop} (htimed : Timed e) (h : Handed t j e hops e') :
    e' = { e with
      receivedAtNanos := e'.receivedAtNanos
      provenance := ⟨e.provenance.hops ++ hops⟩ } := by
  rcases htimed with ⟨state, hstate, htime⟩
  have hback {domain : String} {m : Message} {original : SubjectId}
      (hm : toMessage t e domain = .ok m) (hread : fromMessage t m original = .ok e') :
      e' = { e with receivedAtNanos := 0 } := by
    rw [fromMessage_of_toMessage ht hstate htime hm original] at hread
    exact (Outcome.ok.inj hread).symm
  cases h with
  | forward hop => rfl
  | project hm hread => rw [hback hm hread, List.append_nil]
  | frame hcfg hm hframe hdecode hread =>
      -- What is taken is the message that was framed.
      have hwhole := (Quic.incremental_decodeFrame j _).decode_append
        (Quic.decodeFrame_encodeFrame hj hcfg hframe)
      rw [hwhole] at hdecode
      rcases Prod.mk.inj (Option.some.inj (Except.ok.inj hdecode)) with ⟨rfl, _⟩
      rw [hback hm hread, List.append_nil]

/-- A copy is its origin but for the receipt time, and for the chain, which got the
    hops of the route in order. -/
theorem Route.eq_origin (ht : t.Faithful) (hj : j.RoundTrips) {e e' : Evidence}
    {hops : List ProvenanceHop} (htimed : Timed e) (h : Route t j e hops e') :
    e' = { e with
      receivedAtNanos := e'.receivedAtNanos
      provenance := ⟨e.provenance.hops ++ hops⟩ } := by
  induction h with
  | origin => rw [List.append_nil]
  | @step e' e'' hops hops' h hstep ih =>
      -- The copy so far decodes as its origin does.
      have hmid : Timed e' := by
        rw [ih]
        exact htimed
      have hlast := hstep.eq_before ht hj hmid
      rw [ih] at hlast
      rw [hlast, List.append_assoc]

theorem timed_of_originated {c : Crypto} {e : Evidence} (h : e.Originated c) : Timed e :=
  h.state

/-- Whatever the route, a copy of origin evidence verifies, its custody chain is the
    forwards of the route in order, and every other field but the receipt time is as
    the source made it. -/
theorem route_custody (c : Crypto) (hc : c.Correct) (t : TheMql) (ht : t.Faithful)
    (j : Quic.Json Message) (hj : j.RoundTrips) (e e' : Evidence) (horigin : e.Originated c)
    (hops : List ProvenanceHop) (hroute : Route t j e hops e') :
    e'.verify c = .ok () ∧ e'.provenance.hops = hops ∧
      e' = { e with
        receivedAtNanos := e'.receivedAtNanos
        provenance := e'.provenance } := by
  have heq := hroute.eq_origin ht hj (timed_of_originated horigin)
  rw [horigin.hops, List.nil_append] at heq
  have hchain : e'.provenance = ⟨hops⟩ := by rw [heq]
  refine ⟨?_, by rw [hchain], by rw [hchain]; exact heq⟩
  rw [heq]
  exact (Evidence.verify_congr c rfl rfl rfl rfl).trans (horigin.verify hc)

end Route

/-- Origin evidence with a copy of it that came over some route. -/
structure Delivery (c : Crypto) (t : TheMql) (j : Quic.Json Message) where
  evidence : Evidence
  copy : Evidence
  hops : List ProvenanceHop
  originated : evidence.Originated c
  route : Route t j evidence hops copy

/-- Every evidence of the run verifies, decodes and carries the hash of its payload. -/
def Sound (c : Crypto) (run : List Evidence) : Prop :=
  ∀ e ∈ run, e.verify c = .ok () ∧ e.Decodes ∧ e.observationId = ⟨c.blake3 e.payload⟩

section Sound

variable {c : Crypto} {run : List Evidence}

theorem Sound.hashedIds (h : Sound c run) : HashedIds c run :=
  fun e he => (h e he).2.2

theorem Sound.observed_iff (h : Sound c run) (s : SubjectId) (p : Bytes) :
    Observed c run s p ↔ (s, p) ∈ run.map fun e => (e.subject, e.payload) := by
  unfold Observed
  rw [List.mem_map]
  refine exists_congr fun e => and_congr_right fun he => ?_
  rw [Prod.mk.injEq]
  exact and_iff_right (h e he).1

/-- Sound evidence counts once for every subject and payload. -/
theorem countedPairs_perm_of_sound (K : Type) [F64 K] (h : Sound c run)
    (hfree : CollisionFree c run) :
    (BeliefEngine.countedPairs K c run).Perm
      (run.map fun e => (e.subject, e.payload)).dedup := by
  rw [List.perm_ext_iff_of_nodup (BeliefEngine.nodup_countedPairs h.hashedIds)
    (List.nodup_dedup _)]
  intro ⟨subject, p⟩
  rw [List.mem_dedup, BeliefEngine.mem_countedPairs_iff,
    BeliefEngine.mem_counted_iff h.hashedIds hfree, h.observed_iff]
  refine and_iff_left_of_imp fun hmem => ?_
  rcases List.mem_map.mp hmem with ⟨e, he, hpair⟩
  rw [← (Prod.mk.inj hpair).2]
  exact (h e he).2.1

theorem countP_answers_of_sound (K : Type) [F64 K] (h : Sound c run)
    (hfree : CollisionFree c run) :
    (BeliefEngine.answers K c run).countP BeliefEngine.isCounted =
      (run.map fun e => (e.subject, e.payload)).dedup.length := by
  rw [List.countP_eq_length_filter, ← (countedPairs_perm_of_sound K h hfree).length_eq,
    BeliefEngine.countedPairs, List.length_map]

end Sound

section Routes

variable {c : Crypto} {t : TheMql} {j : Quic.Json Message}

theorem Delivery.copy_eq (ht : t.Faithful) (hj : j.RoundTrips) (d : Delivery c t j) :
    d.copy = { d.evidence with
      receivedAtNanos := d.copy.receivedAtNanos
      provenance := ⟨d.evidence.provenance.hops ++ d.hops⟩ } :=
  d.route.eq_origin ht hj (timed_of_originated d.originated)

/-- What belief is about is the same of a copy. -/
theorem map_pair_copy (ht : t.Faithful) (hj : j.RoundTrips) (ds : List (Delivery c t j)) :
    (ds.map Delivery.copy).map (fun e => (e.subject, e.payload)) =
      (ds.map Delivery.evidence).map fun e => (e.subject, e.payload) := by
  rw [List.map_map, List.map_map]
  refine List.map_congr_left fun d _ => ?_
  rw [Function.comp_apply, Function.comp_apply, d.copy_eq ht hj]

theorem sound_copies (hc : c.Correct) (ht : t.Faithful) (hj : j.RoundTrips)
    (ds : List (Delivery c t j)) : Sound c (ds.map Delivery.copy) := by
  intro e he
  rcases List.mem_map.mp he with ⟨d, _, rfl⟩
  rcases d.originated.state with ⟨state, hstate, _⟩
  rw [d.copy_eq ht hj]
  exact ⟨(Evidence.verify_congr c rfl rfl rfl rfl).trans (d.originated.verify hc),
    ⟨state, hstate⟩, d.originated.observationId⟩

theorem collisionFree_copies (ht : t.Faithful) (hj : j.RoundTrips) {ds : List (Delivery c t j)}
    (hfree : CollisionFree c (ds.map Delivery.evidence)) :
    CollisionFree c (ds.map Delivery.copy) := by
  refine Set.InjOn.mono ?_ hfree
  intro p hp
  rcases hp with ⟨e, he, hpayload⟩
  rcases List.mem_map.mp he with ⟨d, hd, rfl⟩
  rw [d.copy_eq ht hj] at hpayload
  exact ⟨d.evidence, List.mem_map_of_mem hd, hpayload⟩

/-- Belief does not depend on routes. Two nodes that incorporate copies of origin
    evidence, over any routes, in any order and any number, answer no call with an
    error and count once for each subject and payload; and when the origins are about
    the same subjects and payloads, they hold the same tracks. -/
theorem routes_converge {K : Type} [Field K] [LinearOrder K] [IsStrictOrderedRing K]
    [SquareRoot K] (hc : c.Correct) (ht : t.Faithful) (hj : j.RoundTrips)
    (ds ds' : List (Delivery c t j)) (hfree : CollisionFree c (ds.map Delivery.evidence))
    (hfree' : CollisionFree c (ds'.map Delivery.evidence))
    (hsame : ∀ pair, pair ∈ (ds.map Delivery.evidence).map (fun e => (e.subject, e.payload)) ↔
      pair ∈ (ds'.map Delivery.evidence).map fun e => (e.subject, e.payload)) :
    (∀ call ∈ BeliefEngine.answers K c (ds.map Delivery.copy), ∃ included, call.2 = .ok included) ∧
      (BeliefEngine.answers K c (ds.map Delivery.copy)).countP BeliefEngine.isCounted =
        ((ds.map Delivery.evidence).map fun e => (e.subject, e.payload)).dedup.length ∧
      (BeliefEngine.folded K c (ds.map Delivery.copy)).tracks =
        (BeliefEngine.folded K c (ds'.map Delivery.copy)).tracks := by
  have hsound := sound_copies hc ht hj ds
  have hsound' := sound_copies hc ht hj ds'
  have hcopies := collisionFree_copies ht hj hfree
  refine ⟨?_, ?_, ?_⟩
  · intro call hcall
    refine BeliefEngine.exists_ok_of_mem_answers ?_ hcall
    intro e he
    exact ⟨(hsound e he).1, (hsound e he).2.1⟩
  · rw [countP_answers_of_sound K hsound hcopies, map_pair_copy ht hj]
  · refine BeliefEngine.tracks_eq_of_observed hsound.hashedIds hsound'.hashedIds hcopies
      (collisionFree_copies ht hj hfree') fun s p => ?_
    rw [hsound.observed_iff, hsound'.observed_iff, map_pair_copy ht hj, map_pair_copy ht hj]
    exact hsame (s, p)

/-- A codec that writes no message; the routes below are not framed. -/
def unframed : Quic.Json Message where
  toVec _ := .error "not framed"
  fromSlice _ := .error "not framed"

theorem roundTrips_unframed : unframed.RoundTrips := by
  intro msg body h
  exact absurd h (by simp only [unframed, reduceCtorEq, not_false_eq_true])

/-- Every origin evidence with a subject of one segment can be forwarded, projected
    and read back. -/
theorem exists_route {e : Evidence} (h : e.Originated naming) (hs : e.subject = ⟨"ac1"⟩)
    (hop : ProvenanceHop) :
    ∃ e', Route verbatim unframed e [hop] e' ∧ e'.receivedAtNanos = 0 := by
  rcases h.state with ⟨state, hstate, htime⟩
  have hforwarded : (e.forward hop.node hop.receivedAtNanos).subject.name = "ac1" := by
    rw [Evidence.forward, hs]
  rcases toMessage_verbatim (e.forward hop.node hop.receivedAtNanos) "aviation" (by decide)
    (by decide) (by rw [hforwarded]; decide) (by rw [hforwarded]; decide) with ⟨m, hm⟩
  have hread := fromMessage_of_toMessage verbatim_faithful
    (e := e.forward hop.node hop.receivedAtNanos) hstate htime hm ⟨"ac1"⟩
  exact ⟨_, .step (.step (.origin e) (.forward e hop)) (.project hm hread), rfl⟩

theorem exists_minted (time : Int64) : ∃ e : Evidence, e.Originated naming ∧
    e.subject = ⟨"ac1"⟩ :=
  ⟨_, ⟨Vector.replicate 32 7, ⟨"ac1"⟩, .atRest time, 0, 0, Evidence.originate_eq _ _ _ _ _ _⟩, rfl⟩

/-- Evidence that a relay forwarded and a message carried. -/
theorem route_custody_relayed :
    ∃ e e' : Evidence, e.Originated naming ∧ e'.verify naming = .ok () ∧
      e'.provenance.hops = [⟨⟨"relay"⟩, 6⟩] := by
  rcases exists_minted 5 with ⟨e, horigin, hs⟩
  rcases exists_route horigin hs ⟨⟨"relay"⟩, 6⟩ with ⟨e', hroute, _⟩
  have hcustody := route_custody naming naming_correct verbatim verbatim_faithful unframed
    roundTrips_unframed e e' horigin [⟨⟨"relay"⟩, 6⟩] hroute
  exact ⟨e, e', horigin, hcustody.1, hcustody.2.1⟩

/-- One node got the evidence from its source, another over a relay and twice. -/
theorem routes_converge_relayed :
    ∃ near far : Delivery naming verbatim unframed, far.hops = [⟨⟨"relay"⟩, 6⟩] ∧
      (BeliefEngine.folded Rat naming [near.copy]).tracks =
        (BeliefEngine.folded Rat naming [far.copy, far.copy]).tracks := by
  rcases exists_minted 5 with ⟨e, horigin, hs⟩
  rcases exists_route horigin hs ⟨⟨"relay"⟩, 6⟩ with ⟨e', hroute, _⟩
  let near : Delivery naming verbatim unframed := ⟨e, e, [], horigin, .origin e⟩
  let far : Delivery naming verbatim unframed := ⟨e, e', _, horigin, hroute⟩
  have hfree (ds : List (Delivery naming verbatim unframed)) (hds : ∀ d ∈ ds, d.evidence = e) :
      CollisionFree naming (ds.map Delivery.evidence) := by
    intro p hp q hq _
    rcases hp with ⟨x, hx, rfl⟩
    rcases hq with ⟨y, hy, rfl⟩
    rcases List.mem_map.mp hx with ⟨d, hd, rfl⟩
    rcases List.mem_map.mp hy with ⟨d', hd', rfl⟩
    rw [hds d hd, hds d' hd']
  have hconverge := routes_converge (K := Rat) naming_correct verbatim_faithful roundTrips_unframed
    [near] [far, far] (hfree _ (by simp only [List.mem_singleton, forall_eq, near]))
    (hfree _ (by simp only [List.mem_cons, List.not_mem_nil, or_false, or_self, forall_eq, far]))
    (by simp only [List.map_cons, List.map_nil, List.mem_cons, List.not_mem_nil, or_false, or_self,
      near, far, implies_true])
  exact ⟨near, far, rfl, hconverge.2.2⟩

end Routes

end Mql

end Seven
