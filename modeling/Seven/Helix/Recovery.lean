import Seven.Helix.History
import Seven.Mql.Lora

/-!
# Recovery of a Summarised Chain

A LoRa frame has no room for the custody chain: it carries the number of hops, and
the chain is recovered from the graph through the evidence id in the frame.

Here the two meet. When the evidence of a frame is stored once, and the hops that
are written for its id behind it are its own, then reading the chain of the id that
was decoded returns these hops and no others, whatever else is written before,
between and behind them, and the number in the frame is their number, up to what a
byte can say (`recover_chain`).

## Main definitions

* `hopsOf`: The hops that a history writes for an id.

## Theorems

* `relayed_of_stored_once`: What is left of hops behind a single evidence.
* `recover_chain`: The chain of a decoded frame.
-/

namespace Seven

namespace Helix

open PropertyGraph

variable {F : Type}

/-- The hop of a write, when it is for this id. -/
def Write.hopOf (id : EvidenceId) : Write F → Option ProvenanceHop
  | .hop id' h => if id' = id then some h else none
  | _ => none

/-- The hops that a history writes for an evidence id. -/
def hopsOf (id : EvidenceId) (ws : List (Write F)) : List ProvenanceHop :=
  ws.filterMap (Write.hopOf id)

section Relayed

variable (distinct : Bool) {id : EvidenceId}

/-- Where no evidence of the id is written, every hop is left as often as there are
    nodes already. -/
theorem relayed_of_none {ws : List (Write F)} (h : ∀ e ∈ evidences ws, e.evidenceId ≠ id)
    (stored : Nat) :
    relayed distinct id stored ws = (hopsOf id ws).flatMap fun hop =>
      List.replicate (if distinct then min 1 stored else stored) hop := by
  induction ws with
  | nil => rfl
  | cons w ws ih =>
      cases w with
      | evidence e =>
          have hcons : evidences (.evidence e :: ws) = e :: evidences ws := rfl
          rw [hcons, List.forall_mem_cons] at h
          rw [relayed, if_neg h.1, ih h.2]
          rfl
      | hop id' hop =>
          rw [relayed, ih h]
          by_cases hid : id' = id
          · have hhead : (Write.hop id' hop : Write F).hopOf id = some hop := if_pos hid
            rw [hopsOf, hopsOf, List.filterMap_cons_some hhead, if_pos hid, List.flatMap_cons]
          · have hhead : (Write.hop id' hop : Write F).hopOf id = none := if_neg hid
            rw [hopsOf, hopsOf, List.filterMap_cons_none hhead, if_neg hid, List.nil_append]
      | link child parent => exact ih h
      | belief subject b supporting => exact ih h

/-- What is left of hops where an evidence is stored once: those behind it. -/
theorem relayed_of_stored_once {pre post : List (Write F)} {e : Evidence}
    (hid : e.evidenceId = id) (hpre : ∀ e' ∈ evidences pre, e'.evidenceId ≠ id)
    (hpost : ∀ e' ∈ evidences post, e'.evidenceId ≠ id) :
    relayed distinct id 0 (pre ++ .evidence e :: post) = hopsOf id post := by
  have htimes : timesWritten id pre = 0 := by
    unfold timesWritten
    rw [List.filter_eq_nil_iff.mpr, List.length_nil]
    intro e' he'
    rw [decide_eq_true_eq]
    exact hpre e' he'
  have hnone (hop : ProvenanceHop) :
      List.replicate (if distinct then min 1 0 else 0) hop = [] := by
    rw [Nat.min_zero, ite_self]
    rfl
  have hone (hop : ProvenanceHop) :
      List.replicate (if distinct then min 1 1 else 1) hop = [hop] := by
    rw [Nat.min_self, ite_self]
    rfl
  rw [relayed_append, relayed_of_none distinct hpre, htimes, relayed, if_pos hid,
    relayed_of_none distinct hpost]
  simp only [hnone, hone, List.flatMap_singleton']
  rw [List.flatMap_eq_nil_iff.mpr fun _ _ => rfl, List.nil_append]

end Relayed

/-- Whoever decodes a frame recovers its chain. The frame arrives in fragments, in
    any order and any number; the evidence of its id is stored once, as any copy, and
    the hops written for the id behind it are those of the sender. Then the chain
    that is read for the decoded id is the sender's, and the number in the frame is
    its length, up to what a byte can say. -/
theorem recover_chain [DecidableEq F] (distinct : Bool) (e stored : Evidence) (bytes : Bytes)
    (frameId : UInt32) (mtu : Nat) (frags received : List Lora.Fragment) (frame : Lora.LoraFrame)
    (hencode : (Lora.LoraFrame.fromEvidence e).encode = .ok bytes)
    (hfragment : Lora.fragment bytes frameId mtu = .ok frags) (hne : received ≠ [])
    (hdrawn : ∀ f ∈ received, f ∈ frags)
    (hframe : (Lora.reassemble received >>= Lora.LoraFrame.decode) = .ok frame)
    (pre post : List (Write F)) (hid : stored.evidenceId = e.evidenceId)
    (hpre : ∀ e' ∈ evidences pre, e'.evidenceId ≠ e.evidenceId)
    (hpost : ∀ e' ∈ evidences post, e'.evidenceId ≠ e.evidenceId)
    (hhops : hopsOf e.evidenceId post = e.provenance.hops) :
    ∃ rows, (exec distinct (after distinct (pre ++ .evidence stored :: post))
        (readProvenanceFor F frame.evidenceId)).2.lookup "relays" = some (.rows rows) ∧
      rows.Perm (e.provenance.hops.map (relayRow F)) ∧
      frame.hopCount.toNat = min rows.length 255 := by
  have hsent : frame = Lora.LoraFrame.fromEvidence e := by
    rcases Lora.reassemble_drawn hfragment hne hdrawn with ⟨hall, hmissing⟩
    by_cases hcover : ∀ i < frags.length, ∃ f ∈ received, f.slot = i
    · rw [hall hcover] at hframe
      exact Except.ok.inj (hframe.symm.trans (Lora.LoraFrame.decode_encode hencode))
    · push Not at hcover
      rcases hmissing hcover with ⟨err, herr⟩
      rw [herr] at hframe
      exact absurd hframe (by simp only [Bind.bind, Except.bind, reduceCtorEq, not_false_eq_true])
  rw [hsent]
  have hperm := perm_relays distinct (pre ++ .evidence stored :: post) e.evidenceId
  rw [relayed_of_stored_once distinct hid hpre hpost, hhops] at hperm
  refine ⟨_, lookup_readProvenanceFor distinct _ e.evidenceId, hperm, ?_⟩
  rw [hperm.length_eq, List.length_map, Lora.LoraFrame.fromEvidence, UInt8.toNat_ofNat']
  exact Nat.mod_eq_of_lt (by omega)

/-- A relayed frame, and a graph in which the hop is written for its evidence after
    that of another one. -/
theorem recover_chain_relayed :
    let e := (Evidence.minted (Vector.replicate 32 7) ⟨"ac"⟩ (.atRest 5)).forwards [⟨⟨"relay"⟩, 6⟩]
    let other := Evidence.minted (Vector.replicate 32 7) ⟨"ac"⟩ (.atRest 9)
    ∃ rows, (exec true (after true [.evidence e, .evidence other,
          .hop other.evidenceId ⟨⟨"far"⟩, 8⟩, .hop e.evidenceId ⟨⟨"relay"⟩, 6⟩])
        (readProvenanceFor Rat e.evidenceId)).2.lookup "relays" = some (.rows rows) ∧
      rows.Perm [relayRow Rat ⟨⟨"relay"⟩, 6⟩] := by
  intro e other
  rcases Lora.LoraFrame.encode_forwards (Evidence.originate_ledger [] (Vector.replicate 32 7)
    ⟨"ac"⟩ (.atRest 5)) [⟨⟨"relay"⟩, 6⟩] with ⟨bytes, hencode⟩
  have hlen : bytes.length = 177 := by
    rw [((Lora.LoraFrame.encode_eq_ok_iff _ _).mp hencode).2.2]
    rfl
  have hfits : Lora.Fragmentable bytes 64 :=
    ⟨by decide, List.ne_nil_of_length_pos (by omega), by rw [hlen]; decide⟩
  rcases Lora.fragment_isOk bytes 7 64 hfits with ⟨frags, hfragment⟩
  have hne : frags ≠ [] := by
    rintro rfl
    have hflat := (Lora.fragment_eq_ok hfragment).2.2.2
    rw [← hflat] at hlen
    exact absurd hlen (by decide)
  have hframe : (Lora.reassemble frags >>= Lora.LoraFrame.decode) =
      .ok (Lora.LoraFrame.fromEvidence e) := by
    have hall := (Lora.reassemble_drawn hfragment hne fun f hf => hf).1 fun i hi =>
      ⟨frags[i], List.getElem_mem hi, (Lora.fragment_eq_ok hfragment).2.1 i hi⟩
    rw [hall]
    exact Lora.LoraFrame.decode_encode hencode
  rcases recover_chain (F := Rat) true e e bytes 7 64 frags frags _ hencode hfragment hne
    (fun f hf => hf) hframe [] [.evidence other, .hop other.evidenceId ⟨⟨"far"⟩, 8⟩,
      .hop e.evidenceId ⟨⟨"relay"⟩, 6⟩] rfl (fun e' he' => absurd he' List.not_mem_nil)
    (by decide) (by decide) with ⟨rows, hrows, hperm, _⟩
  exact ⟨rows, hrows, hperm⟩

end Helix

end Seven
