import Seven.Belief.Paths
import Seven.Core.Quantized

/-!
# Attitudes off the Wire

Canonicalization stores attitudes whose norm is off by at most one. The decoder
reads eleven integers and asks nothing of them, and the belief paths take what it
gives: an attitude is in the band exactly when it was sent so.

The attitude of a byte string is given by its seventh to tenth varints
(`wireAttitude_of_fields`). So the decoder gives attitudes in the band exactly when
these are, and what a belief path counts has one exactly when its payload carries
one (`decoded_inBand_iff`).

## Main definitions

* `wireAttitude`, `InBandWire`: The attitude on the wire.
* `PayloadInBand`: What the payload of evidence decodes to.

## Theorems

* `counted_inBand_iff`, `fused_inBand_iff`: The two belief paths.
* `decoded_inBand_iff`: Which attitudes the decoder and the belief paths let in.
-/

namespace Seven

namespace CanonicalState

/-- The seventh to tenth varints. -/
def wireAttitude (gs : List Bytes) : CanonicalQuaternion :=
  let xs := gs.map Postcard.groupI64
  ⟨xs.getD 6 0, xs.getD 7 0, xs.getD 8 0, xs.getD 9 0⟩

/-- Wherever the bytes start with eleven accepted varints, the attitude among them
    is in the band. -/
def InBandWire (bs : Bytes) : Prop :=
  ∀ gs rest, SplitsInto bs gs rest → (wireAttitude gs).InBand

/-- The attitude that is decoded is the one on the wire. -/
theorem wireAttitude_of_fields {s : CanonicalState} {gs : List Bytes}
    (h : s.fields.toList = gs.map Postcard.groupI64) : wireAttitude gs = s.attitude := by
  unfold wireAttitude
  rw [← h]
  rfl

theorem fromCanonicalBytes_inBand_iff (bs : Bytes) :
    (∀ s, fromCanonicalBytes bs = .ok s → s.attitude.InBand) ↔ InBandWire bs := by
  simp only [fromCanonicalBytes_eq_ok_iff]
  constructor
  · intro h gs rest hsplit
    rcases readState_of_splitsInto hsplit with ⟨s, hread, hs⟩
    rw [wireAttitude_of_fields hs]
    exact h s hread
  · intro h s hread
    rcases (readState_eq_ok_iff bs s).mp hread with ⟨gs, rest, hsplit, hs⟩
    rw [← wireAttitude_of_fields hs]
    exact h gs rest hsplit

end CanonicalState

open CanonicalState

/-- What the payload decodes to has its attitude in the band. -/
def Evidence.PayloadInBand (e : Evidence) : Prop :=
  ∀ s, fromCanonicalBytes e.payload = .ok s → s.attitude.InBand

/-- Whatever the run before, what the engine counts has its attitude in the band
    exactly when evidence that introduces its id has it on the wire. -/
theorem BeliefEngine.counted_inBand_iff {F : Type} [F64 F] (c : Crypto) (run : List Evidence)
    (e : Evidence) :
    ((incorporate c (folded F c run) e).2 = .ok true → e.PayloadInBand) ↔
      (Introduces c run e → InBandWire e.payload) := by
  rw [answer_true_iff, ← fromCanonicalBytes_inBand_iff]
  constructor
  · intro h hnew s hs
    exact h ⟨hnew, s, hs⟩ s hs
  · intro h hcount
    exact h hcount.1

/-- The same of a fused track, for evidence whose reading the filter takes. -/
theorem ImuFusedTrack.fused_inBand_iff {E I F : Type} [F64 F] (est : Ekf E I F) (c : Crypto)
    (calls : List (Call I F)) (e : Evidence) :
    ((step est c (after est c calls) (.update e)).2 = .updated (.ok true) → e.PayloadInBand) ↔
      (e.verify c = .ok () → ¬ CarriedBy c calls e.observationId →
        Takes est (after est c calls).ekf e → InBandWire e.payload) := by
  rw [answer_fused_iff, mem_incorporated_after, ← fromCanonicalBytes_inBand_iff]
  constructor
  · intro h hv hid htakes
    exact h ⟨hv, hid, htakes⟩
  · intro h hfused
    exact h hfused.1 hfused.2.1 hfused.2.2

/-- The decoder lets in attitudes of the band exactly when the wire carries one, and
    so do both belief paths, after any run and for any evidence they would count. -/
theorem decoded_inBand_iff {E I F : Type} [F64 F] (c : Crypto) (run : List Evidence)
    (est : Ekf E I F) (calls : List (ImuFusedTrack.Call I F)) (e : Evidence) :
    (∀ bs, (∀ s, fromCanonicalBytes bs = .ok s → s.attitude.InBand) ↔ InBandWire bs) ∧
      (((BeliefEngine.incorporate c (BeliefEngine.folded F c run) e).2 = .ok true →
          e.PayloadInBand) ↔ (Introduces c run e → InBandWire e.payload)) ∧
      (((ImuFusedTrack.step est c (ImuFusedTrack.after est c calls) (.update e)).2 =
          .updated (.ok true) → e.PayloadInBand) ↔
        (e.verify c = .ok () → ¬ ImuFusedTrack.CarriedBy c calls e.observationId →
          ImuFusedTrack.Takes est (ImuFusedTrack.after est c calls).ekf e →
            InBandWire e.payload)) :=
  ⟨fromCanonicalBytes_inBand_iff, BeliefEngine.counted_inBand_iff c run e,
    ImuFusedTrack.fused_inBand_iff est c calls e⟩

/-- A state without an attitude. -/
def flat : CanonicalState :=
  { CanonicalState.atRest 5 with attitude := ⟨0, 0, 0, 0⟩ }

theorem not_inBand_flat : ¬ flat.attitude.InBand := by
  intro h
  exact absurd h.1 (by decide)

/-- The zero attitude is decoded, and evidence with it is counted. -/
theorem not_decoded_inBand :
    (¬ ∀ bs s, fromCanonicalBytes bs = .ok s → s.attitude.InBand) ∧
      ¬ ∀ (c : Crypto) (run : List Evidence) (e : Evidence),
        (BeliefEngine.incorporate c (BeliefEngine.folded Float c run) e).2 = .ok true →
          e.PayloadInBand := by
  constructor
  · intro h
    exact not_inBand_flat (h _ flat (fromCanonicalBytes_writeI64s flat))
  · intro h
    let e := Evidence.minted (Vector.replicate 32 7) ⟨"ac"⟩ flat
    have hv : e.verify (Evidence.ledgerOf [e]) = .ok () :=
      Evidence.verify_minted _ List.mem_cons_self
    have hcount := (BeliefEngine.answer_true_iff (F := Float) (Evidence.ledgerOf [e]) [] e).mpr
      ⟨BeliefEngine.introduces_nil hv, Evidence.decodes_minted _ _ _⟩
    exact not_inBand_flat (h _ _ e hcount flat (Evidence.fromCanonicalBytes_minted _ _ flat))

end Seven
