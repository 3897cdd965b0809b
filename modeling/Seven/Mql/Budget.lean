import Seven.Mql.Lora

/-!
# The Radio Budget

How long the frame of origin evidence is. The header, the three ids and the signature
take 164 bytes, so 36 are left for the eleven numbers of the state, each written with as
many bytes as it has digits to the base 128. That is enough near the origin of the
coordinates (`digits_le_of_nearby`), and not for every state (`fitsBudget_iff`).

## Main definitions

* `loraAppBudget`: What a radio packet carries.
* `FitsBudget`: The frame of an evidence encodes and fits.
* `digits`: The digits of a state.
* `Nearby`: States that are near, slow and early enough.

## Theorems

* `encode_originate`: The length of the frame.
* `fitsBudget_iff`: Which states fit.
-/

namespace Seven

namespace Lora

/-- Application data budget of a radio packet. -/
def loraAppBudget : Nat := 200

/-- The frame of an evidence encodes and fits. -/
def FitsBudget (e : Evidence) : Prop :=
  ∃ bytes, (LoraFrame.fromEvidence e).encode = .ok bytes ∧ bytes.length ≤ loraAppBudget

/-- Frames of origin evidence encode, to the header, the payload and the signature. -/
theorem encode_originate {c : Crypto} {source : SigningKey} {subject : SubjectId}
    {state : CanonicalState} {receivedAtNanos expiresAtNanos : Int64} {e : Evidence}
    (h : Evidence.originate c source subject state receivedAtNanos expiresAtNanos = .ok e) :
    ∃ bytes, (LoraFrame.fromEvidence e).encode = .ok bytes ∧
      bytes.length = 164 + (Postcard.writeI64s state.fields.toList).length := by
  -- Evidence that was not forwarded is the case of no hops.
  rcases LoraFrame.encode_forwards h [] with ⟨bytes, hbytes⟩
  change (LoraFrame.fromEvidence e).encode = .ok bytes at hbytes
  refine ⟨bytes, hbytes, ?_⟩
  rw [Evidence.originate_eq, Except.ok.injEq] at h
  have hpayload : e.payload = Postcard.writeI64s state.fields.toList := by
    rw [← h]
    rfl
  rw [((LoraFrame.encode_eq_ok_iff _ _).mp hbytes).2.2, ← hpayload, ← h]
  simp only [LoraFrame.fromEvidence, List.length_append, List.length_cons, List.length_nil,
    Vector.length_toList, Option.getD_some]
  omega

/-- The digits of the eleven numbers of a state. -/
def digits (state : CanonicalState) : Nat :=
  (state.fields.toList.map Postcard.digits).sum

theorem length_fields (state : CanonicalState) :
    (Postcard.writeI64s state.fields.toList).length = digits state :=
  Postcard.length_writeI64s _

/-- Origin evidence fits exactly when its state has at most 36 digits. -/
theorem fitsBudget_iff (c : Crypto) (source : SigningKey) (subject : SubjectId)
    (state : CanonicalState) (receivedAtNanos expiresAtNanos : Int64) (e : Evidence)
    (h : Evidence.originate c source subject state receivedAtNanos expiresAtNanos = .ok e) :
    FitsBudget e ↔ digits state ≤ 36 := by
  rcases encode_originate h with ⟨bytes, hbytes, hlen⟩
  rw [length_fields] at hlen
  constructor
  · intro hexists
    rcases hexists with ⟨bytes', hbytes', hfits⟩
    rw [hbytes, Except.ok.injEq] at hbytes'
    rw [← hbytes', hlen, loraAppBudget] at hfits
    omega
  · intro hdigits
    refine ⟨bytes, hbytes, ?_⟩
    rw [hlen, loraAppBudget]
    omega

/-- At rest at the origin. -/
theorem fitsBudget_iff_atRest :
    FitsBudget (Evidence.minted (Vector.replicate 32 7) ⟨"ac"⟩ (.atRest 5)) :=
  (fitsBudget_iff _ _ _ _ _ _ _
    (Evidence.originate_ledger [] (Vector.replicate 32 7) ⟨"ac"⟩ (.atRest 5))).mpr
      (by rw [← length_fields]; decide)

/-- Within a kilometre, slower than eight metres per second, and before the year 2116. -/
structure Nearby (state : CanonicalState) : Prop where
  position : ∀ i,
    -2 ^ 20 ≤ (state.positionMm.get i).toInt ∧ (state.positionMm.get i).toInt < 2 ^ 20
  velocity : ∀ i,
    -2 ^ 13 ≤ (state.velocityMms.get i).toInt ∧ (state.velocityMms.get i).toInt < 2 ^ 13
  attitude : ∀ x ∈ [state.attitude.w, state.attitude.x, state.attitude.y, state.attitude.z],
    -2 ^ 20 ≤ x.toInt ∧ x.toInt < 2 ^ 20
  time : -2 ^ 62 ≤ state.observedAtNanos.toInt ∧ state.observedAtNanos.toInt < 2 ^ 62

/-- Such a state has no more digits than fit. -/
theorem digits_le_of_nearby {state : CanonicalState} (h : Nearby state) : digits state ≤ 36 := by
  have hpos := fun i => Postcard.digits_le (k := 2) (h.position i).1 (h.position i).2
  have hvel := fun i => Postcard.digits_le (k := 1) (h.velocity i).1 (h.velocity i).2
  have hatt := fun x hx => Postcard.digits_le (k := 2) (h.attitude x hx).1 (h.attitude x hx).2
  have htime := Postcard.digits_le (k := 8) h.time.1 h.time.2
  have hfields : state.fields.toList =
      [state.positionMm.get 0, state.positionMm.get 1, state.positionMm.get 2,
        state.velocityMms.get 0, state.velocityMms.get 1, state.velocityMms.get 2,
        state.attitude.w, state.attitude.x, state.attitude.y, state.attitude.z,
        state.observedAtNanos] := rfl
  -- Three times three digits, three times two, four times three, and nine.
  rw [List.forall_mem_cons, List.forall_mem_cons, List.forall_mem_cons,
    List.forall_mem_singleton] at hatt
  rcases hatt with ⟨hw, hx, hy, hz⟩
  rw [digits, hfields]
  simp only [List.map_cons, List.map_nil, List.sum_cons, List.sum_nil]
  have hposition := And.intro (hpos 0) (And.intro (hpos 1) (hpos 2))
  have hvelocity := And.intro (hvel 0) (And.intro (hvel 1) (hvel 2))
  omega

/-- Banked by a right angle, a hundred kilometres out and 250 metres per second fast
    along every axis. -/
def banked : CanonicalState :=
  ⟨#v[100000000, 100000000, 100000000], #v[250000, 250000, 250000], ⟨707107, 707107, 0, 0⟩,
    1700000000000000000⟩

/-- The frame of that state has 202 bytes. -/
theorem not_fitsBudget :
    ¬ ∀ (c : Crypto) (source : SigningKey) (subject : SubjectId) (state : CanonicalState)
      (receivedAtNanos expiresAtNanos : Int64) (e : Evidence),
      Evidence.originate c source subject state receivedAtNanos expiresAtNanos = .ok e →
        FitsBudget e := by
  intro h
  have horiginate := Evidence.originate_ledger [] (Vector.replicate 32 7) ⟨"ac"⟩ banked
  rcases encode_originate horiginate with ⟨bytes, hbytes, hlen⟩
  rcases h _ _ _ _ _ _ _ horiginate with ⟨bytes', hbytes', hfits⟩
  rw [hbytes, Except.ok.injEq] at hbytes'
  have hpayload : (Postcard.writeI64s banked.fields.toList).length = 38 := by decide
  rw [← hbytes', hlen, hpayload, loraAppBudget] at hfits
  omega

end Lora

end Seven
