import Seven.Core.Postcard
import Mathlib.Tactic.IntervalCases

/-!
# Canonical State

The canonical, quantized physical state and its byte codec. The eleven `i64`
fields are written in declaration order with nothing between them, and the
bytes are what evidence identity hashes.

`CanonicalState::from_canonical_bytes` is `postcard::from_bytes`: it reads a
value from the front of the slice, ignores what is left, and takes padded
varints. So every state has one encoding but many accepted byte strings, and
`StrictWire` is the property of a byte string that the reader would have to
check to rule the others out.

## Main definitions

* `CanonicalQuaternion`, `CanonicalState`: The quantized state.
* `CanonicalError`: What canonicalization and its codec can fail with.
* `canonicalBytes`, `fromCanonicalBytes`: The codec.
* `SplitsInto`: A byte string read as eleven varints and a remainder.
* `StrictWire`: The byte strings without padding and without a remainder.
* `NodeId`, `SubjectId`: The identifiers.

## Theorems

* `readState_eq_ok_iff`: A state is read off exactly eleven accepted groups.
* `fromCanonicalBytes_writeI64s`: Reading what was written.
* `canonicalBytes_of_decoded_iff`: Which byte strings are the encoding of what
  they decode to.
* `canonical_codec_bijective_iff`: Both directions of the codec.
-/

namespace Seven

inductive CanonicalError where
  | notFinite (field value : String)
  | zeroNormQuaternion
  | serialization (message : String)
  | deserialization (message : String)
  deriving DecidableEq, Repr

/-- The text of a canonicalization error. -/
def CanonicalError.display : CanonicalError → String
  | notFinite field value => "field " ++ field ++ " is not finite (" ++ value ++ ")"
  | zeroNormQuaternion => "quaternion has zero (or subnormal) norm"
  | serialization message => "canonical serialization failed: " ++ message
  | deserialization message => "canonical bytes deserialization failed: " ++ message

/-- Quantized quaternion in the canonical hemisphere. -/
structure CanonicalQuaternion where
  w : Int64
  x : Int64
  y : Int64
  z : Int64
  deriving DecidableEq

/-- Canonical, quantized physical state: millimetres, mm/s, attitude and time. -/
structure CanonicalState where
  positionMm : Vector Int64 3
  velocityMms : Vector Int64 3
  attitude : CanonicalQuaternion
  observedAtNanos : Int64
  deriving DecidableEq

namespace CanonicalState

/-- The eleven integers of a state in declaration order: a struct or an array
    is the concatenation of its fields. -/
def fields (s : CanonicalState) : Vector Int64 11 :=
  #v[s.positionMm[0], s.positionMm[1], s.positionMm[2],
    s.velocityMms[0], s.velocityMms[1], s.velocityMms[2],
    s.attitude.w, s.attitude.x, s.attitude.y, s.attitude.z, s.observedAtNanos]

def ofFields (xs : Vector Int64 11) : CanonicalState :=
  { positionMm := #v[xs[0], xs[1], xs[2]]
    velocityMms := #v[xs[3], xs[4], xs[5]]
    attitude := ⟨xs[6], xs[7], xs[8], xs[9]⟩
    observedAtNanos := xs[10] }

/-- Canonical bytes used for evidence identity. Writing plain integers cannot
    fail, but the signature surfaces a failure rather than a panic. -/
def canonicalBytes (s : CanonicalState) : Except CanonicalError Bytes :=
  .ok (Postcard.writeI64s s.fields.toList)

/-- `postcard::from_bytes`: read the fields off the front of the slice. What is
    left of the slice is dropped. -/
def readState (bs : Bytes) : Except Leb128.Error CanonicalState := do
  let (xs, _) ← Postcard.readI64s 11 bs
  return ofFields xs

def fromCanonicalBytes (bs : Bytes) : Except CanonicalError CanonicalState :=
  match readState bs with
  | .ok s => .ok s
  | .error e => .error (.deserialization (Postcard.errorText e))

/-- The bytes are eleven accepted varints and a remainder. -/
def SplitsInto (bs : Bytes) (gs : List Bytes) (rest : Bytes) : Prop :=
  bs = gs.flatten ++ rest ∧ gs.length = 11 ∧ ∀ g ∈ gs, Postcard.Accepted g

/-- Wherever the bytes start with eleven accepted varints, none of them is
    padded and nothing follows them. -/
def StrictWire (bs : Bytes) : Prop :=
  ∀ gs rest, SplitsInto bs gs rest → (∀ g ∈ gs, Leb128.Minimal g) ∧ rest = []

theorem fromCanonicalBytes_eq_ok_iff (bs : Bytes) (s : CanonicalState) :
    fromCanonicalBytes bs = .ok s ↔ readState bs = .ok s := by
  unfold fromCanonicalBytes
  cases readState bs with
  | ok s' => simp only [Except.ok.injEq]
  | error e => simp only [reduceCtorEq]

theorem ofFields_fields (s : CanonicalState) : ofFields s.fields = s := by
  -- Both vectors are rebuilt from their three elements.
  have hp : #v[s.positionMm[0], s.positionMm[1], s.positionMm[2]] = s.positionMm := by
    ext i hi
    interval_cases i <;> rfl
  have hv : #v[s.velocityMms[0], s.velocityMms[1], s.velocityMms[2]] = s.velocityMms := by
    ext i hi
    interval_cases i <;> rfl
  change (⟨_, _, _, _⟩ : CanonicalState) = s
  simp only [fields, Vector.getElem_mk, List.getElem_toArray, List.getElem_cons_zero,
    List.getElem_cons_succ, hp, hv]

theorem fields_ofFields (xs : Vector Int64 11) : (ofFields xs).fields = xs := by
  ext i hi
  interval_cases i <;> rfl

/-- A state is read off exactly eleven accepted groups, whose integers are its
    fields. -/
theorem readState_eq_ok_iff (bs : Bytes) (s : CanonicalState) :
    readState bs = .ok s ↔
      ∃ gs rest, SplitsInto bs gs rest ∧ s.fields.toList = gs.map Postcard.groupI64 := by
  simp only [readState, Outcome.except_bind_eq_ok, Prod.exists, Postcard.readI64s_eq_ok_iff, pure,
    Except.pure, Except.ok.injEq]
  constructor
  · rintro ⟨xs, rest, ⟨gs, hlen, hacc, hbs, hxs⟩, rfl⟩
    exact ⟨gs, rest, ⟨hbs, hlen, hacc⟩, by rw [fields_ofFields, hxs]⟩
  · rintro ⟨gs, rest, ⟨hbs, hlen, hacc⟩, hs⟩
    exact ⟨s.fields, rest, ⟨gs, hlen, hacc, hbs, hs⟩, ofFields_fields s⟩

/-- Eleven accepted groups always read as some state. -/
theorem readState_of_splitsInto {bs : Bytes} {gs : List Bytes} {rest : Bytes}
    (h : SplitsInto bs gs rest) :
    ∃ s, readState bs = .ok s ∧ s.fields.toList = gs.map Postcard.groupI64 := by
  -- The integers of the groups are the fields of some state.
  have hsize : (gs.map Postcard.groupI64).toArray.size = 11 := by
    rw [List.size_toArray, List.length_map, h.2.1]
  have hfields : (ofFields ⟨_, hsize⟩).fields.toList = gs.map Postcard.groupI64 := by
    rw [fields_ofFields]
    rfl
  exact ⟨ofFields ⟨_, hsize⟩, (readState_eq_ok_iff _ _).mpr ⟨gs, rest, h, hfields⟩, hfields⟩

/-- The decoder's groups are the writer's exactly when none of them is padded. -/
theorem writeI64s_map_groupI64 {gs : List Bytes} (hacc : ∀ g ∈ gs, Postcard.Accepted g)
    (hmin : ∀ g ∈ gs, Leb128.Minimal g) :
    Postcard.writeI64s (gs.map Postcard.groupI64) = gs.flatten := by
  induction gs with
  | nil => rfl
  | cons g gs ih =>
      rw [List.forall_mem_cons] at hacc hmin
      have hrec := ih hacc.2 hmin.2
      simp only [Postcard.writeI64s, List.map_cons, List.flatMap_cons, List.flatten_cons] at hrec ⊢
      rw [hrec, Postcard.writeI64_groupI64 hacc.1 hmin.1]

/-- Two ways to cut one byte string into the same number of groups agree. -/
theorem groups_append_inj {gs gs' : List Bytes} (hlen : gs.length = gs'.length)
    (h : ∀ g ∈ gs, Postcard.Accepted g) (h' : ∀ g ∈ gs', Postcard.Accepted g)
    {r r' : Bytes} (heq : gs.flatten ++ r = gs'.flatten ++ r') : gs = gs' ∧ r = r' := by
  induction gs generalizing gs' with
  | nil =>
      have hnil : gs' = [] := List.length_eq_zero_iff.mp hlen.symm
      rw [hnil] at heq ⊢
      exact ⟨rfl, heq⟩
  | cons g gs ih =>
      cases gs' with
      | nil => exact absurd hlen (by simp only [List.length_cons, List.length_nil]; omega)
      | cons g' gs' =>
          rw [List.forall_mem_cons] at h h'
          simp only [List.flatten_cons, List.append_assoc] at heq
          -- The first groups agree, and what follows them is the same string again.
          rcases Leb128.isGroup_append_inj h.1.1 h'.1.1 heq with ⟨hg, hrest⟩
          rcases ih (by simpa only [List.length_cons, Nat.add_right_cancel_iff] using hlen)
            h.2 h'.2 hrest with ⟨hgs, hr⟩
          exact ⟨by rw [hg, hgs], hr⟩

/-- The writer's own groups. -/
theorem splitsInto_fields (s : CanonicalState) (rest : Bytes) :
    SplitsInto (Postcard.writeI64s s.fields.toList ++ rest)
      (s.fields.toList.map Postcard.writeI64) rest := by
  refine ⟨by rw [Postcard.writeI64s, List.flatMap_def],
    by rw [List.length_map, Vector.length_toList], fun g hg => ?_⟩
  rcases List.mem_map.mp hg with ⟨x, _, rfl⟩
  exact Postcard.accepted_writeI64 x

/-- Reading what was written gives the state back, whatever follows it. -/
theorem readState_writeI64s (s : CanonicalState) (rest : Bytes) :
    readState (Postcard.writeI64s s.fields.toList ++ rest) = .ok s := by
  rw [readState, Postcard.readI64s_writeI64s]
  exact congrArg Except.ok (ofFields_fields s)

theorem fromCanonicalBytes_writeI64s (s : CanonicalState) :
    fromCanonicalBytes (Postcard.writeI64s s.fields.toList) = .ok s := by
  have h := readState_writeI64s s []
  rw [List.append_nil] at h
  exact (fromCanonicalBytes_eq_ok_iff _ _).mpr h

/-- A byte string is the encoding of the state it decodes to exactly when it is
    strict. -/
theorem canonicalBytes_of_decoded_iff (bs : Bytes) :
    (∀ s, fromCanonicalBytes bs = .ok s → s.canonicalBytes = .ok bs) ↔ StrictWire bs := by
  simp only [fromCanonicalBytes_eq_ok_iff, readState_eq_ok_iff, canonicalBytes, Except.ok.injEq]
  constructor
  · intro h gs rest hsplit
    rcases readState_of_splitsInto hsplit with ⟨s, hread, hs⟩
    have henc := h s ⟨gs, rest, hsplit, hs⟩
    -- The encoding cuts into unpadded groups with nothing after them.
    have hcut := splitsInto_fields s []
    rw [List.append_nil, henc] at hcut
    rcases groups_append_inj (by rw [hsplit.2.1, hcut.2.1]) hsplit.2.2 hcut.2.2
      (by rw [← hsplit.1, ← hcut.1]) with ⟨hgs, hrest⟩
    refine ⟨fun g hg => ?_, hrest⟩
    rw [hgs] at hg
    rcases List.mem_map.mp hg with ⟨x, _, rfl⟩
    exact Postcard.minimal_writeI64 x
  -- Unpadded groups are what the writer gives for their integers.
  · rintro h s ⟨gs, rest, hsplit, hs⟩
    rcases h gs rest hsplit with ⟨hmin, hrest⟩
    rw [hs, writeI64s_map_groupI64 hsplit.2.2 hmin, hsplit.1, hrest, List.append_nil]

/-- Writing and then reading is the identity on states; reading and then
    writing is the identity on a byte string exactly when it is strict. -/
theorem canonical_codec_bijective_iff (s : CanonicalState) (bs : Bytes) :
    (s.canonicalBytes >>= fromCanonicalBytes) = .ok s ∧
      ((∀ s', fromCanonicalBytes bs = .ok s' → s'.canonicalBytes = .ok bs) ↔ StrictWire bs) :=
  ⟨fromCanonicalBytes_writeI64s s, canonicalBytes_of_decoded_iff bs⟩

/-- Eleven zero bytes are the zero state; a twelfth is accepted and dropped. -/
theorem canonical_codec_not_bijective :
    ¬ ∀ bs s, fromCanonicalBytes bs = .ok s → s.canonicalBytes = .ok bs := by
  intro h
  have henc := h (List.replicate 12 0) ⟨#v[0, 0, 0], #v[0, 0, 0], ⟨0, 0, 0, 0⟩, 0⟩ (by decide)
  exact absurd henc (by decide)

-- A padded varint is accepted too: here the first coordinate takes two bytes.
example : fromCanonicalBytes ([0x80, 0x00] ++ List.replicate 10 0) =
    .ok ⟨#v[0, 0, 0], #v[0, 0, 0], ⟨0, 0, 0, 0⟩, 0⟩ := by
  decide +kernel

theorem length_writeI64s_fields_le (s : CanonicalState) :
    (Postcard.writeI64s s.fields.toList).length ≤ 110 := by
  have h := Postcard.length_writeI64s_le s.fields.toList
  rwa [Vector.length_toList] at h

end CanonicalState

/-- A network node. -/
structure NodeId where
  name : String
  deriving DecidableEq, Repr

/-- A tracked subject: a research graph key, not an operational identity. -/
structure SubjectId where
  name : String
  deriving DecidableEq, Repr

instance : Ord SubjectId := ⟨compareOn SubjectId.name⟩

instance : Std.TransOrd SubjectId :=
  inferInstanceAs (Std.TransCmp (compareOn SubjectId.name))

instance : Std.LawfulEqOrd SubjectId where
  compare_self {a} := Std.ReflOrd.compare_self (a := a.name)
  eq_of_compare {a b} h := by
    have hname : a.name = b.name := Std.LawfulEqOrd.eq_of_compare h
    cases a
    cases b
    exact congrArg SubjectId.mk hname

end Seven
