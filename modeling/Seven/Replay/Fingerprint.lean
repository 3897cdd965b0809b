import Seven.Library.Maps
import Seven.Replay.Log

/-!
# The Fingerprint

What a fingerprint says about the state under it. It covers the payload of every
message, the liveness of every node, the database and the tracks, and nothing
else of the state (`hashedBytes_eq`).

The entries are hashed end to end, without lengths and without a mark between
keys and values or between the maps. So the byte string alone does not say where
an id ends and a payload begins: `Covered.layout`, the lengths of all keys and
values, is what is missing (`Covered.eq_of_bytes`). Among states of one layout a
fingerprint separates any two that cover different things
(`stateFingerprint_eq_iff`); without it almost every state shares its bytes with
another one. `separates_iff` says which do not: those with nothing but one message,
under the empty id, with a payload that is not empty, is shorter than a hash and
contains no character.

## Main definitions

* `Covered`, `covered`: The part of the state a fingerprint covers.
* `Covered.sections`, `Covered.bytes`, `Covered.layout`: Its entries, the bytes
  under the fingerprint and the lengths in them.
* `Separates`: No other state shares the fingerprint.
* `Covered.Uncuttable`: The covered states with bytes of their own.

## Theorems

* `hashedBytes_eq`: The hashed bytes are those of the covered part.
* `Covered.eq_of_bytes`: Bytes and layout determine the covered part.
* `stateFingerprint_eq_iff`: What a fingerprint separates, layouts being equal.
* `separates_iff`: Which states a fingerprint separates from all others.
-/

namespace Seven

open Mql (utf8)

/-- The bit patterns of a track. -/
@[ext] structure TrackBits where
  mean : Vector UInt64 6
  var : Vector UInt64 6
  independentUpdates : UInt64
  deriving DecidableEq

/-- The part of the state that a fingerprint covers. -/
@[ext] structure Covered where
  payloads : Std.ExtTreeMap String Bytes
  nodesOnline : Std.ExtTreeMap String Bool
  db : Std.ExtTreeMap String Bytes32
  tracks : Std.ExtTreeMap SubjectId TrackBits

def GaussianBelief.bits {F : Type} [Binary64 F] (track : GaussianBelief F) : TrackBits :=
  { mean := track.mean.map Binary64.toBits
    var := track.var.map Binary64.toBits
    independentUpdates := track.independentUpdates }

def ReplayEngine.covered {F : Type} [Binary64 F] (eng : ReplayEngine F) : Covered :=
  { payloads := eng.seenMessages.map fun _ m => m.canonicalPayload
    nodesOnline := eng.nodesOnline
    db := eng.db
    tracks := eng.beliefs.tracks.map fun _ track => track.bits }

theorem length_toBeBytes (x : UInt64) : (toBeBytes x).length = 8 :=
  BigEndian.length_encode 8 _

theorem toBeBytes_injective : Function.Injective toBeBytes := by
  intro x y h
  exact UInt64.toNat_inj.mp (BigEndian.encode_inj x.toNat_lt y.toNat_lt h)

namespace TrackBits

/-- The fourteen numbers of a track, each in eight bytes. -/
def bytes (x : TrackBits) : Bytes :=
  (x.mean.toList ++ x.var.toList ++ [x.independentUpdates]).flatMap toBeBytes

theorem length_of_mem_map_toBeBytes {xs : List UInt64} : ∀ p ∈ xs.map toBeBytes, p.length = 8 := by
  intro p hp
  rcases List.mem_map.mp hp with ⟨x, _, rfl⟩
  exact length_toBeBytes x

theorem length_bytes (x : TrackBits) : x.bytes.length = 104 := by
  rw [bytes, List.flatMap_def, Chunks.length_flatten length_of_mem_map_toBeBytes, List.length_map]
  simp only [List.length_append, Vector.length_toList, List.length_singleton]

theorem bytes_injective : Function.Injective bytes := by
  intro x y h
  rw [bytes, bytes, List.flatMap_def, List.flatMap_def] at h
  -- Every number takes eight bytes, so the numbers are cut back out.
  have hnumbers := congrArg (Chunks.chunks 8) h
  rw [Chunks.chunks_flatten (Nat.succ_pos 7) length_of_mem_map_toBeBytes,
    Chunks.chunks_flatten (Nat.succ_pos 7) length_of_mem_map_toBeBytes,
    List.map_inj_right fun _ _ heq => toBeBytes_injective heq] at hnumbers
  rw [List.append_assoc, List.append_assoc] at hnumbers
  rcases List.append_inj hnumbers (by rw [Vector.length_toList, Vector.length_toList])
    with ⟨hmean, hrest⟩
  rcases List.append_inj hrest (by rw [Vector.length_toList, Vector.length_toList])
    with ⟨hvar, hcount⟩
  exact TrackBits.ext (Vector.toList_inj.mp hmean) (Vector.toList_inj.mp hvar)
    (List.singleton_inj.mp hcount)

end TrackBits

namespace Covered

/-- The entries of the four maps as they are hashed. -/
def sections (x : Covered) : List (List (Bytes × Bytes)) :=
  [Maps.entries utf8 id x.payloads,
    Maps.entries utf8 (fun on => [if on then 1 else 0]) x.nodesOnline,
    Maps.entries utf8 Vector.toList x.db,
    Maps.entries (fun s => utf8 s.name) TrackBits.bytes x.tracks]

/-- The byte string under the fingerprint. -/
def bytes (x : Covered) : Bytes :=
  Chunks.records x.sections.flatten

/-- The lengths of all keys and values in the byte string. -/
def layout (x : Covered) : List (List (Nat × Nat)) :=
  x.sections.map Chunks.shape

theorem eq_of_sections {x y : Covered} (h : x.sections = y.sections) : x = y := by
  simp only [sections, List.cons.injEq, and_true] at h
  rcases h with ⟨hp, hn, hd, ht⟩
  have hutf8 : Function.Injective utf8 := fun _ _ => Mql.utf8_inj
  have hname : Function.Injective fun s : SubjectId => utf8 s.name := by
    rintro ⟨s⟩ ⟨t⟩ heq
    exact congrArg SubjectId.mk (Mql.utf8_inj heq)
  have hbyte : Function.Injective fun on : Bool => ([if on then 1 else 0] : Bytes) := by
    intro b b' heq
    cases b <;> cases b' <;> first | rfl | exact absurd heq (by decide)
  exact Covered.ext (Maps.entries_inj hutf8 Function.injective_id hp)
    (Maps.entries_inj hutf8 hbyte hn)
    (Maps.entries_inj hutf8 (fun _ _ heq => Vector.toList_inj.mp heq) hd)
    (Maps.entries_inj hname TrackBits.bytes_injective ht)

/-- Bytes and layout determine the covered part. -/
theorem eq_of_bytes {x y : Covered} (hlayout : x.layout = y.layout) (h : x.bytes = y.bytes) :
    x = y := by
  have hshape : ∀ l : List (List (Bytes × Bytes)),
      Chunks.shape l.flatten = (l.map Chunks.shape).flatten := fun l => List.map_flatten
  have hflatten : x.sections.flatten = y.sections.flatten :=
    Chunks.records_inj (by rw [hshape, hshape]; exact congrArg List.flatten hlayout) h
  -- The four maps have as many entries on either side.
  have hcounts : x.sections.map List.length = y.sections.map List.length := by
    have hlength := congrArg (List.map List.length) hlayout
    simpa only [layout, List.map_map, Function.comp_def, Chunks.shape, List.length_map]
      using hlength
  exact eq_of_sections (List.eq_iff_flatten_eq.mpr ⟨hflatten, hcounts⟩)

/-- Nothing covered. -/
def empty : Covered :=
  { payloads := ∅, nodesOnline := ∅, db := ∅, tracks := ∅ }

/-- Nothing but one message, under the empty id. -/
def single (payload : Bytes) : Covered :=
  { payloads := (∅ : Std.ExtTreeMap String Bytes).insert "" payload
    nodesOnline := ∅
    db := ∅
    tracks := ∅ }

/-- Nothing but one message under the empty id, with a payload that is not empty,
    is shorter than a hash and contains no character. -/
def Uncuttable (x : Covered) : Prop :=
  ∃ payload, x = single payload ∧ payload ≠ [] ∧ payload.length < 32 ∧
    ∀ ch, ¬ String.utf8EncodeChar ch <:+: payload

theorem bytes_empty : empty.bytes = [] := rfl

theorem bytes_message (id : String) (payload : Bytes) :
    (⟨(∅ : Std.ExtTreeMap String Bytes).insert id payload, ∅, ∅, ∅⟩ : Covered).bytes =
      utf8 id ++ payload := by
  have hentries : (⟨(∅ : Std.ExtTreeMap String Bytes).insert id payload, ∅, ∅, ∅⟩ :
      Covered).sections.flatten = [(utf8 id, payload)] := rfl
  rw [bytes, hentries, Chunks.records_cons, Chunks.records_nil, List.append_nil]

theorem bytes_single (payload : Bytes) : (single payload).bytes = payload :=
  bytes_message "" payload

/-- The empty id comes first. -/
theorem compare_empty {s : String} (h : s ≠ "") : compare "" s = .lt := by
  have hlt : "" < s := by
    rw [String.lt_iff]
    cases hs : s.toList with
    | nil => exact absurd (String.toList_eq_nil_iff.mp hs) h
    | cons ch chs => exact List.nil_lt_cons ch chs
  exact if_pos hlt

/-- A message under the empty id and a database value under the empty key. -/
theorem bytes_message_db (payload : Bytes) (valueHash : Bytes32) :
    (⟨(∅ : Std.ExtTreeMap String Bytes).insert "" payload, ∅,
        (∅ : Std.ExtTreeMap String Bytes32).insert "" valueHash, ∅⟩ : Covered).bytes =
      payload ++ valueHash.toList := by
  have hentries : (⟨(∅ : Std.ExtTreeMap String Bytes).insert "" payload, ∅,
      (∅ : Std.ExtTreeMap String Bytes32).insert "" valueHash, ∅⟩ : Covered).sections.flatten =
      [(utf8 "", payload), (utf8 "", valueHash.toList)] := rfl
  rw [bytes, hentries, Chunks.records_cons, Chunks.records_cons, Chunks.records_nil,
    List.append_nil]
  rfl

/-- Two messages, the first under the empty id. -/
theorem bytes_two_messages (payload : Bytes) {id : String} (hid : id ≠ "") (payload' : Bytes) :
    (⟨((∅ : Std.ExtTreeMap String Bytes).insert "" payload).insert id payload', ∅, ∅, ∅⟩ :
        Covered).bytes = payload ++ (utf8 id ++ payload') := by
  have hlist : (((∅ : Std.ExtTreeMap String Bytes).insert "" payload).insert id payload').toList =
      [("", payload), (id, payload')] := by
    refine Maps.toList_eq_of_sorted _ _ ?_ fun k v => ?_
    · exact List.pairwise_pair.mpr (compare_empty hid)
    · rw [List.mem_pair, Prod.mk.injEq, Prod.mk.injEq, Maps.getElem?_insert_eq_some_iff,
        Maps.getElem?_insert_eq_some_iff, Std.ExtTreeMap.getElem?_empty]
      grind
  have hentries : (⟨((∅ : Std.ExtTreeMap String Bytes).insert "" payload).insert id payload',
      ∅, ∅, ∅⟩ : Covered).sections.flatten = [(utf8 "", payload), (utf8 id, payload')] := by
    simp only [sections, Maps.entries, hlist]
    rfl
  rw [bytes, hentries, Chunks.records_cons, Chunks.records_cons, Chunks.records_nil,
    List.append_nil]
  rfl

theorem infix_bytes {x : Covered} {entries : List (Bytes × Bytes)} {k v : Bytes}
    (hentries : entries ∈ x.sections) (hkv : (k, v) ∈ entries) : k ++ v <:+: x.bytes := by
  have hinfix := Chunks.infix_records (List.mem_flatten.mpr ⟨entries, hentries, hkv⟩)
  exact hinfix

/-- A key in front of bytes without a character is empty. -/
theorem key_eq_empty {p : Bytes} (hchar : ∀ ch, ¬ String.utf8EncodeChar ch <:+: p) {k : String}
    {v : Bytes} (h : utf8 k ++ v <:+: p) : k = "" := by
  by_contra hk
  rcases Mql.exists_utf8EncodeChar_prefix hk with ⟨ch, hch⟩
  exact hchar ch (((hch.trans (List.prefix_append _ v)).isInfix).trans h)

/-- Uncuttable bytes belong to one covered state only. -/
theorem eq_single_of_bytes {x : Covered} {p : Bytes} (hne : p ≠ []) (hlen : p.length < 32)
    (hchar : ∀ ch, ¬ String.utf8EncodeChar ch <:+: p) (h : x.bytes = p) : x = single p := by
  subst h
  -- A node ends in a byte that is a character, and hashes and tracks are too long.
  have hnodes : x.nodesOnline = ∅ := by
    refine Maps.eq_empty fun k on hk => ?_
    have hinfix := infix_bytes (x := x) (List.mem_cons_of_mem _ List.mem_cons_self)
      (Maps.mem_entries hk)
    refine hchar (if on then Char.ofNat 1 else Char.ofNat 0) (List.IsInfix.trans ?_ hinfix)
    cases on <;> exact (List.suffix_append (utf8 k) _).isInfix
  have hdb : x.db = ∅ := by
    refine Maps.eq_empty fun k v hk => ?_
    have hle := (infix_bytes (x := x) (List.mem_cons_of_mem _ (List.mem_cons_of_mem _
      List.mem_cons_self)) (Maps.mem_entries hk)).length_le
    rw [List.length_append, Vector.length_toList] at hle
    omega
  have htracks : x.tracks = ∅ := by
    refine Maps.eq_empty fun s track hs => ?_
    have hle := (infix_bytes (x := x) (List.mem_cons_of_mem _ (List.mem_cons_of_mem _
      (List.mem_cons_of_mem _ List.mem_cons_self))) (Maps.mem_entries hs)).length_le
    rw [List.length_append, TrackBits.length_bytes] at hle
    omega
  -- What is left are messages, and their ids are empty.
  have hids : ∀ k v, x.payloads[k]? = some v → k = "" := fun k v hk =>
    key_eq_empty hchar (infix_bytes (x := x) List.mem_cons_self (Maps.mem_entries hk))
  cases hpayload : x.payloads[""]? with
  | none =>
      have hpayloads : x.payloads = ∅ := by
        refine Maps.eq_empty fun k v hk => ?_
        rw [hids k v hk, hpayload] at hk
        exact absurd hk (by simp only [reduceCtorEq, not_false_eq_true])
      have hempty : x = empty := Covered.ext hpayloads hnodes hdb htracks
      rw [hempty, bytes_empty] at hne
      exact absurd rfl hne
  | some q =>
      have hsingle : x = single q :=
        Covered.ext (Maps.eq_singleton hpayload hids) hnodes hdb htracks
      rw [hsingle, bytes_single]

end Covered

namespace ReplayEngine

variable {F : Type} [Binary64 F]

theorem bytes_bits (track : GaussianBelief F) : track.bits.bytes = track.bytes := by
  simp only [TrackBits.bytes, GaussianBelief.bits, GaussianBelief.bytes, Vector.toList_map,
    ← List.map_append, List.flatMap_append, List.flatMap_map, List.flatMap_singleton]

/-- The hashed bytes are those of the covered part. -/
theorem hashedBytes_eq (eng : ReplayEngine F) : eng.hashedBytes = eng.covered.bytes := by
  simp only [hashedBytes, Covered.bytes, Covered.sections, covered, Maps.entries, Chunks.records,
    List.flatten_cons, List.flatten_nil, List.append_nil, List.flatMap_append,
    Std.ExtTreeMap.toList_map, List.flatMap_map, Prod.map_fst, Prod.map_snd, id_eq, bytes_bits,
    List.append_assoc]

/-- Two states whose hashed bytes have one layout have one fingerprint exactly when
    they cover the same, unless the hash collides on their bytes. -/
theorem stateFingerprint_eq_iff {c : Crypto} {eng eng' : ReplayEngine F}
    (hideal : c.blake3 eng.hashedBytes = c.blake3 eng'.hashedBytes →
      eng.hashedBytes = eng'.hashedBytes)
    (hlayout : eng.covered.layout = eng'.covered.layout) :
    eng.stateFingerprint c = eng'.stateFingerprint c ↔ eng.covered = eng'.covered := by
  constructor
  · intro h
    have hbytes := hideal h
    rw [hashedBytes_eq, hashedBytes_eq] at hbytes
    exact Covered.eq_of_bytes hlayout hbytes
  · intro h
    rw [stateFingerprint, stateFingerprint, hashedBytes_eq, hashedBytes_eq, h]

/-- No state that a log replays to has the fingerprint of this log's state
    without covering the same. -/
def Separates (c : Crypto) (log : EventLog F) : Prop :=
  ∀ (log' : EventLog F) (eng eng' : ReplayEngine F), replay c log = .ok eng →
    replay c log' = .ok eng' → eng.covered ≠ eng'.covered →
    eng.stateFingerprint c ≠ eng'.stateFingerprint c

/-- A message with nothing but an id and a payload. -/
def sent (id : String) (payload : Bytes) : SevenEvent F :=
  .messageSent ⟨id, "", "", payload, 0⟩

theorem replay_nil (c : Crypto) :
    ∃ eng, replay c (⟨[], 0⟩ : EventLog F) = .ok eng ∧ eng.covered = .empty :=
  ⟨_, (replay_eq_ok_iff c _ _).mpr rfl, rfl⟩

theorem replay_sent (c : Crypto) (id : String) (payload : Bytes) :
    ∃ eng, replay c (⟨[sent id payload], 0⟩ : EventLog F) = .ok eng ∧
      eng.covered = ⟨(∅ : Std.ExtTreeMap String Bytes).insert id payload, ∅, ∅, ∅⟩ :=
  ⟨_, (replay_eq_ok_iff c _ _).mpr rfl, rfl⟩

theorem replay_sent_dbWrite (c : Crypto) (payload : Bytes) (valueHash : Bytes32) :
    ∃ eng, replay c (⟨[sent "" payload, .dbWrite "" valueHash], 0⟩ : EventLog F) = .ok eng ∧
      eng.covered = ⟨(∅ : Std.ExtTreeMap String Bytes).insert "" payload, ∅,
        (∅ : Std.ExtTreeMap String Bytes32).insert "" valueHash, ∅⟩ :=
  ⟨_, (replay_eq_ok_iff c _ _).mpr rfl, rfl⟩

theorem replay_sent_sent (c : Crypto) (payload : Bytes) (id : String) (payload' : Bytes) :
    ∃ eng, replay c (⟨[sent "" payload, sent id payload'], 0⟩ : EventLog F) = .ok eng ∧
      eng.covered =
        ⟨((∅ : Std.ExtTreeMap String Bytes).insert "" payload).insert id payload', ∅, ∅, ∅⟩ :=
  ⟨_, (replay_eq_ok_iff c _ _).mpr rfl, Covered.ext (Maps.map_insert _ _ _ _) rfl rfl rfl⟩

/-- A state that shares its bytes with that of a separated log covers the same. -/
theorem covered_eq_of_separates {c : Crypto} {log log' : EventLog F} {eng eng' : ReplayEngine F}
    (h : Separates c log) (hrep : replay c log = .ok eng) (hrep' : replay c log' = .ok eng')
    (hbytes : eng'.covered.bytes = eng.covered.bytes) : eng.covered = eng'.covered := by
  by_contra hne
  refine h log' eng eng' hrep hrep' hne ?_
  rw [stateFingerprint, stateFingerprint, hashedBytes_eq, hashedBytes_eq, hbytes]

/-- A state whose fingerprint no other state has is uncuttable. -/
theorem uncuttable_of_separates {c : Crypto} {log : EventLog F} {eng : ReplayEngine F}
    (h : Separates c log) (hrep : replay c log = .ok eng) : eng.covered.Uncuttable := by
  -- Every byte string is the payload of a message under the empty id.
  rcases replay_sent (F := F) c "" eng.covered.bytes with ⟨eng₁, hrep₁, hcov₁⟩
  have hsingle : eng.covered = .single eng.covered.bytes := by
    rw [← covered_eq_of_separates h hrep hrep₁ (by rw [hcov₁]; exact Covered.bytes_single _)]
      at hcov₁
    exact hcov₁
  generalize eng.covered.bytes = p at hsingle
  have hbytes : eng.covered.bytes = p := by rw [hsingle, Covered.bytes_single]
  refine ⟨p, hsingle, ?_, ?_, ?_⟩
  · rintro rfl
    rcases replay_nil (F := F) c with ⟨eng₂, hrep₂, hcov₂⟩
    have heq := covered_eq_of_separates h hrep hrep₂ (by rw [hcov₂, hbytes, Covered.bytes_empty])
    rw [hsingle, hcov₂] at heq
    have hget := congrArg (fun x : Covered => x.payloads[""]?) heq
    exact absurd hget (by decide)
  -- A hash at the end is as well the value of a database key.
  · by_contra hlen
    have hsize : (p.drop (p.length - 32)).toArray.size = 32 := by
      rw [List.size_toArray, List.length_drop]
      omega
    rcases replay_sent_dbWrite (F := F) c (p.take (p.length - 32)) ⟨_, hsize⟩ with
      ⟨eng₂, hrep₂, hcov₂⟩
    have heq := covered_eq_of_separates h hrep hrep₂ (by
      rw [hcov₂, hbytes, Covered.bytes_message_db]
      exact List.take_append_drop _ p)
    rw [hsingle, hcov₂] at heq
    have hget := congrArg (fun x : Covered => x.db[""]?) heq
    exact absurd (hget.trans Std.ExtTreeMap.getElem?_insert_self) (by
      simp only [Covered.single, Std.ExtTreeMap.getElem?_empty, reduceCtorEq, not_false_eq_true])
  -- A character may start the id of a second message.
  · rintro ch ⟨l, r, hcut⟩
    have hid : String.singleton ch ≠ "" := by
      intro hempty
      have hchars := congrArg String.toList hempty
      rw [String.toList_singleton] at hchars
      exact absurd hchars (List.cons_ne_nil _ _)
    rcases replay_sent_sent (F := F) c l (String.singleton ch) r with ⟨eng₂, hrep₂, hcov₂⟩
    have heq := covered_eq_of_separates h hrep hrep₂ (by
      rw [hcov₂, hbytes, Covered.bytes_two_messages _ hid, Mql.utf8_singleton, ← hcut,
        List.append_assoc])
    rw [hsingle, hcov₂] at heq
    have hget := congrArg (fun x : Covered => x.payloads[String.singleton ch]?) heq
    exact absurd (hget.trans Std.ExtTreeMap.getElem?_insert_self) (by
      simp only [Covered.single, Maps.getElem?_insert_of_ne _ _ hid.symm,
        Std.ExtTreeMap.getElem?_empty, reduceCtorEq, not_false_eq_true])

/-- The state of a log is separated from all others exactly when it is
    uncuttable, provided the hash has no second preimage of its bytes. -/
theorem separates_iff (c : Crypto) (log : EventLog F) (eng : ReplayEngine F)
    (hrep : replay c log = .ok eng)
    (hideal : ∀ bs, c.blake3 bs = c.blake3 eng.hashedBytes → bs = eng.hashedBytes) :
    Separates c log ↔ eng.covered.Uncuttable := by
  refine ⟨fun h => uncuttable_of_separates h hrep, ?_⟩
  intro hcut log' eng₁ eng' hrep₁ hrep' hne heq
  rw [hrep, Except.ok.injEq] at hrep₁
  rw [← hrep₁] at hne heq
  rcases hcut with ⟨p, hp, hpne, hlen, hchar⟩
  -- The bytes are the same, and they belong to one covered state only.
  have hbytes : eng'.covered.bytes = p := by
    rw [← hashedBytes_eq, hideal _ heq.symm, hashedBytes_eq, hp, Covered.bytes_single]
  exact hne (hp.trans (Covered.eq_single_of_bytes hpne hlen hchar hbytes).symm)

/-- One message in place of another: an id that takes in the first byte of the
    payload. The two states have the same bytes under the fingerprint. -/
theorem not_separates :
    ¬ ∀ (c : Crypto) (log log' : EventLog Float) (eng eng' : ReplayEngine Float),
      replay c log = .ok eng → replay c log' = .ok eng' →
      (c.blake3 eng.hashedBytes = c.blake3 eng'.hashedBytes →
        eng.hashedBytes = eng'.hashedBytes) →
      eng.covered ≠ eng'.covered → eng.stateFingerprint c ≠ eng'.stateFingerprint c := by
  intro h
  rcases replay_sent (F := Float) (Crypto.ledger []) "m1" [0x32] with ⟨eng, hrep, hcov⟩
  rcases replay_sent (F := Float) (Crypto.ledger []) "m12" [] with ⟨eng', hrep', hcov'⟩
  have hbytes : eng.hashedBytes = eng'.hashedBytes := by
    rw [hashedBytes_eq, hashedBytes_eq, hcov, hcov', Covered.bytes_message, Covered.bytes_message]
    decide
  refine h _ _ _ eng eng' hrep hrep' (fun _ => hbytes) ?_
    (congrArg (Crypto.ledger []).blake3 hbytes)
  intro heq
  rw [hcov, hcov'] at heq
  have hget := congrArg (fun x : Covered => x.payloads["m1"]?) heq
  exact absurd hget (by decide)

end ReplayEngine

namespace Crypto

/-- The first 31 bytes, padded with zeros, and the length: no collisions with
    strings that fit. -/
def lengthHash (bs : Bytes) : Bytes32 :=
  Vector.ofFn fun i => if i.val = 31 then UInt8.ofNat (min bs.length 32) else bs.getD i 0

theorem lengthHash_inj {bs bs' : Bytes} (hlen : bs'.length < 32)
    (h : lengthHash bs = lengthHash bs') : bs = bs' := by
  have hbyte : ∀ i, (hi : i < 32) →
      (if i = 31 then UInt8.ofNat (min bs.length 32) else bs.getD i 0) =
        if i = 31 then UInt8.ofNat (min bs'.length 32) else bs'.getD i 0 := by
    intro i hi
    have hget := congrArg (fun v : Bytes32 => v.toList[i]?) h
    simpa only [lengthHash, Vector.toList_ofFn, List.getElem?_ofFn, hi, dite_true,
      Option.some.injEq] using hget
  -- The last byte tells the length, since it is less than 32.
  have hlength : bs.length = bs'.length := by
    have hlast := congrArg UInt8.toNat (hbyte 31 (by decide))
    simp only [if_true, UInt8.toNat_ofNat'] at hlast
    omega
  refine List.ext_getElem hlength fun i hi hi' => ?_
  have hget := hbyte i (by omega)
  rwa [if_neg (by omega), if_neg (by omega), List.getD_eq_getElem?_getD,
    List.getD_eq_getElem?_getD, List.getElem?_eq_getElem hi, List.getElem?_eq_getElem hi'] at hget

end Crypto

namespace ReplayEngine

/-- No character is encoded as the byte 255 alone. -/
theorem utf8EncodeChar_ne_ff (ch : Char) : String.utf8EncodeChar ch ≠ [0xFF] := by
  intro h
  have hsize : ch.utf8Size = 1 := by
    rw [← String.length_utf8EncodeChar, h]
    rfl
  have hle : ch.val.toNat ≤ 127 := Char.utf8Size_eq_one_iff.mp hsize
  rw [String.utf8EncodeChar_eq_singleton hsize, List.singleton_inj] at h
  have hnat := congrArg UInt8.toNat h
  rw [UInt32.toNat_toUInt8] at hnat
  have hff : (0xFF : UInt8).toNat = 255 := rfl
  omega

/-- A message under the empty id whose payload is a byte that no character
    contains. -/
theorem separates_unprintable :
    Separates (F := Float) { Crypto.ledger [] with blake3 := Crypto.lengthHash }
      ⟨[sent "" [0xFF]], 0⟩ := by
  rcases replay_sent (F := Float) { Crypto.ledger [] with blake3 := Crypto.lengthHash } "" [0xFF]
    with ⟨eng, hrep, hcov⟩
  have hbytes : eng.hashedBytes = [0xFF] := by
    rw [hashedBytes_eq, hcov]
    exact Covered.bytes_single _
  refine (separates_iff _ _ eng hrep ?_).mpr ?_
  · intro bs h
    rw [hbytes] at h ⊢
    exact Crypto.lengthHash_inj (by decide) h
  · refine ⟨[0xFF], hcov, by decide, by decide, fun ch hch => ?_⟩
    rcases List.sublist_singleton.mp hch.sublist with hnil | hbyte
    · exact String.utf8EncodeChar_ne_nil hnil
    · exact utf8EncodeChar_ne_ff ch hbyte

end ReplayEngine

end Seven
