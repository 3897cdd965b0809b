import Seven.Mql.Quic

/-!
# Frames on a Socket

What an encoded frame decodes to under any limit, and what the readers of a stream do
on any bytes.

The limit is a 64-bit number and the length on the wire has 32 bits, so a body of
`2 ^ 32` bytes or more goes out under a length that is not its own. A frame decodes to
its message exactly when the body is shorter (`decodeFrame_encodeFrame_iff`).

The readers of a stream are written apart from the decoder of a buffer. On a stream that
ends they return what decoding gives, once for one message and as often as the count says
for a batch, and fail where it fails or waits (`readers_agree`).

## Main definitions

* `recvMessage`: Receiving one message.
* `Batch`: A count, and so many frames.

## Theorems

* `decodeFrame_encodeFrame_iff`: Which encoded frames decode.
* `recvMessage_eq_ok_iff`, `recvMessages_eq_ok_iff`: What is received.
* `readers_agree`: The readers and the decoder agree.
-/

namespace Seven

namespace Quic

variable {M : Type}

/-- A frame whose length was cut is not taken whole. -/
theorem decodeFrame_frame_ne (j : Json M) (cfg : QuicAdapterConfig) (msg : M) {body : Bytes}
    (hlong : 2 ^ 32 ≤ body.length) :
    decodeFrame j cfg (BigEndian.encode 4 body.length ++ body) ≠
      .ok (some (msg, (BigEndian.encode 4 body.length ++ body).length)) := by
  intro h
  rcases (decodeFrame_eq_some_iff j cfg).mp h with ⟨_, _, htaken, _⟩
  -- What is taken is the length on the wire, and that is smaller.
  have hmod := Nat.mod_lt body.length (show 0 < 2 ^ 32 by decide)
  rw [length_frame, frameLength_frame] at htaken
  omega

/-- A frame decodes to its message, taken whole, exactly when the length of the body has
    32 bits. -/
theorem decodeFrame_encodeFrame_iff (j : Json M) (hj : j.RoundTrips) (cfg : QuicAdapterConfig)
    (msg : M) (body frame : Bytes) (hbody : j.toVec msg = .ok body)
    (h : encodeFrame j cfg msg = .ok frame) :
    decodeFrame j cfg frame = .ok (some (msg, frame.length)) ↔ body.length < 2 ^ 32 := by
  rcases (encodeFrame_eq_ok_iff j cfg msg frame).mp h with ⟨body', hbody', hmax, rfl⟩
  rw [hbody, Except.ok.injEq] at hbody'
  subst hbody'
  constructor
  · intro hdecode
    by_contra hlong
    exact decodeFrame_frame_ne j cfg msg (Nat.le_of_not_lt hlong) hdecode
  · exact decodeFrame_frame hj hbody hmax

/-- The JSON of a boolean is short. -/
theorem decodeFrame_encodeFrame_iff_jsonBool :
    decodeFrame jsonBool .default [0, 0, 0, 4, 116, 114, 117, 101] = .ok (some (true, 8)) :=
  (decodeFrame_encodeFrame_iff jsonBool roundTrips_jsonBool .default true [116, 114, 117, 101]
    [0, 0, 0, 4, 116, 114, 117, 101] rfl rfl).mpr (by decide)

/-- The JSON of a text of so many letters. -/
def letters (n : Nat) : Bytes :=
  34 :: (List.replicate n 97 ++ [34])

@[simp] theorem length_letters (n : Nat) : (letters n).length = n + 2 := by
  rw [letters, List.length_cons, List.length_append, List.length_replicate, List.length_singleton]

/-- Texts that repeat one letter, by their length. -/
def jsonLetters : Json Nat :=
  { toVec := fun n => .ok (letters n)
    fromSlice := fun bs =>
      if bs = letters (bs.length - 2) then .ok (bs.length - 2) else .error "expected value" }

theorem roundTrips_jsonLetters : jsonLetters.RoundTrips := by
  intro n body h
  have hbody : body = letters n := (Except.ok.inj h).symm
  have hlen : (letters n).length - 2 = n := by rw [length_letters, Nat.add_sub_cancel]
  simp only [jsonLetters, hbody, hlen, if_true]

/-- With a limit that is large enough, a text of four gigabytes goes out under the
    length zero. -/
theorem not_decodeFrame_encodeFrame :
    ¬ ∀ (M : Type) (j : Json M), j.RoundTrips → ∀ (cfg : QuicAdapterConfig) (msg : M)
      (frame : Bytes), encodeFrame j cfg msg = .ok frame →
        decodeFrame j cfg frame = .ok (some (msg, frame.length)) := by
  intro h
  let cfg : QuicAdapterConfig := ⟨2 ^ 33⟩
  have hlen := length_letters (2 ^ 32 - 2)
  have hmax : (letters (2 ^ 32 - 2)).length ≤ cfg.maxMessageBytes.toNat := by
    rw [hlen]
    decide
  have hencode := (encodeFrame_eq_ok_iff jsonLetters cfg (2 ^ 32 - 2) _).mpr ⟨_, rfl, hmax, rfl⟩
  exact decodeFrame_frame_ne jsonLetters cfg (2 ^ 32 - 2) (by rw [hlen]; decide)
    (h Nat jsonLetters roundTrips_jsonLetters cfg _ _ hencode)

/-- Receive one message from a stream that delivers these bytes and ends. -/
def recvMessage (j : Json M) (r : Inbound) (cfg : QuicAdapterConfig) (bs : Bytes) :
    Except MqlError M := do
  r.acceptBi.mapError fun e => .quic ("accept_bi failed: " ++ e)
  let (lenBuf, bs) ← (readExact r 4 bs).mapError fun e => .quic ("read length failed: " ++ e)
  let len := BigEndian.value lenBuf
  if cfg.maxMessageBytes.toNat < len then .error (frameTooLong cfg len)
  else
    -- What follows the body is not read.
    let (body, _) ← (readExact r len bs).mapError fun e => .quic ("read body failed: " ++ e)
    (j.fromSlice body).mapError decodeFailed

section Receive

variable (j : Json M) {r : Inbound} (cfg : QuicAdapterConfig)

/-- It is one frame of the stream, without what is left. -/
theorem recvMessage_eq (hr : r.acceptBi = .ok ()) (b : Bytes) :
    recvMessage j r cfg b = (readFrame j r cfg b).map Prod.fst := by
  rw [recvMessage, readFrame, hr]
  -- The same reads and checks, one after the other.
  cases readExact r 4 b with
  | error e => rfl
  | ok p =>
      rcases p with ⟨lenBuf, bs⟩
      simp only [Except.mapError, bind, Except.bind]
      by_cases hmax : cfg.maxMessageBytes.toNat < BigEndian.value lenBuf
      · rw [if_pos hmax, if_pos hmax]
        rfl
      · rw [if_neg hmax, if_neg hmax]
        cases readExact r (BigEndian.value lenBuf) bs with
        | error e => rfl
        | ok q =>
            rcases q with ⟨body, rest⟩
            cases hslice : j.fromSlice body with
            | error e => simp only [hslice, Except.map]
            | ok msg => simp only [hslice, pure, Except.pure, Except.map]

/-- A message is received when decoding takes one. -/
theorem recvMessage_eq_ok_iff (hr : r.acceptBi = .ok ()) (b : Bytes) (msg : M) :
    recvMessage j r cfg b = .ok msg ↔ ∃ n, decodeFrame j cfg b = .ok (some (msg, n)) := by
  rw [recvMessage_eq j cfg hr]
  rcases readFrame_cases j r cfg b with ⟨msg', n, hd, hread⟩ | ⟨hd, err, hread⟩ | ⟨err, hd, hread⟩
  · rw [hread, hd]
    simp only [Except.map, Except.ok.injEq, Option.some.injEq, Prod.mk.injEq, exists_and_left,
      exists_eq', and_true]
  · rw [hread, hd]
    simp only [Except.map, reduceCtorEq, Except.ok.injEq, exists_false]
  · rw [hread, hd]
    simp only [Except.map, reduceCtorEq, exists_false]

/-- Bytes that start with a count, and behind it the front of a stream from which so
    many frames are taken, one after the other. -/
def Batch (b : Bytes) (msgs : List M) : Prop :=
  ∃ items bytes rest, items.length < 2 ^ 32 ∧ b = BigEndian.encode 4 items.length ++ bytes ∧
    Framing.Takes (decodeFrame j cfg) bytes items rest ∧ items.map Prod.fst = msgs

/-- A batch is received when decoding takes as many messages as the count says. -/
theorem recvMessages_eq_ok_iff (hr : r.acceptBi = .ok ()) (b : Bytes) (msgs : List M) :
    recvMessages j r cfg b = .ok msgs ↔ Batch j cfg b msgs := by
  by_cases hlen : b.length < 4
  · rcases recvMessages_of_short j r cfg hlen with ⟨err, herr⟩
    rw [herr]
    refine iff_of_false (by simp only [reduceCtorEq, not_false_eq_true]) ?_
    intro h
    rcases h with ⟨items, bytes, rest, _, rfl, _⟩
    rw [List.length_append, BigEndian.length_encode] at hlen
    omega
  · -- The first four bytes are what is written for the count.
    have hfour : (b.take 4).length = 4 := by
      rw [List.length_take]
      omega
    have hcount := BigEndian.encode_value (b.take 4)
    have hlt := BigEndian.value_lt (b.take 4)
    rw [hfour] at hcount hlt
    have hsplit : b = BigEndian.encode 4 (BigEndian.value (b.take 4)) ++ b.drop 4 := by
      rw [hcount, List.take_append_drop]
    generalize BigEndian.value (b.take 4) = count at hsplit hlt
    generalize b.drop 4 = bytes at hsplit
    subst hsplit
    rw [recvMessages_count j hr cfg hlt, recvFrames_eq_ok_iff]
    constructor
    · intro h
      rcases h with ⟨items, rest, htakes, rfl, hmsgs⟩
      exact ⟨items, bytes, rest, hlt, rfl, htakes, hmsgs⟩
    · intro h
      rcases h with ⟨items, bytes', rest, hitems, hb, htakes, hmsgs⟩
      rcases List.append_inj hb (by rw [BigEndian.length_encode, BigEndian.length_encode]) with
        ⟨henc, rfl⟩
      exact ⟨items, rest, htakes, (BigEndian.encode_inj hlt hitems henc).symm, hmsgs⟩

/-- The readers of a stream that ends agree with the decoder of a buffer on any bytes. -/
theorem readers_agree (r : Inbound) (hr : r.acceptBi = .ok ()) (b : Bytes) :
    (∀ msg, recvMessage j r cfg b = .ok msg ↔ ∃ n, decodeFrame j cfg b = .ok (some (msg, n))) ∧
      ((decodeFrame j cfg b = .ok none ∨ ∃ err, decodeFrame j cfg b = .error err) →
        ∃ err, recvMessage j r cfg b = .error err) ∧
      (∀ msgs, recvMessages j r cfg b = .ok msgs ↔ Batch j cfg b msgs) ∧
      ((¬ ∃ msgs, Batch j cfg b msgs) → ∃ err, recvMessages j r cfg b = .error err) := by
  refine ⟨recvMessage_eq_ok_iff j cfg hr b, ?_, recvMessages_eq_ok_iff j cfg hr b, ?_⟩
  · intro hnone
    cases hrecv : recvMessage j r cfg b with
    | error err => exact ⟨err, rfl⟩
    | ok msg =>
        rcases (recvMessage_eq_ok_iff j cfg hr b msg).mp hrecv with ⟨n, hd⟩
        rw [hd] at hnone
        exact absurd hnone (by simp only [Except.ok.injEq, reduceCtorEq, exists_false, or_self,
          not_false_eq_true])
  · intro hnone
    cases hrecv : recvMessages j r cfg b with
    | error err => exact ⟨err, rfl⟩
    | ok msgs => exact absurd ⟨msgs, (recvMessages_eq_ok_iff j cfg hr b msgs).mp hrecv⟩ hnone

/-- Two messages, and a byte that is left behind them. -/
theorem readers_agree_jsonBool :
    recvMessages jsonBool ⟨.ok (), fun _ => "stream finished early"⟩ .default
      (BigEndian.encode 4 2 ++ (Framing.stream sentBool ++ [7])) = .ok [true, false] := by
  have hframed := sent_sentBool.framed roundTrips_jsonBool (by decide)
  have htakes := (incremental_decodeFrame jsonBool .default).takes_of_framed hframed [7]
  have hagree := readers_agree jsonBool .default ⟨.ok (), fun _ => "stream finished early"⟩ rfl
    (BigEndian.encode 4 2 ++ (Framing.stream sentBool ++ [7]))
  exact (hagree.2.2.1 [true, false]).mpr
    ⟨Framing.counted sentBool, Framing.stream sentBool ++ [7], [7], by decide, rfl, htakes, rfl⟩

end Receive

end Quic

end Seven
