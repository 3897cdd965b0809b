import Seven.Library.BigEndian
import Seven.Library.Framing
import Seven.Mql.Hex

/-!
# QUIC Framing

A message goes over a QUIC stream as JSON behind a four-byte length, and a batch of
messages as their frames behind a four-byte count. A frame is taken from a buffer
by `decodeFrame`, and from a stream by the same checks on exact reads.

The length is cut to 32 bits, so a limit below `2 ^ 32` is what makes a frame hold
its message (`decodeFrame_encodeFrame`). Then a stream of frames may be cut anywhere
(`drain_exact`), and a batch is received as a whole or not at all
(`batch_all_or_nothing`): the count is written first, so fewer frames than it says
are an error.

The JSON codec of the message and the calls of the connection are other libraries'
and enter as parameters.

## Main definitions

* `Json`: The codec of messages.
* `encodeFrame`, `decodeFrame`: One frame and the front of a buffer.
* `Outbound`, `sendMessages`: Sending a batch.
* `Inbound`, `readFrame`, `recvMessages`: Receiving one.

## Theorems

* `incremental_decodeFrame`: Answers do not depend on what has not arrived.
* `readFrame_cases`: Reading a stream and decoding a buffer agree.
* `drain_exact`: What a cut stream of frames drains to.
* `batch_all_or_nothing`: What a receiver gets of a batch.
-/

namespace Seven

namespace Quic

/-- The JSON codec of messages, with the texts of its errors. -/
structure Json (M : Type) where
  toVec : M → Except String Bytes
  fromSlice : Bytes → Except String M

/-- What was written reads back. -/
def Json.RoundTrips {M : Type} (j : Json M) : Prop :=
  ∀ msg body, j.toVec msg = .ok body → j.fromSlice body = .ok msg

structure QuicAdapterConfig where
  /-- Maximum size of a single message in bytes. -/
  maxMessageBytes : UInt64

/-- Maximum size accepted by default. -/
def maxMessageBytes : UInt64 := 8 * 1024 * 1024

def QuicAdapterConfig.default : QuicAdapterConfig :=
  { maxMessageBytes := Quic.maxMessageBytes }

/-- What the calls of a connection answer while a batch is sent. -/
structure Outbound where
  openBi : Except String Unit
  /-- The writes, by their number. -/
  writeAll : Nat → Except String Unit
  finish : Except String Unit

/-- What a connection answers while a batch is received. -/
structure Inbound where
  acceptBi : Except String Unit
  /-- The text of a stream that ended after so many bytes of an exact read. -/
  finishedEarly : Nat → String

variable {M : Type}

/-- The frame of a message. -/
def encodeFrame (j : Json M) (cfg : QuicAdapterConfig) (msg : M) : Except MqlError Bytes := do
  let body ← (j.toVec msg).mapError fun e => .quic ("json encode failed: " ++ e)
  if cfg.maxMessageBytes.toNat < body.length then
    .error (.quic ("message " ++ toString body.length ++ " B exceeds max " ++
      toString cfg.maxMessageBytes ++ " B"))
  else
    -- The length is cut to 32 bits.
    return BigEndian.encode 4 body.length ++ body

def frameTooLong (cfg : QuicAdapterConfig) (len : Nat) : MqlError :=
  .quic ("frame length " ++ toString len ++ " B exceeds max " ++
    toString cfg.maxMessageBytes ++ " B")

def decodeFailed (e : String) : MqlError :=
  .quic ("json decode failed: " ++ e)

/-- The length that a buffer starts with. -/
def frameLength (buf : Bytes) : Nat :=
  BigEndian.value (buf.take 4)

/-- The bytes behind it, as many as it says. -/
def frameBody (buf : Bytes) : Bytes :=
  (buf.drop 4).take (frameLength buf)

/-- The frame at the front of a buffer. -/
def decodeFrame (j : Json M) (cfg : QuicAdapterConfig) (buf : Bytes) :
    Except MqlError (Option (M × Nat)) :=
  if buf.length < 4 then .ok none
  else
    let len := frameLength buf
    if cfg.maxMessageBytes.toNat < len then .error (frameTooLong cfg len)
    else if buf.length < 4 + len then .ok none
    else do
      let msg ← (j.fromSlice (frameBody buf)).mapError decodeFailed
      return some (msg, 4 + len)

/-- Write frames from a number on, up to the first that fails: the bytes of the
    writes that succeeded and how it ended. -/
def sendFrames (j : Json M) (q : Outbound) (cfg : QuicAdapterConfig) :
    Nat → List M → Bytes × Except MqlError Unit
  | _, [] => ([], .ok ())
  | n, msg :: msgs =>
      match encodeFrame j cfg msg with
      | .error e => ([], .error e)
      | .ok bytes =>
          match q.writeAll n with
          | .error e => ([], .error (.quic ("write failed: " ++ e)))
          | .ok () => (sendFrames j q cfg (n + 1) msgs).map (bytes ++ ·) id

/-- Send a batch: the count, the frames, and the end of the stream. -/
def sendMessages (j : Json M) (q : Outbound) (msgs : List M) (cfg : QuicAdapterConfig) :
    Bytes × Except MqlError Unit :=
  if 2 ^ 32 ≤ msgs.length then
    ([], .error (.quic ("batch too large: " ++ toString msgs.length ++ " messages")))
  else
    match q.openBi, q.writeAll 0 with
    | .error e, _ => ([], .error (.quic ("open_bi failed: " ++ e)))
    | .ok (), .error e => ([], .error (.quic ("write count failed: " ++ e)))
    | .ok (), .ok () =>
        let count := BigEndian.encode 4 msgs.length
        match sendFrames j q cfg 1 msgs with
        | (written, .error e) => (count ++ written, .error e)
        | (written, .ok ()) =>
            (count ++ written, q.finish.mapError fun e => .quic ("finish failed: " ++ e))

/-- Read exactly so many bytes of what a stream still delivers. -/
def readExact (r : Inbound) (n : Nat) (bs : Bytes) : Except String (Bytes × Bytes) :=
  if bs.length < n then .error (r.finishedEarly bs.length) else .ok (bs.take n, bs.drop n)

/-- Read one frame of what a stream still delivers. -/
def readFrame (j : Json M) (r : Inbound) (cfg : QuicAdapterConfig) (bs : Bytes) :
    Except MqlError (M × Bytes) := do
  let (lenBuf, bs) ← (readExact r 4 bs).mapError fun e => .quic ("read length failed: " ++ e)
  let len := BigEndian.value lenBuf
  if cfg.maxMessageBytes.toNat < len then .error (frameTooLong cfg len)
  else
    let (body, bs) ← (readExact r len bs).mapError fun e => .quic ("read body failed: " ++ e)
    let msg ← (j.fromSlice body).mapError decodeFailed
    return (msg, bs)

/-- Read so many frames. -/
def recvFrames (j : Json M) (r : Inbound) (cfg : QuicAdapterConfig) :
    Nat → Bytes → Except MqlError (List M)
  | 0, _ => .ok []
  | n + 1, bs => do
      let (msg, bs) ← readFrame j r cfg bs
      let msgs ← recvFrames j r cfg n bs
      return msg :: msgs

/-- Receive a batch from a stream that delivers these bytes and ends. -/
def recvMessages (j : Json M) (r : Inbound) (cfg : QuicAdapterConfig) (bs : Bytes) :
    Except MqlError (List M) := do
  r.acceptBi.mapError fun e => .quic ("accept_bi failed: " ++ e)
  let (countBuf, bs) ← (readExact r 4 bs).mapError fun e => .quic ("read count failed: " ++ e)
  recvFrames j r cfg (BigEndian.value countBuf) bs

/-- What an accepted message's frame is made of. -/
theorem encodeFrame_eq_ok_iff (j : Json M) (cfg : QuicAdapterConfig) (msg : M) (frame : Bytes) :
    encodeFrame j cfg msg = .ok frame ↔
      ∃ body, j.toVec msg = .ok body ∧ body.length ≤ cfg.maxMessageBytes.toNat ∧
        frame = BigEndian.encode 4 body.length ++ body := by
  unfold encodeFrame
  cases j.toVec msg with
  | error e => simp only [Except.mapError, bind, Except.bind, reduceCtorEq, false_and, exists_false]
  | ok body =>
      simp only [Except.mapError, bind, Except.bind, pure, Except.pure, Except.ok.injEq,
        exists_eq_left']
      by_cases hlen : cfg.maxMessageBytes.toNat < body.length
      · simp only [hlen, if_true, reduceCtorEq, false_iff, not_and]
        exact fun hle => absurd hlen (Nat.not_lt.mpr hle)
      · simp only [hlen, if_false, Nat.le_of_not_lt hlen, true_and, Except.ok.injEq, eq_comm]

/-- The length of a frame is cut to 32 bits. -/
theorem frameLength_frame (body : Bytes) :
    frameLength (BigEndian.encode 4 body.length ++ body) = body.length % 2 ^ 32 := by
  rw [frameLength, List.take_left' (BigEndian.length_encode 4 _), BigEndian.value_encode]
  rfl

theorem length_frame (body : Bytes) :
    (BigEndian.encode 4 body.length ++ body).length = 4 + body.length := by
  rw [List.length_append, BigEndian.length_encode]

theorem frameLength_append {buf : Bytes} (hlen : 4 ≤ buf.length) (tail : Bytes) :
    frameLength (buf ++ tail) = frameLength buf := by
  rw [frameLength, frameLength, List.take_append_of_le_length hlen]

theorem frameBody_append {buf : Bytes} (hlen : 4 + frameLength buf ≤ buf.length) (tail : Bytes) :
    frameBody (buf ++ tail) = frameBody buf := by
  have hdrop : frameLength buf ≤ (buf.drop 4).length := by
    rw [List.length_drop]
    omega
  rw [frameBody, frameBody, frameLength_append (by omega), List.drop_append_of_le_length (by omega),
    List.take_append_of_le_length hdrop]

section Decode

variable (j : Json M) (cfg : QuicAdapterConfig) {buf : Bytes}

theorem decodeFrame_of_short (hlen : buf.length < 4) : decodeFrame j cfg buf = .ok none := by
  rw [decodeFrame, if_pos hlen]

theorem decodeFrame_of_tooLong (hlen : 4 ≤ buf.length)
    (hmax : cfg.maxMessageBytes.toNat < frameLength buf) :
    decodeFrame j cfg buf = .error (frameTooLong cfg (frameLength buf)) := by
  rw [decodeFrame, if_neg (by omega)]
  simp only [hmax, if_true]

theorem decodeFrame_of_incomplete (hmax : frameLength buf ≤ cfg.maxMessageBytes.toNat)
    (hlen : buf.length < 4 + frameLength buf) : decodeFrame j cfg buf = .ok none := by
  unfold decodeFrame
  by_cases hfour : buf.length < 4
  · rw [if_pos hfour]
  · rw [if_neg hfour]
    simp only [Nat.not_lt.mpr hmax, hlen, if_true, if_false]

theorem decodeFrame_of_whole (hmax : frameLength buf ≤ cfg.maxMessageBytes.toNat)
    (hlen : 4 + frameLength buf ≤ buf.length) :
    decodeFrame j cfg buf = do
      let msg ← (j.fromSlice (frameBody buf)).mapError decodeFailed
      return some (msg, 4 + frameLength buf) := by
  rw [decodeFrame, if_neg (by omega)]
  simp only [Nat.not_lt.mpr hmax, Nat.not_lt.mpr hlen, if_false]

/-- What the front of a buffer can be. -/
theorem front_cases (buf : Bytes) :
    buf.length < 4 ∨ (4 ≤ buf.length ∧ cfg.maxMessageBytes.toNat < frameLength buf) ∨
      (4 ≤ buf.length ∧ frameLength buf ≤ cfg.maxMessageBytes.toNat ∧
        buf.length < 4 + frameLength buf) ∨
      (frameLength buf ≤ cfg.maxMessageBytes.toNat ∧ 4 + frameLength buf ≤ buf.length) := by
  omega

/-- When a frame is taken. -/
theorem decodeFrame_eq_some_iff {msg : M} {n : Nat} :
    decodeFrame j cfg buf = .ok (some (msg, n)) ↔
      frameLength buf ≤ cfg.maxMessageBytes.toNat ∧ 4 + frameLength buf ≤ buf.length ∧
        n = 4 + frameLength buf ∧ j.fromSlice (frameBody buf) = .ok msg := by
  rcases front_cases cfg buf with hlen | ⟨hlen, hmax⟩ | ⟨_, hmax, hlen⟩ | ⟨hmax, hlen⟩
  · rw [decodeFrame_of_short j cfg hlen]
    exact iff_of_false (by simp only [Except.ok.injEq, reduceCtorEq, not_false_eq_true])
      fun h => by omega
  · rw [decodeFrame_of_tooLong j cfg hlen hmax]
    exact iff_of_false (by simp only [reduceCtorEq, not_false_eq_true]) fun h => by omega
  · rw [decodeFrame_of_incomplete j cfg hmax hlen]
    exact iff_of_false (by simp only [Except.ok.injEq, reduceCtorEq, not_false_eq_true])
      fun h => by omega
  · rw [decodeFrame_of_whole j cfg hmax hlen]
    cases j.fromSlice (frameBody buf) with
    | error e =>
        simp only [Except.mapError, bind, Except.bind, reduceCtorEq, and_false]
    | ok msg' =>
        simp only [Except.mapError, bind, Except.bind, pure, Except.pure, Except.ok.injEq,
          Option.some.injEq, Prod.mk.injEq, hmax, hlen, true_and, and_comm, eq_comm]

/-- Answers do not depend on what has not arrived. -/
theorem incremental_decodeFrame : Framing.Incremental (decodeFrame j cfg) := by
  refine ⟨rfl, ?_, ?_⟩
  · intro buf tail hne
    have hle : buf.length ≤ (buf ++ tail).length := by
      rw [List.length_append]
      omega
    rcases front_cases cfg buf with hlen | ⟨hlen, hmax⟩ | ⟨_, hmax, hlen⟩ | ⟨hmax, hlen⟩
    · exact absurd (decodeFrame_of_short j cfg hlen) hne
    · have hsame := frameLength_append hlen tail
      rw [decodeFrame_of_tooLong j cfg hlen hmax,
        decodeFrame_of_tooLong j cfg (by omega) (by omega), hsame]
    · exact absurd (decodeFrame_of_incomplete j cfg hmax hlen) hne
    · have hfour : 4 ≤ buf.length := by omega
      have hsame := frameLength_append hfour tail
      rw [decodeFrame_of_whole j cfg hmax hlen,
        decodeFrame_of_whole j cfg (by omega) (by omega), hsame, frameBody_append hlen tail]
  · intro buf msg n h
    rcases (decodeFrame_eq_some_iff j cfg).mp h with ⟨_, hlen, rfl, _⟩
    exact hlen

variable {j cfg}

/-- A frame whose length was not cut decodes to its message, and is taken whole. -/
theorem decodeFrame_frame (hj : j.RoundTrips) {msg : M} {body : Bytes}
    (hbody : j.toVec msg = .ok body) (hmax : body.length ≤ cfg.maxMessageBytes.toNat)
    (hsmall : body.length < 2 ^ 32) :
    decodeFrame j cfg (BigEndian.encode 4 body.length ++ body) =
      .ok (some (msg, (BigEndian.encode 4 body.length ++ body).length)) := by
  have hlen := frameLength_frame body
  have htotal := length_frame body
  rw [Nat.mod_eq_of_lt hsmall] at hlen
  rw [decodeFrame_eq_some_iff, hlen, htotal]
  refine ⟨hmax, le_refl _, rfl, ?_⟩
  rw [frameBody, hlen, List.drop_left' (BigEndian.length_encode 4 _), List.take_length]
  exact hj msg body hbody

/-- A frame decodes to its message, and is taken whole. -/
theorem decodeFrame_encodeFrame (hj : j.RoundTrips) (hcfg : cfg.maxMessageBytes.toNat < 2 ^ 32)
    {msg : M} {frame : Bytes} (h : encodeFrame j cfg msg = .ok frame) :
    decodeFrame j cfg frame = .ok (some (msg, frame.length)) := by
  rcases (encodeFrame_eq_ok_iff j cfg msg frame).mp h with ⟨body, hbody, hmax, rfl⟩
  exact decodeFrame_frame hj hbody hmax (hmax.trans_lt hcfg)

end Decode

/-- Messages with the frames that encoding gave for them. -/
def Sent (j : Json M) (cfg : QuicAdapterConfig) (sent : List (M × Bytes)) : Prop :=
  ∀ p ∈ sent, encodeFrame j cfg p.1 = .ok p.2

theorem Sent.framed {j : Json M} (hj : j.RoundTrips) {cfg : QuicAdapterConfig}
    (hcfg : cfg.maxMessageBytes.toNat < 2 ^ 32) {sent : List (M × Bytes)} (h : Sent j cfg sent) :
    Framing.Framed (decodeFrame j cfg) sent :=
  fun p hp => decodeFrame_encodeFrame hj hcfg (h p hp)

/-- Decoding a stream of frames is exact under any cut. Of what came before the cut
    the calls return the messages whose frames lie in it, in order, each with the
    length of its frame, and then ask for more. An answer other than that stays
    the same as more arrives. -/
theorem drain_exact (j : Json M) (hj : j.RoundTrips) (cfg : QuicAdapterConfig)
    (hcfg : cfg.maxMessageBytes.toNat < 2 ^ 32) :
    (∀ sent, Sent j cfg sent → ∀ b, b <+: Framing.stream sent →
      ∃ k rest, (∀ items left, Framing.Drains (decodeFrame j cfg) b items left ↔
          items = Framing.counted (sent.take k) ∧ left = rest) ∧
        ((Framing.counted (sent.take k)).map Prod.snd).sum =
          (Framing.stream (sent.take k)).length ∧
        b = Framing.stream (sent.take k) ++ rest ∧
        ∀ i < sent.length, i < k ↔ (Framing.stream (sent.take (i + 1))).length ≤ b.length) ∧
      ∀ buf tail, decodeFrame j cfg buf ≠ .ok none →
        decodeFrame j cfg (buf ++ tail) = decodeFrame j cfg buf := by
  have hinc := incremental_decodeFrame j cfg
  refine ⟨?_, hinc.stable⟩
  intro sent hsent b hb
  rcases hinc.drains_of_cut (hsent.framed hj hcfg) hb with ⟨k, rest, hdrains, hsplit, _, hin⟩
  exact ⟨k, rest, fun _ _ => hdrains.iff, Framing.sum_counted _, hsplit, hin⟩

/-- The JSON of a boolean. -/
def jsonBool : Json Bool :=
  { toVec := fun b => .ok (Mql.utf8 (if b then "true" else "false"))
    fromSlice := fun bs =>
      if bs = Mql.utf8 "true" then .ok true
      else if bs = Mql.utf8 "false" then .ok false
      else .error "expected value" }

theorem roundTrips_jsonBool : jsonBool.RoundTrips := by
  intro msg body h
  cases msg with
  | false =>
      have hbody : body = Mql.utf8 "false" := (Except.ok.inj h).symm
      rw [hbody]
      decide
  | true =>
      have hbody : body = Mql.utf8 "true" := (Except.ok.inj h).symm
      rw [hbody]
      decide

/-- Two messages under the default limit. -/
def sentBool : List (Bool × Bytes) :=
  [(true, [0, 0, 0, 4, 116, 114, 117, 101]), (false, [0, 0, 0, 5, 102, 97, 108, 115, 101])]

theorem sent_sentBool : Sent jsonBool .default sentBool := by
  intro p hp
  simp only [sentBool, List.mem_cons, List.not_mem_nil, or_false] at hp
  rcases hp with rfl | rfl
  · rfl
  · rfl

/-- A cut in the length of the second frame. -/
theorem drain_exact_jsonBool :
    ∃ k rest, Framing.Drains (decodeFrame jsonBool .default)
        [0, 0, 0, 4, 116, 114, 117, 101, 0, 0] (Framing.counted (sentBool.take k)) rest ∧
      1 ≤ k := by
  have h := (drain_exact jsonBool roundTrips_jsonBool .default (by decide)).1 sentBool
    sent_sentBool [0, 0, 0, 4, 116, 114, 117, 101, 0, 0] (by decide)
  rcases h with ⟨k, rest, hdrains, _, _, hin⟩
  exact ⟨k, rest, (hdrains _ _).mpr ⟨rfl, rfl⟩, (hin 0 (by decide)).mpr (by decide)⟩

theorem readExact_of_le (r : Inbound) {n : Nat} {bs : Bytes} (h : n ≤ bs.length) :
    readExact r n bs = .ok (bs.take n, bs.drop n) := by
  rw [readExact, if_neg (by omega)]

theorem readExact_of_lt (r : Inbound) {n : Nat} {bs : Bytes} (h : bs.length < n) :
    readExact r n bs = .error (r.finishedEarly bs.length) := by
  rw [readExact, if_pos h]

/-- A stream that delivers a length is read on under it. -/
theorem readFrame_of_le (j : Json M) (r : Inbound) (cfg : QuicAdapterConfig) {bs : Bytes}
    (h : 4 ≤ bs.length) :
    readFrame j r cfg bs =
      if cfg.maxMessageBytes.toNat < frameLength bs then
        .error (frameTooLong cfg (frameLength bs))
      else do
        let (body, bs) ← (readExact r (frameLength bs) (bs.drop 4)).mapError fun e =>
          .quic ("read body failed: " ++ e)
        let msg ← (j.fromSlice body).mapError decodeFailed
        return (msg, bs) := by
  rw [readFrame, readExact_of_le r h]
  rfl

/-- Reading a frame of a stream and decoding the front of a buffer agree: the same
    message and the same bytes taken, the same error, and an error where the
    buffer would wait. -/
theorem readFrame_cases (j : Json M) (r : Inbound) (cfg : QuicAdapterConfig) (bs : Bytes) :
    (∃ msg n, decodeFrame j cfg bs = .ok (some (msg, n)) ∧
        readFrame j r cfg bs = .ok (msg, bs.drop n)) ∨
      (decodeFrame j cfg bs = .ok none ∧ ∃ err, readFrame j r cfg bs = .error err) ∨
      ∃ err, decodeFrame j cfg bs = .error err ∧ readFrame j r cfg bs = .error err := by
  rcases front_cases cfg bs with hlen | ⟨hlen, hmax⟩ | ⟨hfour, hmax, hlen⟩ | ⟨hmax, hlen⟩
  -- Where the buffer would wait for more, the stream has ended.
  · right; left
    rw [decodeFrame_of_short j cfg hlen, readFrame, readExact_of_lt r hlen]
    exact ⟨rfl, _, rfl⟩
  · right; right
    rw [decodeFrame_of_tooLong j cfg hlen hmax, readFrame_of_le j r cfg hlen, if_pos hmax]
    exact ⟨_, rfl, rfl⟩
  · right; left
    have hbody : (bs.drop 4).length < frameLength bs := by
      rw [List.length_drop]
      omega
    rw [decodeFrame_of_incomplete j cfg hmax hlen, readFrame_of_le j r cfg hfour,
      if_neg (by omega), readExact_of_lt r hbody]
    exact ⟨rfl, _, rfl⟩
  -- The frame is whole, and its text decides for both.
  · have hbody : frameLength bs ≤ (bs.drop 4).length := by
      rw [List.length_drop]
      omega
    rw [decodeFrame_of_whole j cfg hmax hlen, readFrame_of_le j r cfg (by omega),
      if_neg (by omega), readExact_of_le r hbody, ← frameBody, List.drop_drop]
    cases hslice : j.fromSlice (frameBody bs) with
    | error e =>
        right; right
        exact ⟨decodeFailed e, rfl, by
          simp only [Except.mapError, bind, Except.bind, hslice]⟩
    | ok msg =>
        left
        exact ⟨msg, 4 + frameLength bs, rfl, by
          simp only [Except.mapError, bind, Except.bind, hslice, pure, Except.pure]⟩

/-- Reading one frame more decodes one first. -/
theorem recvFrames_succ_eq_ok_iff (j : Json M) (r : Inbound) (cfg : QuicAdapterConfig) (n : Nat)
    (bs : Bytes) (msgs : List M) :
    recvFrames j r cfg (n + 1) bs = .ok msgs ↔
      ∃ msg m msgs', decodeFrame j cfg bs = .ok (some (msg, m)) ∧
        recvFrames j r cfg n (bs.drop m) = .ok msgs' ∧ msg :: msgs' = msgs := by
  rw [recvFrames]
  rcases readFrame_cases j r cfg bs with ⟨msg, m, hd, hread⟩ | ⟨hd, err, hread⟩ | ⟨err, hd, hread⟩
  · rw [hd, hread]
    simp only [bind, Except.bind, Except.ok.injEq, Option.some.injEq, Prod.mk.injEq]
    constructor
    · intro h
      cases hrest : recvFrames j r cfg n (bs.drop m) with
      | error err =>
          rw [hrest] at h
          exact absurd h (by simp only [reduceCtorEq, not_false_eq_true])
      | ok msgs' =>
          rw [hrest] at h
          exact ⟨msg, m, msgs', ⟨rfl, rfl⟩, hrest, Except.ok.inj h⟩
    · intro h
      rcases h with ⟨_, _, msgs', ⟨rfl, rfl⟩, hrest, rfl⟩
      rw [hrest]
      rfl
  · rw [hd, hread]
    simp only [bind, Except.bind, reduceCtorEq, Except.ok.injEq, false_and, exists_false]
  · rw [hd, hread]
    simp only [bind, Except.bind, reduceCtorEq, false_and, exists_false]

/-- Reading so many frames of a stream is decoding so often. -/
theorem recvFrames_eq_ok_iff (j : Json M) (r : Inbound) (cfg : QuicAdapterConfig) (n : Nat)
    (bs : Bytes) (msgs : List M) :
    recvFrames j r cfg n bs = .ok msgs ↔
      ∃ items rest, Framing.Takes (decodeFrame j cfg) bs items rest ∧ items.length = n ∧
        items.map Prod.fst = msgs := by
  induction n generalizing bs msgs with
  | zero =>
      rw [recvFrames, Except.ok.injEq]
      constructor
      · intro h
        exact ⟨[], bs, .nil, rfl, h⟩
      · intro h
        rcases h with ⟨items, _, _, hlen, hmsgs⟩
        rw [List.length_eq_zero_iff.mp hlen] at hmsgs
        exact hmsgs
  | succ n ih =>
      rw [recvFrames_succ_eq_ok_iff]
      constructor
      · intro h
        rcases h with ⟨msg, m, msgs', hd, hrest, rfl⟩
        rcases (ih _ _).mp hrest with ⟨items, rest, htakes, hlen, rfl⟩
        exact ⟨(msg, m) :: items, rest, .cons hd htakes, congrArg Nat.succ hlen, rfl⟩
      · intro h
        rcases h with ⟨items, rest, htakes, hlen, rfl⟩
        cases htakes with
        | nil => exact absurd hlen (by simp only [List.length_nil]; omega)
        | cons hd htakes =>
            exact ⟨_, _, _, hd, (ih _ _).mpr ⟨_, rest, htakes, Nat.succ.inj hlen, rfl⟩, rfl⟩

/-- As many frames as the bytes drain to are read. -/
theorem recvFrames_of_le {j : Json M} (r : Inbound) {cfg : QuicAdapterConfig} {bs rest : Bytes}
    {items : List (M × Nat)} (h : Framing.Drains (decodeFrame j cfg) bs items rest) {n : Nat}
    (hn : n ≤ items.length) :
    recvFrames j r cfg n bs = .ok ((items.take n).map Prod.fst) := by
  rcases h.takes_take n with ⟨rest', htakes⟩
  exact (recvFrames_eq_ok_iff j r cfg n bs _).mpr
    ⟨_, rest', htakes, List.length_take_of_le hn, rfl⟩

/-- Reading more frames than the bytes drain to fails. -/
theorem recvFrames_of_lt {j : Json M} (r : Inbound) {cfg : QuicAdapterConfig} {bs rest : Bytes}
    {items : List (M × Nat)} (h : Framing.Drains (decodeFrame j cfg) bs items rest) {n : Nat}
    (hn : items.length < n) : ∃ err, recvFrames j r cfg n bs = .error err := by
  cases hrecv : recvFrames j r cfg n bs with
  | error err => exact ⟨err, rfl⟩
  | ok msgs =>
      rcases (recvFrames_eq_ok_iff j r cfg n bs msgs).mp hrecv with ⟨taken, _, htakes, hlen, _⟩
      have hle := (htakes.prefix_of_drains h).length_le
      omega

/-- Behind a count a receiver reads so many frames. -/
theorem recvMessages_count (j : Json M) {r : Inbound} (hr : r.acceptBi = .ok ())
    (cfg : QuicAdapterConfig) {n : Nat} (hn : n < 2 ^ 32) (bs : Bytes) :
    recvMessages j r cfg (BigEndian.encode 4 n ++ bs) = recvFrames j r cfg n bs := by
  have hfour : (BigEndian.encode 4 n).length = 4 := BigEndian.length_encode 4 n
  have hlen : 4 ≤ (BigEndian.encode 4 n ++ bs).length := by
    rw [List.length_append]
    omega
  have hvalue : BigEndian.value (BigEndian.encode 4 n) = n := by
    rw [BigEndian.value_encode, Nat.mod_eq_of_lt (by omega)]
  rw [recvMessages, hr, readExact_of_le r hlen, List.take_left' hfour, List.drop_left' hfour]
  simp only [Except.mapError, bind, Except.bind, hvalue]

/-- Fewer frames than the count says are an error. -/
theorem recvMessages_of_lt {j : Json M} (r : Inbound) {cfg : QuicAdapterConfig} {n : Nat}
    (hn : n < 2 ^ 32) {bs rest : Bytes} {items : List (M × Nat)}
    (h : Framing.Drains (decodeFrame j cfg) bs items rest) (hlt : items.length < n) :
    ∃ err, recvMessages j r cfg (BigEndian.encode 4 n ++ bs) = .error err := by
  cases hr : r.acceptBi with
  | error e => exact ⟨_, by rw [recvMessages, hr]; rfl⟩
  | ok u =>
      rw [recvMessages_count j hr cfg hn]
      exact recvFrames_of_lt r h hlt

/-- So is a stream that ends within the count. -/
theorem recvMessages_of_short (j : Json M) (r : Inbound) (cfg : QuicAdapterConfig) {bs : Bytes}
    (h : bs.length < 4) : ∃ err, recvMessages j r cfg bs = .error err := by
  cases hr : r.acceptBi with
  | error e => exact ⟨_, by rw [recvMessages, hr]; rfl⟩
  | ok u => exact ⟨_, by rw [recvMessages, hr, readExact_of_lt r h]; rfl⟩

/-- The frames that were written are those of the first messages, and of all when
    sending them ended well. -/
theorem sendFrames_sent (j : Json M) (q : Outbound) (cfg : QuicAdapterConfig) (n : Nat)
    (msgs : List M) :
    ∃ sent, Sent j cfg sent ∧ (sendFrames j q cfg n msgs).1 = Framing.stream sent ∧
      (((sendFrames j q cfg n msgs).2 = .ok () ∧ sent.map Prod.fst = msgs) ∨
        ((∃ err, (sendFrames j q cfg n msgs).2 = .error err) ∧ sent.length < msgs.length)) := by
  induction msgs generalizing n with
  | nil => exact ⟨[], fun _ h => absurd h List.not_mem_nil, rfl, Or.inl ⟨rfl, rfl⟩⟩
  | cons msg msgs ih =>
      have hnone : Sent j cfg [] := fun _ h => absurd h List.not_mem_nil
      rw [sendFrames]
      -- The loop ends at the first message that does not encode or is not written.
      cases hframe : encodeFrame j cfg msg with
      | error e => exact ⟨[], hnone, rfl, Or.inr ⟨⟨e, rfl⟩, Nat.succ_pos _⟩⟩
      | ok bytes =>
          cases q.writeAll n with
          | error e => exact ⟨[], hnone, rfl, Or.inr ⟨⟨_, rfl⟩, Nat.succ_pos _⟩⟩
          | ok u =>
              rcases ih (n + 1) with ⟨sent, hsent, hwritten, hend⟩
              refine ⟨(msg, bytes) :: sent, ?_, ?_, ?_⟩
              · intro p hp
                rcases List.mem_cons.mp hp with rfl | hp
                · exact hframe
                · exact hsent p hp
              · rw [Framing.stream_cons, ← hwritten]
                rfl
              · refine hend.imp ?_ ?_
                · intro h
                  exact ⟨h.1, by rw [List.map_cons, h.2]⟩
                · intro h
                  exact ⟨h.1, Nat.succ_lt_succ h.2⟩

/-- With a message that does not encode, sending the frames does not end well. -/
theorem sendFrames_ne_ok {j : Json M} {cfg : QuicAdapterConfig} {msgs : List M} {msg : M}
    (hmsg : msg ∈ msgs) {e : MqlError} (he : encodeFrame j cfg msg = .error e) (q : Outbound)
    (n : Nat) : (sendFrames j q cfg n msgs).2 ≠ .ok () := by
  intro h
  rcases sendFrames_sent j q cfg n msgs with ⟨sent, hsent, _, ⟨_, hall⟩ | ⟨⟨err, herr⟩, _⟩⟩
  · -- Every message would have a frame.
    rw [← hall, List.mem_map] at hmsg
    rcases hmsg with ⟨p, hp, rfl⟩
    rw [hsent p hp] at he
    exact absurd he (by simp only [reduceCtorEq, not_false_eq_true])
  · rw [herr] at h
    exact absurd h (by simp only [reduceCtorEq, not_false_eq_true])

/-- Sending either fails before anything is written, or writes the count and some
    frames: those of all messages, or of fewer and then it fails. -/
theorem sendMessages_cases (j : Json M) (q : Outbound) (msgs : List M) (cfg : QuicAdapterConfig) :
    (∃ err, sendMessages j q msgs cfg = ([], .error err)) ∨
      ∃ sent, msgs.length < 2 ^ 32 ∧ Sent j cfg sent ∧
        (sendMessages j q msgs cfg).1 =
          BigEndian.encode 4 msgs.length ++ Framing.stream sent ∧
        ((sent.map Prod.fst = msgs ∧ (sendFrames j q cfg 1 msgs).2 = .ok ()) ∨
          (sent.length < msgs.length ∧ ∃ err, (sendMessages j q msgs cfg).2 = .error err)) := by
  unfold sendMessages
  by_cases hlen : 2 ^ 32 ≤ msgs.length
  · rw [if_pos hlen]
    exact Or.inl ⟨_, rfl⟩
  · rw [if_neg hlen]
    cases q.openBi with
    | error e => exact Or.inl ⟨_, rfl⟩
    | ok u =>
        cases q.writeAll 0 with
        | error e => exact Or.inl ⟨_, rfl⟩
        -- The count is on the stream, and stays there whatever becomes of the frames.
        | ok u =>
            right
            rcases sendFrames_sent j q cfg 1 msgs with ⟨sent, hsent, hwritten, hend⟩
            refine ⟨sent, Nat.lt_of_not_le hlen, hsent, ?_, ?_⟩
            · rcases hframes : sendFrames j q cfg 1 msgs with ⟨written, err | u⟩
              · rw [hframes] at hwritten
                rw [← hwritten]
              · rw [hframes] at hwritten
                rw [← hwritten]
            · rcases hend with ⟨hok, hall⟩ | ⟨⟨err, herr⟩, hfew⟩
              · exact Or.inl ⟨hall, hok⟩
              · refine Or.inr ⟨hfew, err, ?_⟩
                rcases hframes : sendFrames j q cfg 1 msgs with ⟨written, err' | u⟩
                · rw [hframes] at herr
                  exact herr
                · rw [hframes] at herr
                  exact absurd herr (by simp only [reduceCtorEq, not_false_eq_true])

/-- A batch that was sent is received. -/
theorem recvMessages_sent {j : Json M} (hj : j.RoundTrips) {cfg : QuicAdapterConfig}
    (hcfg : cfg.maxMessageBytes.toNat < 2 ^ 32) {r : Inbound} (hr : r.acceptBi = .ok ())
    {sent : List (M × Bytes)} (hlen : sent.length < 2 ^ 32) (hsent : Sent j cfg sent) :
    recvMessages j r cfg (BigEndian.encode 4 sent.length ++ Framing.stream sent) =
      .ok (sent.map Prod.fst) := by
  have hdrains := (incremental_decodeFrame j cfg).drains_of_framed (hsent.framed hj hcfg)
  have hcount : sent.length ≤ (Framing.counted sent).length := by
    rw [Framing.length_counted]
  rw [recvMessages_count j hr cfg hlen, recvFrames_of_le r hdrains hcount,
    Framing.map_fst_take_counted]

/-- A proper part of it is an error. -/
theorem recvMessages_cut {j : Json M} (hj : j.RoundTrips) {cfg : QuicAdapterConfig}
    (hcfg : cfg.maxMessageBytes.toNat < 2 ^ 32) (r : Inbound) {sent : List (M × Bytes)}
    (hlen : sent.length < 2 ^ 32) (hsent : Sent j cfg sent) {p : Bytes}
    (hp : p <+: BigEndian.encode 4 sent.length ++ Framing.stream sent)
    (hne : p ≠ BigEndian.encode 4 sent.length ++ Framing.stream sent) :
    ∃ err, recvMessages j r cfg p = .error err := by
  have hfour : (BigEndian.encode 4 sent.length).length = 4 := BigEndian.length_encode 4 _
  by_cases hshort : p.length < 4
  · exact recvMessages_of_short j r cfg hshort
  · -- The count arrived, and the cut is in a frame.
    rcases List.prefix_of_prefix_length_le (List.prefix_append _ _) hp (by omega) with ⟨b, rfl⟩
    rw [List.prefix_append_right_inj] at hp
    rw [ne_eq, List.append_cancel_left_eq] at hne
    rcases (incremental_decodeFrame j cfg).drains_of_cut (hsent.framed hj hcfg) hp with
      ⟨k, rest, hdrains, hsplit, hk, hin⟩
    have hproper : b.length < (Framing.stream sent).length := by
      have hle := hp.length_le
      have hneq : b.length ≠ (Framing.stream sent).length := fun heq =>
        hne (hp.eq_of_length heq)
      omega
    refine recvMessages_of_lt r hlen hdrains ?_
    rw [Framing.length_counted, List.length_take]
    by_contra hall
    -- The last frame would lie in what arrived.
    have hpos : 0 < sent.length := by
      by_contra hzero
      rw [List.eq_nil_of_length_eq_zero (by omega : sent.length = 0), Framing.stream_nil] at hproper
      exact Nat.not_lt_zero _ hproper
    have hlast := (hin (sent.length - 1) (by omega)).mp (by omega)
    rw [Nat.sub_add_cancel hpos, List.take_length] at hlast
    omega

/-- A batch is received as a whole or not at all. When sending it ended well, a
    receiver of what was written gets the messages in order, and of any proper
    part an error. When a message does not encode, sending fails, and so does
    receiving what was written. -/
theorem batch_all_or_nothing (j : Json M) (hj : j.RoundTrips) (cfg : QuicAdapterConfig)
    (hcfg : cfg.maxMessageBytes.toNat < 2 ^ 32) (q : Outbound) (r : Inbound) (msgs : List M) :
    (∀ b, sendMessages j q msgs cfg = (b, .ok ()) →
      (r.acceptBi = .ok () → recvMessages j r cfg b = .ok msgs) ∧
        ∀ p, p <+: b → p ≠ b → ∃ err, recvMessages j r cfg p = .error err) ∧
      ∀ msg ∈ msgs, ∀ e, encodeFrame j cfg msg = .error e →
        (∃ err, (sendMessages j q msgs cfg).2 = .error err) ∧
          ∃ err, recvMessages j r cfg (sendMessages j q msgs cfg).1 = .error err := by
  refine ⟨?_, ?_⟩
  · intro b hb
    rcases sendMessages_cases j q msgs cfg with ⟨err, herr⟩ |
      ⟨sent, hlen, hsent, hwritten, ⟨rfl, _⟩ | ⟨_, err, herr⟩⟩
    · rw [herr, Prod.mk.injEq] at hb
      exact absurd hb.2 (by simp only [reduceCtorEq, not_false_eq_true])
    · rw [hb, List.length_map] at hwritten
      rw [List.length_map] at hlen
      subst hwritten
      refine ⟨fun hr => recvMessages_sent hj hcfg hr hlen hsent, ?_⟩
      intro p hp hne
      exact recvMessages_cut hj hcfg r hlen hsent hp hne
    · rw [hb] at herr
      exact absurd herr (by simp only [reduceCtorEq, not_false_eq_true])
  · intro msg hmsg e he
    rcases sendMessages_cases j q msgs cfg with ⟨err, herr⟩ |
      ⟨sent, hlen, hsent, hwritten, ⟨_, hok⟩ | ⟨hfew, herr⟩⟩
    · rw [herr]
      exact ⟨⟨err, rfl⟩, recvMessages_of_short j r cfg (by rw [List.length_nil]; omega)⟩
    · exact absurd hok (sendFrames_ne_ok hmsg he q 1)
    -- The count promises more frames than were written.
    · refine ⟨herr, ?_⟩
      rw [hwritten]
      refine recvMessages_of_lt r hlen
        ((incremental_decodeFrame j cfg).drains_of_framed (hsent.framed hj hcfg)) ?_
      rwa [Framing.length_counted]

/-- Two messages over a connection whose calls succeed. -/
theorem batch_all_or_nothing_jsonBool :
    recvMessages jsonBool ⟨.ok (), fun _ => "stream finished early"⟩ .default
        (BigEndian.encode 4 2 ++ Framing.stream sentBool) = .ok [true, false] ∧
      ∃ err, recvMessages jsonBool ⟨.ok (), fun _ => "stream finished early"⟩ .default
        (BigEndian.encode 4 2) = .error err := by
  have h := (batch_all_or_nothing jsonBool roundTrips_jsonBool .default (by decide)
    ⟨.ok (), fun _ => .ok (), .ok ()⟩ ⟨.ok (), fun _ => "stream finished early"⟩
    [true, false]).1 (BigEndian.encode 4 2 ++ Framing.stream sentBool) (by rfl)
  exact ⟨h.1 rfl, h.2 _ (List.prefix_append _ _) (by decide)⟩

end Quic

end Seven
