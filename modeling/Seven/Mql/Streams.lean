import Seven.Mql.Socket

/-!
# Streams of Either Kind

A connection carries streams of two kinds: one message in its frame, or a batch behind
its count. Nothing on the wire says which it is, and the receiver picks its reader. The
stream may end early besides, when a write fails or the connection breaks.

Nothing is misread. A limit below `2 ^ 24` makes the length of every frame start with a
zero byte, which no text does, and the brace at the start of a text makes any length
that is read from it too large. So whatever arrives of a stream, a reader returns
something only when the stream is of its kind and arrived whole, and then it is what
was sent (`streams_exact`).

## Main definitions

* `Json.Objects`: Texts are objects.
* `sendMessage`: Sending one message.
* `Sending`, `Sending.send`: What is sent on a stream.
* `Sending.wire`, `Sending.Whole`: All that may be written, and a stream that is whole.

## Theorems

* `recvMessages_frame_ne`, `recvMessage_batch_ne`: The reader of the other kind.
* `recvMessage_cut_iff`, `recvMessages_cut_iff`: The reader of the kind.
* `streams_exact`: What is read of a stream.
-/

namespace Seven

namespace Quic

variable {M : Type}

/-- The code of the brace that opens an object. -/
def brace : UInt8 := 123

/-- Messages are written as objects, and neither nothing nor a text behind a zero byte
    is read. -/
structure Json.Objects (j : Json M) : Prop where
  opens : ∀ msg body, j.toVec msg = .ok body → ∃ rest, body = brace :: rest
  empty : ∀ msg, j.fromSlice [] ≠ .ok msg
  zero : ∀ rest msg, j.fromSlice (0 :: rest) ≠ .ok msg

/-- Send one message over a stream of its own. -/
def sendMessage (j : Json M) (q : Outbound) (msg : M) (cfg : QuicAdapterConfig) :
    Bytes × Except MqlError Unit :=
  match encodeFrame j cfg msg with
  | .error e => ([], .error e)
  | .ok bytes =>
      match q.openBi, q.writeAll 0 with
      | .error e, _ => ([], .error (.quic ("open_bi failed: " ++ e)))
      | .ok (), .error e => ([], .error (.quic ("write failed: " ++ e)))
      | .ok (), .ok () => (bytes, q.finish.mapError fun e => .quic ("finish failed: " ++ e))

/-- What is sent on a stream. -/
inductive Sending (M : Type) where
  | message (msg : M)
  | batch (msgs : List M)

/-- The messages before the first that does not encode, with their frames. -/
def encoded (j : Json M) (cfg : QuicAdapterConfig) : List M → List (M × Bytes)
  | [] => []
  | msg :: msgs =>
      match encodeFrame j cfg msg with
      | .error _ => []
      | .ok frame => (msg, frame) :: encoded j cfg msgs

namespace Sending

/-- Send it: the bytes of the writes that succeeded and how it ended. -/
def send (j : Json M) (q : Outbound) (cfg : QuicAdapterConfig) :
    Sending M → Bytes × Except MqlError Unit
  | .message msg => sendMessage j q msg cfg
  | .batch msgs => sendMessages j q msgs cfg

/-- All that may be written, if no write fails. -/
def wire (j : Json M) (cfg : QuicAdapterConfig) : Sending M → Bytes
  | .message msg => Framing.stream (encoded j cfg [msg])
  | .batch msgs =>
      if msgs.length < 2 ^ 32 then
        BigEndian.encode 4 msgs.length ++ Framing.stream (encoded j cfg msgs)
      else []

/-- The bytes are all of it. -/
def Whole (j : Json M) (cfg : QuicAdapterConfig) (b : Bytes) : Sending M → Prop
  | .message msg => encodeFrame j cfg msg = .ok b
  | .batch msgs =>
      msgs.length < 2 ^ 32 ∧ ∃ sent, Sent j cfg sent ∧ sent.map Prod.fst = msgs ∧
        b = BigEndian.encode 4 msgs.length ++ Framing.stream sent

end Sending

section Encoded

variable (j : Json M) (cfg : QuicAdapterConfig)

theorem encoded_cons_of_ok {msg : M} {frame : Bytes} (h : encodeFrame j cfg msg = .ok frame)
    (msgs : List M) : encoded j cfg (msg :: msgs) = (msg, frame) :: encoded j cfg msgs := by
  rw [encoded, h]

theorem encoded_cons_of_error {msg : M} {e : MqlError} (h : encodeFrame j cfg msg = .error e)
    (msgs : List M) : encoded j cfg (msg :: msgs) = [] := by
  rw [encoded, h]

theorem sent_encoded (msgs : List M) : Sent j cfg (encoded j cfg msgs) := by
  induction msgs with
  | nil => exact fun _ h => absurd h List.not_mem_nil
  | cons msg msgs ih =>
      cases hframe : encodeFrame j cfg msg with
      | error e =>
          rw [encoded_cons_of_error j cfg hframe]
          exact fun _ h => absurd h List.not_mem_nil
      | ok frame =>
          rw [encoded_cons_of_ok j cfg hframe]
          intro p hp
          rcases List.mem_cons.mp hp with rfl | hp
          · exact hframe
          · exact ih p hp

theorem encoded_initial (msgs : List M) : (encoded j cfg msgs).map Prod.fst <+: msgs := by
  induction msgs with
  | nil => exact List.nil_prefix
  | cons msg msgs ih =>
      cases hframe : encodeFrame j cfg msg with
      | error e =>
          rw [encoded_cons_of_error j cfg hframe]
          exact List.nil_prefix
      | ok frame =>
          rw [encoded_cons_of_ok j cfg hframe, List.map_cons]
          exact (List.prefix_cons_inj msg).mpr ih

/-- When all messages encode, all of them are there. -/
theorem encoded_map_fst {sent : List (M × Bytes)} (h : Sent j cfg sent) :
    encoded j cfg (sent.map Prod.fst) = sent := by
  induction sent with
  | nil => rfl
  | cons p sent ih =>
      rw [List.map_cons, encoded_cons_of_ok j cfg (h p List.mem_cons_self),
        ih fun q hq => h q (List.mem_cons_of_mem p hq)]

/-- The frames that are written are the first of those that encode. -/
theorem sendFrames_part (q : Outbound) (n : Nat) (msgs : List M) :
    (sendFrames j q cfg n msgs).1 <+: Framing.stream (encoded j cfg msgs) := by
  induction msgs generalizing n with
  | nil => exact List.nil_prefix
  | cons msg msgs ih =>
      rw [sendFrames]
      cases hframe : encodeFrame j cfg msg with
      | error e => exact List.nil_prefix
      | ok frame =>
          rw [encoded_cons_of_ok j cfg hframe, Framing.stream_cons]
          cases q.writeAll n with
          | error e => exact List.nil_prefix
          | ok u => exact (List.prefix_append_right_inj frame).mpr (ih (n + 1))

/-- A message is written when it encodes and no call fails. -/
theorem sendMessage_written (q : Outbound) (msg : M) :
    (sendMessage j q msg cfg).1 <+: (Sending.message msg).wire j cfg ∧
      ((sendMessage j q msg cfg).2 = .ok () →
        (Sending.message msg).Whole j cfg (sendMessage j q msg cfg).1) := by
  have hfailed (e : MqlError) : ([] : Bytes) <+: (Sending.message msg).wire j cfg ∧
      ((Except.error e : Except MqlError Unit) = .ok () → (Sending.message msg).Whole j cfg []) :=
    And.intro List.nil_prefix fun h => absurd h (by simp only [reduceCtorEq, not_false_eq_true])
  unfold sendMessage
  cases hframe : encodeFrame j cfg msg with
  | error e => exact hfailed e
  | ok frame =>
      cases q.openBi with
      | error e => exact hfailed _
      | ok u =>
          cases q.writeAll 0 with
          | error e => exact hfailed _
          | ok u =>
              refine ⟨?_, fun _ => hframe⟩
              rw [Sending.wire, encoded_cons_of_ok j cfg hframe, Framing.stream_cons]
              exact List.prefix_append frame _

/-- Of a batch the count and the first frames are written. -/
theorem sendMessages_part (q : Outbound) (msgs : List M) :
    (sendMessages j q msgs cfg).1 <+: (Sending.batch msgs).wire j cfg := by
  rw [sendMessages, Sending.wire]
  by_cases hlen : 2 ^ 32 ≤ msgs.length
  · rw [if_pos hlen]
    exact List.nil_prefix
  · rw [if_neg hlen, if_pos (Nat.lt_of_not_le hlen)]
    cases q.openBi with
    | error e => exact List.nil_prefix
    | ok u =>
        cases q.writeAll 0 with
        | error e => exact List.nil_prefix
        | ok u =>
            have hframes := sendFrames_part j cfg q 1 msgs
            rcases hsend : sendFrames j q cfg 1 msgs with ⟨written, err | u⟩
            · rw [hsend] at hframes
              exact (List.prefix_append_right_inj _).mpr hframes
            · rw [hsend] at hframes
              exact (List.prefix_append_right_inj _).mpr hframes

/-- Whatever fails on the way, a part of the wire is written, and when nothing fails
    all of it. -/
theorem send_written (q : Outbound) (s : Sending M) :
    (s.send j q cfg).1 <+: s.wire j cfg ∧
      ((s.send j q cfg).2 = .ok () → s.Whole j cfg (s.send j q cfg).1) := by
  cases s with
  | message msg => exact sendMessage_written j cfg q msg
  | batch msgs =>
      refine ⟨sendMessages_part j cfg q msgs, ?_⟩
      intro hok
      change (sendMessages j q msgs cfg).2 = .ok () at hok
      rcases sendMessages_cases j q msgs cfg with ⟨err, herr⟩ |
        ⟨sent, hlen, hsent, hwritten, ⟨hall, _⟩ | ⟨_, err, herr⟩⟩
      · rw [herr] at hok
        exact absurd hok (by simp only [reduceCtorEq, not_false_eq_true])
      · exact ⟨hlen, sent, hsent, hall, hwritten⟩
      · rw [herr] at hok
        exact absurd hok (by simp only [reduceCtorEq, not_false_eq_true])

end Encoded

section Read

variable {j : Json M} {cfg cfg' : QuicAdapterConfig} {r : Inbound}

/-- A larger limit lets the same frames pass. -/
theorem Sent.mono (hle : cfg.maxMessageBytes.toNat ≤ cfg'.maxMessageBytes.toNat)
    {sent : List (M × Bytes)} (h : Sent j cfg sent) : Sent j cfg' sent := by
  intro p hp
  rcases (encodeFrame_eq_ok_iff j cfg p.1 p.2).mp (h p hp) with ⟨body, hbody, hmax, hframe⟩
  exact (encodeFrame_eq_ok_iff j cfg' p.1 p.2).mpr ⟨body, hbody, hmax.trans hle, hframe⟩

/-- The length of a short text starts with a zero byte. -/
theorem encode_of_lt {n : Nat} (hn : n < 2 ^ 24) : ∃ bs, BigEndian.encode 4 n = 0 :: bs := by
  refine ⟨BigEndian.encode 3 n, ?_⟩
  have hbytes : BigEndian.encode 4 n = UInt8.ofNat (n / 256 / 256 / 256) ::
      BigEndian.encode 3 n := rfl
  have hzero : n / 256 / 256 / 256 = 0 := by omega
  rw [hbytes, hzero]
  rfl

/-- The frames of messages start with a zero byte. -/
theorem stream_begins (hcfg : cfg.maxMessageBytes.toNat < 2 ^ 24) {sent : List (M × Bytes)}
    (hsent : Sent j cfg sent) (hne : sent ≠ []) : ∃ bs, Framing.stream sent = 0 :: bs := by
  rcases List.exists_cons_of_ne_nil hne with ⟨p, sent', rfl⟩
  rcases (encodeFrame_eq_ok_iff j cfg p.1 p.2).mp (hsent p List.mem_cons_self) with
    ⟨body, _, hmax, hframe⟩
  rcases encode_of_lt (hmax.trans_lt hcfg) with ⟨bs, hbs⟩
  refine ⟨bs ++ body ++ Framing.stream sent', ?_⟩
  rw [Framing.stream_cons, hframe, hbs]
  rfl

/-- A length that is read from a text is large. -/
theorem le_frameLength_brace {rest : Bytes} (hlen : 4 ≤ (brace :: rest).length) :
    2 ^ 24 ≤ frameLength (brace :: rest) := by
  rcases rest with _ | ⟨a, _ | ⟨b, _ | ⟨c, rest⟩⟩⟩
  · simp only [List.length_cons, List.length_nil] at hlen
    omega
  · simp only [List.length_cons, List.length_nil] at hlen
    omega
  · simp only [List.length_cons, List.length_nil] at hlen
    omega
  · have hvalue : frameLength (brace :: a :: b :: c :: rest) =
        (((0 * 256 + 123) * 256 + a.toNat) * 256 + b.toNat) * 256 + c.toNat := rfl
    rw [hvalue]
    omega

/-- A part of a message's stream is no batch: the length of the frame would be the
    count, and the text would start with the length of the first frame. -/
theorem recvMessages_frame_ne (hj : j.Objects) (hcfg : cfg.maxMessageBytes.toNat < 2 ^ 24)
    (hr : r.acceptBi = .ok ()) {msg : M} {frame : Bytes}
    (hframe : encodeFrame j cfg msg = .ok frame)
    (hcfg' : cfg'.maxMessageBytes.toNat < 2 ^ 24) {b : Bytes} (hb : b <+: frame) (msgs : List M) :
    recvMessages j r cfg' b ≠ .ok msgs := by
  intro h
  rcases (encodeFrame_eq_ok_iff j cfg msg frame).mp hframe with ⟨body, hbody, hmax, rfl⟩
  rcases hj.opens msg body hbody with ⟨rest, rfl⟩
  rcases (recvMessages_eq_ok_iff j cfg' hr b msgs).mp h with
    ⟨items, bytes, left, hitems, rfl, htakes, _⟩
  -- The count is the length of the text, which is not empty.
  have hfour : (BigEndian.encode 4 items.length).length =
      (BigEndian.encode 4 (brace :: rest).length).length := by
    rw [BigEndian.length_encode, BigEndian.length_encode]
  have hcount := List.prefix_of_prefix_length_le ((List.prefix_append _ bytes).trans hb)
    (List.prefix_append _ _) hfour.le
  have hsame := BigEndian.encode_inj hitems (by omega) (hcount.eq_of_length hfour)
  rw [hsame, List.prefix_append_right_inj] at hb
  cases htakes with
  | nil => exact absurd hsame (by simp only [List.length_nil, List.length_cons]; omega)
  | cons hd _ =>
      rcases (decodeFrame_eq_some_iff j cfg').mp hd with ⟨hle, hlen, _, _⟩
      rcases bytes with _ | ⟨x, bytes⟩
      · rw [List.length_nil] at hlen
        omega
      · rcases List.cons_prefix_cons.mp hb with ⟨rfl, _⟩
        have hlarge : 2 ^ 24 ≤ frameLength (brace :: bytes) := le_frameLength_brace (by omega)
        omega

/-- A part of a batch's stream is no message: the count would be the length of its
    text, which would start with the length of the first frame. -/
theorem recvMessage_batch_ne (hj : j.Objects) (hcfg : cfg.maxMessageBytes.toNat < 2 ^ 24)
    (hr : r.acceptBi = .ok ()) {n : Nat} {sent : List (M × Bytes)} (hsent : Sent j cfg sent)
    {b : Bytes} (hb : b <+: BigEndian.encode 4 n ++ Framing.stream sent) (msg : M) :
    recvMessage j r cfg' b ≠ .ok msg := by
  intro h
  rcases (recvMessage_eq_ok_iff j cfg' hr b msg).mp h with ⟨m, hd⟩
  rcases (decodeFrame_eq_some_iff j cfg').mp hd with ⟨_, hlen, _, hslice⟩
  have hfour : (BigEndian.encode 4 n).length = 4 := BigEndian.length_encode 4 n
  rcases List.prefix_of_prefix_length_le (List.prefix_append _ _) hb (by omega) with ⟨bytes, rfl⟩
  rw [List.prefix_append_right_inj] at hb
  rw [List.length_append, hfour] at hlen
  rw [frameBody, List.drop_left' hfour] at hslice
  generalize frameLength (BigEndian.encode 4 n ++ bytes) = len at hlen hslice
  rcases len with _ | len
  · rw [List.take_zero] at hslice
    exact hj.empty msg hslice
  · -- Something arrived behind the count, so there is a frame.
    rcases bytes with _ | ⟨x, bytes⟩
    · rw [List.length_nil] at hlen
      omega
    · have hne : sent ≠ [] := by
        intro hnil
        rw [hnil, Framing.stream_nil, List.prefix_nil] at hb
        exact List.cons_ne_nil x bytes hb
      rcases stream_begins hcfg hsent hne with ⟨bs, hbs⟩
      rw [hbs] at hb
      rcases List.cons_prefix_cons.mp hb with ⟨rfl, _⟩
      rw [List.take_succ_cons] at hslice
      exact hj.zero _ msg hslice

/-- A message is received of a part of its stream when the part is all of it. -/
theorem recvMessage_cut_iff (hj : j.RoundTrips)
    (hle : cfg.maxMessageBytes.toNat ≤ cfg'.maxMessageBytes.toNat)
    (hcfg' : cfg'.maxMessageBytes.toNat < 2 ^ 32) (hr : r.acceptBi = .ok ()) {msg : M}
    {frame : Bytes} (hframe : encodeFrame j cfg msg = .ok frame) {b : Bytes} (hb : b <+: frame)
    (msg' : M) : recvMessage j r cfg' b = .ok msg' ↔ msg' = msg ∧ b = frame := by
  have hsent : Sent j cfg [(msg, frame)] := fun p hp => List.mem_singleton.mp hp ▸ hframe
  have hwhole := hsent.mono hle (msg, frame) List.mem_cons_self
  have hdecode := decodeFrame_encodeFrame hj hcfg' hwhole
  rw [recvMessage_eq_ok_iff j cfg' hr]
  constructor
  · intro h
    rcases h with ⟨n, hd⟩
    have hne : decodeFrame j cfg' b ≠ .ok none := Framing.ne_none_of_some hd
    rcases hb with ⟨tail, rfl⟩
    have hstable := (incremental_decodeFrame j cfg').stable b tail hne
    rw [hstable] at hdecode
    rcases Framing.eq_of_some hd hdecode with ⟨hmsg, hn⟩
    have hbounded := (incremental_decodeFrame j cfg').bounded b _ _ hd
    rw [hn, List.length_append] at hbounded
    have htail : tail = [] := List.eq_nil_of_length_eq_zero (by omega)
    exact ⟨hmsg, by rw [htail, List.append_nil]⟩
  · intro h
    rw [h.1, h.2]
    exact ⟨_, hdecode⟩

/-- A batch is received of a part of its stream when all its frames are there. -/
theorem recvMessages_cut_iff (hj : j.RoundTrips)
    (hle : cfg.maxMessageBytes.toNat ≤ cfg'.maxMessageBytes.toNat)
    (hcfg' : cfg'.maxMessageBytes.toNat < 2 ^ 32) (hr : r.acceptBi = .ok ()) {n : Nat}
    (hn : n < 2 ^ 32) {sent : List (M × Bytes)} (hsent : Sent j cfg sent) (hfew : sent.length ≤ n)
    {b : Bytes} (hb : b <+: BigEndian.encode 4 n ++ Framing.stream sent) (msgs : List M) :
    recvMessages j r cfg' b = .ok msgs ↔
      sent.length = n ∧ msgs = sent.map Prod.fst ∧
        b = BigEndian.encode 4 n ++ Framing.stream sent := by
  constructor
  · intro h
    rcases (recvMessages_eq_ok_iff j cfg' hr b msgs).mp h with
      ⟨items, bytes, left, hitems, rfl, htakes, rfl⟩
    have hfour : (BigEndian.encode 4 items.length).length = (BigEndian.encode 4 n).length := by
      rw [BigEndian.length_encode, BigEndian.length_encode]
    have hcount := List.prefix_of_prefix_length_le ((List.prefix_append _ bytes).trans hb)
      (List.prefix_append _ _) hfour.le
    have hsame := BigEndian.encode_inj hitems hn (hcount.eq_of_length hfour)
    rw [hsame, List.prefix_append_right_inj] at hb
    -- So many frames were taken, and no more than the stream has.
    rcases (incremental_decodeFrame j cfg').drains_of_cut ((hsent.mono hle).framed hj hcfg') hb with
      ⟨k, rest, hdrains, hsplit, _, _⟩
    have hprefix := htakes.prefix_of_drains hdrains
    have htaken := hprefix.length_le
    rw [Framing.length_counted, List.length_take] at htaken
    have hall : sent.take k = sent := List.take_of_length_le (by omega)
    rw [hall] at hprefix hsplit
    have hbytes : bytes = Framing.stream sent :=
      hb.eq_of_length_le (by rw [hsplit, List.length_append]; omega)
    have heq : items = Framing.counted sent :=
      hprefix.eq_of_length (by rw [Framing.length_counted]; omega)
    refine ⟨by omega, ?_, by rw [hsame, hbytes]⟩
    rw [heq, ← Framing.map_fst_take_counted, ← Framing.length_counted, List.take_length]
  · intro h
    rcases h with ⟨rfl, rfl, rfl⟩
    exact recvMessages_sent hj hcfg' hr hn (hsent.mono hle)

/-- Of an empty stream nothing is received. -/
theorem recv_nil (hr : r.acceptBi = .ok ()) :
    (∀ msg, recvMessage j r cfg' [] ≠ .ok msg) ∧ ∀ msgs, recvMessages j r cfg' [] ≠ .ok msgs := by
  refine ⟨fun msg h => ?_, fun msgs h => ?_⟩
  · rcases (recvMessage_eq_ok_iff j cfg' hr [] msg).mp h with ⟨n, hd⟩
    exact Framing.ne_none_of_some hd (incremental_decodeFrame j cfg').empty
  · rcases recvMessages_of_short j r cfg' (show ([] : Bytes).length < 4 by decide) with ⟨err, herr⟩
    rw [herr] at h
    exact absurd h (by simp only [reduceCtorEq, not_false_eq_true])

/-- When the frames that encode are those of a whole batch. -/
theorem whole_batch_iff {msgs : List M} (hlen : msgs.length < 2 ^ 32) (b : Bytes) :
    (Sending.batch msgs).Whole j cfg b ↔
      (encoded j cfg msgs).length = msgs.length ∧
        b = BigEndian.encode 4 msgs.length ++ Framing.stream (encoded j cfg msgs) := by
  change (msgs.length < 2 ^ 32 ∧ ∃ sent, Sent j cfg sent ∧ sent.map Prod.fst = msgs ∧
    b = BigEndian.encode 4 msgs.length ++ Framing.stream sent) ↔ _
  constructor
  · intro h
    rcases h with ⟨_, sent, hsent, rfl, hb⟩
    rw [encoded_map_fst j cfg hsent, List.length_map]
    rw [List.length_map] at hb
    exact ⟨rfl, hb⟩
  · intro h
    have hall := (encoded_initial j cfg msgs).eq_of_length (by rw [List.length_map, h.1])
    exact ⟨hlen, _, sent_encoded j cfg msgs, hall, h.2⟩

/-- What is read of a stream, however it was cut. Whatever fails while sending, a part
    of the wire is written, and all of it when nothing fails. And whatever part of the
    wire arrives, the reader of single messages returns one exactly when it was sent
    alone and arrived whole, and the reader of batches returns one exactly when it was
    sent as a batch and arrived whole. -/
theorem streams_exact (hj : j.RoundTrips) (hobjects : j.Objects)
    (hle : cfg.maxMessageBytes.toNat ≤ cfg'.maxMessageBytes.toNat)
    (hcfg' : cfg'.maxMessageBytes.toNat < 2 ^ 24) (hr : r.acceptBi = .ok ()) (s : Sending M) :
    (∀ q, (s.send j q cfg).1 <+: s.wire j cfg ∧
        ((s.send j q cfg).2 = .ok () → s.Whole j cfg (s.send j q cfg).1)) ∧
      ∀ b, b <+: s.wire j cfg →
        (∀ msg, recvMessage j r cfg' b = .ok msg ↔ s = .message msg ∧ s.Whole j cfg b) ∧
          ∀ msgs, recvMessages j r cfg' b = .ok msgs ↔ s = .batch msgs ∧ s.Whole j cfg b := by
  have hcfg := hle.trans_lt hcfg'
  refine ⟨fun q => send_written j cfg q s, ?_⟩
  intro b hb
  cases s with
  | message msg =>
      change b <+: Framing.stream (encoded j cfg [msg]) at hb
      change (∀ msg', _ ↔ Sending.message msg = .message msg' ∧ encodeFrame j cfg msg = .ok b) ∧
        ∀ msgs, _ ↔ Sending.message msg = .batch msgs ∧ _
      cases hframe : encodeFrame j cfg msg with
      | error e =>
          -- Nothing is written.
          rw [encoded_cons_of_error j cfg hframe, Framing.stream_nil, List.prefix_nil] at hb
          subst hb
          refine ⟨fun msg' => iff_of_false ((recv_nil hr).1 msg') ?_,
            fun msgs => iff_of_false ((recv_nil hr).2 msgs) ?_⟩
          · simp only [reduceCtorEq, and_false, not_false_eq_true]
          · simp only [reduceCtorEq, false_and, not_false_eq_true]
      | ok frame =>
          rw [encoded_cons_of_ok j cfg hframe, Framing.stream_cons] at hb
          change b <+: frame ++ [] at hb
          rw [List.append_nil] at hb
          refine ⟨fun msg' => ?_, fun msgs => ?_⟩
          · rw [recvMessage_cut_iff hj hle (by omega) hr hframe hb, Sending.message.injEq,
              Except.ok.injEq, eq_comm, eq_comm (a := frame)]
          · refine iff_of_false (recvMessages_frame_ne hobjects hcfg hr hframe hcfg' hb msgs) ?_
            simp only [reduceCtorEq, false_and, not_false_eq_true]
  | batch msgs =>
      by_cases hlen : msgs.length < 2 ^ 32
      · have hsent := sent_encoded j cfg msgs
        have hprefix := encoded_initial j cfg msgs
        have hfew := hprefix.length_le
        rw [List.length_map] at hfew
        rw [Sending.wire, if_pos hlen] at hb
        refine ⟨fun msg => ?_, fun msgs' => ?_⟩
        · refine iff_of_false (recvMessage_batch_ne hobjects hcfg hr hsent hb msg) ?_
          simp only [reduceCtorEq, false_and, not_false_eq_true]
        · rw [recvMessages_cut_iff hj hle (by omega) hr hlen hsent hfew hb, whole_batch_iff hlen,
            Sending.batch.injEq]
          constructor
          · intro h
            have hall := hprefix.eq_of_length (by rw [List.length_map, h.1])
            exact ⟨(h.2.1.trans hall).symm, h.1, h.2.2⟩
          · intro h
            have hall := hprefix.eq_of_length (by rw [List.length_map, h.2.1])
            exact ⟨h.2.1, h.1.symm.trans hall.symm, h.2.2⟩
      · -- A batch that is too large is not sent.
        rw [Sending.wire, if_neg hlen, List.prefix_nil] at hb
        subst hb
        refine ⟨fun msg => iff_of_false ((recv_nil hr).1 msg) ?_,
          fun msgs' => iff_of_false ((recv_nil hr).2 msgs') ?_⟩
        · simp only [reduceCtorEq, false_and, not_false_eq_true]
        · intro h
          exact hlen h.2.1

end Read

/-- The text of a record with one flag. -/
def flagText (b : Bool) : Bytes :=
  brace :: Mql.utf8 (if b then "\x22v\x22:true\x7d" else "\x22v\x22:false\x7d")

/-- The JSON of such records. -/
def jsonFlag : Json Bool :=
  { toVec := fun b => .ok (flagText b)
    fromSlice := fun bs =>
      if bs = flagText true then .ok true
      else if bs = flagText false then .ok false
      else .error "expected value" }

theorem roundTrips_jsonFlag : jsonFlag.RoundTrips := by
  intro msg body h
  have hbody : body = flagText msg := (Except.ok.inj h).symm
  rw [hbody]
  cases msg with
  | false => decide
  | true => decide

theorem objects_jsonFlag : jsonFlag.Objects where
  opens msg body h := ⟨_, (Except.ok.inj h).symm⟩
  empty msg := by
    cases msg with
    | false => decide
    | true => decide
  zero rest msg h := by
    have hne (b : Bool) : 0 :: rest ≠ flagText b := fun heq =>
      absurd (List.cons.inj heq).1 (by decide)
    simp only [jsonFlag, hne, if_false, reduceCtorEq] at h

/-- A message that arrived whole, and one that did not. -/
theorem streams_exact_jsonFlag :
    let r : Inbound := ⟨.ok (), fun _ => "stream finished early"⟩
    let b := (Sending.message true).wire jsonFlag .default
    recvMessage jsonFlag r .default b = .ok true ∧
      ∀ msg, recvMessage jsonFlag r .default b.dropLast ≠ .ok msg := by
  intro r b
  have hexact := (streams_exact roundTrips_jsonFlag objects_jsonFlag
    (le_refl QuicAdapterConfig.default.maxMessageBytes.toNat) (by decide) (show r.acceptBi = .ok ()
    from rfl) (.message true)).2
  refine ⟨((hexact b List.prefix_rfl).1 true).mpr ⟨rfl, rfl⟩, ?_⟩
  intro msg h
  have hwhole := (((hexact b.dropLast b.dropLast_prefix).1 msg).mp h).2
  exact absurd (Except.ok.inj hwhole) (by decide)

end Quic

end Seven
