import Mathlib.Algebra.GroupWithZero.Nat
import Mathlib.Data.List.Basic
import Mathlib.Tactic.TypeStar

/-!
# Incremental Decoding

A decoder that is given the front of a stream answers with a value and the number
of elements it took, with an error, or with `none` when it needs more. A reader
calls it again and again and drops what was taken; `Drains` is what it gets.

When an answer other than `none` never changes as more of the stream arrives, a
stream of whole frames may be cut anywhere: what is drained from the part before
the cut are the values of the frames that lie in it (`drains_of_cut`).

## Main definitions

* `Drains`: What is taken from a buffer, call by call, and what is left.
* `Takes`: What a number of calls takes.
* `Incremental`: The answers do not depend on what has not arrived.
* `Framed`: Values with their frames.

## Theorems

* `Drains.unique`, `Drains.iff`: Draining is deterministic.
* `Takes.prefix_of_drains`: What is taken is drained first.
* `Incremental.none_of_cut`: A part of a frame is not decided.
* `Incremental.drains_of_framed`: What a stream of frames drains to.
* `Incremental.drains_of_cut`: What a cut stream of frames drains to.
-/

namespace Framing

variable {α β ε : Type*} (decode : List β → Except ε (Option (α × Nat)))

/-- What repeated calls take from a buffer, with the number of elements each took,
    and what is left when the decoder asks for more. -/
inductive Drains : List β → List (α × Nat) → List β → Prop where
  | done {buf : List β} (h : decode buf = .ok none) : Drains buf [] buf
  | next {buf rest : List β} {a : α} {n : Nat} {items : List (α × Nat)}
      (h : decode buf = .ok (some (a, n))) (hrest : Drains (buf.drop n) items rest) :
      Drains buf ((a, n) :: items) rest

/-- What calls in a row take from a buffer, and what is left after the last. -/
inductive Takes : List β → List (α × Nat) → List β → Prop where
  | nil {buf : List β} : Takes buf [] buf
  | cons {buf rest : List β} {a : α} {n : Nat} {items : List (α × Nat)}
      (h : decode buf = .ok (some (a, n))) (hrest : Takes (buf.drop n) items rest) :
      Takes buf ((a, n) :: items) rest

/-- The answers do not depend on what has not arrived. -/
structure Incremental : Prop where
  empty : decode [] = .ok none
  stable : ∀ buf tail, decode buf ≠ .ok none → decode (buf ++ tail) = decode buf
  bounded : ∀ buf a n, decode buf = .ok (some (a, n)) → n ≤ buf.length

/-- Values with their frames: each frame is taken whole. -/
def Framed (sent : List (α × List β)) : Prop :=
  ∀ p ∈ sent, decode p.2 = .ok (some (p.1, p.2.length))

/-- The stream of the frames. -/
def stream (sent : List (α × List β)) : List β :=
  (sent.map Prod.snd).flatten

/-- The values with the lengths of their frames. -/
def counted (sent : List (α × List β)) : List (α × Nat) :=
  sent.map fun p => (p.1, p.2.length)

variable {decode}

theorem eq_of_some {buf : List β} {a a' : α} {n n' : Nat} (h : decode buf = .ok (some (a, n)))
    (h' : decode buf = .ok (some (a', n'))) : a = a' ∧ n = n' := by
  rw [h, Except.ok.injEq, Option.some.injEq, Prod.mk.injEq] at h'
  exact h'

theorem ne_none_of_some {buf : List β} {a : α} {n : Nat} (h : decode buf = .ok (some (a, n))) :
    decode buf ≠ .ok none := by
  rw [h]
  simp only [ne_eq, Except.ok.injEq, reduceCtorEq, not_false_eq_true]

/-- Draining is deterministic. -/
theorem Drains.unique {buf rest rest' : List β} {items items' : List (α × Nat)}
    (h : Drains decode buf items rest) (h' : Drains decode buf items' rest') :
    items = items' ∧ rest = rest' := by
  induction h generalizing items' with
  | done h =>
      cases h' with
      | done _ => exact ⟨rfl, rfl⟩
      | next h' _ => exact absurd h (ne_none_of_some h')
  | next h _ ih =>
      cases h' with
      | done h' => exact absurd h' (ne_none_of_some h)
      | next h' hrest' =>
          rcases eq_of_some h h' with ⟨ha, hn⟩
          subst ha hn
          rcases ih hrest' with ⟨hitems, hrest⟩
          exact ⟨by rw [hitems], hrest⟩

/-- What draining gives is all it gives. -/
theorem Drains.iff {buf rest rest' : List β} {items items' : List (α × Nat)}
    (h : Drains decode buf items rest) :
    Drains decode buf items' rest' ↔ items' = items ∧ rest' = rest := by
  constructor
  · intro h'
    exact h'.unique h
  · intro h'
    rw [h'.1, h'.2]
    exact h

/-- The first items that are drained are taken. -/
theorem Drains.takes_take {buf rest : List β} {items : List (α × Nat)}
    (h : Drains decode buf items rest) (n : Nat) :
    ∃ rest', Takes decode buf (items.take n) rest' := by
  induction h generalizing n with
  | done _ => exact ⟨_, by rw [List.take_nil]; exact .nil⟩
  | next h _ ih =>
      cases n with
      | zero => exact ⟨_, .nil⟩
      | succ n =>
          rcases ih n with ⟨rest', hrest'⟩
          exact ⟨rest', .cons h hrest'⟩

/-- What is taken are the first items that are drained. -/
theorem Takes.prefix_of_drains {buf rest rest' : List β} {items items' : List (α × Nat)}
    (h : Takes decode buf items rest) (hdrains : Drains decode buf items' rest') :
    items <+: items' := by
  induction h generalizing items' with
  | nil => exact List.nil_prefix
  | cons h _ ih =>
      cases hdrains with
      | done hnone => exact absurd hnone (ne_none_of_some h)
      | next h' hrest' =>
          rcases eq_of_some h h' with ⟨ha, hn⟩
          subst ha hn
          exact (List.prefix_cons_inj _).mpr (ih hrest')

@[simp] theorem stream_nil : stream ([] : List (α × List β)) = [] := rfl

@[simp] theorem stream_cons (p : α × List β) (sent : List (α × List β)) :
    stream (p :: sent) = p.2 ++ stream sent := by
  rw [stream, List.map_cons, List.flatten_cons, stream]

/-- The counts add up to the length of the stream. -/
theorem sum_counted (sent : List (α × List β)) :
    ((counted sent).map Prod.snd).sum = (stream sent).length := by
  induction sent with
  | nil => rfl
  | cons p sent ih =>
      rw [stream_cons, List.length_append, ← ih, counted, List.map_cons, List.map_cons,
        List.sum_cons, counted]

@[simp] theorem length_counted (sent : List (α × List β)) :
    (counted sent).length = sent.length := by
  rw [counted, List.length_map]

theorem map_fst_take_counted (sent : List (α × List β)) :
    ((counted sent).take sent.length).map Prod.fst = sent.map Prod.fst := by
  rw [← length_counted sent, List.take_length, counted, List.map_map]
  rfl

theorem Framed.tail {p : α × List β} {sent : List (α × List β)} (h : Framed decode (p :: sent)) :
    Framed decode sent :=
  fun q hq => h q (List.mem_cons_of_mem _ hq)

namespace Incremental

/-- A part of a frame is not decided. -/
theorem none_of_cut (h : Incremental decode) {a : α} {frame buf : List β}
    (hframe : decode frame = .ok (some (a, frame.length))) (hbuf : buf <+: frame)
    (hlen : buf.length < frame.length) : decode buf = .ok none := by
  by_contra hne
  rcases hbuf with ⟨tail, htail⟩
  -- A decision on the part would be the one on the frame, which takes too much.
  have hstable := h.stable buf tail hne
  rw [htail, hframe] at hstable
  have hle := h.bounded buf a frame.length hstable.symm
  omega

theorem decode_append (h : Incremental decode) {a : α} {frame : List β}
    (hframe : decode frame = .ok (some (a, frame.length))) (tail : List β) :
    decode (frame ++ tail) = .ok (some (a, frame.length)) := by
  rw [h.stable frame tail (ne_none_of_some hframe), hframe]

/-- A stream that goes on after a frame drains to its value first. -/
theorem drains_cons (h : Incremental decode) {a : α} {frame buf rest : List β}
    {items : List (α × Nat)} (hframe : decode frame = .ok (some (a, frame.length)))
    (hbuf : Drains decode buf items rest) :
    Drains decode (frame ++ buf) ((a, frame.length) :: items) rest := by
  refine .next (h.decode_append hframe buf) ?_
  rwa [List.drop_left]

/-- A stream of frames drains to all of their values. -/
theorem drains_of_framed (h : Incremental decode) {sent : List (α × List β)}
    (hsent : Framed decode sent) : Drains decode (stream sent) (counted sent) [] := by
  induction sent with
  | nil => exact .done h.empty
  | cons p sent ih =>
      rw [stream_cons]
      exact h.drains_cons (hsent p List.mem_cons_self) (ih hsent.tail)

/-- From a stream of frames all of their values are taken, whatever follows. -/
theorem takes_of_framed (h : Incremental decode) {sent : List (α × List β)}
    (hsent : Framed decode sent) (rest : List β) :
    Takes decode (stream sent ++ rest) (counted sent) rest := by
  induction sent with
  | nil => exact .nil
  | cons p sent ih =>
      rw [stream_cons, List.append_assoc]
      refine .cons (h.decode_append (hsent p List.mem_cons_self) _) ?_
      rw [List.drop_left]
      exact ih hsent.tail

/-- Draining what came before a cut gives the values of the frames that lie in it,
    in order, and leaves the part of the frame that was cut. -/
theorem drains_of_cut (h : Incremental decode) {sent : List (α × List β)}
    (hsent : Framed decode sent) {buf : List β} (hbuf : buf <+: stream sent) :
    ∃ k rest, Drains decode buf (counted (sent.take k)) rest ∧
      buf = stream (sent.take k) ++ rest ∧ k ≤ sent.length ∧
      ∀ i < sent.length, i < k ↔ (stream (sent.take (i + 1))).length ≤ buf.length := by
  induction sent generalizing buf with
  | nil =>
      rw [stream_nil, List.prefix_nil] at hbuf
      subst hbuf
      exact ⟨0, [], .done h.empty, rfl, Nat.le_refl 0, fun i hi => absurd hi (Nat.not_lt_zero i)⟩
  | cons p sent ih =>
      rw [stream_cons] at hbuf
      have hframe := hsent p List.mem_cons_self
      by_cases hlen : p.2.length ≤ buf.length
      · -- The first frame lies in the buffer.
        rcases List.prefix_of_prefix_length_le (List.prefix_append p.2 _) hbuf hlen with
          ⟨buf', rfl⟩
        rw [List.prefix_append_right_inj] at hbuf
        rcases ih hsent.tail hbuf with ⟨k, rest, hdrains, hsplit, hk, hin⟩
        refine ⟨k + 1, rest, h.drains_cons hframe hdrains, ?_, Nat.succ_le_succ hk, ?_⟩
        · rw [List.take_succ_cons, stream_cons, List.append_assoc, ← hsplit]
        · intro i hi
          rw [List.take_succ_cons, stream_cons, List.length_append, List.length_append]
          cases i with
          | zero =>
              rw [List.take_zero, stream_nil, List.length_nil]
              omega
          | succ i =>
              have hi' := hin i (Nat.lt_of_succ_lt_succ hi)
              omega
      · -- The buffer ends within the first frame.
        have hcut : buf <+: p.2 :=
          List.prefix_of_prefix_length_le hbuf (List.prefix_append p.2 _) (by omega)
        refine ⟨0, buf, .done (h.none_of_cut hframe hcut (by omega)), rfl, Nat.zero_le _, ?_⟩
        intro i _
        rw [List.take_succ_cons, stream_cons, List.length_append]
        omega

end Incremental

end Framing
