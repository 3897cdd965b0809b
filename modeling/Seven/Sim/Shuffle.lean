import Seven.Sim.Channel
import Mathlib.Data.List.Permutation
import Mathlib.Data.Set.Card

/-!
# The Shuffle

The shuffle of arrivals as a function of its draws. The loop draws once for each
position from the last one down to 1, an index up to the position. Which
generator the draws come from plays no role: the arrangement is what `shuffle`
makes of the sequence drawn (`reorderInPlace_fst`).

So the sequences of draws can be counted against the arrangements. On distinct
messages they correspond one to one, and a generator that draws every sequence
equally often produces every arrangement equally often. The swaps in the log
lead from the stream to the arrangement, and backwards from it to the stream.

## Main definitions

* `Generator.drawn`: The sequence a generator draws for a shuffle.
* `Generator.scripted`: The generator that draws a given sequence.

## Theorems

* `reorderInPlace_fst`: The arrangement is a function of the draws.
* `ncard_arrangements`: How many arrangements there are.
* `reorderInPlace_bijOn`: Draws and arrangements correspond.
-/

namespace Seven

variable {σ F : Type}

namespace Generator

/-- The sequence drawn for the positions from `i` down to 1. -/
def drawn (g : Generator σ F) : (i : Nat) → σ → Swaps.Draws i
  | 0, _ => fun m => m.elim0
  | i + 1, rng => .cons (g.upTo rng (i + 1)).1 (g.drawn i (g.upTo rng (i + 1)).2)

/-- The generator that draws this sequence, and otherwise the least of a range. -/
def scripted (F : Type) [F64 F] {k : Nat} (d : Swaps.Draws k) : Generator Unit F where
  seedFromU64 := fun _ => ()
  unit := fun _ => (F64.ofInt 0, ())
  upTo := fun _ n =>
    match n with
    | 0 => (0, ())
    | m + 1 => (if h : m < k then d ⟨m, h⟩ else 0, ())

theorem drawn_scripted_castLE [F64 F] {k : Nat} (d : Swaps.Draws k) {i : Nat} (hi : i ≤ k) :
    (scripted F d).drawn i () = fun m : Fin i => d (m.castLE hi) := by
  induction i with
  | zero => exact funext fun m => m.elim0
  | succ i ih =>
      refine Swaps.Draws.ext ?_ ?_
      · rw [drawn, Swaps.Draws.first_cons]
        exact dif_pos hi
      · rw [drawn, Swaps.Draws.rest_cons]
        exact ih (Nat.le_of_succ_le hi)

/-- What it draws is the sequence. -/
theorem drawn_scripted [F64 F] {k : Nat} (d : Swaps.Draws k) : (scripted F d).drawn k () = d :=
  drawn_scripted_castLE d (Nat.le_refl k)

end Generator

namespace LossyChannel

theorem reorderFrom_fst (g : Generator σ F) (i : Nat) (rng : σ) (log : EventLog F)
    (stream : List SevenMessage) :
    (reorderFrom g i rng log stream).1 = Swaps.shuffle i (g.drawn i rng) stream := by
  induction i generalizing rng log stream with
  | zero => rfl
  | succ i ih =>
      rw [reorderFrom, Swaps.shuffle, Generator.drawn, Swaps.Draws.first_cons,
        Swaps.Draws.rest_cons]
      rcases g.upTo rng (i + 1) with ⟨j, rng'⟩
      by_cases hj : i + 1 = j
      -- A position drawn for itself stays, and swapping it with itself is no change.
      · simp only [ne_eq, hj, not_true_eq_false, if_false, List.swap_self]
        exact ih rng' log stream
      · simp only [ne_eq, hj, not_false_eq_true, if_true]
        exact ih rng' _ _

/-- The arrangement is a function of the draws. -/
theorem reorderInPlace_fst (g : Generator σ F) (seed : UInt64) (log : EventLog F)
    (stream : List SevenMessage) :
    (reorderInPlace g seed log stream).1 =
      Swaps.shuffle (stream.length - 1) (g.drawn (stream.length - 1) (g.seedFromU64 seed)) stream :=
  reorderFrom_fst g _ _ log stream

theorem reorderInPlace_scripted [F64 F] (seed : UInt64) (log : EventLog F)
    (stream : List SevenMessage) (d : Swaps.Draws (stream.length - 1)) :
    (reorderInPlace (.scripted F d) seed log stream).1 =
      Swaps.shuffle (stream.length - 1) d stream := by
  rw [reorderInPlace_fst]
  exact congrArg (Swaps.shuffle _ · stream) (Generator.drawn_scripted d)

/-- Distinct messages have as many arrangements as there are orders. -/
theorem ncard_arrangements {stream : List SevenMessage} (hstream : stream.Nodup) :
    {arranged : List SevenMessage | arranged.Perm stream}.ncard = stream.length.factorial := by
  have hset : {arranged : List SevenMessage | arranged.Perm stream} =
      (stream.permutations.toFinset : Set (List SevenMessage)) := by
    ext arranged
    rw [Set.mem_ofPred_eq, Finset.mem_coe, List.mem_toFinset, List.mem_permutations]
  rw [hset, Set.ncard_coe_finset,
    List.toFinset_card_of_nodup (List.nodup_permutations stream hstream),
    List.length_permutations]

/-- The shuffle of distinct messages is unbiased and its log is exact. The sequences
    of draws correspond one to one to the arrangements of the stream, the
    arrangement is the one of the sequence drawn, and the logged swaps lead from
    the stream to it, and backwards from it to the stream. -/
theorem reorderInPlace_bijOn [F64 F] (g : Generator σ F) (seed : UInt64) (log : EventLog F)
    (stream : List SevenMessage) (hstream : stream.Nodup) :
    Set.BijOn
        (fun d : Swaps.Draws (stream.length - 1) =>
          (reorderInPlace (.scripted F d) seed log stream).1)
        Set.univ {arranged : List SevenMessage | arranged.Perm stream} ∧
      {arranged : List SevenMessage | arranged.Perm stream}.ncard = stream.length.factorial ∧
      (reorderInPlace g seed log stream).1 =
        (reorderInPlace (.scripted F (g.drawn (stream.length - 1) (g.seedFromU64 seed))) seed log
          stream).1 ∧
      ∃ swaps, (reorderInPlace g seed log stream).2 = log.append (swaps.map reordered) ∧
        Swaps.perform stream swaps = (reorderInPlace g seed log stream).1 ∧
        Swaps.perform (reorderInPlace g seed log stream).1 swaps.reverse = stream := by
  refine ⟨⟨?_, ?_, ?_⟩, ncard_arrangements hstream, ?_, ?_⟩
  · intro d _
    change (reorderInPlace (.scripted F d) seed log stream).1.Perm stream
    rw [reorderInPlace_scripted]
    exact Swaps.shuffle_perm d stream
  · intro d _ d' _ h
    simp only [reorderInPlace_scripted] at h
    exact Swaps.shuffle_injective hstream (Nat.le_refl _) h
  · intro arranged hperm
    have hperm : arranged.Perm stream := hperm
    -- Nothing stands above the last position.
    have hdrop : arranged.drop (stream.length - 1 + 1) = stream.drop (stream.length - 1 + 1) := by
      have hlen : arranged.length = stream.length := hperm.length_eq
      rw [List.drop_eq_nil_of_le (by omega), List.drop_eq_nil_of_le (by omega)]
    rcases Swaps.exists_shuffle (Nat.le_refl _) hperm hdrop with ⟨d, hd⟩
    exact ⟨d, Set.mem_univ d, (reorderInPlace_scripted seed log stream d).trans hd⟩
  · rw [reorderInPlace_scripted, reorderInPlace_fst]
  · rcases reorderFrom_eq g (stream.length - 1) (g.seedFromU64 seed) log stream with
      ⟨swaps, heq, _⟩
    refine ⟨swaps, ?_, ?_, ?_⟩
    · rw [reorderInPlace, heq]
    · rw [reorderInPlace, heq]
    · rw [reorderInPlace, heq]
      exact Swaps.perform_reverse stream swaps

/-- Three messages have six arrangements, one for each of the six sequences. -/
theorem reorderInPlace_bijOn_three :
    let stream : List SevenMessage :=
      [⟨"a", "n", "m", [1], 0⟩, ⟨"b", "n", "m", [2], 0⟩, ⟨"c", "n", "m", [3], 0⟩]
    Set.BijOn
        (fun d : Swaps.Draws 2 => (reorderInPlace (.scripted Float d) 7 ⟨[], 0⟩ stream).1)
        Set.univ {arranged : List SevenMessage | arranged.Perm stream} ∧
      {arranged : List SevenMessage | arranged.Perm stream}.ncard = 6 := by
  intro stream
  have h := reorderInPlace_bijOn lowest 7 ⟨[], 0⟩ stream (by decide)
  exact ⟨h.1, h.2.1⟩

end LossyChannel

end Seven
