import Seven.Belief.Engine

/-!
# Random Draws

The random generator as an arbitrary source of draws. `StdRng` is seeded with a
`u64` and drawn from twice: a number in `0.0..1.0`, and an index in `0..=n`.
Nothing is assumed of the draws but their ranges, so a result about the code that
uses them holds for every sequence of draws.

Both lossy channels of the repository decide about a message with the same two
draws, which `fate` is.

## Main definitions

* `Generator`: A source of draws.
* `Fate`, `fate`: What becomes of one message.
-/

namespace Seven

/-- A source of draws with states in `σ`. -/
structure Generator (σ F : Type) where
  seedFromU64 : UInt64 → σ
  /-- `random_range(0.0..1.0)`. -/
  unit : σ → F × σ
  /-- `random_range(0..=n)`. -/
  upTo : σ → (n : Nat) → Fin (n + 1) × σ

/-- What becomes of one message. -/
inductive Fate where
  | lost
  | duplicated
  | delivered
  deriving DecidableEq, Repr

namespace Fate

/-- The copies that arrive. -/
def copies {α : Type} (m : α) : Fate → List α
  | lost => []
  | duplicated => [m, m]
  | delivered => [m]

end Fate

variable {σ F : Type} [F64 F]

/-- Loss is decided first; duplication with the next draw. -/
def Generator.fate (g : Generator σ F) (seed : UInt64) (lossP dupP : F) : Fate :=
  let (loss, rng) := g.unit (g.seedFromU64 seed)
  if F64.gt lossP loss then .lost
  else
    let (dup, _) := g.unit rng
    if F64.gt dupP dup then .duplicated else .delivered

end Seven
