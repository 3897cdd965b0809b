import Mathlib.Data.Fin.Tuple.Basic
import Mathlib.Data.List.Nodup
import Mathlib.Data.List.Perm.Basic

/-!
# Sequences of Swaps

Rearranging a list by swapping positions, one pair after another. Positions
refer to the list as the swaps before have left it. A swap is its own inverse,
so the swaps performed backwards undo what they did.

The shuffle goes from a position down to 1 and swaps each with one that is drawn
at or below it. A position is final once the loop has passed it, so the
arrangement of a list without repetitions tells the draws, last position first,
and every arrangement is reached by drawing where its elements are.

## Main definitions

* `perform`: The swaps, first to last.
* `Draws`, `shuffle`: The draws of a shuffle and what it does with them.

## Theorems

* `perform_cons`: The first swap and the others.
* `perform_perm`: Swaps rearrange.
* `perform_reverse`: Swaps undone.
* `shuffle_injective`: An arrangement tells the draws.
* `exists_shuffle`: Every arrangement is drawn.
-/

namespace Swaps

variable {α : Type*}

/-- The swaps, first to last. -/
def perform (xs : List α) (swaps : List (Nat × Nat)) : List α :=
  swaps.foldl (fun xs s => xs.swap s.1 s.2) xs

@[simp] theorem perform_nil (xs : List α) : perform xs [] = xs := rfl

@[simp] theorem perform_cons (xs : List α) (s : Nat × Nat) (swaps : List (Nat × Nat)) :
    perform xs (s :: swaps) = perform (xs.swap s.1 s.2) swaps := rfl

/-- Swaps rearrange. -/
theorem perform_perm (xs : List α) (swaps : List (Nat × Nat)) : (perform xs swaps).Perm xs := by
  induction swaps generalizing xs with
  | nil => exact List.Perm.refl xs
  | cons s swaps ih => exact (ih _).trans (List.swap_perm xs s.1 s.2)

theorem perform_concat (xs : List α) (swaps : List (Nat × Nat)) (s : Nat × Nat) :
    perform xs (swaps ++ [s]) = (perform xs swaps).swap s.1 s.2 := by
  rw [perform, List.foldl_append, List.foldl_cons, List.foldl_nil, perform]

/-- The swaps performed backwards undo them. -/
theorem perform_reverse (xs : List α) (swaps : List (Nat × Nat)) :
    perform (perform xs swaps) swaps.reverse = xs := by
  induction swaps generalizing xs with
  | nil => rfl
  | cons s swaps ih =>
      rw [perform_cons, List.reverse_cons, perform_concat, ih, List.swap_swap]

section Shuffle

/-- One draw for each position from `i` down to 1: `d m` is the draw for position
    `m + 1`, at most this position. -/
abbrev Draws (i : Nat) : Type :=
  (m : Fin i) → Fin (m.val + 2)

/-- The draw for the highest position. -/
def Draws.first {i : Nat} (d : Draws (i + 1)) : Fin (i + 2) :=
  d (Fin.last i)

/-- The draws for the positions below it. -/
def Draws.rest {i : Nat} (d : Draws (i + 1)) : Draws i :=
  fun m => d m.castSucc

/-- One more draw before the others. -/
def Draws.cons {i : Nat} (j : Fin (i + 2)) (d : Draws i) : Draws (i + 1) :=
  Fin.snoc (α := fun m => Fin (m.val + 2)) d j

@[simp] theorem Draws.first_cons {i : Nat} (j : Fin (i + 2)) (d : Draws i) :
    (Draws.cons j d).first = j :=
  Fin.snoc_last (α := fun m => Fin (m.val + 2)) j d

@[simp] theorem Draws.rest_cons {i : Nat} (j : Fin (i + 2)) (d : Draws i) :
    (Draws.cons j d).rest = d :=
  funext fun m => Fin.snoc_castSucc (α := fun m => Fin (m.val + 2)) j d m

theorem Draws.ext {i : Nat} {d d' : Draws (i + 1)} (hfirst : d.first = d'.first)
    (hrest : d.rest = d'.rest) : d = d' := by
  funext m
  induction m using Fin.lastCases with
  | last => exact hfirst
  | cast m => exact congrFun hrest m

/-- Swap every position from `i` down to 1 with the one drawn for it. -/
def shuffle : (i : Nat) → Draws i → List α → List α
  | 0, _, xs => xs
  | i + 1, d, xs => shuffle i d.rest (xs.swap (i + 1) d.first)

theorem getElem?_swap_of_gt (xs : List α) {i j k : Nat} (hik : i < k) (hjk : j < k) :
    (xs.swap i j)[k]? = xs[k]? := by
  by_cases hk : k < xs.length
  · have hk' : k < (xs.swap i j).length := by rwa [List.length_swap]
    rw [List.getElem?_eq_getElem hk', List.getElem?_eq_getElem hk,
      List.getElem_swap_of_ne hik.ne' hjk.ne' hk']
  · rw [List.getElem?_eq_none_iff.mpr (by rw [List.length_swap]; omega),
      List.getElem?_eq_none_iff.mpr (by omega)]

theorem getElem?_swap_left (xs : List α) {i j : Nat} (hi : i < xs.length) (hj : j < xs.length) :
    (xs.swap i j)[i]? = xs[j]? := by
  have hi' : i < (xs.swap i j).length := by rwa [List.length_swap]
  rw [List.getElem?_eq_getElem hi', List.getElem?_eq_getElem hj,
    List.getElem_swap_left_of_lt hj hi']

/-- A position is final once the loop has passed it. -/
theorem getElem?_shuffle_of_gt {i : Nat} (d : Draws i) (xs : List α) {k : Nat} (hk : i < k) :
    (shuffle i d xs)[k]? = xs[k]? := by
  induction i generalizing xs with
  | zero => rfl
  | succ i ih =>
      -- This swap and the ones after it are all below the position.
      rw [shuffle, ih _ _ (Nat.lt_of_succ_lt hk)]
      exact getElem?_swap_of_gt xs hk (Nat.lt_of_lt_of_le d.first.isLt hk)

/-- The highest position holds what was drawn for it. -/
theorem getElem?_shuffle_first {i : Nat} (d : Draws (i + 1)) {xs : List α}
    (hi : i + 1 < xs.length) : (shuffle (i + 1) d xs)[i + 1]? = xs[d.first.val]? := by
  rw [shuffle, getElem?_shuffle_of_gt _ _ (Nat.lt_succ_self i)]
  exact getElem?_swap_left xs hi (Nat.lt_of_le_of_lt (Nat.le_of_lt_succ d.first.isLt) hi)

/-- The arrangement of a list without repetitions tells the draws. -/
theorem shuffle_injective {i : Nat} {xs : List α} (hxs : xs.Nodup) (hi : i ≤ xs.length - 1) :
    Function.Injective fun d : Draws i => shuffle i d xs := by
  -- Induction on the position: the last element tells the first draw.
  induction i generalizing xs with
  | zero => exact fun d d' _ => funext fun m => m.elim0
  | succ i ih =>
      intro d d' h
      have hlt : i + 1 < xs.length := by omega
      have hlast : xs[d.first.val]? = xs[d'.first.val]? := by
        rw [← getElem?_shuffle_first d hlt, ← getElem?_shuffle_first d' hlt]
        exact congrArg (fun ys : List α => ys[i + 1]?) h
      have hfirst : d.first = d'.first :=
        Fin.ext ((List.getElem?_inj
          (Nat.lt_of_le_of_lt (Nat.le_of_lt_succ d.first.isLt) hlt) hxs).mp hlast)
      refine Draws.ext hfirst (ih ((List.swap_perm xs (i + 1) d.first).nodup_iff.mpr hxs) ?_ ?_)
      · rw [List.length_swap]
        omega
      · simp only [shuffle, hfirst] at h ⊢
        exact h

/-- Lists that agree after a position have their other elements in common when they
    are permutations of each other. -/
theorem take_perm_take {xs ys : List α} (hperm : ys.Perm xs) {n : Nat}
    (hdrop : ys.drop n = xs.drop n) : (ys.take n).Perm (xs.take n) := by
  rw [← List.take_append_drop n ys, ← List.take_append_drop n xs, hdrop] at hperm
  exact (List.perm_append_right_iff _).mp hperm

/-- Every arrangement that keeps what is above a position is drawn by a shuffle from
    there. -/
theorem exists_shuffle {i : Nat} {xs ys : List α} (hi : i ≤ xs.length - 1) (hperm : ys.Perm xs)
    (hdrop : ys.drop (i + 1) = xs.drop (i + 1)) : ∃ d : Draws i, shuffle i d xs = ys := by
  induction i generalizing xs with
  | zero =>
      -- Nothing is drawn, and one element alone is where it belongs.
      refine ⟨fun m => m.elim0, ?_⟩
      have htake := take_perm_take hperm hdrop
      rw [shuffle, ← List.take_append_drop 1 xs, ← List.take_append_drop 1 ys, hdrop]
      cases xs with
      | nil => rw [List.perm_nil.mp hperm]
      | cons x xs =>
          rw [List.take_succ_cons, List.take_zero, List.perm_singleton] at htake
          rw [htake]
          rfl
  | succ i ih =>
      have hlt : i + 1 < xs.length := by omega
      have hlt' : i + 1 < ys.length := by rwa [hperm.length_eq]
      -- The element that belongs at the highest position is at or below it.
      have hmem : ys[i + 1] ∈ xs.take (i + 2) :=
        (take_perm_take hperm hdrop).mem_iff.mp
          (List.mem_take_iff_getElem.mpr ⟨i + 1, by omega, rfl⟩)
      rcases List.mem_take_iff_getElem.mp hmem with ⟨j, hj, hget⟩
      have hjlt : j < i + 2 := by omega
      -- The swap with it makes the lists agree one position further down.
      have hrest : ys.drop (i + 1) = (xs.swap (i + 1) j).drop (i + 1) := by
        refine List.ext_getElem? fun k => ?_
        rw [List.getElem?_drop, List.getElem?_drop]
        cases k with
        | zero =>
            rw [Nat.add_zero, getElem?_swap_left xs hlt (by omega), List.getElem?_eq_getElem hlt',
              List.getElem?_eq_getElem (by omega), hget]
        | succ k =>
            have hk := congrArg (fun zs : List α => zs[k]?) hdrop
            simp only [List.getElem?_drop] at hk
            rw [getElem?_swap_of_gt xs (by omega) (by omega), Nat.add_succ, ← Nat.succ_add]
            exact hk
      have hlen : i ≤ (xs.swap (i + 1) j).length - 1 := by
        rw [List.length_swap]
        omega
      rcases ih hlen (hperm.trans (List.swap_perm xs _ _).symm) hrest with ⟨d, hd⟩
      refine ⟨.cons ⟨j, hjlt⟩ d, ?_⟩
      rw [shuffle, Draws.first_cons, Draws.rest_cons]
      exact hd

/-- Shuffles rearrange. -/
theorem shuffle_perm {i : Nat} (d : Draws i) (xs : List α) : (shuffle i d xs).Perm xs := by
  induction i generalizing xs with
  | zero => exact List.Perm.refl xs
  | succ i ih => exact (ih _ _).trans (List.swap_perm xs _ _)

end Shuffle

end Swaps
