import Mathlib.Data.List.Sort
import Std.Data.ExtTreeMap

/-!
# Ordered Maps

Facts about finite maps in key order that the standard library does not state:
reading a key that an update is not about, and which list of entries a map
iterates as.

## Main definitions

* `entries`: The entries of a map, encoded.

## Theorems

* `getElem?_insert_of_ne`, `getElem?_erase_of_ne`: Updates at other keys.
* `toList_eq_of_sorted`: A map iterates as the sorted list of its entries.
* `entries_inj`: Encoded entries determine the map.
-/

namespace Maps

variable {α β : Type*} [Ord α] [Std.TransOrd α] [Std.LawfulEqOrd α]

theorem getElem?_insert_of_ne (m : Std.ExtTreeMap α β) {k k' : α} (v : β) (h : k ≠ k') :
    (m.insert k v)[k']? = m[k']? := by
  rw [Std.ExtTreeMap.getElem?_insert, if_neg fun heq => h (Std.LawfulEqOrd.eq_of_compare heq)]

theorem getElem?_erase_of_ne (m : Std.ExtTreeMap α β) {k k' : α} (h : k ≠ k') :
    (m.erase k)[k']? = m[k']? := by
  rw [Std.ExtTreeMap.getElem?_erase, if_neg fun heq => h (Std.LawfulEqOrd.eq_of_compare heq)]

/-- An entry after an insertion is the new one or one at another key. -/
theorem getElem?_insert_eq_some_iff (m : Std.ExtTreeMap α β) (k k' : α) (v v' : β) :
    (m.insert k v)[k']? = some v' ↔ k = k' ∧ v = v' ∨ k ≠ k' ∧ m[k']? = some v' := by
  by_cases hk : k = k'
  · rw [hk, Std.ExtTreeMap.getElem?_insert_self, Option.some.injEq]
    simp only [true_and, ne_eq, not_true_eq_false, false_and, or_false]
  · rw [getElem?_insert_of_ne _ _ hk]
    simp only [hk, false_and, ne_eq, not_false_eq_true, true_and, false_or]

theorem map_insert {γ : Type*} (f : α → β → γ) (m : Std.ExtTreeMap α β) (k : α) (v : β) :
    (m.insert k v).map f = (m.map f).insert k (f k v) := by
  refine Std.ExtTreeMap.ext_getElem? fun k' => ?_
  by_cases hk : k = k'
  · rw [hk, Std.ExtTreeMap.getElem?_map, Std.ExtTreeMap.getElem?_insert_self,
      Std.ExtTreeMap.getElem?_insert_self, Option.map_some]
  · rw [Std.ExtTreeMap.getElem?_map, getElem?_insert_of_ne _ _ hk, getElem?_insert_of_ne _ _ hk,
      Std.ExtTreeMap.getElem?_map]

/-- A map without entries is empty. -/
theorem eq_empty {m : Std.ExtTreeMap α β} (h : ∀ (k : α) (v : β), m[k]? ≠ some v) : m = ∅ := by
  refine Std.ExtTreeMap.ext_getElem? fun k => ?_
  cases hk : m[k]? with
  | none => exact Std.ExtTreeMap.getElem?_empty.symm
  | some v => exact absurd hk (h k v)

/-- A map with one key is the entry there. -/
theorem eq_singleton {m : Std.ExtTreeMap α β} {k : α} {v : β} (hk : m[k]? = some v)
    (h : ∀ (k' : α) (v' : β), m[k']? = some v' → k' = k) :
    m = (∅ : Std.ExtTreeMap α β).insert k v := by
  refine Std.ExtTreeMap.ext_getElem? fun k' => ?_
  by_cases heq : k = k'
  · rw [← heq, hk, Std.ExtTreeMap.getElem?_insert_self]
  · rw [getElem?_insert_of_ne _ _ heq, Std.ExtTreeMap.getElem?_empty]
    cases hk' : m[k']? with
    | none => rfl
    | some v' => exact absurd (h k' v' hk').symm heq

/-- A map iterates as the sorted list of its entries. -/
theorem toList_eq_of_sorted (m : Std.ExtTreeMap α β) (l : List (α × β))
    (hsorted : l.Pairwise fun x y => compare x.1 y.1 = .lt)
    (hmem : ∀ k v, (k, v) ∈ l ↔ m[k]? = some v) : m.toList = l := by
  have hm : m.toList.Pairwise fun x y => compare x.1 y.1 = .lt :=
    Std.ExtTreeMap.ordered_keys_toList
  -- No entry comes before itself, so neither list repeats one.
  have hne : ∀ x y : α × β, compare x.1 y.1 = .lt → x ≠ y := by
    intro x y hlt heq
    rw [heq, Std.ReflOrd.compare_self] at hlt
    exact absurd hlt (by simp only [reduceCtorEq, not_false_eq_true])
  have hperm : m.toList.Perm l := by
    refine (List.perm_ext_iff_of_nodup (hm.imp (hne _ _)) (hsorted.imp (hne _ _))).mpr ?_
    intro x
    rw [Std.ExtTreeMap.mem_toList_iff_getElem?_eq_some, hmem]
  refine hperm.eq_of_pairwise ?_ hm hsorted
  intro x y _ _ hxy hyx
  rw [Std.OrientedCmp.gt_of_lt hxy] at hyx
  exact absurd hyx (by simp only [reduceCtorEq, not_false_eq_true])

/-- The entries of a map in key order, keys and values encoded. -/
def entries {γ δ : Type*} (f : α → γ) (g : β → δ) (m : Std.ExtTreeMap α β) : List (γ × δ) :=
  m.toList.map (Prod.map f g)

theorem mem_entries {γ δ : Type*} {f : α → γ} {g : β → δ} {m : Std.ExtTreeMap α β} {k : α} {v : β}
    (h : m[k]? = some v) : (f k, g v) ∈ entries f g m :=
  List.mem_map_of_mem (f := Prod.map f g) (Std.ExtTreeMap.mem_toList_iff_getElem?_eq_some.mpr h)

omit [Std.LawfulEqOrd α] in
/-- Encoded entries determine the map when keys and values are encoded
    injectively. -/
theorem entries_inj {γ δ : Type*} {f : α → γ} {g : β → δ} (hf : Function.Injective f)
    (hg : Function.Injective g) {m m' : Std.ExtTreeMap α β} (h : entries f g m = entries f g m') :
    m = m' :=
  Std.ExtTreeMap.toList_inj.mp (List.map_injective_iff.mpr (hf.prodMap hg) h)

end Maps
