import Mathlib.Data.List.Induction
import Mathlib.Data.List.Nodup
import Mathlib.Data.Nat.Basic
import Mathlib.Tactic.TypeStar

/-!
# Cutting and Slotting

Cutting a list into pieces of one length, collecting numbered pieces into slots
in whatever order they arrive, and laying records of known lengths end to end.

A piece is described by its position: the `i`-th one starts at `i * n`. That
makes the number of a piece and its place in the list the same thing, which is
what the collecting side relies on. A slot keeps the first piece that reaches
it, so after a run slot `i` holds the first piece numbered `i` (`getElem?_fill`).
The slots end to end are then the same for every order of the pieces exactly when
pieces with one number do not differ (`gather_perm_iff`).

## Main definitions

* `chunks`: Pieces of `n` elements, the last one possibly shorter.
* `put`, `fill`: One piece into its slot, and a run of them.
* `content`, `gather`: What a slot contributes, and all of them in order.
* `Consistent`: Pieces with one number contribute the same.
* `records`, `shape`: Keys and values laid end to end, and their lengths.

## Theorems

* `flatten_chunks`: The pieces make up the list.
* `chunks_flatten`: Pieces of the right length are cut back out.
* `getElem?_fill`: What a slot holds after a run.
* `fill_eq_map_some`: Pieces drawn from a numbered list, each at least once, fill
  the slots with that list.
* `gather_perm_iff`: When the order of the pieces does not matter.
* `records_inj`: Records of one shape are cut out in one way only.
-/

namespace Chunks

variable {α : Type*}

/-- Pieces of `n` elements, the last one possibly shorter. -/
def chunks (n : Nat) (xs : List α) : List (List α) :=
  (List.range ((xs.length + n - 1) / n)).map fun i => (xs.drop (i * n)).take n

@[simp] theorem length_chunks (n : Nat) (xs : List α) :
    (chunks n xs).length = (xs.length + n - 1) / n := by
  rw [chunks, List.length_map, List.length_range]

/-- The first `k` pieces are the first `k * n` elements. -/
theorem flatten_map_range (n k : Nat) (xs : List α) :
    ((List.range k).map fun i => (xs.drop (i * n)).take n).flatten = xs.take (k * n) := by
  induction k with
  | zero => rw [Nat.zero_mul, List.take_zero, List.range_zero, List.map_nil, List.flatten_nil]
  | succ k ih =>
      rw [List.range_succ, List.map_append, List.flatten_append, ih, List.map_singleton,
        List.flatten_singleton, Nat.succ_mul, List.take_add]

/-- The pieces make up the list. -/
theorem flatten_chunks {n : Nat} (hn : 0 < n) (xs : List α) : (chunks n xs).flatten = xs := by
  rw [chunks, flatten_map_range, List.take_of_length_le]
  -- Rounding up covers the whole list.
  have hdiv := Nat.div_add_mod (xs.length + n - 1) n
  have hmod := Nat.mod_lt (xs.length + n - 1) hn
  rw [Nat.mul_comm]
  omega

/-- A first piece of the right length is cut off. -/
theorem chunks_append {n : Nat} (hn : 0 < n) {l : List α} (hl : l.length = n) (xs : List α) :
    chunks n (l ++ xs) = l :: chunks n xs := by
  -- One piece more, and every later one starts `n` elements further on.
  have hcount : ((l ++ xs).length + n - 1) / n = (xs.length + n - 1) / n + 1 := by
    rw [List.length_append, hl, ← Nat.add_div_right _ hn]
    congr 1
    omega
  rw [chunks, chunks, hcount, List.range_succ_eq_map, List.map_cons, List.map_map]
  have hzero : ((l ++ xs).drop (0 * n)).take n = l := by
    rw [Nat.zero_mul, List.drop_zero, ← hl, List.take_left]
  have hsucc : ∀ i, ((l ++ xs).drop ((i + 1) * n)).take n = (xs.drop (i * n)).take n := by
    intro i
    rw [Nat.succ_mul, Nat.add_comm, ← List.drop_drop, ← hl, List.drop_left]
  rw [hzero]
  exact congrArg (l :: ·) (List.map_congr_left fun i _ => hsucc i)

/-- Pieces of the right length are cut back out. -/
theorem chunks_flatten {n : Nat} (hn : 0 < n) {ls : List (List α)}
    (hls : ∀ l ∈ ls, l.length = n) : chunks n ls.flatten = ls := by
  induction ls with
  | nil =>
      rw [List.flatten_nil, chunks, List.length_nil, Nat.zero_add,
        Nat.div_eq_of_lt (Nat.sub_lt hn Nat.one_pos), List.range_zero, List.map_nil]
  | cons l ls ih =>
      rw [List.forall_mem_cons] at hls
      rw [List.flatten_cons, chunks_append hn hls.1, ih hls.2]

theorem length_flatten {n : Nat} {ls : List (List α)} (hls : ∀ l ∈ ls, l.length = n) :
    ls.flatten.length = ls.length * n := by
  induction ls with
  | nil => rw [List.flatten_nil, List.length_nil, List.length_nil, Nat.zero_mul]
  | cons l ls ih =>
      rw [List.forall_mem_cons] at hls
      rw [List.flatten_cons, List.length_append, ih hls.2, hls.1, List.length_cons, Nat.succ_mul,
        Nat.add_comm]

/-- No piece is empty, and none is longer than it should be. -/
theorem ne_nil_of_mem_chunks {n : Nat} {xs l : List α} (h : l ∈ chunks n xs) :
    l ≠ [] ∧ l.length ≤ n := by
  rcases List.mem_map.mp h with ⟨i, hi, rfl⟩
  rw [List.mem_range] at hi
  refine ⟨?_, List.length_take_le ..⟩
  have hn : 0 < n := Nat.pos_of_ne_zero fun hzero => by
    rw [hzero, Nat.div_zero] at hi
    exact Nat.not_lt_zero i hi
  -- Every piece but the last is full, so this one starts within the list.
  have hstart : i * n < xs.length := by
    have hle := (Nat.le_div_iff_mul_le hn).mp (Nat.succ_le_of_lt hi)
    rw [Nat.succ_mul] at hle
    omega
  refine List.ne_nil_of_length_pos ?_
  rw [List.length_take, List.length_drop]
  omega

/-- Put an element into its slot unless the slot is taken. -/
def put (key : α → Nat) (slots : List (Option α)) (x : α) : List (Option α) :=
  slots.modify (key x) fun slot => slot.or (some x)

/-- Put a run of elements into `n` empty slots. -/
def fill (key : α → Nat) (n : Nat) (xs : List α) : List (Option α) :=
  xs.foldl (put key) (List.replicate n none)

@[simp] theorem length_put (key : α → Nat) (slots : List (Option α)) (x : α) :
    (put key slots x).length = slots.length :=
  List.length_modify ..

theorem getElem?_put (key : α → Nat) (slots : List (Option α)) (x : α) (i : Nat) :
    (put key slots x)[i]? =
      if key x = i then slots[i]?.map fun slot => slot.or (some x) else slots[i]? := by
  rw [put, List.getElem?_modify]
  by_cases hx : key x = i
  · simp only [hx, if_true, Option.map_eq_map]
  · simp only [hx, if_false, Option.map_eq_map, Option.map_id']

-- Induction on the run: a slot that is taken keeps its element.
theorem getElem?_foldl_put (key : α → Nat) (xs : List α) (slots : List (Option α)) (i : Nat) :
    (xs.foldl (put key) slots)[i]? =
      slots[i]?.map fun slot => slot.or (xs.find? fun x => key x = i) := by
  induction xs generalizing slots with
  | nil => simp only [List.foldl_nil, List.find?_nil, Option.or_none, Option.map_id']
  | cons x xs ih =>
      rw [List.foldl_cons, ih, getElem?_put, List.find?_cons]
      by_cases hx : key x = i
      · simp only [hx, if_true, decide_true, Option.map_map, Function.comp_def, Option.or_assoc,
          Option.some_or]
      · simp only [hx, if_false, decide_false]

/-- After a run a slot holds the first element with its number. -/
theorem getElem?_fill (key : α → Nat) (n : Nat) (xs : List α) {i : Nat} (hi : i < n) :
    (fill key n xs)[i]? = some (xs.find? fun x => key x = i) := by
  rw [fill, getElem?_foldl_put, List.getElem?_replicate_of_lt hi, Option.map_some, Option.none_or]

@[simp] theorem length_fill (key : α → Nat) (n : Nat) (xs : List α) :
    (fill key n xs).length = n := by
  rw [fill]
  induction xs using List.reverseRecOn with
  | nil => rw [List.foldl_nil, List.length_replicate]
  | append_singleton xs x ih =>
      rw [List.foldl_append, List.foldl_cons, List.foldl_nil, length_put, ih]

/-- Elements drawn from a numbered list, each number at least once, fill the
    slots with that list. -/
theorem fill_eq_map_some {key : α → Nat} {all xs : List α}
    (hkey : ∀ i (hi : i < all.length), key all[i] = i) (hdrawn : ∀ x ∈ xs, x ∈ all)
    (hcover : ∀ i < all.length, ∃ x ∈ xs, key x = i) :
    fill key all.length xs = all.map some := by
  refine List.ext_getElem? fun i => ?_
  by_cases hi : i < all.length
  · rw [getElem?_fill key _ xs hi, List.getElem?_map, List.getElem?_eq_getElem hi, Option.map_some,
      Option.some.injEq]
    rcases hcover i hi with ⟨x, hx, hxi⟩
    cases hfind : xs.find? fun x => key x = i with
    | none =>
        -- Some element has number `i`, so the search does not fail.
        have hnone := List.find?_eq_none.mp hfind x hx
        exact absurd (decide_eq_true hxi) hnone
    | some y =>
        -- Whatever was found has number `i`, and the list has one such element.
        have hyi : key y = i := by
          have hfound := List.find?_some hfind
          rwa [decide_eq_true_eq] at hfound
        rcases List.getElem_of_mem (hdrawn y (List.mem_of_find?_eq_some hfind)) with ⟨j, hj, rfl⟩
        have hji : j = i := (hkey j hj).symm.trans hyi
        subst hji
        rfl
  · rw [List.getElem?_eq_none (by rw [length_fill]; omega),
      List.getElem?_eq_none (by rw [List.length_map]; omega)]

section Gather

variable {β : Type*} {key : α → Nat} {val : α → List β}

/-- What the first element with a number contributes. -/
def content (key : α → Nat) (val : α → List β) (xs : List α) (i : Nat) : List β :=
  ((xs.find? fun x => key x = i).map val).getD []

/-- The contents of the numbers below `n`, in order. -/
def gather (key : α → Nat) (val : α → List β) (n : Nat) (xs : List α) : List β :=
  (List.range n).flatMap (content key val xs)

/-- Elements with one number contribute the same. -/
def Consistent (key : α → Nat) (val : α → List β) (xs : List α) : Prop :=
  ∀ x ∈ xs, ∀ y ∈ xs, key x = key y → val x = val y

theorem fill_eq_map_find? (key : α → Nat) (n : Nat) (xs : List α) :
    fill key n xs = (List.range n).map fun i => xs.find? fun x => key x = i := by
  refine List.ext_getElem? fun i => ?_
  by_cases hi : i < n
  · rw [getElem?_fill key n xs hi, List.getElem?_map, List.getElem?_range hi, Option.map_some]
  · rw [List.getElem?_eq_none (by rw [length_fill]; omega),
      List.getElem?_eq_none (by rw [List.length_map, List.length_range]; omega)]

/-- What is in the slots after a run is the contents in order. -/
theorem flatMap_fill (key : α → Nat) (val : α → List β) (n : Nat) (xs : List α) :
    ((fill key n xs).filterMap id).flatMap val = gather key val n xs := by
  rw [fill_eq_map_find?, List.filterMap_map, gather]
  induction List.range n with
  | nil => rfl
  | cons i is ih =>
      rw [List.flatMap_cons, ← ih, content, List.filterMap_cons]
      cases hfind : xs.find? fun x => key x = i with
      | none => simp only [Function.comp_apply, hfind, id, Option.map_none, Option.getD_none,
          List.nil_append]
      | some x => simp only [Function.comp_apply, hfind, id, Option.map_some, Option.getD_some,
          List.flatMap_cons]

/-- After a run a slot is empty when a number does not occur. -/
theorem any_isNone_fill_iff (key : α → Nat) (n : Nat) (xs : List α) :
    (fill key n xs).any Option.isNone = true ↔ ∃ i < n, ∀ x ∈ xs, key x ≠ i := by
  rw [fill_eq_map_find?, List.any_map, List.any_eq_true]
  simp only [List.mem_range, Function.comp_apply, Option.isNone_iff_eq_none, List.find?_eq_none,
    decide_eq_true_eq, ne_eq]

/-- Any element with a number has the content of that number. -/
theorem Consistent.content_eq {xs : List α} (h : Consistent key val xs) {x : α} (hx : x ∈ xs) :
    content key val xs (key x) = val x := by
  unfold content
  cases hfind : xs.find? fun y => key y = key x with
  | none =>
      have hnone := List.find?_eq_none.mp hfind x hx
      exact absurd (decide_eq_true rfl) hnone
  | some y =>
      have hkey := List.find?_some hfind
      rw [decide_eq_true_eq] at hkey
      exact h y (List.mem_of_find?_eq_some hfind) x hx hkey

theorem content_eq_nil {xs : List α} {i : Nat} (h : ∀ x ∈ xs, key x ≠ i) :
    content key val xs i = [] := by
  rw [content, List.find?_eq_none.mpr fun x hx => by rw [decide_eq_true_eq]; exact h x hx]
  rfl

/-- Consistent elements are gathered to the same whatever their order and however
    often each occurs. -/
theorem Consistent.gather_congr {xs ys : List α} (h : Consistent key val xs)
    (hmem : ∀ x, x ∈ xs ↔ x ∈ ys) (n : Nat) : gather key val n ys = gather key val n xs := by
  have hys : Consistent key val ys := fun x hx y hy =>
    h x ((hmem x).mpr hx) y ((hmem y).mpr hy)
  refine List.flatMap_congr fun i _ => ?_
  by_cases hi : ∃ x ∈ xs, key x = i
  · rcases hi with ⟨x, hx, rfl⟩
    rw [h.content_eq hx, hys.content_eq ((hmem x).mp hx)]
  · push Not at hi
    rw [content_eq_nil hi, content_eq_nil fun x hx => hi x ((hmem x).mpr hx)]

/-- Elements drawn from a numbered list, each number at least once, are gathered to
    that list. -/
theorem gather_drawn {all xs : List α} (hkey : ∀ i (hi : i < all.length), key all[i] = i)
    (hdrawn : ∀ x ∈ xs, x ∈ all) (hcover : ∀ i < all.length, ∃ x ∈ xs, key x = i) :
    gather key val all.length xs = all.flatMap val := by
  rw [← flatMap_fill, fill_eq_map_some hkey hdrawn hcover, List.filterMap_map, Function.id_comp,
    List.filterMap_some]

/-- An element in front is the content of its number, and of no other. -/
theorem content_cons (x : α) (xs : List α) (i : Nat) :
    content key val (x :: xs) i = if key x = i then val x else content key val xs i := by
  unfold content
  by_cases hi : key x = i
  · simp only [hi, decide_true, List.find?_cons_of_pos, Option.map_some, Option.getD_some, if_true]
  · simp only [hi, decide_false, Bool.false_eq_true, not_false_eq_true, List.find?_cons_of_neg,
      if_false]

theorem content_middle_of_ne (l₁ l₂ : List α) {x : α} {i : Nat} (hi : key x ≠ i) :
    content key val (l₁ ++ x :: l₂) i = content key val (l₁ ++ l₂) i := by
  unfold content
  simp only [List.find?_append, hi, decide_false, Bool.false_eq_true, not_false_eq_true,
    List.find?_cons_of_neg]

/-- Concatenations that differ in one place only differ there. -/
theorem eq_of_flatMap_eq {γ : Type*} {l : List γ} (hl : l.Nodup) {i : γ} (hi : i ∈ l)
    {f g : γ → List β} (hfg : ∀ j, j ≠ i → f j = g j) (h : l.flatMap f = l.flatMap g) :
    f i = g i := by
  rcases List.append_of_mem hi with ⟨l₁, l₂, rfl⟩
  rw [List.nodup_middle, List.nodup_cons, List.mem_append, not_or] at hl
  rw [List.flatMap_append, List.flatMap_append, List.flatMap_cons, List.flatMap_cons] at h
  have hleft : l₁.flatMap f = l₁.flatMap g :=
    List.flatMap_congr fun j hj => hfg j fun hji => hl.1.1 (hji ▸ hj)
  have hright : l₂.flatMap f = l₂.flatMap g :=
    List.flatMap_congr fun j hj => hfg j fun hji => hl.1.2 (hji ▸ hj)
  rw [hleft, hright, List.append_cancel_left_eq, List.append_cancel_right_eq] at h
  exact h

/-- Elements with numbers below `n` are gathered to the same in every order exactly
    when they are consistent. -/
theorem gather_perm_iff {xs : List α} {n : Nat} (hkey : ∀ x ∈ xs, key x < n) :
    (∀ ys, xs.Perm ys → gather key val n ys = gather key val n xs) ↔ Consistent key val xs := by
  constructor
  · intro h x hx y hy hxy
    rcases List.append_of_mem hx with ⟨l₁, l₂, hl⟩
    rcases List.append_of_mem hy with ⟨m₁, m₂, hm⟩
    -- The two in front of the others: what differs is the content of one number.
    have hfront : gather key val n (x :: (l₁ ++ l₂)) = gather key val n (y :: (m₁ ++ m₂)) := by
      have hx' : xs.Perm (x :: (l₁ ++ l₂)) := by
        rw [hl]
        exact List.perm_middle
      have hy' : xs.Perm (y :: (m₁ ++ m₂)) := by
        rw [hm]
        exact List.perm_middle
      rw [h _ hx', h _ hy']
    have hvals := eq_of_flatMap_eq List.nodup_range (List.mem_range.mpr (hkey x hx))
      (fun j hj => ?_) hfront
    · rwa [content_cons, if_pos rfl, content_cons, if_pos hxy.symm] at hvals
    · rw [content_cons, if_neg (Ne.symm hj), content_cons, if_neg (hxy ▸ Ne.symm hj),
        ← content_middle_of_ne l₁ l₂ (Ne.symm hj), ← content_middle_of_ne m₁ m₂ (hxy ▸ Ne.symm hj),
        ← hl, ← hm]
  · intro h ys hys
    exact h.gather_congr (fun x => hys.mem_iff) n

end Gather

section Records

/-- Records of a key and a value, end to end. -/
def records (l : List (List α × List α)) : List α :=
  l.flatMap fun kv => kv.1 ++ kv.2

/-- The lengths of the keys and values. -/
def shape (l : List (List α × List α)) : List (Nat × Nat) :=
  l.map fun kv => (kv.1.length, kv.2.length)

@[simp] theorem records_nil : records ([] : List (List α × List α)) = [] := rfl

@[simp] theorem records_cons (kv : List α × List α) (l : List (List α × List α)) :
    records (kv :: l) = kv.1 ++ kv.2 ++ records l := rfl

theorem infix_records {l : List (List α × List α)} {kv : List α × List α} (h : kv ∈ l) :
    kv.1 ++ kv.2 <:+: records l := by
  rw [records, List.flatMap_def]
  exact List.infix_of_mem_flatten (List.mem_map_of_mem h)

/-- Records of one shape are cut out of a list in one way only. -/
theorem records_inj {l l' : List (List α × List α)} (hshape : shape l = shape l')
    (h : records l = records l') : l = l' := by
  induction l generalizing l' with
  | nil =>
      rw [shape, List.map_nil, eq_comm, shape, List.map_eq_nil_iff] at hshape
      exact hshape.symm
  | cons kv l ih =>
      cases l' with
      | nil => exact absurd hshape (by simp only [shape, List.map_cons, List.map_nil,
          reduceCtorEq, not_false_eq_true])
      | cons kv' l' =>
          rw [shape, List.map_cons, shape, List.map_cons, List.cons.injEq, Prod.mk.injEq] at hshape
          rw [records_cons, records_cons, List.append_assoc, List.append_assoc] at h
          rcases List.append_inj h hshape.1.1 with ⟨hk, hrest⟩
          rcases List.append_inj hrest hshape.1.2 with ⟨hv, htail⟩
          rw [Prod.ext hk hv, ih hshape.2 htail]

end Records

end Chunks
