import Seven.Library.Chunks
import Seven.Library.Fallible
import Seven.Mql.Hex
import Mathlib.Algebra.Order.Floor.Div

/-!
# Fragments of a Frame

A frame that does not fit the transport is cut into numbered fragments, each under
its limit. A receiver collects fragments into slots in whatever order they come, any
number of times each.

What a receiver gets is determined by one fact (`reassemble_eq_ok_iff`): the
fragments must name one frame and one total, every number below the total must occur
and no other, and the bytes are the chunks in the order of the numbers, for each the
one that came first. So fragments of one frame give it back exactly when every number
occurs (`reassemble_drawn`), and for fragments from anywhere the order matters exactly
when a complete set holds two chunks under one number (`orderFree_iff`).

## Main definitions

* `Fragment`, `fragment`, `reassemble`: Cutting and collecting.
* `Fragmentable`: The frames that are cut.
* `Complete`: Fragments of one frame, of which every number occurs.
* `OrderFree`: The order of the fragments does not matter.
* `WellCut`, `Returns`: Fragments as they should be, and what a receiver gets.

## Theorems

* `reassemble_eq_ok_iff`: What is reassembled.
* `reassemble_drawn`: What is reassembled from fragments of one frame.
* `fragment_cases`: Which frames are cut.
* `orderFree_iff`: When the order of the fragments does not matter.
* `fragment_reassemble`: Which frames are cut, and how they come back.
-/

namespace Seven

namespace Lora

/-- One fragment of a frame. -/
structure Fragment where
  frameId : UInt32
  index : UInt8
  total : UInt8
  chunk : Bytes
  deriving DecidableEq

/-- The header in front of every chunk. -/
def fragmentHeader : Nat := 6

/-- Split a frame into fragments that fit the transport, in order. -/
def fragment (frameBytes : Bytes) (frameId : UInt32) (mtu : Nat) :
    Except MqlError (List Fragment) :=
  if mtu ≤ fragmentHeader then
    .error (.lora ("mtu " ++ toString mtu ++ " too small for fragment header"))
  else
    let per := mtu - fragmentHeader
    if frameBytes = [] then .error (.lora "cannot fragment empty frame")
    else
      let total := (frameBytes.length + per - 1) / per
      if 255 < total then
        .error (.lora ("frame needs " ++ toString total ++ " fragments (>255)"))
      else
        .ok ((Chunks.chunks per frameBytes).mapIdx fun i chunk =>
          { frameId, index := UInt8.ofNat i, total := UInt8.ofNat total, chunk })

namespace Fragment

/-- The slot a fragment goes to. -/
def slot (f : Fragment) : Nat := f.index.toNat

end Fragment

/-- One turn of the collecting loop. -/
def place (frameId : UInt32) (total : UInt8) (slots : List (Option Fragment)) (f : Fragment) :
    Except MqlError (List (Option Fragment)) :=
  if f.frameId ≠ frameId ∨ f.total ≠ total then
    .error (.lora "mixed frame ids in fragment set")
  else if slots.length ≤ f.slot then
    .error (.lora ("fragment index " ++ toString f.index ++ " out of range"))
  else .ok (Chunks.put Fragment.slot slots f)

/-- Collect fragments, in any order and any number of times each, into the bytes
    of the frame. -/
def reassemble (frags : List Fragment) : Except MqlError Bytes :=
  match frags with
  | [] => .error (.lora "no fragments")
  | first :: _ =>
      if first.total = 0 then .error (.lora "fragment total is zero")
      else do
        let slots ← frags.foldlM (place first.frameId first.total)
          (List.replicate first.total.toNat none)
        if slots.any Option.isNone then .error (.lora "missing fragments")
        else .ok ((slots.filterMap id).flatMap Fragment.chunk)

/-- The pieces of a frame, numbered. -/
def numbered (frameId : UInt32) (chunks : List Bytes) : List Fragment :=
  chunks.mapIdx fun i chunk =>
    { frameId, index := UInt8.ofNat i, total := UInt8.ofNat chunks.length, chunk }

/-- The frames that are cut: those that need at most 255 fragments. -/
def Fragmentable (frameBytes : Bytes) (mtu : Nat) : Prop :=
  fragmentHeader < mtu ∧ frameBytes ≠ [] ∧ frameBytes.length ⌈/⌉ (mtu - fragmentHeader) ≤ 255

/-- What fragmenting does. -/
theorem fragment_cases (frameBytes : Bytes) (frameId : UInt32) (mtu : Nat) :
    (Fragmentable frameBytes mtu ∧ fragment frameBytes frameId mtu =
        .ok (numbered frameId (Chunks.chunks (mtu - fragmentHeader) frameBytes))) ∨
      (¬ Fragmentable frameBytes mtu ∧ ∃ err, fragment frameBytes frameId mtu = .error err) := by
  unfold fragment Fragmentable
  rw [Nat.ceilDiv_eq_add_pred_div]
  -- The three checks, in the order of the source.
  by_cases hmtu : mtu ≤ fragmentHeader
  · rw [if_pos hmtu]
    exact Or.inr ⟨fun h => absurd h.1 (Nat.not_lt.mpr hmtu), _, rfl⟩
  rw [if_neg hmtu]
  by_cases hnil : frameBytes = []
  · simp only [hnil, if_true]
    exact Or.inr ⟨fun h => h.2.1 rfl, _, rfl⟩
  by_cases htotal : 255 < (frameBytes.length + (mtu - fragmentHeader) - 1) / (mtu - fragmentHeader)
  · simp only [hnil, htotal, if_true, if_false]
    exact Or.inr ⟨fun h => absurd h.2.2 (Nat.not_le.mpr htotal), _, rfl⟩
  · simp only [hnil, htotal, if_false, numbered, Chunks.length_chunks]
    exact Or.inl ⟨⟨Nat.lt_of_not_le hmtu, hnil, Nat.le_of_not_lt htotal⟩, trivial⟩

/-- A frame that needs at most 255 fragments is fragmented. -/
theorem fragment_isOk (frameBytes : Bytes) (frameId : UInt32) (mtu : Nat)
    (h : Fragmentable frameBytes mtu) : ∃ frags, fragment frameBytes frameId mtu = .ok frags := by
  rcases fragment_cases frameBytes frameId mtu with ⟨_, hok⟩ | ⟨hnot, _⟩
  · exact ⟨_, hok⟩
  · exact absurd h hnot

theorem map_chunk_numbered (frameId : UInt32) (chunks : List Bytes) :
    (numbered frameId chunks).map Fragment.chunk = chunks := by
  refine List.ext_getElem (by rw [List.length_map, numbered, List.length_mapIdx]) fun i _ _ => ?_
  simp only [numbered, List.getElem_map, List.getElem_mapIdx]

/-- What fragmenting returns. -/
theorem fragment_eq_ok {frameBytes : Bytes} {frameId : UInt32} {mtu : Nat} {frags : List Fragment}
    (h : fragment frameBytes frameId mtu = .ok frags) :
    frags.length ≤ 255 ∧
      (∀ i (hi : i < frags.length), frags[i].slot = i) ∧
      (∀ f ∈ frags, f.frameId = frameId ∧ f.total.toNat = frags.length) ∧
      frags.flatMap Fragment.chunk = frameBytes := by
  rcases fragment_cases frameBytes frameId mtu with ⟨⟨hmtu, _, htotal⟩, hok⟩ | ⟨_, err, herr⟩
  · rw [hok, Except.ok.injEq] at h
    rw [Nat.ceilDiv_eq_add_pred_div, ← Chunks.length_chunks] at htotal
    have hflat := Chunks.flatten_chunks (Nat.sub_pos_of_lt hmtu) frameBytes
    generalize Chunks.chunks (mtu - fragmentHeader) frameBytes = chunks at h htotal hflat
    subst h
    -- At most 255 fragments, so no index is truncated.
    have hsmall : ∀ i, i ≤ 255 → (UInt8.ofNat i).toNat = i := fun i hi => by
      rw [UInt8.toNat_ofNat']
      exact Nat.mod_eq_of_lt (by omega)
    refine ⟨?_, ?_, ?_, ?_⟩
    · rwa [numbered, List.length_mapIdx]
    · intro i hi
      rw [numbered, List.length_mapIdx] at hi
      simp only [numbered, List.getElem_mapIdx]
      exact hsmall i (by omega)
    · intro f hf
      rcases List.mem_mapIdx.mp hf with ⟨i, hi, rfl⟩
      rw [numbered, List.length_mapIdx]
      exact ⟨rfl, hsmall _ htotal⟩
    · rw [List.flatMap_def, map_chunk_numbered, hflat]
  · rw [herr] at h
    exact absurd h (by simp only [reduceCtorEq, not_false_eq_true])

/-- Every fragment has a chunk and stays within the limit. -/
theorem chunk_of_fragment {frameBytes : Bytes} {frameId : UInt32} {mtu : Nat}
    {frags : List Fragment} (h : fragment frameBytes frameId mtu = .ok frags) :
    ∀ f ∈ frags, f.chunk ≠ [] ∧ fragmentHeader + f.chunk.length ≤ mtu := by
  rcases fragment_cases frameBytes frameId mtu with ⟨⟨hmtu, _, _⟩, hok⟩ | ⟨_, err, herr⟩
  · rw [hok, Except.ok.injEq] at h
    subst h
    intro f hf
    have hmem := List.mem_map_of_mem (f := Fragment.chunk) hf
    rw [map_chunk_numbered] at hmem
    rcases Chunks.ne_nil_of_mem_chunks hmem with ⟨hne, hlen⟩
    exact ⟨hne, by omega⟩
  · rw [herr] at h
    exact absurd h (by simp only [reduceCtorEq, not_false_eq_true])

/-- The loop on fragments of one frame puts each into its slot. -/
theorem foldlM_place {frameId : UInt32} {total : UInt8} {frags : List Fragment}
    {slots : List (Option Fragment)}
    (h : ∀ f ∈ frags, f.frameId = frameId ∧ f.total = total ∧ f.slot < slots.length) :
    frags.foldlM (place frameId total) slots =
      .ok (frags.foldl (Chunks.put Fragment.slot) slots) := by
  induction frags generalizing slots with
  | nil => rfl
  | cons f frags ih =>
      rw [List.forall_mem_cons] at h
      have hplace : place frameId total slots f = .ok (Chunks.put Fragment.slot slots f) := by
        rw [place, if_neg (by simp only [h.1.1, h.1.2.1, ne_eq, not_true_eq_false, or_self,
          not_false_eq_true]), if_neg (by omega)]
      rw [List.foldlM_cons, hplace]
      exact ih fun g hg => ⟨(h.2 g hg).1, (h.2 g hg).2.1, by
        rw [Chunks.length_put]; exact (h.2 g hg).2.2⟩

/-- The loop ends well on such fragments only. -/
theorem of_foldlM_place {frameId : UInt32} {total : UInt8} {frags : List Fragment}
    {slots slots' : List (Option Fragment)}
    (h : frags.foldlM (place frameId total) slots = .ok slots') :
    ∀ f ∈ frags, f.frameId = frameId ∧ f.total = total ∧ f.slot < slots.length := by
  induction frags generalizing slots with
  | nil => exact fun f hf => absurd hf List.not_mem_nil
  | cons f frags ih =>
      rw [List.foldlM_cons] at h
      -- Either check that fails ends the loop.
      by_cases hmixed : f.frameId ≠ frameId ∨ f.total ≠ total
      · rw [place, if_pos hmixed] at h
        exact absurd h (by simp only [bind, Except.bind, reduceCtorEq, not_false_eq_true])
      by_cases hrange : slots.length ≤ f.slot
      · rw [place, if_neg hmixed, if_pos hrange] at h
        exact absurd h (by simp only [bind, Except.bind, reduceCtorEq, not_false_eq_true])
      rw [place, if_neg hmixed, if_neg hrange] at h
      have hrest := ih h
      rw [Chunks.length_put] at hrest
      rw [not_or, not_not, not_not] at hmixed
      exact List.forall_mem_cons.mpr ⟨⟨hmixed.1, hmixed.2, Nat.lt_of_not_le hrange⟩, hrest⟩

/-- Fragments of one frame, of which every number occurs. -/
structure Complete (frags : List Fragment) (frameId : UInt32) (total : UInt8) : Prop where
  total_ne_zero : total ≠ 0
  agree : ∀ f ∈ frags, f.frameId = frameId ∧ f.total = total ∧ f.slot < total.toNat
  cover : ∀ i < total.toNat, ∃ f ∈ frags, f.slot = i

/-- Fragments that agree with the first are collected, and then one may be missing. -/
theorem reassemble_of_agree {first : Fragment} {rest : List Fragment} (htotal : first.total ≠ 0)
    (hagree : ∀ f ∈ first :: rest, f.frameId = first.frameId ∧ f.total = first.total ∧
      f.slot < first.total.toNat) :
    reassemble (first :: rest) =
      if (Chunks.fill Fragment.slot first.total.toNat (first :: rest)).any Option.isNone then
        .error (.lora "missing fragments")
      else .ok (Chunks.gather Fragment.slot Fragment.chunk first.total.toNat (first :: rest)) := by
  rw [reassemble, if_neg htotal, foldlM_place fun f hf => by
    rw [List.length_replicate]; exact hagree f hf, ← Chunks.flatMap_fill]
  rfl

/-- Fragments that are reassembled agree with the first. -/
theorem agree_of_reassemble {first : Fragment} {rest : List Fragment} {bytes : Bytes}
    (h : reassemble (first :: rest) = .ok bytes) :
    first.total ≠ 0 ∧ ∀ f ∈ first :: rest, f.frameId = first.frameId ∧ f.total = first.total ∧
      f.slot < first.total.toNat := by
  by_cases htotal : first.total = 0
  · rw [reassemble, if_pos htotal] at h
    exact absurd h (by simp only [reduceCtorEq, not_false_eq_true])
  rw [reassemble, if_neg htotal] at h
  refine ⟨htotal, ?_⟩
  -- The loop ended well, so every fragment passed its checks.
  cases hloop : (first :: rest).foldlM (place first.frameId first.total)
      (List.replicate first.total.toNat none) with
  | error err =>
      rw [hloop] at h
      exact absurd h (by simp only [bind, Except.bind, reduceCtorEq, not_false_eq_true])
  | ok slots =>
      have hall := of_foldlM_place hloop
      rwa [List.length_replicate] at hall

/-- What is reassembled: complete fragments, and of each number the first chunk. -/
theorem reassemble_eq_ok_iff (frags : List Fragment) (bytes : Bytes) :
    reassemble frags = .ok bytes ↔
      ∃ frameId total, Complete frags frameId total ∧
        bytes = Chunks.gather Fragment.slot Fragment.chunk total.toNat frags := by
  constructor
  · intro h
    cases frags with
    | nil => exact absurd h (by simp only [reassemble, reduceCtorEq, not_false_eq_true])
    | cons first rest =>
        rcases agree_of_reassemble h with ⟨htotal, hagree⟩
        rw [reassemble_of_agree htotal hagree] at h
        by_cases hmissing :
            (Chunks.fill Fragment.slot first.total.toNat (first :: rest)).any Option.isNone = true
        · rw [if_pos hmissing] at h
          exact absurd h (by simp only [reduceCtorEq, not_false_eq_true])
        -- No slot is empty, so every number occurs.
        rw [if_neg hmissing, Except.ok.injEq] at h
        rw [Chunks.any_isNone_fill_iff] at hmissing
        push Not at hmissing
        exact ⟨first.frameId, first.total, ⟨htotal, hagree, hmissing⟩, h.symm⟩
  · intro h
    rcases h with ⟨frameId, total, hcomplete, rfl⟩
    cases frags with
    | nil =>
        -- Some number occurs, so there is a fragment.
        have hpos : 0 < total.toNat := Nat.pos_of_ne_zero fun hzero =>
          hcomplete.total_ne_zero (UInt8.toNat_inj.mp hzero)
        rcases hcomplete.cover 0 hpos with ⟨f, hf, _⟩
        exact absurd hf List.not_mem_nil
    | cons first rest =>
        rcases hcomplete.agree first List.mem_cons_self with ⟨rfl, rfl, _⟩
        rw [reassemble_of_agree hcomplete.total_ne_zero hcomplete.agree, if_neg]
        rw [Chunks.any_isNone_fill_iff]
        push Not
        exact hcomplete.cover

/-- Otherwise it is an error. -/
theorem reassemble_eq_error_iff (frags : List Fragment) :
    (∃ err, reassemble frags = .error err) ↔ ¬ ∃ frameId total, Complete frags frameId total := by
  cases h : reassemble frags with
  | error err =>
      refine iff_of_true ⟨err, rfl⟩ ?_
      intro hexists
      rcases hexists with ⟨frameId, total, hcomplete⟩
      rw [(reassemble_eq_ok_iff frags _).mpr ⟨frameId, total, hcomplete, rfl⟩] at h
      exact absurd h (by simp only [reduceCtorEq, not_false_eq_true])
  | ok bytes =>
      rcases (reassemble_eq_ok_iff frags bytes).mp h with ⟨frameId, total, hcomplete, _⟩
      refine iff_of_false ?_ fun hnot => hnot ⟨frameId, total, hcomplete⟩
      intro hexists
      rcases hexists with ⟨err, herr⟩
      exact absurd herr (by simp only [reduceCtorEq, not_false_eq_true])

/-- Fragments drawn from those of one frame, in any order, with repetitions and
    losses, give the frame back when every number occurs and fail otherwise. -/
theorem reassemble_drawn {frameBytes : Bytes} {frameId : UInt32} {mtu : Nat}
    {frags received : List Fragment} (h : fragment frameBytes frameId mtu = .ok frags)
    (hne : received ≠ []) (hdrawn : ∀ f ∈ received, f ∈ frags) :
    ((∀ i < frags.length, ∃ f ∈ received, f.slot = i) → reassemble received = .ok frameBytes) ∧
      ((∃ i < frags.length, ∀ f ∈ received, f.slot ≠ i) →
        ∃ err, reassemble received = .error err) := by
  rcases fragment_eq_ok h with ⟨hcount, hslot, hhead, hflat⟩
  have htotal : (UInt8.ofNat frags.length).toNat = frags.length := by
    rw [UInt8.toNat_ofNat']
    exact Nat.mod_eq_of_lt (by omega)
  rcases List.exists_mem_of_ne_nil received hne with ⟨first, hfirst⟩
  constructor
  · intro hcover
    -- The fragments received are complete, and drawn from those of the frame.
    refine (reassemble_eq_ok_iff _ _).mpr ⟨frameId, UInt8.ofNat frags.length, ⟨?_, ?_, ?_⟩, ?_⟩
    · -- A fragment was received, so there is at least one.
      intro hzero
      have hpos := List.length_pos_of_mem (hdrawn first hfirst)
      rw [← htotal, hzero] at hpos
      exact absurd hpos (by decide)
    · intro f hf
      have hfrag := hhead f (hdrawn f hf)
      rcases List.getElem_of_mem (hdrawn f hf) with ⟨i, hi, hfi⟩
      refine ⟨hfrag.1, UInt8.toNat_inj.mp (hfrag.2.trans htotal.symm), ?_⟩
      rw [htotal, ← hfi, hslot i hi]
      exact hi
    · rwa [htotal]
    · rw [htotal, Chunks.gather_drawn hslot hdrawn hcover, hflat]
  · intro hexists
    rcases hexists with ⟨i, hi, hmissing⟩
    rw [reassemble_eq_error_iff]
    intro hexists
    rcases hexists with ⟨frameId', total, hcomplete⟩
    -- Every total is the number of fragments, so one is missing.
    have hsame : total.toNat = frags.length := by
      rw [← (hcomplete.agree first hfirst).2.1]
      exact (hhead first (hdrawn first hfirst)).2
    rcases hcomplete.cover i (by omega) with ⟨f, hf, hfi⟩
    exact hmissing f hf hfi

/-- The order of the fragments does not matter: any other one fails too, or gives the
    same bytes. -/
def OrderFree (frags : List Fragment) : Prop :=
  ∀ frags', frags.Perm frags' →
    Fallible.Agree (fun bytes bytes' => bytes' = bytes) (reassemble frags) (reassemble frags')

theorem Complete.perm {frags frags' : List Fragment} {frameId : UInt32} {total : UInt8}
    (h : Complete frags frameId total) (hperm : frags.Perm frags') :
    Complete frags' frameId total := by
  refine ⟨h.total_ne_zero, fun f hf => h.agree f (hperm.mem_iff.mpr hf), fun i hi => ?_⟩
  rcases h.cover i hi with ⟨f, hf, hfi⟩
  exact ⟨f, hperm.mem_iff.mp hf, hfi⟩

theorem consistent_iff (frags : List Fragment) :
    Chunks.Consistent Fragment.slot Fragment.chunk frags ↔
      ∀ f ∈ frags, ∀ g ∈ frags, f.index = g.index → f.chunk = g.chunk := by
  simp only [Chunks.Consistent, Fragment.slot, UInt8.toNat_inj]

/-- The order does not matter exactly when complete fragments with one number have
    one chunk. -/
theorem orderFree_iff (frags : List Fragment) :
    OrderFree frags ↔
      ((∃ frameId total, Complete frags frameId total) →
        ∀ f ∈ frags, ∀ g ∈ frags, f.index = g.index → f.chunk = g.chunk) := by
  rw [← consistent_iff]
  by_cases hcomplete : ∃ frameId total, Complete frags frameId total
  · rw [forall_prop_of_true hcomplete]
    rcases hcomplete with ⟨frameId, total, hcomplete⟩
    rw [← Chunks.gather_perm_iff fun f hf => (hcomplete.agree f hf).2.2]
    refine forall_congr' fun frags' => forall_congr' fun hperm => ?_
    -- Both orders are complete, so both are reassembled.
    rw [(reassemble_eq_ok_iff frags _).mpr ⟨frameId, total, hcomplete, rfl⟩,
      (reassemble_eq_ok_iff frags' _).mpr ⟨frameId, total, hcomplete.perm hperm, rfl⟩]
    rfl
  · -- No order of the fragments is complete, so every one is an error.
    refine iff_of_true (fun frags' hperm => ?_) fun h => absurd h hcomplete
    have hcomplete' : ¬ ∃ frameId total, Complete frags' frameId total := by
      intro hexists
      rcases hexists with ⟨frameId, total, h⟩
      exact hcomplete ⟨frameId, total, h.perm hperm.symm⟩
    rcases (reassemble_eq_error_iff frags).mpr hcomplete with ⟨err, herr⟩
    rcases (reassemble_eq_error_iff frags').mpr hcomplete' with ⟨err', herr'⟩
    rw [herr, herr']
    trivial

/-- Of two chunks under one number the first is kept. -/
theorem not_orderFree : ¬ ∀ frags, OrderFree frags := by
  intro h
  let f : Fragment := ⟨7, 0, 1, [1]⟩
  let g : Fragment := ⟨7, 0, 1, [2]⟩
  have hfg : reassemble [f, g] = .ok [1] := rfl
  have hgf : reassemble [g, f] = .ok [2] := rfl
  have hagree := h [f, g] [g, f] (List.Perm.swap g f [])
  rw [hfg, hgf] at hagree
  have hbytes : ([2] : Bytes) = [1] := hagree
  exact absurd hbytes (by decide)

/-- Every fragment has its position for an index, the number of all for a total, and a
    chunk that fits the transport behind the header. -/
def WellCut (frameId : UInt32) (mtu : Nat) (frags : List Fragment) : Prop :=
  ∀ i (hi : i < frags.length), frags[i].frameId = frameId ∧ frags[i].index.toNat = i ∧
    frags[i].total.toNat = frags.length ∧ frags[i].chunk ≠ [] ∧
      fragmentHeader + frags[i].chunk.length ≤ mtu

/-- What a receiver of some of the fragments gets. -/
def Returns (frags : List Fragment) (frameBytes : Bytes) : Prop :=
  ∀ received, received ≠ [] → (∀ f ∈ received, f ∈ frags) →
    ((∀ i < frags.length, ∃ f ∈ received, f.index.toNat = i) →
        reassemble received = .ok frameBytes) ∧
      ((∃ i < frags.length, ∀ f ∈ received, f.index.toNat ≠ i) →
        ∃ err, reassemble received = .error err)

/-- Every frame that needs at most 255 fragments is cut, and comes back; every other
    is refused. -/
theorem fragment_reassemble (frameBytes : Bytes) (frameId : UInt32) (mtu : Nat) :
    (fragmentHeader < mtu ∧ frameBytes ≠ [] ∧
        frameBytes.length ⌈/⌉ (mtu - fragmentHeader) ≤ 255 →
      ∃ frags, fragment frameBytes frameId mtu = .ok frags ∧ WellCut frameId mtu frags ∧
        Returns frags frameBytes) ∧
      (¬ (fragmentHeader < mtu ∧ frameBytes ≠ [] ∧
          frameBytes.length ⌈/⌉ (mtu - fragmentHeader) ≤ 255) →
        ∃ err, fragment frameBytes frameId mtu = .error err) := by
  constructor
  · intro hfits
    rcases fragment_isOk frameBytes frameId mtu hfits with ⟨frags, hok⟩
    rcases fragment_eq_ok hok with ⟨_, hslot, hhead, _⟩
    refine ⟨frags, hok, fun i hi => ?_, fun received hne hdrawn => reassemble_drawn hok hne hdrawn⟩
    have hmem := List.getElem_mem hi
    exact ⟨(hhead _ hmem).1, hslot i hi, (hhead _ hmem).2, chunk_of_fragment hok _ hmem⟩
  · intro hnot
    rcases fragment_cases frameBytes frameId mtu with ⟨hfits, _⟩ | ⟨_, herr⟩
    · exact absurd hfits hnot
    · exact herr

end Lora

end Seven
