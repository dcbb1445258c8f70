import Mathlib.Data.List.Nodup
import MethodLowering.Proofs.Flow.Edges
import MethodLowering.Proofs.Flow.NearestCommon

/-!
Look-ups on the way to immediate dominators. Every entry that is looked up or replaced outside the
sweeps exists: in a closed graph the positions of the predecessors are found for every block of an
order, and a table in which every position has a candidate gives the dominator of each of them.
-/

set_option autoImplicit false
set_option relaxedAutoImplicit false

namespace MethodLowering

section Store

variable {α : Type} {table result : Array α} {entries : List (Nat × α)}

theorem store?_of_lt {entry : Nat × α} (h : entry.1 < table.size) :
    store? table entry = some (table.setIfInBounds entry.1 entry.2) :=
  if_pos h

theorem of_store? {entry : Nat × α} (h : store? table entry = some result) :
    entry.1 < table.size ∧ result = table.setIfInBounds entry.1 entry.2 := by
  unfold store? at h
  split at h
  · exact ⟨‹entry.1 < table.size›, (Option.some.inj h).symm⟩
  · exact absurd h nofun

theorem exists_foldlM_store? (hbound : ∀ entry ∈ entries, entry.1 < table.size) :
    ∃ result, entries.foldlM store? table = some result ∧ result.size = table.size := by
  induction entries generalizing table with
  | nil => exact ⟨table, rfl, rfl⟩
  | cons first entries ih =>
    obtain ⟨hfirst, hrest⟩ := List.forall_mem_cons.1 hbound
    have hsize : (table.setIfInBounds first.1 first.2).size = table.size :=
      Array.size_setIfInBounds
    obtain ⟨result, hresult, hkept⟩ := ih (hsize ▸ hrest)
    refine ⟨result, ?_, hkept.trans hsize⟩
    rw [List.foldlM_cons, store?_of_lt hfirst]
    exact hresult

theorem getElem?_of_not_mem_entries {i : Nat} (hresult : entries.foldlM store? table = some result)
    (hi : i ∉ entries.map Prod.fst) : result[i]? = table[i]? := by
  induction entries generalizing table with
  | nil => rw [Option.some.inj hresult]
  | cons first entries ih =>
    rw [List.map_cons, List.mem_cons, not_or] at hi
    rw [List.foldlM_cons, Option.bind_eq_bind, Option.bind_eq_some_iff] at hresult
    obtain ⟨stored, hstored, hrest⟩ := hresult
    rw [ih hrest hi.2, (of_store? hstored).2, Array.getElem?_setIfInBounds_ne (Ne.symm hi.1)]

theorem getElem?_of_mem_entries {entry : Nat × α}
    (hresult : entries.foldlM store? table = some result) (hnodup : (entries.map Prod.fst).Nodup)
    (hentry : entry ∈ entries) : result[entry.1]? = some entry.2 := by
  induction entries generalizing table with
  | nil => exact absurd hentry List.not_mem_nil
  | cons first entries ih =>
    obtain ⟨hfirst, hrest⟩ := List.nodup_cons.1 hnodup
    rw [List.foldlM_cons, Option.bind_eq_bind, Option.bind_eq_some_iff] at hresult
    obtain ⟨stored, hstored, hresult⟩ := hresult
    obtain rfl | hlater := List.mem_cons.1 hentry
    · obtain ⟨hlt, rfl⟩ := of_store? hstored
      rw [getElem?_of_not_mem_entries hresult hfirst, Array.getElem?_setIfInBounds_self_of_lt hlt]
    · exact ih hresult hrest hlater

/-- Storing a value for each block of an order, which has no block twice, sets the entries of these
blocks and no others. -/
theorem exists_foldlM_store?_replicate {value : Nat → Option α} {order : List Nat} {size : Nat}
    (hnodup : order.Nodup) (hbound : ∀ b ∈ order, b < size) :
    ∃ stored, (order.map fun b => (b, value b)).foldlM store? (Array.replicate size none) =
        some stored ∧ stored.size = size ∧
      ∀ b < size, stored[b]? = some (if b ∈ order then value b else none) := by
  have hkeys : (order.map fun b => (b, value b)).map Prod.fst = order := by
    rw [List.map_map]
    exact List.map_id order
  have hexists : ∀ entry ∈ order.map fun b => (b, value b),
      entry.1 < (Array.replicate size (none : Option α)).size := by
    intro entry hentry
    rw [Array.size_replicate]
    exact hbound entry.1 (hkeys ▸ List.mem_map_of_mem hentry)
  obtain ⟨stored, hstored, hsize⟩ := exists_foldlM_store? hexists
  refine ⟨stored, hstored, hsize.trans Array.size_replicate, fun b hb => ?_⟩
  by_cases hmem : b ∈ order
  · rw [if_pos hmem]
    exact getElem?_of_mem_entries hstored (hkeys.symm ▸ hnodup) (List.mem_map_of_mem hmem)
  · rw [if_neg hmem, getElem?_of_not_mem_entries hstored (hkeys.symm ▸ hmem),
      Array.getElem?_replicate, if_pos hb]

end Store

namespace Graph

open DominatorTable

variable {g : Graph} {order : List Nat} {predecessors : List (List Nat)}
  {positions : Array (Option Nat)} {table : DominatorTable} {b i size : Nat}

theorem idxOf?_eq_some_iff_of_nodup (hnodup : order.Nodup) :
    order.idxOf? b = some i ↔ order[i]? = some b := by
  constructor
  · intro h
    obtain ⟨hi, hb, -⟩ := List.idxOf?_eq_some_iff.1 h
    rw [List.getElem?_eq_getElem hi]
    simpa using hb
  · intro h
    obtain ⟨hi, hb⟩ := List.getElem?_eq_some_iff.1 h
    have hmem : b ∈ order := List.mem_of_getElem? h
    cases hfound : order.idxOf? b with
    | none => exact absurd hmem (List.idxOf?_eq_none_iff.1 hfound)
    | some j =>
      obtain ⟨hj, hbj, -⟩ := List.idxOf?_eq_some_iff.1 hfound
      have hsame : order[j] = order[i] := by rw [hb]; simpa using hbj
      exact congrArg some ((hnodup.getElem_inj_iff).1 hsame)

theorem exists_positions? (hnodup : order.Nodup) (hbound : ∀ b ∈ order, b < size) :
    ∃ positions, positions? size order = some positions ∧
      ∀ b < size, positions[b]? = some (order.idxOf? b) := by
  have hentries : positions? size order =
      (order.map fun b => (b, order.idxOf? b)).foldlM store? (Array.replicate size none) := by
    unfold positions?
    congr 1
    refine List.ext_getElem (by simp) fun i _ hi => ?_
    have hi : i < order.length := by simpa using hi
    have hposition : order.idxOf? order[i] = some i :=
      (idxOf?_eq_some_iff_of_nodup hnodup).2 (List.getElem?_eq_getElem hi)
    simp [hposition]
  obtain ⟨positions, hpositions, -, hposition⟩ := exists_foldlM_store?_replicate hnodup hbound
  refine ⟨positions, hentries.trans hpositions, fun b hb => ?_⟩
  rw [hposition b hb]
  split
  · rfl
  · rw [List.idxOf?_eq_none_iff.2 ‹b ∉ order›]

/-- The positions in `order` of the predecessors of a block that stand there. -/
def sourcePositions (g : Graph) (order : List Nat) (block : Nat) : List Nat :=
  (g.sources block).filterMap order.idxOf?

theorem mapM_positionsBefore?_eq (hbound : ∀ b ∈ order, b < g.size)
    (hpositions : ∀ b < g.size, positions[b]? = some (order.idxOf? b)) :
    order.mapM (positionsBefore? ((List.range g.size).map g.sources) positions) =
      some (order.map (g.sourcePositions order)) := by
  refine mapM_eq_some_of_forall fun block hblock => ?_
  have hsources : ((List.range g.size).map g.sources)[block]? = some (g.sources block) := by
    rw [List.getElem?_map, List.getElem?_range (hbound block hblock), Option.map_some]
  have hfound : (g.sources block).mapM (fun source => positions[source]?) =
      some ((g.sources block).map order.idxOf?) :=
    mapM_eq_some_of_forall fun source hsource =>
      hpositions source (mem_sources_iff.1 hsource).source_lt_size
  rw [positionsBefore?, hsources, Option.bind_some, hfound, Option.map_some, List.filterMap_map]
  rfl

/-- The block at the candidate for the position of a block. -/
def dominatorOf (order : List Nat) (table : DominatorTable) (block : Nat) : Option Nat :=
  (order.idxOf? block).bind fun position =>
    (table.link position).bind fun candidate => order[candidate]?

theorem dominatorOf_eq_some {c d : Nat} (hnodup : order.Nodup) (hb : order[i]? = some b)
    (hlink : table.link i = some c) (hd : order[c]? = some d) :
    dominatorOf order table b = some d := by
  have hposition : order.idxOf? b = some i := (idxOf?_eq_some_iff_of_nodup hnodup).2 hb
  simp only [dominatorOf, hposition, hlink, hd, Option.bind_some]

theorem dominatorOf_of_not_mem (hb : b ∉ order) : dominatorOf order table b = none := by
  rw [dominatorOf, List.idxOf?_eq_none_iff.2 hb, Option.bind_none]

private theorem mapM_blockWithDominator?_eq (hnodup : order.Nodup)
    (htable : table.size = order.length)
    (hlinked : ∀ i < order.length, ∃ c < order.length, table.link i = some c) :
    (table.toList.zipIdx.mapM fun (candidate, position) =>
        blockWithDominator? order candidate position) =
      some (order.map fun b => (b, dominatorOf order table b)) := by
  have hfound : ∀ item ∈ table.toList.zipIdx, blockWithDominator? order item.1 item.2 =
      some ((order[item.2]?).getD 0, dominatorOf order table ((order[item.2]?).getD 0)) := by
    rintro ⟨candidate, position⟩ hitem
    have hcandidate : table[position]? = some candidate := by
      rw [← Array.getElem?_toList]
      exact List.mem_zipIdx_iff_getElem?.1 hitem
    have hposition : position < order.length :=
      htable ▸ (Array.getElem?_eq_some_iff.1 hcandidate).1
    obtain ⟨c, hc, hlink⟩ := hlinked position hposition
    have hblock : order[position]? = some order[position] := List.getElem?_eq_getElem hposition
    have hd : order[c]? = some order[c] := List.getElem?_eq_getElem hc
    obtain rfl : candidate = some c :=
      Option.some.inj (hcandidate.symm.trans (link_eq_some_iff.1 hlink))
    simp only [blockWithDominator?, hblock, hd, Option.bind_some, Option.map_some,
      Option.getD_some, dominatorOf_eq_some hnodup hblock hlink hd]
  rw [mapM_eq_some_of_forall hfound, Option.some.injEq]
  refine List.ext_getElem (by simp [htable]) fun i _ hi => ?_
  have hi : i < order.length := by simpa using hi
  simp [List.getElem?_eq_getElem hi]

theorem exists_dominators? (hnodup : order.Nodup) (hbound : ∀ b ∈ order, b < size)
    (htable : table.size = order.length)
    (hlinked : ∀ i < order.length, ∃ c < order.length, table.link i = some c) :
    ∃ dominators, dominators? size order table = some dominators ∧ dominators.size = size ∧
      ∀ b < size, dominators[b]? = some (dominatorOf order table b) := by
  have hentries := mapM_blockWithDominator?_eq hnodup htable hlinked
  obtain ⟨dominators, hstored, hsize, hfound⟩ := exists_foldlM_store?_replicate hnodup hbound
  refine ⟨dominators, by rw [dominators?, hentries]; exact hstored, hsize, fun b hb => ?_⟩
  rw [hfound b hb]
  split
  · rfl
  · rw [dominatorOf_of_not_mem ‹b ∉ order›]

end Graph

end MethodLowering
