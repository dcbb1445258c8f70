import Mathlib.Algebra.Order.BigOperators.Group.List
import MethodLowering.Proofs.Flow.Lookups
import MethodLowering.Proofs.Flow.Sweep

/-!
Dominator tables as links. The sources of a position meet at the lowest position above those that
are linked, one pass over the table is a sweep of its links, and the passes end at links that a
sweep leaves as they are.
-/

set_option autoImplicit false
set_option relaxedAutoImplicit false

namespace MethodLowering

namespace DominatorTable

open Links

variable {table : DominatorTable} {size : Nat} {incoming : Nat → List Nat}
  {dominates : Nat → Nat → Prop}

theorem result_query {a b c : Nat} (h : table.nearestCommon a b = some c) :
    (table.query a b).result = .ok c := by
  rw [query, Logged.result_bind_of_ok (Logged.result_tell _), h]
  rfl

private theorem meet_cons_of_linked (hrooted : Rooted table.link size) {found : Option Nat}
    {p : Nat} (sources : List Nat) (hfound : ∀ f ∈ found, (table.link f).isSome)
    (hp : (table.link p).isSome) :
    ∃ nearest,
      (table.meet found (p :: sources)).result = (table.meet (some nearest) sources).result ∧
      (table.link nearest).isSome ∧
      ∀ x, Above table.link x nearest ↔
        (∀ f ∈ found, Above table.link x f) ∧ Above table.link x p := by
  obtain ⟨candidate, hlink⟩ := Option.isSome_iff_exists.1 hp
  have hcandidate : table[p]? = some (some candidate) := link_eq_some_iff.1 hlink
  cases found with
  | none =>
    exact ⟨p, by simp only [meet, hcandidate, Logged.orFail_some_bind], hp, fun x => by simp⟩
  | some f =>
    have hf : (table.link f).isSome := hfound f rfl
    obtain ⟨nearest, hnearest, habove⟩ := nearestCommon_of_linked hrooted hf hp
    refine ⟨nearest, ?_, ?_, fun x => by simp [habove x]⟩
    · simp only [meet, hcandidate, Logged.orFail_some_bind]
      exact Logged.result_bind_of_ok (result_query hnearest) _
    · exact hrooted.isSome_of_above hf ((habove nearest).1 .refl).1

/-- If anything is linked at all, there is a lowest position above the one found so far and all
linked sources. -/
private theorem result_meet (hrooted : Rooted table.link size) {sources : List Nat}
    (found : Option Nat) (hsources : ∀ p ∈ sources, p < table.size)
    (hfound : ∀ f ∈ found, (table.link f).isSome)
    (hlinked : found.isSome ∨ ∃ p ∈ sources, (table.link p).isSome) :
    ∃ c, (table.meet found sources).result = .ok (some c) ∧
      ∀ x, Above table.link x c ↔
        (∀ f ∈ found, Above table.link x f) ∧ Common table.link sources x := by
  induction sources generalizing found with
  | nil =>
    obtain ⟨f, rfl⟩ := Option.isSome_iff_exists.1 (by simpa using hlinked)
    exact ⟨f, rfl, fun x => by simp [Common]⟩
  | cons p sources ih =>
    have hrest : ∀ q ∈ sources, q < table.size := fun q hq =>
      hsources q (List.mem_cons_of_mem _ hq)
    cases hlink : table.link p with
    | none =>
      have hskip : table.meet found (p :: sources) = table.meet found sources := by
        have hp : p < table.size := hsources p List.mem_cons_self
        have hnone : table[p]? = some none := by
          rw [link, Array.getElem?_eq_getElem hp] at hlink
          rw [Array.getElem?_eq_getElem hp]
          exact congrArg some hlink
        simp only [meet, hnone, Logged.orFail_some_bind]
      obtain ⟨c, hc, habove⟩ := ih found hrest hfound (by simpa [hlink] using hlinked)
      exact ⟨c, hskip ▸ hc, fun x => by rw [habove x]; simp [Common, hlink]⟩
    | some candidate =>
      have hp : (table.link p).isSome := hlink ▸ rfl
      obtain ⟨nearest, hstep, hnearest, hcommon⟩ := meet_cons_of_linked hrooted sources hfound hp
      obtain ⟨c, hc, habove⟩ := ih (some nearest) hrest (by simpa using hnearest) (.inl rfl)
      exact ⟨c, hstep.trans hc, fun x => by
        rw [habove x]; simp [Common, hlink, hcommon x, and_assoc]⟩

theorem result_meet_none (hrooted : Rooted table.link size) {sources : List Nat}
    (hsources : ∀ p ∈ sources, p < table.size)
    (hlinked : ∃ p ∈ sources, (table.link p).isSome) :
    ∃ c, (table.meet none sources).result = .ok (some c) ∧ Meets table.link sources c := by
  obtain ⟨c, hc, habove⟩ := result_meet hrooted none hsources (by simp) (.inr hlinked)
  exact ⟨c, hc, fun x => (habove x).trans (by simp)⟩

theorem result_record {position c : Nat} (hposition : position < table.size) :
    (table.record position (some c)).result = .ok (table.setIfInBounds position (some c)) := by
  rw [record, store?_of_lt hposition]
  rfl

theorem link_setIfInBounds {position : Nat} (hposition : position < table.size) (c i : Nat) :
    link (table.setIfInBounds position (some c)) i =
      if i = position then some c else table.link i := by
  rw [link, Array.getElem?_setIfInBounds]
  by_cases hi : i = position
  · simp [hi, hposition]
  · rw [if_neg (Ne.symm hi), if_neg hi, link]

private theorem rooted_setIfInBounds (hrooted : Rooted table.link size) {position c : Nat}
    (hsize : table.size = size) (hposition : position < size) (hlt : c < position)
    (hc : (table.link c).isSome) :
    Rooted (link (table.setIfInBounds position (some c))) size := by
  have hlink := fun i => link_setIfInBounds (hsize.symm ▸ hposition) c i
  have hkept : ∀ i, (table.link i).isSome →
      (link (table.setIfInBounds position (some c)) i).isSome := by
    intro i hi
    rw [hlink]
    split
    · rfl
    · exact hi
  constructor
  · rw [hlink, if_neg (by omega)]
    exact hrooted.root
  · intro i d hd
    rw [hlink] at hd
    split at hd
    · omega
    · exact hrooted.bound i d hd
  · intro i d hi hd
    rw [hlink] at hd
    split at hd
    · rw [Option.some.injEq] at hd
      omega
    · exact hrooted.falls i d hi hd
  · intro i d hd
    rw [hlink] at hd
    split at hd
    · rw [Option.some.injEq] at hd
      exact hkept d (hd ▸ hc)
    · exact hkept d (hrooted.linked i d hd)

/-- A sweep has come to a position: all positions in front of it have candidates. -/
structure Front (size position : Nat) (table : DominatorTable) : Prop where
  size_eq : table.size = size
  rooted : Rooted table.link size
  linked : ∀ k < position, (table.link k).isSome

theorem front_one (hsize : table.size = size) (hrooted : Rooted table.link size) :
    Front size 1 table where
  size_eq := hsize
  rooted := hrooted
  linked k hk := by
    rw [Nat.lt_one_iff.1 hk, hrooted.root]
    rfl

theorem tail_eq_map_range' {lists : List (List Nat)}
    (hlists : lists = (List.range size).map incoming) :
    lists.tail = (List.range' 1 (size - 1)).map incoming := by
  rw [hlists, ← List.map_tail, List.range_eq_range', List.tail_range']

section Sweep

variable (hordered : Ordered size incoming)

include hordered

theorem Front.exists_meet {position : Nat} (h : Front size position table) (hpos : 0 < position)
    (hlt : position < size) :
    ∃ c, (table.meet none (incoming position)).result = .ok (some c) ∧
      Meets table.link (incoming position) c ∧
      Front size (position + 1) (table.setIfInBounds position (some c)) := by
  obtain ⟨p, hp, hpfront⟩ := hordered.forward position hlt hpos
  have hplinked : (table.link p).isSome := h.linked p hpfront
  have hbound : ∀ q ∈ incoming position, q < table.size := fun q hq =>
    h.size_eq ▸ hordered.bound position hlt q hq
  obtain ⟨c, hc, hmeets⟩ := result_meet_none h.rooted hbound ⟨p, hp, hplinked⟩
  have hfront : c < position :=
    Nat.lt_of_le_of_lt ((hmeets c).1 .refl p hp hplinked).le hpfront
  refine ⟨c, hc, hmeets, Array.size_setIfInBounds.trans h.size_eq,
    rooted_setIfInBounds h.rooted h.size_eq hlt hfront (h.linked c hfront), fun k hk => ?_⟩
  rw [link_setIfInBounds (h.size_eq.symm ▸ hlt)]
  split
  · rfl
  · exact h.linked k (by omega)

/-- Reconsidering the positions from `position` on gives each a meeting point of its sources and
leaves the earlier ones alone. -/
private theorem result_sweepFrom {position count : Nat} (hcount : position + count = size)
    (hposition : 0 < position) (hfront : Front size position table) :
    ∃ result,
      (sweepFrom position ((List.range' position count).map incoming) table).result = .ok result ∧
      result.size = size ∧ (∀ k < position, result.link k = table.link k) ∧
      ∀ i < size, position ≤ i → ∃ c, result.link i = some c ∧
        Meets (splice result.link table.link i) (incoming i) c := by
  induction count generalizing position table with
  | zero => exact ⟨table, rfl, hfront.size_eq, fun _ _ => rfl, fun i hi hle => by omega⟩
  | succ count ih =>
    have hlt : position < size := by omega
    have hbound : position < table.size := hfront.size_eq.symm ▸ hlt
    obtain ⟨c, hc, hmeets, hnext⟩ := hfront.exists_meet hordered hposition hlt
    have hlink := link_setIfInBounds hbound c
    obtain ⟨result, hresult, hresultsize, hbefore, hafter⟩ :=
      ih (by omega) (Nat.succ_pos position) hnext
    have hkept : ∀ k < position, result.link k = table.link k := fun k hk => by
      rw [hbefore k (by omega), hlink, if_neg (by omega)]
    refine ⟨result, ?_, hresultsize, hkept, fun i hi hle => ?_⟩
    · rw [List.range'_succ, List.map_cons, sweepFrom, Logged.result_bind_of_ok hc,
        Logged.result_bind_of_ok (result_record hbound)]
      exact hresult
    · rcases Nat.eq_or_lt_of_le hle with rfl | hlater
      · refine ⟨c, by rw [hbefore position (Nat.lt_succ_self _), hlink, if_pos rfl], ?_⟩
        rw [splice_eq_old hkept]
        exact hmeets
      · obtain ⟨d, hd, hmeets⟩ := hafter i hi hlater
        have hseam : ∀ k, i ≤ k →
            link (table.setIfInBounds position (some c)) k = table.link k := by
          intro k hk
          rw [hlink, if_neg (by omega)]
        exact ⟨d, hd, splice_congr_old hseam ▸ hmeets⟩

theorem result_sweep {lists : List (List Nat)}
    (hlists : lists = (List.range size).map incoming) (hpos : 0 < size)
    (hsize : table.size = size) (hrooted : Rooted table.link size) :
    ∃ result, (sweep lists table).result = .ok result ∧ result.size = size ∧
      Sweeps size incoming table.link result.link := by
  obtain ⟨result, hresult, hresultsize, hbefore, hafter⟩ :=
    result_sweepFrom hordered (Nat.add_sub_cancel' hpos) Nat.one_pos (front_one hsize hrooted)
  refine ⟨result, ?_, hresultsize, ?_, fun i c hlink => ?_, fun i hi hpos => hafter i hi hpos⟩
  · rw [sweep, tail_eq_map_range' hlists]
    exact hresult
  · rw [hbefore 0 Nat.one_pos]
    exact hrooted.root
  · rcases Nat.lt_or_ge i size with hi | hi
    · exact hi
    · rw [link_of_size_le (hresultsize.symm ▸ hi)] at hlink
      exact absurd hlink nofun

omit hordered in
theorem weight_eq (table : DominatorTable) :
    table.weight =
      ((List.range table.size).map fun i => (table.link i).getD i).foldr (· + ·) 0 := by
  rw [weight]
  congr 1
  refine List.ext_getElem (by simp) fun i hi _ => ?_
  have hsize : i < table.size := by simpa using hi
  simp [link, Array.getElem?_eq_getElem hsize]

omit hordered in
theorem eq_of_link_eq {old new : DominatorTable} (hsize : new.size = old.size)
    (hlink : ∀ i < new.size, new.link i = old.link i) : new = old := by
  refine Array.ext hsize fun i hnew hold => ?_
  have hentry := hlink i hnew
  rw [link, link, Array.getElem?_eq_getElem hnew, Array.getElem?_eq_getElem hold] at hentry
  exact hentry

private theorem link_eq_or_lt {old new : Links} (hsweep : Sweeps size incoming old new)
    (hold : Swept size incoming old) {i : Nat} (hi : i < size) :
    new i = old i ∨ (new i).getD i < (old i).getD i := by
  obtain ⟨d, hnew⟩ := Option.isSome_iff_exists.1 (hsweep.isSome hi)
  cases hlink : old i with
  | none =>
    right
    have hpos : 0 < i := by
      rcases Nat.eq_zero_or_pos i with rfl | hpos
      · exact absurd hlink (by rw [hold.rooted.root]; nofun)
      · exact hpos
    rw [hnew, Option.getD_some, Option.getD_none]
    exact hsweep.falls hordered hpos hnew
  | some c =>
    have hle : d ≤ c := hsweep.link_le hordered hold hlink hnew
    rcases Nat.eq_or_lt_of_le hle with rfl | hlt
    · exact .inl hnew
    · right
      rw [hnew]
      exact hlt

private theorem weight_lt {old new : DominatorTable} (hold : old.size = size)
    (hnew : new.size = size) (hsweep : Sweeps size incoming old.link new.link)
    (hswept : Swept size incoming old.link) (hne : new ≠ old) : new.weight < old.weight := by
  rw [weight_eq, weight_eq, hold, hnew, ← List.sum_eq_foldr, ← List.sum_eq_foldr]
  have hlower := fun i (hi : i < size) => link_eq_or_lt hordered hsweep hswept hi
  apply List.sum_lt_sum
  · intro i hi
    rcases hlower i (List.mem_range.1 hi) with heq | hlt
    · rw [heq]
    · exact Nat.le_of_lt hlt
  · by_contra hnone
    refine hne (eq_of_link_eq (hnew.trans hold.symm) fun i hi => ?_)
    rw [hnew] at hi
    rcases hlower i hi with heq | hlt
    · exact heq
    · exact absurd ⟨i, List.mem_range.2 hi, hlt⟩ hnone

/-- The sweeps end at a table that a further sweep leaves as it is, and no candidate of it lies
beyond a dominator. -/
theorem result_settle {lists : List (List Nat)}
    (hlists : lists = (List.range size).map incoming) (hpos : 0 < size)
    (hdominance : Dominance size incoming dominates) (hsize : table.size = size)
    (hswept : Swept size incoming table.link) (hrespects : Respects table.link dominates) :
    ∃ result, (settle lists table).result = .ok result ∧ result.size = size ∧
      Sweeps size incoming result.link result.link ∧ Rooted result.link size ∧
      Respects result.link dominates := by
  induction hweight : table.weight using Nat.strongRecOn generalizing table with
  | ind weight ih =>
    rcases result_sweep hordered hlists hpos hsize hswept.rooted with
      ⟨next, hnext, hnextsize, hsweep⟩
    rw [settle, Logged.result_bind_of_ok hnext]
    by_cases hsame : next = table
    · simp only [if_pos hsame]
      exact ⟨table, rfl, hsize, hsame ▸ hsweep, hswept.rooted, hrespects⟩
    · have hlower : next.weight < table.weight :=
        weight_lt hordered hsize hnextsize hsweep hswept hsame
      simp only [if_neg hsame, if_pos hlower]
      exact ih next.weight (hweight ▸ hlower) hnextsize (hsweep.swept hordered hpos hswept)
        (hsweep.respects hordered hdominance hswept.rooted hrespects) rfl

end Sweep

/-- The table before the first sweep: only the entry has a candidate, itself. -/
def initial (size : Nat) : DominatorTable :=
  (Array.replicate size none).setIfInBounds 0 (some 0)

theorem store?_replicate (hpos : 0 < size) :
    store? (Array.replicate size none) (0, some 0) = some (initial size) :=
  store?_of_lt (by simpa using hpos)

theorem link_initial (size i : Nat) :
    (initial size).link i = if i = 0 ∧ 0 < size then some 0 else none := by
  rw [link, initial, Array.getElem?_setIfInBounds, Array.getElem?_replicate]
  by_cases hi : i = 0
  · by_cases hsize : 0 < size <;> simp [hi, hsize]
  · rw [if_neg (Ne.symm hi), if_neg (fun h : i = 0 ∧ 0 < size => hi h.1)]
    split <;> rfl

theorem size_initial (size : Nat) : (initial size).size = size := by
  simp [initial]

private theorem eq_zero_of_link_initial {i c : Nat} (h : (initial size).link i = some c) :
    i = 0 ∧ c = 0 := by
  rw [link_initial] at h
  split at h
  · rename_i hzero
    rw [Option.some.injEq] at h
    exact ⟨hzero.1, h.symm⟩
  · exact absurd h nofun

theorem swept_initial (hpos : 0 < size) : Swept size incoming (initial size).link := by
  have hroot : (initial size).link 0 = some 0 := by rw [link_initial, if_pos ⟨rfl, hpos⟩]
  refine ⟨⟨hroot, ?_, ?_, ?_⟩, ?_, ?_⟩
  · intro i c h
    exact (eq_zero_of_link_initial h).1 ▸ hpos
  · intro i c hi h
    exact absurd (eq_zero_of_link_initial h).1 (Nat.ne_of_gt hi)
  · intro i c h
    rw [(eq_zero_of_link_initial h).2, hroot]
    rfl
  · intro i c hi h
    exact absurd (eq_zero_of_link_initial h).1 (Nat.ne_of_gt hi)
  · intro i c hi h
    exact absurd (eq_zero_of_link_initial h).1 (Nat.ne_of_gt hi)

theorem respects_initial : Respects (initial size).link dominates := by
  intro i c d hi h
  exact absurd (eq_zero_of_link_initial h).1 (Nat.ne_of_gt hi)

end DominatorTable

end MethodLowering
