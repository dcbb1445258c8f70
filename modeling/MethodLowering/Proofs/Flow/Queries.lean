import MethodLowering.Proofs.Flow.ImmediateDominators

/-!
Queries for meeting points. Whenever the search for immediate dominators looks for the meeting point
of two positions, in the first sweep and in every later one, the candidates of the table fall and
all positions on the ways from both are known.
-/

set_option autoImplicit false
set_option relaxedAutoImplicit false

namespace MethodLowering

namespace Logged

variable {E F α β : Type} {P : E → Prop}

def All (P : E → Prop) (x : Logged E F α) : Prop := ∀ event ∈ x.events, P event

theorem all_pure (a : α) : (pure a : Logged E F α).All P :=
  fun _ hevent => absurd hevent List.not_mem_nil

theorem all_fail (failure : F) : (fail failure : Logged E F α).All P :=
  fun _ hevent => absurd hevent List.not_mem_nil

theorem all_orFail (failure : F) (found : Option α) :
    (orFail failure found : Logged E F α).All P := by
  cases found with
  | none => exact all_fail failure
  | some a => exact all_pure a

theorem all_tell {event : E} (h : P event) : (tell event : Logged E F Unit).All P :=
  fun _ hevent => List.mem_singleton.1 hevent ▸ h

theorem All.bind {x : Logged E F α} {f : α → Logged E F β} (hx : x.All P)
    (hf : ∀ a, x.result = .ok a → (f a).All P) : (x >>= f).All P := by
  show (andThen x f).All P
  unfold andThen
  cases hresult : x.result with
  | error failure => exact hx
  | ok a =>
    intro event hevent
    obtain hbefore | hafter := List.mem_append.1 hevent
    · exact hx event hbefore
    · exact hf a hresult event hafter

theorem All.bind_of_ok {x : Logged E F α} {f : α → Logged E F β} {a : α} (hx : x.All P)
    (hresult : x.result = .ok a) (hf : (f a).All P) : (x >>= f).All P := by
  refine hx.bind fun b hb => ?_
  rw [hresult, Except.ok.injEq] at hb
  exact hb ▸ hf

end Logged

/-- The positions are in the table, its candidates fall, and every position on the ways from both
has one. -/
structure Query.Sound (query : Query) : Prop where
  falls : query.table.Falls
  first_lt : query.first < query.table.size
  second_lt : query.second < query.table.size
  first_chained : query.table.Chained query.first
  second_chained : query.table.Chained query.second

namespace DominatorTable

open Links

variable {table : DominatorTable} {size : Nat} {incoming : Nat → List Nat}

theorem sound_of_linked (hrooted : Rooted table.link size) {a b : Nat}
    (ha : (table.link a).isSome) (hb : (table.link b).isSome) : Query.Sound ⟨table, a, b⟩ where
  falls := hrooted.falls
  first_lt := lt_size_of_isSome ha
  second_lt := lt_size_of_isSome hb
  first_chained := chained_of_linked hrooted ha
  second_chained := chained_of_linked hrooted hb

theorem all_query {a b : Nat} (h : Query.Sound ⟨table, a, b⟩) :
    (table.query a b).All Query.Sound :=
  (Logged.all_tell h).bind fun _ _ => Logged.all_orFail _ _

theorem all_record (position : Nat) (candidate : Option Nat) :
    (table.record position candidate).All Query.Sound := by
  cases candidate with
  | none => exact Logged.all_pure table
  | some c => exact Logged.all_orFail _ _

/-- Only positions that have a candidate are asked about. -/
theorem all_meet (hrooted : Rooted table.link size) {found : Option Nat}
    (hfound : ∀ f ∈ found, (table.link f).isSome) (sources : List Nat) :
    (table.meet found sources).All Query.Sound := by
  induction sources generalizing found with
  | nil => exact Logged.all_pure found
  | cons source rest ih =>
    cases hcandidate : table[source]? with
    | none =>
      simp only [meet, hcandidate, Logged.orFail_none_bind]
      exact Logged.all_fail _
    | some candidate =>
      simp only [meet, hcandidate, Logged.orFail_some_bind]
      cases candidate with
      | none => exact ih hfound
      | some c =>
        have hsource : (table.link source).isSome := by
          rw [link_eq_some_iff.2 hcandidate]
          rfl
        cases found with
        | none => exact ih (by simpa using hsource)
        | some nearest =>
          have hnearest : (table.link nearest).isSome := hfound nearest rfl
          obtain ⟨common, hcommon, habove⟩ := nearestCommon_of_linked hrooted hnearest hsource
          have hlinked : (table.link common).isSome :=
            hrooted.isSome_of_above hnearest ((habove common).1 .refl).1
          exact (all_query (sound_of_linked hrooted hnearest hsource)).bind_of_ok
            (result_query hcommon) (ih (by simpa using hlinked))

section Sweep

variable (hordered : Ordered size incoming)

include hordered

theorem all_sweepFrom {position count : Nat} (hcount : position + count = size)
    (hposition : 0 < position) (hfront : Front size position table) :
    (sweepFrom position ((List.range' position count).map incoming) table).All Query.Sound := by
  induction count generalizing position table with
  | zero => exact Logged.all_pure table
  | succ count ih =>
    have hlt : position < size := by omega
    obtain ⟨c, hc, -, hnext⟩ := hfront.exists_meet hordered hposition hlt
    rw [List.range'_succ, List.map_cons, sweepFrom]
    refine (all_meet hfront.rooted (by simp) _).bind_of_ok hc ?_
    refine (all_record position (some c)).bind_of_ok
      (result_record (hfront.size_eq.symm ▸ hlt)) ?_
    exact ih (by omega) (Nat.succ_pos position) hnext

theorem all_settle {lists : List (List Nat)}
    (hlists : lists = (List.range size).map incoming) (hpos : 0 < size)
    (hsize : table.size = size) (hrooted : Rooted table.link size) :
    (settle lists table).All Query.Sound := by
  induction hweight : table.weight using Nat.strongRecOn generalizing table with
  | ind weight ih =>
    obtain ⟨next, hnext, hnextsize, hsweep⟩ := result_sweep hordered hlists hpos hsize hrooted
    rw [settle]
    refine Logged.All.bind_of_ok ?_ hnext ?_
    · rw [sweep, tail_eq_map_range' hlists]
      exact all_sweepFrom hordered (Nat.add_sub_cancel' hpos) Nat.one_pos (front_one hsize hrooted)
    · split
      · exact Logged.all_pure table
      · split
        · exact ih next.weight (hweight ▸ ‹_›) hnextsize (hsweep.rooted hordered hpos hrooted) rfl
        · exact Logged.all_fail _

end Sweep

end DominatorTable

namespace Graph

open DominatorTable

variable {g : Graph}

theorem all_dominatorSearch (hclosed : g.Closed) : g.dominatorSearch.All Query.Sound := by
  obtain ⟨order, hfound, horder⟩ := reversePostorder?_of_closedFromEntry hclosed.fromEntry
  rcases Nat.eq_zero_or_pos g.size with hsize | hsize
  · rw [dominatorSearch_of_size_eq_zero hfound horder hsize]
    exact Logged.all_pure []
  · have hpos : 0 < order.length := horder.length_pos hsize
    have hswept : Links.Swept order.length (g.incomingAt order) (initial order.length).link :=
      swept_initial hpos
    rw [dominatorSearch_eq hclosed hfound horder hsize]
    refine Logged.All.bind ?_ fun table _ => (Logged.all_orFail _ _).bind fun _ _ =>
      Logged.all_pure _
    exact all_settle (horder.ordered hsize) (g.map_sourcePositions_eq order) hpos
      (size_initial order.length) hswept.rooted

end Graph

namespace DominatorTable

open Links

variable {table : DominatorTable} {i c : Nat}

theorem Chained.up (hlink : table.link i = some c) (hc : table.Chained c) : table.Chained i := by
  intro x habove
  cases habove with
  | refl => exact hlink ▸ rfl
  | up hfound _ hup =>
    obtain rfl := Option.some.inj (hlink.symm.trans hfound)
    exact hc x hup

theorem chained_entry (h : (table.link 0).isSome) : table.Chained 0 := by
  intro x habove
  rwa [above_zero_iff.1 habove]

/-- In every table whose candidates lie in front of their positions, that of the entry apart, the
loops that lower two cursors in turn end for any two positions, at one position only and without
leaving the table. If every position on the ways from both has a candidate, they end at the last
position on both ways. In the search for immediate dominators all this is so whenever a meeting
point is looked for. -/
theorem nearestCommon_exact :
    (∀ (table : DominatorTable) (a b : Nat), table.Falls → a < table.size → b < table.size →
      ∃ c, table.nearestCommon a b = some c ∧ (∀ d, table.Joins a b d ↔ d = c) ∧
        (table.Chained a → table.Chained b →
          IsGreatest {x | Above table.link x a ∧ Above table.link x b} c)) ∧
    ∀ body : Body, body.graph.Closed →
      ∃ idoms, body.graph.immediateDominators? = some idoms ∧
        body.graph.dominatorSearch.result = .ok idoms ∧
        ∀ query ∈ body.graph.dominatorSearch.events, query.Sound := by
  constructor
  · intro table a b hfalls ha hb
    obtain ⟨c, hc, -⟩ := nearestCommon_eq_some hfalls ha hb
    refine ⟨c, hc, fun d => ?_, fun hchaineda hchainedb => ?_⟩
    · rw [joins_iff hfalls ha hb, hc, Option.some.injEq, eq_comm]
    · obtain ⟨c', hc', habove⟩ := nearestCommon_of_chained hfalls hchaineda hchainedb
      obtain rfl : c' = c := Option.some.inj (hc'.symm.trans hc)
      exact ⟨(habove c').1 .refl, fun x hx => ((habove x).2 hx).le⟩
  · intro body hclosed
    obtain ⟨idoms, hidoms, -⟩ := Graph.dominatorSearch_of_closed hclosed
    refine ⟨idoms, ?_, hidoms, Graph.all_dominatorSearch hclosed⟩
    rw [Graph.immediateDominators?, hidoms, Except.toOption]

/-- Two ways that part at position 1, and a position without a candidate on a third. -/
def partedTable : DominatorTable := #[some 0, some 0, none, some 1, some 1, some 2, some 3]

theorem falls_partedTable : partedTable.Falls := by
  intro i c hi hlink
  rw [link_eq_some_iff] at hlink
  have hlt : i < 7 := (Array.getElem?_eq_some_iff.1 hlink).1
  interval_cases i <;> simp [partedTable] at hlink <;> omega

theorem nearestCommon_exact_partedTable :
    partedTable.Falls ∧ 6 < partedTable.size ∧ 4 < partedTable.size ∧ partedTable.Chained 6 ∧
      partedTable.Chained 4 ∧ Body.crossing.graph.Closed ∧
      (∃ c, partedTable.nearestCommon 6 4 = some c ∧ (∀ d, partedTable.Joins 6 4 d ↔ d = c) ∧
        IsGreatest {x | Above partedTable.link x 6 ∧ Above partedTable.link x 4} c) ∧
      ∃ idoms, Body.crossing.graph.immediateDominators? = some idoms ∧
        Body.crossing.graph.dominatorSearch.result = .ok idoms ∧
        ∀ query ∈ Body.crossing.graph.dominatorSearch.events, query.Sound := by
  have hfirst : partedTable.Chained 1 := .up rfl (chained_entry rfl)
  have hsix : partedTable.Chained 6 := .up rfl (.up (i := 3) rfl hfirst)
  have hfour : partedTable.Chained 4 := .up rfl hfirst
  obtain ⟨c, hc, hjoins, hgreatest⟩ :=
    nearestCommon_exact.1 partedTable 6 4 falls_partedTable (by decide) (by decide)
  exact ⟨falls_partedTable, by decide, by decide, hsix, hfour, by decide,
    ⟨c, hc, hjoins, hgreatest hsix hfour⟩, nearestCommon_exact.2 Body.crossing (by decide)⟩

example : partedTable.nearestCommon 6 4 = some 1 ∧ partedTable.nearestCommon 5 4 = some 0 := by cbv

example : Body.crossing.graph.dominatorSearch.events.map
      (fun query => (query.first, query.second)) =
    [(0, 1), (1, 3), (0, 2), (0, 1), (0, 3), (1, 4), (0, 3)] := by cbv

end DominatorTable

end MethodLowering
