import Mathlib
import MethodLowering.Flow.Body
import MethodLowering.Proofs.Flow.DominatorTable
import MethodLowering.Proofs.Flow.Edges
import MethodLowering.Proofs.Flow.Traversal

/-!
Immediate dominators. Over the positions of a reverse postorder the table comes to rest where the
ways along its links are the dominators, hence the link of every position leads to the immediate
dominator of its block. The order itself stands in order of dominance, and an edge that does not
lead forward in it closes a cycle.
-/

set_option autoImplicit false
set_option relaxedAutoImplicit false

namespace MethodLowering

namespace Graph

open Links DominatorTable

variable {g : Graph} {order : List Nat} {a b c d i p : Nat}

theorem exists_lt_of_pair_sublist (hnodup : order.Nodup) (h : [a, b].Sublist order)
    (hb : order[i]? = some b) : ∃ p < i, order[p]? = some a := by
  obtain ⟨place, hplace⟩ := List.sublist_iff_exists_fin_orderEmbedding_get_eq.1 h
  obtain ⟨hi, hbi⟩ := List.getElem?_eq_some_iff.1 hb
  have hfirst : order[(place 0).val] = a := (hplace 0).symm
  have hsecond : order[(place 1).val] = order[i] := ((hplace 1).symm).trans hbi.symm
  have hlt : (place 0).val < (place 1).val := place.lt_iff_lt.2 Nat.zero_lt_one
  have hindex : (place 1).val = i := (hnodup.getElem_inj_iff).1 hsecond
  exact ⟨place 0, hindex ▸ hlt, hfirst ▸ List.getElem?_eq_getElem (place 0).isLt⟩

/-- The positions of the predecessors of the block at a position. -/
def incomingAt (g : Graph) (order : List Nat) (i : Nat) : List Nat :=
  g.sourcePositions order (order[i]?.getD 0)

def DominatesAt (g : Graph) (order : List Nat) (d i : Nat) : Prop :=
  ∃ a b, order[d]? = some a ∧ order[i]? = some b ∧ g.Dominates a b

namespace ReversePostorder

variable (horder : g.ReversePostorder order)

include horder

theorem mem_incomingAt_iff (hb : order[i]? = some b) :
    p ∈ g.incomingAt order i ↔ ∃ a, g.Edge a b ∧ order[p]? = some a := by
  simp only [incomingAt, hb, Option.getD_some, sourcePositions, List.mem_filterMap,
    mem_sources_iff, idxOf?_eq_some_iff_of_nodup horder.nodup]

theorem eq_of_getElem? (hi : order[i]? = some b) (hp : order[p]? = some b) : i = p := by
  rw [← idxOf?_eq_some_iff_of_nodup horder.nodup] at hi hp
  exact Option.some.inj (hi.symm.trans hp)

theorem getElem?_zero (hsize : 0 < g.size) : order[0]? = some 0 := by
  rw [← List.head?_eq_getElem?]
  exact horder.entry hsize

theorem exists_getElem? (hb : g.Reachable b) : ∃ i : Nat, order[i]? = some b :=
  List.mem_iff_getElem?.1 ((horder.mem_iff b).2 hb)

theorem ordered (hsize : 0 < g.size) : Ordered order.length (g.incomingAt order) := by
  constructor
  · intro i hi p hp
    obtain ⟨a, -, ha⟩ := (horder.mem_incomingAt_iff (List.getElem?_eq_getElem hi)).1 hp
    exact (List.getElem?_eq_some_iff.1 ha).1
  · intro i hi hpos
    have hb : order[i]? = some order[i] := List.getElem?_eq_getElem hi
    have hne : order[i] ≠ 0 := by
      intro hzero
      have := horder.eq_of_getElem? (hzero ▸ hb) (horder.getElem?_zero hsize)
      omega
    obtain ⟨a, hedge, hbefore⟩ := horder.led order[i] (List.getElem_mem hi) hne
    obtain ⟨p, hlt, ha⟩ := exists_lt_of_pair_sublist horder.nodup hbefore hb
    exact ⟨p, (horder.mem_incomingAt_iff hb).2 ⟨a, hedge, ha⟩, hlt⟩

theorem exists_path_le (hsize : 0 < g.size) (hb : order[i]? = some b) :
    ∃ blocks, g.Path 0 blocks b ∧ ∀ d a, order[d]? = some a → a ∈ blocks → d ≤ i := by
  induction i using Nat.strongRecOn generalizing b with
  | ind i ih =>
    rcases Nat.eq_zero_or_pos i with rfl | hpos
    · rw [horder.getElem?_zero hsize, Option.some.injEq] at hb
      refine ⟨[0], hb ▸ .single 0, fun d a ha hmem => ?_⟩
      rw [List.mem_singleton.1 hmem] at ha
      exact Nat.le_of_eq (horder.eq_of_getElem? ha (horder.getElem?_zero hsize))
    · have hi : i < order.length := (List.getElem?_eq_some_iff.1 hb).1
      obtain ⟨p, hp, hlt⟩ := (horder.ordered hsize).forward i hi hpos
      obtain ⟨source, hedge, hsource⟩ := (horder.mem_incomingAt_iff hb).1 hp
      obtain ⟨blocks, hpath, hle⟩ := ih p hlt hsource
      refine ⟨blocks ++ [b], hpath.concat hedge, fun d a ha hmem => ?_⟩
      rcases List.mem_append.1 hmem with hmem | hmem
      · have := hle d a ha hmem
        omega
      · rw [List.mem_singleton.1 hmem] at ha
        exact Nat.le_of_eq (horder.eq_of_getElem? ha hb)

theorem dominance (hsize : 0 < g.size) :
    Dominance order.length (g.incomingAt order) (g.DominatesAt order) := by
  constructor
  · rintro i - d ⟨a, b, ha, hb, hdom⟩
    obtain ⟨blocks, hpath, hle⟩ := horder.exists_path_le hsize hb
    exact hle d a ha (hdom blocks hpath)
  · rintro d i p ⟨a, b, ha, hb, hdom⟩ hne hp
    obtain ⟨source, hedge, hsource⟩ := (horder.mem_incomingAt_iff hb).1 hp
    have hab : a ≠ b := fun hab => hne (horder.eq_of_getElem? (hab ▸ ha) hb)
    exact ⟨a, source, ha, hsource, hdom.source hab hedge⟩

theorem dominates_antisymm (hclosed : g.Closed) (hb : g.Reachable b) (hab : g.Dominates a b)
    (hba : g.Dominates b a) : a = b := by
  have hsize : 0 < g.size := Nat.lt_of_le_of_lt (Nat.zero_le _) hb.1
  have ha : g.Reachable a := reachable_of_reaches hclosed hsize (hab.reaches hb.2)
  obtain ⟨i, hi⟩ := horder.exists_getElem? hb
  obtain ⟨d, hd⟩ := horder.exists_getElem? ha
  have hdsize : d < order.length := (List.getElem?_eq_some_iff.1 hd).1
  have hisize : i < order.length := (List.getElem?_eq_some_iff.1 hi).1
  have hdi : d ≤ i := (horder.dominance hsize).le i hisize d ⟨a, b, hd, hi, hab⟩
  have hid : i ≤ d := (horder.dominance hsize).le d hdsize i ⟨b, a, hi, hd, hba⟩
  have hsame : i = d := Nat.le_antisymm hid hdi
  rw [hsame, hd] at hi
  exact Option.some.inj hi

theorem mem_of_dominates {front back : List Nat} (hclosed : g.Closed)
    (hsplit : order = front ++ b :: back) (hdom : g.Dominates a b) (hne : a ≠ b) : a ∈ front := by
  have hi : order[front.length]? = some b := by simp [hsplit]
  have hb : g.Reachable b := (horder.mem_iff b).1 (List.mem_of_getElem? hi)
  have hsize : 0 < g.size := Nat.lt_of_le_of_lt (Nat.zero_le _) hb.1
  obtain ⟨d, hd⟩ :=
    horder.exists_getElem? (reachable_of_reaches hclosed hsize (hdom.reaches hb.2))
  have hisize : front.length < order.length := (List.getElem?_eq_some_iff.1 hi).1
  have hle : d ≤ front.length :=
    (horder.dominance hsize).le front.length hisize d ⟨a, b, hd, hi, hdom⟩
  have hlt : d < front.length := by
    rcases Nat.eq_or_lt_of_le hle with rfl | hlt
    · exact absurd (Option.some.inj (hd.symm.trans hi)) hne
    · exact hlt
  rw [hsplit, List.getElem?_append_left hlt] at hd
  exact List.mem_of_getElem? hd

end ReversePostorder

/-- The table is at rest and leads no position past a dominator. -/
structure Settled (g : Graph) (order : List Nat) (table : DominatorTable) : Prop where
  size_eq : table.size = order.length
  fixed : Sweeps order.length (g.incomingAt order) table.link table.link
  rooted : Rooted table.link order.length
  respects : Respects table.link (g.DominatesAt order)

namespace Settled

variable {table : DominatorTable} (hsettled : g.Settled order table)
  (horder : g.ReversePostorder order) (hsize : 0 < g.size)

include hsettled horder hsize

/-- What is met on the way from a position lies on every path to its block. -/
theorem mem_path {blocks : List Nat} (hpath : g.Path 0 blocks b) (hb : order[i]? = some b)
    (ha : order[d]? = some a) (habove : Above table.link d i) (hclosed : g.Closed) :
    a ∈ blocks := by
  revert i
  refine hpath.induct_back (motive := fun blocks b => ∀ {i}, order[i]? = some b →
    Above table.link d i → a ∈ blocks) ?_ ?_
  · intro i hi habove
    have hzero : i = 0 := horder.eq_of_getElem? hi (horder.getElem?_zero hsize)
    rw [hzero, above_zero_iff] at habove
    rw [habove, horder.getElem?_zero hsize, Option.some.injEq] at ha
    exact ha ▸ List.mem_singleton_self 0
  · intro front source target hfront ih hedge i hi habove
    by_cases hdi : d = i
    · rw [hdi, hi, Option.some.injEq] at ha
      exact List.mem_append_right _ (ha ▸ List.mem_singleton_self target)
    · have hreachable : g.Reachable source :=
        reachable_of_reaches hclosed hsize ⟨front, hfront⟩
      obtain ⟨p, hp⟩ := horder.exists_getElem? hreachable
      have hmem : p ∈ g.incomingAt order i := (horder.mem_incomingAt_iff hi).2 ⟨source, hedge, hp⟩
      exact List.mem_append_left _
        (ih hp (hsettled.fixed.above_source_of_fixed (horder.ordered hsize) habove hdi hmem))

theorem above_iff (hclosed : g.Closed) (ha : order[d]? = some a) (hb : order[i]? = some b) :
    Above table.link d i ↔ g.Dominates a b := by
  constructor
  · intro habove blocks hpath
    exact hsettled.mem_path horder hsize hpath hb ha habove hclosed
  · intro hdom
    have hi : i < order.length := (List.getElem?_eq_some_iff.1 hb).1
    exact hsettled.respects.above (horder.dominance hsize) hsettled.rooted
      (hsettled.fixed.isSome hi) ⟨a, b, ha, hb, hdom⟩

theorem immediatelyDominates (hclosed : g.Closed) (hb : order[i]? = some b) (hne : b ≠ 0)
    (hlink : table.link i = some d) (ha : order[d]? = some a) :
    g.ImmediatelyDominates a b := by
  have hpos : 0 < i := by
    rcases Nat.eq_zero_or_pos i with rfl | hpos
    · rw [horder.getElem?_zero hsize, Option.some.injEq] at hb
      exact absurd hb.symm hne
    · exact hpos
  have hlt : d < i := hsettled.rooted.falls i d hpos hlink
  refine ⟨(hsettled.above_iff horder hsize hclosed ha hb).1 (.up hlink hlt .refl), ?_, ?_⟩
  · rintro rfl
    have := horder.eq_of_getElem? ha hb
    omega
  · intro other hother hotherne
    have hreachable : g.Reachable b := (horder.mem_iff b).1 (List.mem_of_getElem? hb)
    rcases horder.exists_getElem? (reachable_of_reaches hclosed hsize (hother.reaches hreachable.2))
      with ⟨k, hk⟩
    have habove : Above table.link k i :=
      (hsettled.above_iff horder hsize hclosed hk hb).2 hother
    have hki : k ≠ i := by
      rintro rfl
      exact hotherne (Option.some.inj (hk.symm.trans hb))
    exact (hsettled.above_iff horder hsize hclosed hk ha).1 (habove.of_ne hki hlink)

end Settled

/-- The list gives every block that the entry reaches its immediate dominator. -/
structure ImmediateDominators (g : Graph) (idoms : List (Option Nat)) : Prop where
  length : idoms.length = g.size
  entry : 0 < g.size → idoms[0]? = some (some 0)
  unreached : ∀ b < g.size, ¬ g.Reaches 0 b → idoms[b]? = some none
  reached : ∀ b, g.Reachable b → b ≠ 0 →
    ∃ d, idoms[b]? = some (some d) ∧ g.ImmediatelyDominates d b

theorem ReversePostorder.length_pos (horder : g.ReversePostorder order) (hsize : 0 < g.size) :
    0 < order.length :=
  (List.getElem?_eq_some_iff.1 (horder.getElem?_zero hsize)).1

theorem ReversePostorder.lt_size (horder : g.ReversePostorder order) : ∀ b ∈ order, b < g.size :=
  fun b hb => ((horder.mem_iff b).1 hb).1

theorem map_sourcePositions_eq (g : Graph) (order : List Nat) :
    order.map (g.sourcePositions order) =
      (List.range order.length).map (g.incomingAt order) := by
  refine List.ext_getElem (by simp) fun i hi _ => ?_
  have hi : i < order.length := by simpa using hi
  simp [incomingAt, List.getElem?_eq_getElem hi]

theorem exists_settled (horder : g.ReversePostorder order) (hsize : 0 < g.size) :
    ∃ table, (settle (order.map (g.sourcePositions order)) (initial order.length)).result =
      .ok table ∧ g.Settled order table := by
  have hpos : 0 < order.length := horder.length_pos hsize
  obtain ⟨table, htable, htablesize, hfixed, hrooted, hrespects⟩ :=
    result_settle (horder.ordered hsize) (g.map_sourcePositions_eq order) hpos
      (horder.dominance hsize) (size_initial order.length) (swept_initial hpos) respects_initial
  exact ⟨table, htable, htablesize, hfixed, hrooted, hrespects⟩

/-- In a closed graph every look-up before the sweeps succeeds. -/
theorem dominatorSearch_eq (hclosed : g.Closed) (hfound : g.reversePostorder? = some order)
    (horder : g.ReversePostorder order) (hsize : 0 < g.size) :
    g.dominatorSearch = do
      let table ← settle (order.map (g.sourcePositions order)) (initial order.length)
      let dominators ← .orFail .entry (dominators? g.size order table)
      return dominators.toList := by
  have hpos : 0 < order.length := horder.length_pos hsize
  obtain ⟨positions, hpositions, hposition⟩ := exists_positions? horder.nodup horder.lt_size
  rw [dominatorSearch, hfound, Logged.orFail_some_bind, if_neg (List.ne_nil_of_length_pos hpos),
    hpositions, Logged.orFail_some_bind, predecessors?_eq hclosed, Logged.orFail_some_bind,
    mapM_positionsBefore?_eq horder.lt_size hposition, Logged.orFail_some_bind,
    store?_replicate hpos, Logged.orFail_some_bind]

theorem dominatorSearch_of_size_eq_zero (hfound : g.reversePostorder? = some order)
    (horder : g.ReversePostorder order) (hsize : g.size = 0) : g.dominatorSearch = pure [] := by
  have hempty : order = [] := by
    refine List.eq_nil_iff_forall_not_mem.2 fun b hb => ?_
    have := horder.lt_size b hb
    omega
  rw [dominatorSearch, hfound, Logged.orFail_some_bind, if_pos hempty, hsize, List.replicate_zero]

theorem Settled.exists_link {table : DominatorTable} (hsettled : g.Settled order table)
    (hi : i < order.length) : ∃ c < order.length, table.link i = some c := by
  obtain ⟨c, hlink⟩ := Option.isSome_iff_exists.1 (hsettled.fixed.isSome hi)
  obtain ⟨e, he⟩ := Option.isSome_iff_exists.1 (hsettled.rooted.linked i c hlink)
  exact ⟨c, hsettled.rooted.bound c e he, hlink⟩

private theorem Settled.immediateDominators {table : DominatorTable} {idoms : List (Option Nat)}
    (hsettled : g.Settled order table) (horder : g.ReversePostorder order) (hsize : 0 < g.size)
    (hclosed : g.Closed) (hlength : idoms.length = g.size)
    (hidoms : ∀ b < g.size, idoms[b]? = some (dominatorOf order table b)) :
    g.ImmediateDominators idoms := by
  have hfirst : order[0]? = some 0 := horder.getElem?_zero hsize
  refine ⟨hlength, fun _ => ?_, fun b hb hreaches => ?_, fun b hb hne => ?_⟩
  · rw [hidoms 0 hsize, dominatorOf_eq_some horder.nodup hfirst hsettled.rooted.root hfirst]
  · have hmem : b ∉ order := fun hmem => hreaches ((horder.mem_iff b).1 hmem).2
    rw [hidoms b hb, dominatorOf_of_not_mem hmem]
  · obtain ⟨i, hi⟩ := horder.exists_getElem? hb
    obtain ⟨c, hc, hlink⟩ := hsettled.exists_link (List.getElem?_eq_some_iff.1 hi).1
    have hd : order[c]? = some order[c] := List.getElem?_eq_getElem hc
    refine ⟨order[c], ?_, hsettled.immediatelyDominates horder hsize hclosed hi hne hlink hd⟩
    rw [hidoms b hb.1, dominatorOf_eq_some horder.nodup hi hlink hd]

theorem dominatorSearch_of_closed (hclosed : g.Closed) :
    ∃ idoms, g.dominatorSearch.result = .ok idoms ∧ g.ImmediateDominators idoms := by
  obtain ⟨order, hfound, horder⟩ := reversePostorder?_of_closedFromEntry hclosed.fromEntry
  rcases Nat.eq_zero_or_pos g.size with hsize | hsize
  · refine ⟨[], ?_, hsize.symm, fun hpos => ?_, fun b hb => ?_, fun b hb => ?_⟩
    · rw [dominatorSearch_of_size_eq_zero hfound horder hsize, Logged.result_pure]
    · omega
    · omega
    · exact absurd hb.1 (by omega)
  · obtain ⟨table, htable, hsettled⟩ := exists_settled horder hsize
    obtain ⟨dominators, hdominators, hlength, hanswer⟩ :=
      exists_dominators? horder.nodup horder.lt_size hsettled.size_eq fun i hi =>
        hsettled.exists_link hi
    refine ⟨dominators.toList, ?_, hsettled.immediateDominators horder hsize hclosed ?_ ?_⟩
    · rw [dominatorSearch_eq hclosed hfound horder hsize, Logged.result_bind_of_ok htable,
        hdominators, Logged.orFail_some_bind, Logged.result_pure]
    · rw [Array.length_toList, hlength]
    · simpa only [Array.getElem?_toList] using hanswer

theorem immediateDominators?_of_closed (hclosed : g.Closed) :
    ∃ idoms, g.immediateDominators? = some idoms ∧ g.ImmediateDominators idoms := by
  obtain ⟨idoms, hidoms, hspec⟩ := dominatorSearch_of_closed hclosed
  exact ⟨idoms, by rw [immediateDominators?, hidoms, Except.toOption], hspec⟩

end Graph

namespace Body

/-- For every body with blocks whose targets all name blocks, the immediate dominators are found:
the entry is its own, exactly the blocks that no path reaches have none, and any other block gets
the dominator of it that all its other dominators dominate. -/
theorem exists_immediateDominators (body : Body) (hblocks : 0 < body.blocks.length)
    (hclosed : body.graph.Closed) :
    ∃ idoms, body.graph.immediateDominators? = some idoms ∧
      idoms.length = body.blocks.length ∧
      idoms[0]? = some (some 0) ∧
      (∀ b < body.blocks.length, idoms[b]? = some none ↔ ¬ body.graph.Reaches 0 b) ∧
      ∀ b < body.blocks.length, b ≠ 0 → body.graph.Reaches 0 b →
        ∃ d, idoms[b]? = some (some d) ∧ body.graph.Dominates d b ∧ d ≠ b ∧
          ∀ other, body.graph.Dominates other b → other ≠ b → body.graph.Dominates other d := by
  obtain ⟨idoms, hidoms, hspec⟩ := Graph.immediateDominators?_of_closed hclosed
  have hsize : body.graph.size = body.blocks.length := body.size_graph
  have hentry : idoms[0]? = some (some 0) := hspec.entry (hsize ▸ hblocks)
  refine ⟨idoms, hidoms, hspec.length.trans hsize, hentry, fun b hb => ?_,
    fun b hb hne hreach => ?_⟩
  · constructor
    · intro hnone hreach
      by_cases hzero : b = 0
      · rw [hzero, hentry] at hnone
        exact absurd hnone (by simp)
      · obtain ⟨d, hd, -⟩ := hspec.reached b ⟨hsize ▸ hb, hreach⟩ hzero
        rw [hd] at hnone
        exact absurd hnone (by simp)
    · exact fun hreach => hspec.unreached b (hsize ▸ hb) hreach
  · exact hspec.reached b ⟨hsize ▸ hb, hreach⟩ hne

/-- A loop that is entered at two blocks, a block that leads to itself and to the entry, and a block
that nothing leads to. -/
def crossing : Body where
  vars := [⟨none, none⟩]
  blocks := [⟨[], .branch 0 1 2⟩, ⟨[], .branch 0 2 3⟩, ⟨[], .branch 0 1 4⟩, ⟨[], .branch 0 3 0⟩,
    ⟨[], .branch 0 3 2⟩, ⟨[], .jump 2⟩]

theorem exists_immediateDominators_crossing :
    0 < crossing.blocks.length ∧ crossing.graph.Closed ∧
      ∃ idoms, crossing.graph.immediateDominators? = some idoms ∧
        idoms.length = crossing.blocks.length ∧
        idoms[0]? = some (some 0) ∧
        (∀ b < crossing.blocks.length, idoms[b]? = some none ↔ ¬ crossing.graph.Reaches 0 b) ∧
        ∀ b < crossing.blocks.length, b ≠ 0 → crossing.graph.Reaches 0 b →
          ∃ d, idoms[b]? = some (some d) ∧ crossing.graph.Dominates d b ∧ d ≠ b ∧
            ∀ other, crossing.graph.Dominates other b → other ≠ b →
              crossing.graph.Dominates other d :=
  ⟨by decide, by decide, exists_immediateDominators crossing (by decide) (by decide)⟩

example : crossing.graph.immediateDominators? =
    some [some 0, some 0, some 0, some 0, some 2, none] := by cbv

end Body

/-! ### Places in a reverse postorder -/

namespace Graph

variable {g : Graph} {order : List Nat} {a b d i p : Nat}

theorem ClosedFromEntry.reachable (hclosed : g.ClosedFromEntry) (hsize : 0 < g.size)
    (h : g.Reaches 0 b) : g.Reachable b :=
  h.induct (motive := g.Reachable) (reachable_entry hsize) fun a c ha _ hedge =>
    ⟨hclosed a c ha hedge, ha.step hedge⟩

theorem pair_sublist_of_lt (hlt : p < i) (ha : order[p]? = some a) (hb : order[i]? = some b) :
    [a, b].Sublist order := by
  obtain ⟨hp, rfl⟩ := List.getElem?_eq_some_iff.1 ha
  have hlater : b ∈ order.drop (p + 1) := by
    refine List.mem_of_getElem? (i := i - (p + 1)) ?_
    rw [List.getElem?_drop, Nat.add_sub_cancel' hlt, hb]
  have hpair : [order[p], b].Sublist (order[p] :: order.drop (p + 1)) :=
    (List.singleton_sublist.2 hlater).cons_cons _
  rw [← List.drop_eq_getElem_cons hp] at hpair
  exact hpair.trans (List.drop_sublist p order)

theorem ReversePostorder.sublist_of_dominates (horder : g.ReversePostorder order)
    (hclosed : g.ClosedFromEntry) (hb : g.Reachable b) (hdom : g.Dominates d b) :
    d = b ∨ [d, b].Sublist order := by
  have hsize : 0 < g.size := Nat.lt_of_le_of_lt (Nat.zero_le b) hb.1
  obtain ⟨i, hi⟩ := horder.exists_getElem? hb
  obtain ⟨p, hp⟩ := horder.exists_getElem? (hclosed.reachable hsize (hdom.reaches hb.2))
  obtain ⟨blocks, hpath, hle⟩ := horder.exists_path_le hsize hi
  rcases Nat.eq_or_lt_of_le (hle p d hp (hdom blocks hpath)) with rfl | hlt
  · exact .inl (Option.some.inj (hp.symm.trans hi))
  · exact .inr (pair_sublist_of_lt hlt hp hi)

end Graph

namespace Body

/-- A body whose reached blocks have no target that names no block has a reverse postorder: it holds
the blocks that the entry reaches, each once, and starts with the entry. An edge that does not lead
forward closes a cycle; so if no edge does, all edges lead forward. Every block but the entry stands
behind the source of one of its edges, and behind all blocks that dominate it. -/
theorem exists_reversePostorder (body : Body) (hclosed : body.graph.ClosedFromEntry) :
    ∃ order, body.graph.reversePostorder? = some order ∧
      order.Nodup ∧
      (∀ b, b ∈ order ↔ b < body.blocks.length ∧ body.graph.Reaches 0 b) ∧
      (body.blocks = [] → order = []) ∧
      (0 < body.blocks.length → order.head? = some 0) ∧
      (∀ a ∈ order, ∀ b ∈ order, body.graph.Edge a b → ¬ [a, b].Sublist order →
        body.graph.Reaches b a) ∧
      ((∀ a ∈ order, ∀ b ∈ order, body.graph.Edge a b → ¬ body.graph.Reaches b a) →
        ∀ a ∈ order, ∀ b ∈ order, body.graph.Edge a b → [a, b].Sublist order) ∧
      (∀ b ∈ order, b ≠ 0 → ∃ a, body.graph.Edge a b ∧ [a, b].Sublist order) ∧
      ∀ b ∈ order, ∀ d, body.graph.Dominates d b → d = b ∨ [d, b].Sublist order := by
  obtain ⟨order, horder, hspec⟩ := Graph.reversePostorder?_of_closedFromEntry hclosed
  have hmem : ∀ b, b ∈ order ↔ b < body.blocks.length ∧ body.graph.Reaches 0 b := fun b =>
    body.size_graph ▸ hspec.mem_iff b
  have hforward : ∀ a ∈ order, ∀ b ∈ order, body.graph.Edge a b →
      [a, b].Sublist order ∨ body.graph.Reaches b a := fun a ha b _ hedge =>
    Graph.sublist_or_reaches_of_edge horder ha hedge
  refine ⟨order, horder, hspec.nodup, hmem, fun hempty => ?_, fun hpos => ?_, ?_, ?_, hspec.led, ?_⟩
  · refine List.eq_nil_iff_forall_not_mem.2 fun b hb => ?_
    have hlt := ((hmem b).1 hb).1
    rw [hempty] at hlt
    exact Nat.not_lt_zero b hlt
  · exact hspec.entry (body.size_graph.symm ▸ hpos)
  · exact fun a ha b hb hedge hnot => (hforward a ha b hb hedge).resolve_left hnot
  · exact fun hacyclic a ha b hb hedge =>
      (hforward a ha b hb hedge).resolve_right (hacyclic a ha b hb hedge)
  · exact fun b hb d hdom => hspec.sublist_of_dominates hclosed ((hspec.mem_iff b).1 hb) hdom

/-- A loop with two ways into it and an edge from a block to itself, and a block that nothing leads
to and that leads out of the body. -/
def danglingAside : Body where
  vars := [⟨none, none⟩]
  blocks := [⟨[], .branch 0 1 2⟩, ⟨[], .branch 0 1 2⟩, ⟨[], .branch 0 1 3⟩, ⟨[], .exit none⟩,
    ⟨[], .branch 0 3 7⟩]

theorem closedFromEntry_danglingAside : danglingAside.graph.ClosedFromEntry := by
  intro a b ha hedge
  have hlt : b < 4 := (ha.step hedge).lt_of_stays (by decide) (by decide)
  exact Nat.lt_trans hlt (by decide)

theorem exists_reversePostorder_danglingAside :
    danglingAside.graph.ClosedFromEntry ∧
      ∃ order, danglingAside.graph.reversePostorder? = some order ∧
        order.Nodup ∧
        (∀ b, b ∈ order ↔ b < danglingAside.blocks.length ∧ danglingAside.graph.Reaches 0 b) ∧
        (danglingAside.blocks = [] → order = []) ∧
        (0 < danglingAside.blocks.length → order.head? = some 0) ∧
        (∀ a ∈ order, ∀ b ∈ order, danglingAside.graph.Edge a b → ¬ [a, b].Sublist order →
          danglingAside.graph.Reaches b a) ∧
        ((∀ a ∈ order, ∀ b ∈ order, danglingAside.graph.Edge a b →
            ¬ danglingAside.graph.Reaches b a) →
          ∀ a ∈ order, ∀ b ∈ order, danglingAside.graph.Edge a b → [a, b].Sublist order) ∧
        (∀ b ∈ order, b ≠ 0 → ∃ a, danglingAside.graph.Edge a b ∧ [a, b].Sublist order) ∧
        ∀ b ∈ order, ∀ d, danglingAside.graph.Dominates d b → d = b ∨ [d, b].Sublist order :=
  ⟨closedFromEntry_danglingAside,
    exists_reversePostorder danglingAside closedFromEntry_danglingAside⟩

example : danglingAside.graph.reversePostorder? = some [0, 1, 2, 3] := by cbv

end Body

end MethodLowering
