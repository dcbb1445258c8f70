import Mathlib.Data.Set.Card
import MethodLowering.Flow.Body
import MethodLowering.Flow.Dominator
import MethodLowering.Flow.Graph

/-!
Paths, dominance and edges. A path can be taken apart at both of its ends and at every block on it,
so dominance is passed on backward along edges and from dominators to the blocks they dominate. In a
closed graph the table of predecessors lists the sources of the edges into every block, in ascending
order and, if no block has a target twice, each of them once; each edge makes one list longer by
one.
-/

set_option autoImplicit false
set_option relaxedAutoImplicit false

namespace MethodLowering

/-! ### Paths and dominance -/

namespace Graph

variable {g : Graph} {a b c d : Nat} {blocks : List Nat}

theorem Closed.target_lt_size (hclosed : g.Closed) (h : g.Edge a b) : b < g.size := by
  obtain ⟨next, hnext, hb⟩ := h
  exact hclosed next (List.mem_of_getElem? hnext) b hb

theorem Edge.source_lt_size (h : g.Edge a b) : a < g.size := by
  obtain ⟨next, hnext, -⟩ := h
  exact (List.getElem?_eq_some_iff.1 hnext).1

theorem Path.target_mem (h : g.Path a blocks b) : b ∈ blocks := by
  induction h with
  | single a => exact List.mem_singleton_self a
  | step _ _ ih => exact List.mem_cons_of_mem _ ih

theorem Path.concat (h : g.Path a blocks b) (hedge : g.Edge b c) :
    g.Path a (blocks ++ [c]) c := by
  induction h with
  | single a => exact .step hedge (.single c)
  | step hfirst _ ih => exact .step hfirst (ih hedge)

theorem Path.last_edge (h : g.Path a blocks c) :
    blocks = [a] ∧ c = a ∨
      ∃ front b, g.Path a front b ∧ g.Edge b c ∧ blocks = front ++ [c] := by
  induction h with
  | single a => exact .inl ⟨rfl, rfl⟩
  | @step a b c blocks hfirst hrest ih =>
    right
    rcases ih with ⟨rfl, rfl⟩ | ⟨front, last, hfront, hedge, rfl⟩
    · exact ⟨[a], a, .single a, hfirst, rfl⟩
    · exact ⟨a :: front, last, .step hfirst hfront, hedge, rfl⟩

theorem Path.induct_back {motive : List Nat → Nat → Prop} (h : g.Path a blocks b)
    (hsingle : motive [a] a)
    (hconcat : ∀ front b c, g.Path a front b → motive front b → g.Edge b c →
      motive (front ++ [c]) c) : motive blocks b := by
  induction hlen : blocks.length generalizing blocks b with
  | zero =>
    rw [List.length_eq_zero_iff] at hlen
    exact absurd (hlen ▸ h.target_mem) List.not_mem_nil
  | succ n ih =>
    rcases h.last_edge with ⟨rfl, rfl⟩ | ⟨front, last, hfront, hedge, rfl⟩
    · exact hsingle
    · have hlast : motive front last := ih hfront (by simpa using hlen)
      exact hconcat front last b hfront hlast hedge

theorem Path.cut (h : g.Path a blocks b) (hd : d ∈ blocks) :
    ∃ front, g.Path a front d ∧ front ⊆ blocks := by
  induction h with
  | single a =>
    rw [List.mem_singleton] at hd
    subst hd
    exact ⟨[d], .single d, fun _ hx => hx⟩
  | @step a b c blocks hfirst hrest ih =>
    rcases List.mem_cons.1 hd with rfl | hd
    · refine ⟨[d], .single d, fun x hx => ?_⟩
      rw [List.mem_singleton] at hx
      exact hx ▸ List.mem_cons_self
    · obtain ⟨front, hfront, hsub⟩ := ih hd
      exact ⟨a :: front, .step hfirst hfront, List.cons_subset_cons a hsub⟩

theorem Reaches.refl (g : Graph) (a : Nat) : g.Reaches a a := ⟨[a], .single a⟩

theorem Reaches.step (h : g.Reaches a b) (hedge : g.Edge b c) : g.Reaches a c := by
  obtain ⟨blocks, hpath⟩ := h
  exact ⟨blocks ++ [c], hpath.concat hedge⟩

theorem reachable_entry (h : 0 < g.size) : g.Reachable 0 := ⟨h, .refl g 0⟩

theorem Reachable.step (hclosed : g.Closed) (h : g.Reachable a) (hedge : g.Edge a b) :
    g.Reachable b :=
  ⟨hclosed.target_lt_size hedge, h.2.step hedge⟩

theorem Reaches.induct {motive : Nat → Prop} (h : g.Reaches 0 b) (hentry : motive 0)
    (hstep : ∀ a c, g.Reaches 0 a → motive a → g.Edge a c → motive c) : motive b := by
  obtain ⟨blocks, hpath⟩ := h
  exact hpath.induct_back (motive := fun _ b => motive b) hentry
    fun front b c hfront hb hedge => hstep b c ⟨front, hfront⟩ hb hedge

theorem Reaches.lt_of_stays {count : Nat} (h : g.Reaches 0 b) (hpos : 0 < count)
    (hstays : ∀ next ∈ g.targets.take count, ∀ c ∈ next, c < count) : b < count := by
  refine h.induct (motive := (· < count)) hpos fun a c _ ha hedge => ?_
  obtain ⟨next, hnext, hc⟩ := hedge
  have hmem : next ∈ g.targets.take count :=
    List.mem_of_getElem? ((List.getElem?_take_of_lt ha).trans hnext)
  exact hstays next hmem c hc

theorem reachable_of_reaches (hclosed : g.Closed) (hsize : 0 < g.size) (h : g.Reaches 0 b) :
    g.Reachable b :=
  h.induct (motive := g.Reachable) (reachable_entry hsize) fun _ _ _ ha hedge =>
    ha.step hclosed hedge

theorem dominates_self (g : Graph) (b : Nat) : g.Dominates b b := fun _ hpath => hpath.target_mem

theorem Dominates.trans (hdb : g.Dominates d b) (hbc : g.Dominates b c) : g.Dominates d c := by
  intro blocks hpath
  obtain ⟨front, hfront, hsub⟩ := hpath.cut (hbc blocks hpath)
  exact hsub (hdb front hfront)

/-- A dominator of a block, itself apart, dominates the blocks before it. -/
theorem Dominates.source (h : g.Dominates d b) (hne : d ≠ b) (hedge : g.Edge a b) :
    g.Dominates d a := by
  intro blocks hpath
  rcases List.mem_append.1 (h _ (hpath.concat hedge)) with hd | hd
  · exact hd
  · exact absurd (List.mem_singleton.1 hd) hne

theorem Dominates.reaches (h : g.Dominates d b) (hb : g.Reaches 0 b) : g.Reaches 0 d := by
  obtain ⟨blocks, hpath⟩ := hb
  obtain ⟨front, hfront, -⟩ := hpath.cut (h blocks hpath)
  exact ⟨front, hfront⟩

theorem dominates_entry_iff : g.Dominates d 0 ↔ d = 0 := by
  constructor
  · intro h
    exact List.mem_singleton.1 (h [0] (.single 0))
  · rintro rfl
    exact dominates_self g 0

end Graph

/-! ### Predecessors -/

theorem mapM_eq_some_of_forall {α β : Type} {f : α → Option β} {h : α → β} {items : List α}
    (hf : ∀ a ∈ items, f a = some (h a)) : items.mapM f = some (items.map h) := by
  induction items with
  | nil => rfl
  | cons a items ih =>
    rw [List.mapM_cons, hf a List.mem_cons_self, ih fun b hb => hf b (List.mem_cons_of_mem _ hb)]
    rfl

namespace Graph

variable {g : Graph} {a b : Nat}

/-- The sources of the edges into a block, in the order of the edges. -/
def sources (g : Graph) (block : Nat) : List Nat :=
  (g.edges.filter fun edge => edge.2 == block).map Prod.fst

theorem mem_edges_iff : (a, b) ∈ g.edges ↔ g.Edge a b := by
  simp only [edges, List.mem_flatMap, List.mem_map, Prod.exists, List.mem_zipIdx_iff_getElem?,
    Prod.mk.injEq]
  constructor
  · rintro ⟨next, source, hnext, target, htarget, rfl, rfl⟩
    exact ⟨next, hnext, htarget⟩
  · rintro ⟨next, hnext, hb⟩
    exact ⟨next, a, hnext, b, hb, rfl, rfl⟩

theorem mem_sources_iff : a ∈ g.sources b ↔ g.Edge a b := by
  simp only [sources, List.mem_map, List.mem_filter, beq_iff_eq, Prod.exists]
  constructor
  · rintro ⟨source, target, ⟨hmem, rfl⟩, rfl⟩
    exact mem_edges_iff.1 hmem
  · intro h
    exact ⟨a, b, ⟨mem_edges_iff.2 h, rfl⟩, rfl⟩

private theorem push_map_range {size : Nat} {edge : Nat × Nat} (h : edge.2 < size)
    (lists : Nat → List Nat) :
    push ((List.range size).map lists) edge =
      some ((List.range size).map fun b =>
        if edge.2 = b then lists b ++ [edge.1] else lists b) := by
  have hfound : ((List.range size).map lists)[edge.2]? = some (lists edge.2) := by
    rw [List.getElem?_map, List.getElem?_range h, Option.map_some]
  rw [push, hfound, Option.map_some, Option.some.injEq]
  refine List.ext_getElem (by simp) fun i hi _ => ?_
  rw [List.getElem_set]
  simp only [List.getElem_map, List.getElem_range]
  split
  · rename_i heq
    rw [heq]
  · rfl

private theorem foldlM_push {size : Nat} {found : List (Nat × Nat)}
    (h : ∀ edge ∈ found, edge.2 < size) (lists : Nat → List Nat) :
    found.foldlM push ((List.range size).map lists) =
      some ((List.range size).map fun b =>
        lists b ++ (found.filter fun edge => edge.2 == b).map Prod.fst) := by
  induction found generalizing lists with
  | nil => simp
  | cons edge found ih =>
    rw [List.foldlM_cons, push_map_range (h edge List.mem_cons_self), Option.bind_eq_bind,
      Option.bind_some, ih fun other hother => h other (List.mem_cons_of_mem _ hother)]
    congr 1
    refine List.map_congr_left fun b _ => ?_
    by_cases hb : edge.2 = b
    · simp [hb]
    · simp [hb]

theorem predecessors?_eq (hclosed : g.Closed) :
    g.predecessors? = some ((List.range g.size).map g.sources) := by
  have hbound : ∀ edge ∈ g.edges, edge.2 < g.size := fun edge hedge =>
    hclosed.target_lt_size (mem_edges_iff.1 hedge)
  have hstart : List.replicate g.size [] = (List.range g.size).map fun _ => ([] : List Nat) := by
    rw [List.map_const', List.length_range]
  rw [predecessors?, hstart, foldlM_push hbound]
  simp only [List.nil_append]
  rfl

end Graph

/-! ### Edges -/

namespace Graph

variable {g : Graph} {a b : Nat} {next : List Nat} {lists result : List (List Nat)}

def Simple (g : Graph) : Prop := ∀ next ∈ g.targets, next.Nodup

theorem edge_iff_mem (hnext : g.successors? a = some next) : g.Edge a b ↔ b ∈ next := by
  constructor
  · rintro ⟨found, hfound, hb⟩
    exact Option.some.inj (hfound.symm.trans hnext) ▸ hb
  · exact fun hb => ⟨next, hnext, hb⟩

private theorem pairwise_zipIdx_lt {α : Type} (items : List α) :
    items.zipIdx.Pairwise fun first second => first.2 < second.2 := by
  rw [← List.pairwise_map (f := Prod.snd) (R := (· < ·)), List.zipIdx_map_snd]
  exact List.pairwise_lt_range'

theorem Simple.pairwise_edges (hsimple : g.Simple) :
    g.edges.Pairwise fun first second =>
      first.1 < second.1 ∨ first.1 = second.1 ∧ first.2 ≠ second.2 := by
  -- edges of one block differ in their targets, those of two blocks in their sources
  refine List.pairwise_flatMap.2 ⟨fun (next, source) hnext => ?_, ?_⟩
  · have hdistinct : next.Pairwise (· ≠ ·) := hsimple next (List.fst_mem_of_mem_zipIdx hnext)
    exact List.pairwise_map.2 (hdistinct.imp fun hne => .inr ⟨rfl, hne⟩)
  · refine (pairwise_zipIdx_lt g.targets).imp fun hlt first hfirst second hsecond => ?_
    obtain ⟨_, -, rfl⟩ := List.mem_map.1 hfirst
    obtain ⟨_, -, rfl⟩ := List.mem_map.1 hsecond
    exact .inl hlt

theorem Simple.nodup_edges (hsimple : g.Simple) : g.edges.Nodup := by
  refine hsimple.pairwise_edges.imp fun hapart heq => ?_
  subst heq
  rcases hapart with hlt | ⟨-, hne⟩
  · exact Nat.lt_irrefl _ hlt
  · exact hne rfl

theorem Simple.pairwise_sources (hsimple : g.Simple) (b : Nat) :
    (g.sources b).Pairwise (· < ·) := by
  have hinto : (g.edges.filter fun edge => edge.2 == b).Pairwise fun first second =>
      first.1 < second.1 := by
    refine (hsimple.pairwise_edges.filter _).imp_of_mem fun hfirst hsecond hapart => ?_
    have hsame := (beq_iff_eq.1 (List.mem_filter.1 hfirst).2).trans
      (beq_iff_eq.1 (List.mem_filter.1 hsecond).2).symm
    exact hapart.resolve_right fun hother => hother.2 hsame
  exact List.pairwise_map.2 hinto

theorem Simple.count_sources (hsimple : g.Simple) (hnext : g.successors? a = some next) (b : Nat) :
    (g.sources b).count a = if b ∈ next then 1 else 0 := by
  have hmem : a ∈ g.sources b ↔ b ∈ next := mem_sources_iff.trans (edge_iff_mem hnext)
  split
  · rename_i hb
    exact List.count_eq_one_of_mem (hsimple.pairwise_sources b).nodup (hmem.2 hb)
  · rename_i hb
    exact List.count_eq_zero.2 fun ha => hb (hmem.1 ha)

theorem Simple.encard_setOf_edge (hsimple : g.Simple) :
    {edge : Nat × Nat | g.Edge edge.1 edge.2}.encard = g.edges.length := by
  have hedges : {edge : Nat × Nat | g.Edge edge.1 edge.2} = g.edges.toFinset := by
    ext ⟨source, target⟩
    exact mem_edges_iff.symm.trans List.mem_toFinset.symm
  rw [hedges, Set.encard_coe_eq_coe_finsetCard, List.toFinset_card_of_nodup hsimple.nodup_edges]

private theorem sum_length_of_push {edge : Nat × Nat} (h : push lists edge = some result) :
    (result.map List.length).sum = (lists.map List.length).sum + 1 := by
  obtain ⟨sources, hsources, rfl⟩ := Option.map_eq_some_iff.1 h
  obtain ⟨hlt, hat⟩ := List.getElem?_eq_some_iff.1 hsources
  obtain ⟨before, after, hlists, -, hset⟩ :=
    @List.exists_of_set _ edge.2 (sources ++ [edge.1]) lists hlt
  rw [hat] at hlists
  rw [hset, hlists]
  simp only [List.map_append, List.map_cons, List.sum_append, List.sum_cons, List.length_append,
    List.length_singleton]
  omega

private theorem sum_length_of_foldlM_push {edges : List (Nat × Nat)}
    (h : edges.foldlM push lists = some result) :
    (result.map List.length).sum = (lists.map List.length).sum + edges.length := by
  induction edges generalizing lists with
  | nil => exact Option.some.inj h ▸ rfl
  | cons edge edges ih =>
    rw [List.foldlM_cons, Option.bind_eq_bind, Option.bind_eq_some_iff] at h
    obtain ⟨pushed, hpushed, hrest⟩ := h
    rw [ih hrest, sum_length_of_push hpushed, List.length_cons]
    omega

theorem sum_length_of_predecessors? (h : g.predecessors? = some lists) :
    (lists.map List.length).sum = g.edges.length := by
  rw [sum_length_of_foldlM_push h, List.map_replicate, List.length_nil, List.sum_replicate_nat,
    Nat.mul_zero, Nat.zero_add]

end Graph

namespace Body

theorem simple_graph (body : Body) : body.graph.Simple := by
  intro next hnext
  obtain ⟨block, -, rfl⟩ := List.mem_map.1 hnext
  exact block.terminator.nodup_targets

/-- For every body whose targets all name blocks, the predecessors are found: one list for each
block `b`, in which a block stands once if `b` is among its targets and otherwise not at all. The
lists ascend strictly, and their lengths add up to the number of edges. -/
theorem exists_predecessors (body : Body) (hclosed : body.graph.Closed) :
    ∃ lists, body.graph.predecessors? = some lists ∧
      lists.length = body.blocks.length ∧
      (∀ a < body.blocks.length, ∀ b < body.blocks.length, ∃ next sources,
        body.graph.successors? a = some next ∧ lists[b]? = some sources ∧
          sources.count a = if b ∈ next then 1 else 0) ∧
      (∀ sources ∈ lists, sources.Pairwise (· < ·)) ∧
      {edge : Nat × Nat | body.graph.Edge edge.1 edge.2}.encard = (lists.map List.length).sum := by
  have hsimple : body.graph.Simple := body.simple_graph
  have hlists := Graph.predecessors?_eq hclosed
  refine ⟨_, hlists, ?_, fun a ha b hb => ?_, ?_, ?_⟩
  · rw [List.length_map, List.length_range, size_graph]
  · rw [← size_graph] at hb
    have hnext : body.graph.successors? a = some body.blocks[a].terminator.targets := by
      rw [successors?_graph, List.getElem?_eq_getElem ha, Option.map_some]
    refine ⟨_, body.graph.sources b, hnext, ?_, hsimple.count_sources hnext b⟩
    rw [List.getElem?_map, List.getElem?_range hb, Option.map_some]
  · intro sources hsources
    obtain ⟨b, -, rfl⟩ := List.mem_map.1 hsources
    exact hsimple.pairwise_sources b
  · rw [hsimple.encard_setOf_edge, Graph.sum_length_of_predecessors? hlists]

/-- A branch whose arms agree, a block that leads to itself, and a block that nothing leads to and
that leads back to the entry. -/
def agreeingArms : Body where
  vars := [⟨none, none⟩]
  blocks := [⟨[], .branch 0 1 1⟩, ⟨[], .branch 0 2 1⟩, ⟨[], .exit none⟩, ⟨[], .branch 0 1 0⟩]

theorem exists_predecessors_agreeingArms :
    agreeingArms.graph.Closed ∧
      ∃ lists, agreeingArms.graph.predecessors? = some lists ∧
        lists.length = agreeingArms.blocks.length ∧
        (∀ a < agreeingArms.blocks.length, ∀ b < agreeingArms.blocks.length, ∃ next sources,
          agreeingArms.graph.successors? a = some next ∧ lists[b]? = some sources ∧
            sources.count a = if b ∈ next then 1 else 0) ∧
        (∀ sources ∈ lists, sources.Pairwise (· < ·)) ∧
        {edge : Nat × Nat | agreeingArms.graph.Edge edge.1 edge.2}.encard =
          (lists.map List.length).sum :=
  ⟨by decide, exists_predecessors agreeingArms (by decide)⟩

example : agreeingArms.graph.predecessors? = some [[3], [0, 1, 3], [1], []] := by decide

end Body

end MethodLowering
