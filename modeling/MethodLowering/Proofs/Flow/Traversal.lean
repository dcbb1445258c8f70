import Mathlib.Data.List.Perm.Basic
import MethodLowering.Flow.Body
import MethodLowering.Flow.Graph
import MethodLowering.Proofs.Flow.Edges

/-!
Reverse postorder. The stack read from below, followed by the finished blocks, is a line of the
blocks entered so far: finishing a block leaves it as it is, entering one inserts a block behind
its source. The search fails only at an edge that leaves the graph from a block reached. A frame of
the stack stands for a call of the recursive search that is not finished: while it works off the
targets of its top frame, the stack machine enters and finishes the blocks that the recursive search
of these targets finds, in the same order.
-/

set_option autoImplicit false
set_option relaxedAutoImplicit false

namespace MethodLowering

namespace Graph

variable {g : Graph} {fresh order : List Nat} {stack below : List (Nat × List Nat)}
  {block target : Nat} {rest next : List Nat}

/-- No edge leads from a block that the entry reaches to a number that names no block. -/
def ClosedFromEntry (g : Graph) : Prop := ∀ a b, g.Reaches 0 a → g.Edge a b → b < g.size

theorem Closed.fromEntry (h : g.Closed) : g.ClosedFromEntry := fun _ _ _ hedge =>
  h.target_lt_size hedge

/-- The blocks entered so far: those on the stack from below, then the finished ones. -/
private def line (stack : List (Nat × List Nat)) (order : List Nat) : List Nat :=
  (stack.map Prod.fst).reverse ++ order

private theorem line_finish :
    line ((block, rest) :: below) order = line below (block :: order) := by
  simp [line]

private theorem line_top :
    line ((block, rest) :: below) order = line below [] ++ block :: order := by
  simp [line]

private theorem line_enter :
    line ((target, next) :: (block, rest) :: below) order =
      line below [] ++ block :: target :: order := by
  simp [line]

private theorem sublist_line_enter {later : List Nat} :
    (line ((block, rest) :: below) order).Sublist
      (line ((target, next) :: (block, later) :: below) order) := by
  rw [line_top, line_enter]
  exact ((List.sublist_cons_self target order).cons_cons block).append_left _

private theorem eq_or_mem_of_mem_line_enter {later : List Nat} {b : Nat}
    (h : b ∈ line ((target, next) :: (block, later) :: below) order) :
    b = target ∨ b ∈ line ((block, rest) :: below) order := by
  rw [line_enter] at h
  rw [line_top]
  simp only [List.mem_append, List.mem_cons] at h ⊢
  tauto

private theorem perm_line_enter {later : List Nat} (hfresh : target ∈ fresh) :
    (line ((target, next) :: (block, later) :: below) order ++ fresh.erase target).Perm
      (line ((block, rest) :: below) order ++ fresh) := by
  rw [line_enter, line_top, List.append_assoc, List.append_assoc]
  refine List.Perm.append_left _ (List.Perm.cons block ?_)
  have hmoved : (target :: order ++ fresh.erase target).Perm
      (order ++ target :: fresh.erase target) := List.perm_middle.symm
  exact hmoved.trans ((List.perm_cons_erase hfresh).symm.append_left _)

/-- What holds while a graph is explored from its entry. -/
private structure Exploring (g : Graph) (fresh : List Nat) (stack : List (Nat × List Nat))
    (order : List Nat) : Prop where
  partition : (line stack order ++ fresh).Perm (List.range g.size)
  entry : (line stack order).head? = some 0
  reached : ∀ b ∈ line stack order, g.Reaches 0 b
  led : ∀ b ∈ line stack order, b ≠ 0 → ∃ a, g.Edge a b ∧ [a, b].Sublist (line stack order)
  pending : ∀ frame ∈ stack, ∀ b ∈ frame.2, g.Edge frame.1 b
  explored : ∀ frame ∈ stack, ∀ b, g.Edge frame.1 b → b ∈ frame.2 ∨ b ∈ line stack order
  finished : ∀ a ∈ order, ∀ b, g.Edge a b → b ∈ line stack order

private theorem Exploring.finish (h : Exploring g fresh ((block, []) :: below) order) :
    Exploring g fresh below (block :: order) := by
  have hline : line ((block, []) :: below) order = line below (block :: order) := line_finish
  constructor
  · exact hline ▸ h.partition
  · exact hline ▸ h.entry
  · exact hline ▸ h.reached
  · exact hline ▸ h.led
  · exact fun frame hframe => h.pending frame (List.mem_cons_of_mem _ hframe)
  · exact hline ▸ fun frame hframe => h.explored frame (List.mem_cons_of_mem _ hframe)
  · intro a ha b hedge
    rw [← hline]
    rcases List.mem_cons.1 ha with rfl | ha
    · rcases h.explored _ List.mem_cons_self b hedge with hb | hb
      · exact absurd hb List.not_mem_nil
      · exact hb
    · exact h.finished a ha b hedge

private theorem Exploring.skip (h : Exploring g fresh ((block, target :: rest) :: below) order)
    (hfresh : target ∉ fresh) (hsize : target < g.size) :
    Exploring g fresh ((block, rest) :: below) order := by
  have hseen : target ∈ line ((block, rest) :: below) order := by
    rcases List.mem_append.1 (h.partition.mem_iff.2 (List.mem_range.2 hsize)) with ht | ht
    · exact ht
    · exact absurd ht hfresh
  constructor
  · exact h.partition
  · exact h.entry
  · exact h.reached
  · exact h.led
  · intro frame hframe b hb
    rcases List.mem_cons.1 hframe with rfl | hframe
    · exact h.pending _ List.mem_cons_self b (List.mem_cons_of_mem _ hb)
    · exact h.pending frame (List.mem_cons_of_mem _ hframe) b hb
  · intro frame hframe b hedge
    rcases List.mem_cons.1 hframe with rfl | hframe
    · rcases h.explored _ List.mem_cons_self b hedge with hb | hb
      · rcases List.mem_cons.1 hb with rfl | hb
        · exact .inr hseen
        · exact .inl hb
      · exact .inr hb
    · exact h.explored frame (List.mem_cons_of_mem _ hframe) b hedge
  · exact h.finished

private theorem Exploring.enter_pending
    (h : Exploring g fresh ((block, target :: rest) :: below) order)
    (hnext : g.successors? target = some next) :
    ∀ frame ∈ (target, next) :: (block, rest) :: below, ∀ b ∈ frame.2, g.Edge frame.1 b := by
  intro frame hframe b hb
  rcases List.mem_cons.1 hframe with rfl | hframe
  · exact ⟨next, hnext, hb⟩
  · rcases List.mem_cons.1 hframe with rfl | hframe
    · exact h.pending _ List.mem_cons_self b (List.mem_cons_of_mem _ hb)
    · exact h.pending frame (List.mem_cons_of_mem _ hframe) b hb

private theorem Exploring.enter_explored
    (h : Exploring g fresh ((block, target :: rest) :: below) order)
    (hnext : g.successors? target = some next) :
    ∀ frame ∈ (target, next) :: (block, rest) :: below, ∀ b, g.Edge frame.1 b →
      b ∈ frame.2 ∨ b ∈ line ((target, next) :: (block, rest) :: below) order := by
  intro frame hframe b hedge
  rcases List.mem_cons.1 hframe with rfl | hframe
  · obtain ⟨found, hfound, hb⟩ := hedge
    rw [hnext, Option.some.injEq] at hfound
    exact .inl (hfound ▸ hb)
  · rcases List.mem_cons.1 hframe with rfl | hframe
    · rcases h.explored _ List.mem_cons_self b hedge with hb | hb
      · rcases List.mem_cons.1 hb with rfl | hb
        · exact .inr (by simp [line_enter])
        · exact .inl hb
      · exact .inr (sublist_line_enter.subset hb)
    · exact (h.explored frame (List.mem_cons_of_mem _ hframe) b hedge).imp_right
        fun hb => sublist_line_enter.subset hb

private theorem Exploring.enter (h : Exploring g fresh ((block, target :: rest) :: below) order)
    (hfresh : target ∈ fresh) (hnext : g.successors? target = some next) :
    Exploring g (fresh.erase target) ((target, next) :: (block, rest) :: below) order := by
  have hedge : g.Edge block target := h.pending _ List.mem_cons_self target List.mem_cons_self
  have hblock : block ∈ line ((block, target :: rest) :: below) order := by simp [line_top]
  constructor
  · exact (perm_line_enter hfresh).trans h.partition
  · have hentry := h.entry
    rw [line_top] at hentry
    rw [line_enter]
    cases hbelow : line below [] <;> simpa [hbelow] using hentry
  · intro b hb
    rcases eq_or_mem_of_mem_line_enter hb with rfl | hb
    · exact (h.reached block hblock).step hedge
    · exact h.reached b hb
  · intro b hb hne
    rcases eq_or_mem_of_mem_line_enter hb with rfl | hb
    · refine ⟨block, hedge, ?_⟩
      rw [line_enter]
      have hpair : [block, b].Sublist (block :: b :: order) :=
        ((List.nil_sublist order).cons_cons b).cons_cons block
      exact hpair.trans (List.sublist_append_right _ _)
    · obtain ⟨a, ha, hsublist⟩ := h.led b hb hne
      exact ⟨a, ha, hsublist.trans sublist_line_enter⟩
  · exact h.enter_pending hnext
  · exact h.enter_explored hnext
  · intro a ha b hb
    exact sublist_line_enter.subset (h.finished a ha b hb)

private theorem exploring_start {others : List (List Nat)} (htargets : g.targets = next :: others) :
    Exploring g ((List.range g.size).erase 0) [(0, next)] [] := by
  have hentry : 0 ∈ List.range g.size := by
    rw [List.mem_range, size, htargets]
    exact Nat.succ_pos _
  have hnext : g.successors? 0 = some next := by simp [successors?, htargets]
  constructor
  · exact (List.perm_cons_erase hentry).symm
  · rfl
  · intro b hb
    rw [List.mem_singleton.1 hb]
    exact .refl g 0
  · intro b hb hne
    exact absurd (List.mem_singleton.1 hb) hne
  · intro frame hframe b hb
    rw [List.mem_singleton.1 hframe] at hb ⊢
    exact ⟨next, hnext, hb⟩
  · intro frame hframe b hedge
    rw [List.mem_singleton.1 hframe] at hedge ⊢
    obtain ⟨found, hfound, hb⟩ := hedge
    rw [hnext, Option.some.injEq] at hfound
    exact .inl (hfound ▸ hb)
  · intro a ha
    exact absurd ha List.not_mem_nil

/-- The search ends with an empty stack, or at an edge that leaves the graph. -/
private theorem Exploring.run (h : Exploring g fresh stack order) :
    (∃ left result, g.explore fresh stack order = some result ∧ Exploring g left [] result) ∨
      g.explore fresh stack order = none ∧ ¬ g.ClosedFromEntry := by
  fun_induction explore g fresh stack order with
  | case1 fresh order => exact .inl ⟨fresh, order, rfl, h⟩
  | case2 fresh order block below ih => exact ih h.finish
  | case3 fresh order block target rest below hfresh hnone =>
    have htarget : target < g.size :=
      List.mem_range.1 (h.partition.subset (List.mem_append_right _ hfresh))
    rw [successors?, List.getElem?_eq_none_iff] at hnone
    exact absurd htarget (Nat.not_lt.2 hnone)
  | case4 fresh order block target rest below hfresh next hnext ih =>
    exact ih (h.enter hfresh hnext)
  | case5 fresh order block target rest below hfresh hsize ih => exact ih (h.skip hfresh hsize)
  | case6 fresh order block target rest below hfresh hsize =>
    refine .inr ⟨rfl, fun hclosed => hsize ?_⟩
    have hedge : g.Edge block target := h.pending _ List.mem_cons_self target List.mem_cons_self
    exact hclosed block target (h.reached block (by simp [line])) hedge

/-- What holds of a stack besides: each block on it reaches those above it. So the target of an edge
from a finished block was finished before its source, or was on the stack then and leads back. -/
private structure Nested (g : Graph) (stack : List (Nat × List Nat)) (order : List Nat) :
    Prop where
  above : (stack.map Prod.fst).Pairwise fun upper lower => g.Reaches lower upper
  closing : ∀ a ∈ order, ∀ b, g.Edge a b → [a, b].Sublist order ∨ g.Reaches b a

private theorem Nested.finish (hnested : Nested g ((block, []) :: below) order)
    (h : Exploring g fresh ((block, []) :: below) order) : Nested g below (block :: order) := by
  obtain ⟨hlower, habove⟩ := List.pairwise_cons.1 hnested.above
  refine ⟨habove, fun a ha b hedge => ?_⟩
  rcases List.mem_cons.1 ha with rfl | ha
  · -- all targets of the block have been looked at
    have hseen : b ∈ line ((a, []) :: below) order :=
      (h.explored _ List.mem_cons_self b hedge).resolve_left List.not_mem_nil
    rcases List.mem_append.1 hseen with hstack | hfinished
    · right
      rcases List.mem_cons.1 (List.mem_reverse.1 hstack) with rfl | hbelow
      · exact .refl g b
      · exact hlower b hbelow
    · exact .inl ((List.singleton_sublist.2 hfinished).cons_cons a)
  · exact (hnested.closing a ha b hedge).imp_left fun hpair =>
      hpair.trans (List.sublist_cons_self block order)

private theorem Nested.enter (hnested : Nested g ((block, target :: rest) :: below) order)
    (h : Exploring g fresh ((block, target :: rest) :: below) order) :
    Nested g ((target, next) :: (block, rest) :: below) order := by
  have hedge : g.Edge block target := h.pending _ List.mem_cons_self target List.mem_cons_self
  refine ⟨List.pairwise_cons.2 ⟨fun lower hlower => ?_, hnested.above⟩, hnested.closing⟩
  rcases List.mem_cons.1 hlower with rfl | hlower
  · exact (Reaches.refl g lower).step hedge
  · exact ((List.pairwise_cons.1 hnested.above).1 lower hlower).step hedge

private theorem Nested.run {result : List Nat} (hnested : Nested g stack order)
    (h : Exploring g fresh stack order) (hresult : g.explore fresh stack order = some result) :
    Nested g [] result := by
  fun_induction explore g fresh stack order with
  | case1 fresh order => exact Option.some.inj hresult ▸ hnested
  | case2 fresh order block below ih => exact ih (hnested.finish h) h.finish hresult
  | case3 fresh order block target rest below hfresh hnone => exact absurd hresult nofun
  | case4 fresh order block target rest below hfresh next hnext ih =>
    exact ih (hnested.enter h) (h.enter hfresh hnext) hresult
  | case5 fresh order block target rest below hfresh hsize ih =>
    exact ih ⟨hnested.above, hnested.closing⟩ (h.skip hfresh hsize) hresult
  | case6 fresh order block target rest below hfresh hsize => exact absurd hresult nofun

theorem sublist_or_reaches_of_edge {a b : Nat} (horder : g.reversePostorder? = some order)
    (ha : a ∈ order) (hedge : g.Edge a b) : [a, b].Sublist order ∨ g.Reaches b a := by
  unfold reversePostorder? at horder
  split at horder
  · rw [← Option.some.inj horder] at ha
    exact absurd ha List.not_mem_nil
  · rename_i next rest htargets
    have hstart : Nested g [(0, next)] [] :=
      ⟨List.pairwise_singleton _ 0, fun a ha => absurd ha List.not_mem_nil⟩
    exact (hstart.run (exploring_start htargets) horder).closing a ha b hedge

/-- The blocks that the entry reaches, each once, the entry first and every other block behind
the source of one of its edges. -/
structure ReversePostorder (g : Graph) (order : List Nat) : Prop where
  nodup : order.Nodup
  mem_iff : ∀ b, b ∈ order ↔ g.Reachable b
  entry : 0 < g.size → order.head? = some 0
  led : ∀ b ∈ order, b ≠ 0 → ∃ a, g.Edge a b ∧ [a, b].Sublist order

private theorem Exploring.reversePostorder (h : Exploring g fresh [] order) :
    g.ReversePostorder order := by
  have hline : line [] order = order := by simp [line]
  have hpart : (order ++ fresh).Perm (List.range g.size) := hline ▸ h.partition
  have hentry : order.head? = some 0 := hline ▸ h.entry
  constructor
  · exact (List.nodup_append.1 (hpart.nodup_iff.2 List.nodup_range)).1
  · intro b
    constructor
    · intro hb
      refine ⟨List.mem_range.1 (hpart.subset (List.mem_append_left _ hb)), ?_⟩
      exact h.reached b (hline.symm ▸ hb)
    · rintro ⟨-, hb⟩
      refine hb.induct (List.mem_of_mem_head? hentry) fun a c _ ha hedge => ?_
      exact hline ▸ h.finished a ha c hedge
  · exact fun _ => hentry
  · exact hline ▸ h.led

theorem reversePostorder?_of_closedFromEntry (hclosed : g.ClosedFromEntry) :
    ∃ order, g.reversePostorder? = some order ∧ g.ReversePostorder order := by
  unfold reversePostorder?
  split
  · rename_i hempty
    have hsize : g.size = 0 := by rw [size, hempty]; rfl
    refine ⟨[], rfl, List.nodup_nil, fun b => ?_, fun hpos => by omega, fun b hb => ?_⟩
    · simp [Reachable, hsize]
    · exact absurd hb List.not_mem_nil
  · rename_i next rest htargets
    rcases (exploring_start htargets).run with ⟨left, order, horder, hdone⟩ | ⟨-, hdangling⟩
    · exact ⟨order, horder, hdone.reversePostorder⟩
    · exact absurd hclosed hdangling

theorem closedFromEntry_of_reversePostorder? (horder : g.reversePostorder? = some order) :
    g.ClosedFromEntry := by
  intro a b ha hedge
  have hsize : a < g.size := by
    obtain ⟨next, hnext, -⟩ := hedge
    exact (List.getElem?_eq_some_iff.1 hnext).1
  unfold reversePostorder? at horder
  split at horder
  · rename_i hempty
    rw [size, hempty] at hsize
    exact absurd hsize (Nat.not_lt_zero a)
  · rename_i next rest htargets
    rcases (exploring_start htargets).run with ⟨left, result, -, hdone⟩ | ⟨hnone, -⟩
    · have hresult : a ∈ result := (hdone.reversePostorder.mem_iff a).2 ⟨hsize, ha⟩
      have hseen : b ∈ line [] result := hdone.finished a hresult b hedge
      exact List.mem_range.1 (hdone.partition.subset (List.mem_append_left left hseen))
    · rw [hnone] at horder
      exact absurd horder nofun

end Graph

namespace Graph

variable {g : Graph} {fresh order : List Nat} {below : List (Nat × List Nat)}
  {block target : Nat} {rest next pending : List Nat}

/-! ### The recursive search -/

def found (g : Graph) (fresh pending : List Nat) : List Nat := (g.search fresh pending).val.1

/-- The blocks that are still fresh after a search. -/
def unfound (g : Graph) (fresh pending : List Nat) : List Nat := (g.search fresh pending).val.2

@[simp]
theorem found_nil (g : Graph) (fresh : List Nat) : g.found fresh [] = [] := by
  rw [found, search]

@[simp]
theorem unfound_nil (g : Graph) (fresh : List Nat) : g.unfound fresh [] = fresh := by
  rw [unfound, search]

theorem found_of_mem (hfresh : target ∈ fresh) (hnext : g.successors? target = some next) :
    g.found fresh (target :: rest) = g.found (fresh.erase target) next ++
      target :: g.found (g.unfound (fresh.erase target) next) rest := by
  rw [found, search, dif_pos hfresh, hnext, Option.getD_some]
  rfl

theorem unfound_of_mem (hfresh : target ∈ fresh) (hnext : g.successors? target = some next) :
    g.unfound fresh (target :: rest) =
      g.unfound (g.unfound (fresh.erase target) next) rest := by
  rw [unfound, search, dif_pos hfresh, hnext, Option.getD_some]
  rfl

theorem found_of_not_mem (hfresh : target ∉ fresh) :
    g.found fresh (target :: rest) = g.found fresh rest := by
  rw [found, search, dif_neg hfresh]
  rfl

theorem unfound_of_not_mem (hfresh : target ∉ fresh) :
    g.unfound fresh (target :: rest) = g.unfound fresh rest := by
  rw [unfound, search, dif_neg hfresh]
  rfl

/-! ### The stack machine -/

/-- The targets are those of blocks that the entry reaches. -/
private def Led (g : Graph) (pending : List Nat) : Prop :=
  ∀ target ∈ pending, ∃ source, g.Reaches 0 source ∧ g.Edge source target

private theorem Led.lt_size (hled : g.Led (target :: rest)) (hclosed : g.ClosedFromEntry) :
    target < g.size := by
  obtain ⟨source, hsource, hedge⟩ := hled target List.mem_cons_self
  exact hclosed source target hsource hedge

private theorem Led.tail (hled : g.Led (target :: rest)) : g.Led rest :=
  fun later hlater => hled later (List.mem_cons_of_mem target hlater)

private theorem Led.successors (hled : g.Led (target :: rest))
    (hnext : g.successors? target = some next) : g.Led next := by
  obtain ⟨source, hsource, hedge⟩ := hled target List.mem_cons_self
  exact fun later hlater => ⟨target, hsource.step hedge, next, hnext, hlater⟩

/-- The stack machine finishes the top frame after the blocks that the recursive search of its
targets finds. -/
private theorem explore_eq_explore_unfound (hclosed : g.ClosedFromEntry) (hled : g.Led pending) :
    g.explore fresh ((block, pending) :: below) order =
      g.explore (g.unfound fresh pending) below
        (block :: ((g.found fresh pending).reverse ++ order)) := by
  -- along the calls of the recursive search, for stacks of any height below the top frame
  induction fresh, pending using search.induct g generalizing block below order with
  | case1 fresh =>
    rw [found_nil, unfound_nil, explore]
    rfl
  | case2 fresh target rest hfresh _ _ left _ hbelow _ _ _ _ _ ihbelow ihothers =>
    obtain ⟨next, hnext⟩ : ∃ next, g.successors? target = some next :=
      ⟨_, List.getElem?_eq_getElem (hled.lt_size hclosed)⟩
    rw [hnext, Option.getD_some] at hbelow ihbelow
    have hleft : left = g.unfound (fresh.erase target) next := by rw [unfound, hbelow]
    calc g.explore fresh ((block, target :: rest) :: below) order
        = g.explore (fresh.erase target) ((target, next) :: (block, rest) :: below) order := by
          rw [explore, if_pos hfresh, hnext]
      _ = g.explore left ((block, rest) :: below)
            (target :: ((g.found (fresh.erase target) next).reverse ++ order)) := by
          rw [ihbelow (hled.successors hnext), hleft]
      _ = g.explore (g.unfound left rest) below (block :: ((g.found left rest).reverse ++
            target :: ((g.found (fresh.erase target) next).reverse ++ order))) :=
          ihothers hled.tail
      _ = _ := by
          rw [found_of_mem hfresh hnext, unfound_of_mem hfresh hnext, ← hleft]
          simp
  | case3 fresh target rest hfresh ih =>
    rw [explore, if_neg hfresh, if_pos (hled.lt_size hclosed), ih hled.tail,
      found_of_not_mem hfresh, unfound_of_not_mem hfresh]

theorem postorder_of_no_targets (htargets : g.targets = []) : g.postorder = [] := by
  have hsize : g.size = 0 := by rw [size, htargets]; rfl
  change g.found (List.range g.size) [0] = []
  rw [hsize, List.range_zero, found_of_not_mem List.not_mem_nil, found_nil]

theorem postorder_of_targets {others : List (List Nat)} (htargets : g.targets = next :: others) :
    g.postorder = g.found ((List.range g.size).erase 0) next ++ [0] := by
  have hentry : 0 ∈ List.range g.size := by
    rw [List.mem_range, size, htargets]
    exact Nat.succ_pos _
  have hnext : g.successors? 0 = some next := by rw [successors?, htargets]; rfl
  change g.found (List.range g.size) [0] = _
  rw [found_of_mem hentry hnext, found_nil]

theorem explore_entry_eq (hclosed : g.ClosedFromEntry) {others : List (List Nat)}
    (htargets : g.targets = next :: others) :
    g.explore fresh [(0, next)] [] = some (0 :: (g.found fresh next).reverse) := by
  have hnext : g.successors? 0 = some next := by rw [successors?, htargets]; rfl
  have hled : g.Led next := fun target htarget => ⟨0, .refl g 0, next, hnext, htarget⟩
  rw [explore_eq_explore_unfound hclosed hled, explore, List.append_nil]

end Graph

namespace Body

/-- Where no block that the entry reaches has a target that names no block, the traversal with a
stack gives the reversed postorder of the recursive search, which marks a block when it enters it,
searches its unmarked targets in their order and finishes it after them. -/
theorem reversePostorder?_eq_postorder (body : Body) (hclosed : body.graph.ClosedFromEntry) :
    body.graph.reversePostorder? = some body.graph.postorder.reverse := by
  unfold Graph.reversePostorder?
  cases htargets : body.graph.targets with
  | nil =>
    rw [Graph.postorder_of_no_targets htargets]
    rfl
  | cons next others =>
    dsimp only
    rw [Graph.explore_entry_eq hclosed htargets, Graph.postorder_of_targets htargets,
      List.reverse_append]
    rfl

/-- A loop whose arm into the loop comes first, with a branch whose arms agree; a block that nothing
leads to leads out of the body. -/
def countingLoop : Body where
  vars := [⟨none, none⟩]
  blocks := [⟨[], .jump 1⟩, ⟨[], .branch 0 2 3⟩, ⟨[], .branch 0 1 1⟩, ⟨[], .exit none⟩,
    ⟨[], .jump 9⟩]

theorem reversePostorder?_eq_postorder_countingLoop :
    countingLoop.graph.ClosedFromEntry ∧
      countingLoop.graph.reversePostorder? = some countingLoop.graph.postorder.reverse ∧
      countingLoop.graph.postorder = [2, 3, 1, 0] := by
  have hclosed : countingLoop.graph.ClosedFromEntry := by
    intro a b ha hedge
    have hlt : b < 4 := (ha.step hedge).lt_of_stays (by decide) (by decide)
    exact Nat.lt_trans hlt (by decide)
  exact ⟨hclosed, reversePostorder?_eq_postorder countingLoop hclosed, by cbv⟩

end Body

end MethodLowering
