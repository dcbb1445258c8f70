import MethodLowering.Proofs.Check.Coverage
import MethodLowering.Proofs.Flow.ImmediateDominators

/-!
Dangling targets. The traversal fails exactly at a dangling target of a block that the entry
reaches; predecessors, and with them immediate dominators and elimination, fail at any dangling
target. Elimination drops the checks block after block from the body itself, so that a fault on the
way would leave some blocks with their checks and some without. There is no such fault: a target
that names no block is met before anything is dropped, and nothing else can break the work off.
-/

set_option autoImplicit false
set_option relaxedAutoImplicit false

namespace MethodLowering

/-! ### The traversal and the search -/

namespace Graph

variable {g : Graph} {order found : List Nat} {a b c : Nat} {blocks : List Nat}
  {lists result : List (List Nat)}

theorem Path.forall_lt_size (hpath : g.Path a blocks b) (hedge : g.Edge b c) :
    ∀ d ∈ blocks, d < g.size := by
  induction hpath with
  | single a => exact List.forall_mem_singleton.2 hedge.source_lt_size
  | step hfirst _ ih => exact List.forall_mem_cons.2 ⟨hfirst.source_lt_size, ih hedge⟩

theorem not_closed_iff : ¬ g.Closed ↔ ∃ a b, g.Edge a b ∧ g.size ≤ b := by
  constructor
  · intro hopen
    by_contra hnone
    refine hopen fun next hnext b hb => ?_
    obtain ⟨a, ha⟩ := List.getElem?_of_mem hnext
    by_contra hlt
    exact hnone ⟨a, b, ⟨next, ha, hb⟩, Nat.not_lt.1 hlt⟩
  · rintro ⟨a, b, hedge, hle⟩ hclosed
    exact Nat.not_lt.2 hle (hclosed.target_lt_size hedge)

theorem not_closedFromEntry_iff : ¬ g.ClosedFromEntry ↔
    ∃ blocks a b, g.Path 0 blocks a ∧ (∀ d ∈ blocks, d < g.size) ∧ g.Edge a b ∧ g.size ≤ b := by
  constructor
  · intro hopen
    by_contra hnone
    refine hopen fun a b hreaches hedge => ?_
    obtain ⟨blocks, hpath⟩ := hreaches
    by_contra hlt
    exact hnone ⟨blocks, a, b, hpath, hpath.forall_lt_size hedge, hedge, Nat.not_lt.1 hlt⟩
  · rintro ⟨blocks, a, b, hpath, -, hedge, hle⟩ hclosed
    exact Nat.not_lt.2 hle (hclosed a b ⟨blocks, hpath⟩ hedge)

theorem reversePostorder?_eq_none_iff : g.reversePostorder? = none ↔ ¬ g.ClosedFromEntry := by
  constructor
  · intro hnone hclosed
    obtain ⟨order, horder, -⟩ := reversePostorder?_of_closedFromEntry hclosed
    rw [hnone] at horder
    exact absurd horder nofun
  · intro hopen
    cases horder : g.reversePostorder? with
    | none => rfl
    | some order => exact absurd (closedFromEntry_of_reversePostorder? horder) hopen

private theorem of_push {edge : Nat × Nat} (h : push lists edge = some result) :
    edge.2 < lists.length ∧ result.length = lists.length := by
  obtain ⟨sources, hsources, rfl⟩ := Option.map_eq_some_iff.1 h
  exact ⟨(List.getElem?_eq_some_iff.1 hsources).1, List.length_set⟩

private theorem lt_length_of_foldlM_push {edges : List (Nat × Nat)}
    (h : edges.foldlM push lists = some result) : ∀ edge ∈ edges, edge.2 < lists.length := by
  induction edges generalizing lists with
  | nil => exact fun edge hedge => absurd hedge List.not_mem_nil
  | cons first edges ih =>
    rw [List.foldlM_cons, Option.bind_eq_bind, Option.bind_eq_some_iff] at h
    obtain ⟨pushed, hpushed, hrest⟩ := h
    obtain ⟨hfirst, hlength⟩ := of_push hpushed
    exact List.forall_mem_cons.2 ⟨hfirst, hlength ▸ ih hrest⟩

theorem closed_of_predecessors? (h : g.predecessors? = some lists) : g.Closed := by
  intro next hnext b hb
  obtain ⟨a, ha⟩ := List.getElem?_of_mem hnext
  have hlt := lt_length_of_foldlM_push h (a, b) (mem_edges_iff.2 ⟨next, ha, hb⟩)
  rwa [List.length_replicate] at hlt

theorem predecessors?_eq_none_iff : g.predecessors? = none ↔ ¬ g.Closed := by
  constructor
  · intro hnone hclosed
    rw [predecessors?_eq hclosed] at hnone
    exact absurd hnone nofun
  · intro hopen
    cases hfound : g.predecessors? with
    | none => rfl
    | some lists => exact absurd (closed_of_predecessors? hfound) hopen

theorem dominatorSearch_of_not_closed (hopen : ¬ g.Closed) :
    g.dominatorSearch.result = .error .target := by
  cases hfound : g.reversePostorder? with
  | none => rw [dominatorSearch, hfound, Logged.orFail_none_bind]; rfl
  | some order =>
    obtain ⟨found, hsame, horder⟩ :=
      reversePostorder?_of_closedFromEntry (closedFromEntry_of_reversePostorder? hfound)
    obtain rfl : order = found := Option.some.inj (hfound.symm.trans hsame)
    -- only a graph without blocks has an empty order, and that graph is closed
    have hsize : 0 < g.size := by
      obtain ⟨a, b, ⟨next, hnext, -⟩, -⟩ := not_closed_iff.1 hopen
      exact Nat.zero_lt_of_lt (List.getElem?_eq_some_iff.1 hnext).1
    obtain ⟨positions, hpositions, -⟩ := exists_positions? horder.nodup horder.lt_size
    rw [dominatorSearch, hfound, Logged.orFail_some_bind,
      if_neg (List.ne_nil_of_length_pos (horder.length_pos hsize)), hpositions,
      Logged.orFail_some_bind, predecessors?_eq_none_iff.2 hopen, Logged.orFail_none_bind]
    rfl

theorem immediateDominators?_eq_none_iff : g.immediateDominators? = none ↔ ¬ g.Closed := by
  constructor
  · intro hnone hclosed
    obtain ⟨idoms, hidoms, -⟩ := immediateDominators?_of_closed hclosed
    rw [hnone] at hidoms
    exact absurd hidoms nofun
  · intro hopen
    rw [immediateDominators?, dominatorSearch_of_not_closed hopen, Except.toOption]

theorem result_dominatorSearch (g : Graph) :
    g.dominatorSearch.result =
      match g.immediateDominators? with
      | none => .error .target
      | some idoms => .ok idoms := by
  by_cases hclosed : g.Closed
  · obtain ⟨idoms, hidoms, -⟩ := dominatorSearch_of_closed hclosed
    rw [immediateDominators?, hidoms, Except.toOption]
  · rw [immediateDominators?_eq_none_iff.2 hclosed, dominatorSearch_of_not_closed hclosed]

end Graph

/-! ### Elimination in place -/

namespace Elimination

/-- Drop the checks from the blocks of `order` in place: every block is looked up in the body as it
is by then, and replaced before the next is looked up. With the body comes the fault that broke the
work off, if one did. -/
def dropInPlace (hasInitializer : String → Bool) (idoms : List (Option Nat)) :
    List Nat → List (Nat × List String) → Body → Body × Option Fault
  | [], _, body => (body, none)
  | block :: rest, exits, body =>
    match idoms[block]?, body.blocks[block]? with
    | some _, some b =>
      let known := knownOnEntry idoms exits block
      let exit := b.code.foldl (learn hasInitializer) known
      let kept := { b with code := survivors (sift hasInitializer known b.code) }
      dropInPlace hasInitializer idoms rest ((block, exit) :: exits)
        { body with blocks := body.blocks.set block kept }
    | _, _ => (body, some .entry)

variable {hasInitializer : String → Bool} {body current : Body} {idoms : List (Option Nat)}
  {order rest : List Nat} {exits : List (Nat × List String)} {block : Nat} {b : Block} {plan : Plan}

theorem judgeBlocks_cons_eq_some_iff :
    judgeBlocks hasInitializer body idoms (block :: rest) exits = some plan ↔
      ∃ b later, body.blocks[block]? = some b ∧
        judgeBlocks hasInitializer body idoms rest
          ((block, b.code.foldl (learn hasInitializer) (knownOnEntry idoms exits block)) :: exits) =
            some later ∧
        plan = (block, sift hasInitializer (knownOnEntry idoms exits block) b.code) :: later := by
  cases hb : body.blocks[block]? with
  | none => simp [judgeBlocks, hb]
  | some b => simp [judgeBlocks, hb, eq_comm]

theorem map_fst_of_judgeBlocks
    (h : judgeBlocks hasInitializer body idoms order exits = some plan) :
    plan.map Prod.fst = order := by
  induction order generalizing exits plan with
  | nil => rw [← Option.some.inj h, List.map_nil]
  | cons block rest ih =>
    obtain ⟨b, later, -, hlater, rfl⟩ := judgeBlocks_cons_eq_some_iff.1 h
    rw [List.map_cons, ih hlater]

theorem lookup_eq_none_of_judgeBlocks
    (h : judgeBlocks hasInitializer body idoms order exits = some plan) (hblock : block ∉ order) :
    plan.lookup block = none := by
  rw [List.lookup_eq_none_iff]
  intro item hitem
  have hmem : item.1 ∈ order := map_fst_of_judgeBlocks h ▸ List.mem_map_of_mem hitem
  exact bne_iff_ne.2 fun heq => hblock (heq ▸ hmem)

/-- What a plan keeps of a block can be put in before the rest of the plan is carried out. -/
theorem apply_cons_eq {judged : List (Instr × Verdict)} {later : Plan}
    (hb : current.blocks[block]? = some b) (hlater : later.lookup block = none) :
    Plan.apply ((block, judged) :: later) current =
      later.apply { current with
        blocks := current.blocks.set block { b with code := survivors judged } } := by
  have hlt : block < current.blocks.length := (List.getElem?_eq_some_iff.1 hb).1
  refine congrArg (Body.mk current.vars) (List.ext_getElem? fun number => ?_)
  rw [List.getElem?_mapIdx, List.getElem?_mapIdx]
  by_cases hsame : number = block
  · subst hsame
    rw [List.getElem?_set_self hlt, hb]
    simp only [Option.map_some, List.lookup_cons_self, hlater]
  · rw [List.getElem?_set_ne (Ne.symm hsame)]
    simp only [List.lookup_cons, beq_false_of_ne hsame]

/-- Blocks of different numbers are judged alike whether or not earlier ones have been replaced. -/
theorem dropInPlace_eq (hnodup : order.Nodup) (hidoms : ∀ block ∈ order, block < idoms.length)
    (hsame : ∀ block ∈ order, current.blocks[block]? = body.blocks[block]?)
    (hplan : judgeBlocks hasInitializer body idoms order exits = some plan) :
    dropInPlace hasInitializer idoms order exits current = (plan.apply current, none) := by
  induction order generalizing exits plan current with
  | nil =>
    rw [← Option.some.inj hplan]
    refine Prod.ext (congrArg (Body.mk current.vars) (List.ext_getElem? fun number => ?_)) rfl
    rw [List.getElem?_mapIdx]
    simp
  | cons block rest ih =>
    obtain ⟨b, later, hb, hlater, rfl⟩ := judgeBlocks_cons_eq_some_iff.1 hplan
    obtain ⟨hfirst, hrest⟩ := List.nodup_cons.1 hnodup
    have hlt : block < idoms.length := hidoms block List.mem_cons_self
    have hidom : idoms[block]? = some idoms[block] := List.getElem?_eq_getElem hlt
    have hcurrent : current.blocks[block]? = some b := (hsame block List.mem_cons_self).trans hb
    rw [apply_cons_eq hcurrent (lookup_eq_none_of_judgeBlocks hlater hfirst)]
    simp only [dropInPlace, hidom, hcurrent]
    refine ih hrest (fun d hd => hidoms d (List.mem_cons_of_mem _ hd)) (fun d hd => ?_) hlater
    have hne : block ≠ d := fun heq => hfirst (heq ▸ hd)
    rw [List.getElem?_set_ne hne]
    exact hsame d (List.mem_cons_of_mem _ hd)

end Elimination

namespace Body

open Elimination

variable {hasInitializer : String → Bool} {body : Body}

/-- Elimination in place, with all look-ups checked: the body as it is in the end or when a fault
breaks the work off, and the fault. -/
def eliminateInPlace (hasInitializer : String → Bool) (body : Body) : Body × Option Fault :=
  match body.graph.dominatorSearch.result with
  | .error fault => (body, some fault)
  | .ok idoms =>
    match body.graph.reversePostorder? with
    | none => (body, some .target)
    | some order => dropInPlace hasInitializer idoms order [] body

theorem eliminate?_eq_none_iff : body.eliminate? hasInitializer = none ↔ ¬ body.graph.Closed := by
  constructor
  · intro hnone hclosed
    obtain ⟨reduced, hreduced, -⟩ := eliminate?_of_closed hasInitializer hclosed
    rw [hnone] at hreduced
    exact absurd hreduced nofun
  · intro hopen
    rw [eliminate?, plan?, Graph.immediateDominators?_eq_none_iff.2 hopen]
    rfl

theorem eliminateInPlace_of_closed (hasInitializer : String → Bool) (hclosed : body.graph.Closed) :
    ∃ reduced, body.eliminate? hasInitializer = some reduced ∧
      body.eliminateInPlace hasInitializer = (reduced, none) := by
  obtain ⟨reduced, hreduced, -⟩ := eliminate?_of_closed hasInitializer hclosed
  obtain ⟨idoms, hsearch, hspec⟩ := Graph.dominatorSearch_of_closed hclosed
  have hidoms : body.graph.immediateDominators? = some idoms := by
    rw [Graph.immediateDominators?, hsearch, Except.toOption]
  obtain ⟨order, horder, hordered⟩ :=
    Graph.reversePostorder?_of_closedFromEntry hclosed.fromEntry
  obtain ⟨plan, hplan, rfl⟩ := Option.map_eq_some_iff.1 hreduced
  rw [plan?, hidoms, horder, Option.bind_some, Option.bind_some] at hplan
  have hlength : ∀ block ∈ order, block < idoms.length := fun block hblock =>
    hspec.length ▸ ((hordered.mem_iff block).1 hblock).1
  refine ⟨plan.apply body, hreduced, ?_⟩
  rw [eliminateInPlace, hsearch, horder]
  exact dropInPlace_eq hordered.nodup hlength (fun _ _ => rfl) hplan

theorem eliminateInPlace_of_not_closed (hopen : ¬ body.graph.Closed) :
    body.eliminateInPlace hasInitializer = (body, some .target) := by
  rw [eliminateInPlace, Graph.dominatorSearch_of_not_closed hopen]

/-- The traversal fails exactly if a block on a path from the entry has a target that names no
block; the search for immediate dominators and elimination, whichever classes have an initializer,
fail exactly if any block has one. No other look-up fails: elimination in place leaves the body as
it was or ends with the body that is asked for. -/
theorem faults_iff_dangling_target (body : Body) :
    (body.graph.reversePostorder? = none ↔ ∃ blocks a b, body.graph.Path 0 blocks a ∧
      (∀ d ∈ blocks, d < body.blocks.length) ∧ body.graph.Edge a b ∧ body.blocks.length ≤ b) ∧
    (body.graph.immediateDominators? = none ↔
      ∃ a b, body.graph.Edge a b ∧ body.blocks.length ≤ b) ∧
    (body.graph.dominatorSearch.result =
      match body.graph.immediateDominators? with
      | none => .error .target
      | some idoms => .ok idoms) ∧
    ∀ hasInitializer : String → Bool,
      (body.eliminate? hasInitializer = none ↔
        ∃ a b, body.graph.Edge a b ∧ body.blocks.length ≤ b) ∧
      body.eliminateInPlace hasInitializer =
        match body.eliminate? hasInitializer with
        | none => (body, some .target)
        | some reduced => (reduced, none) := by
  have hdangling := Graph.not_closed_iff (g := body.graph)
  have hpath := Graph.not_closedFromEntry_iff (g := body.graph)
  rw [body.size_graph] at hdangling hpath
  refine ⟨Graph.reversePostorder?_eq_none_iff.trans hpath,
    Graph.immediateDominators?_eq_none_iff.trans hdangling, body.graph.result_dominatorSearch,
    fun hasInitializer => ⟨eliminate?_eq_none_iff.trans hdangling, ?_⟩⟩
  by_cases hclosed : body.graph.Closed
  · obtain ⟨reduced, hreduced, hplace⟩ :=
      eliminateInPlace_of_closed hasInitializer hclosed
    rw [hplace, hreduced]
  · rw [eliminateInPlace_of_not_closed hclosed, eliminate?_eq_none_iff.2 hclosed]

/-- Only a block that the entry does not reach has a target that names no block. -/
def strayJump : Body := ⟨[], [⟨[.check "N"], .exit none⟩, ⟨[], .jump 7⟩]⟩

example : strayJump.graph.reversePostorder? = some [0] ∧
    strayJump.eliminateInPlace (· != "N") = (strayJump, some .target) := by cbv

end Body

end MethodLowering
