/-!
Flow graphs: the targets of every block by block number. Block 0 is the entry. A target may name no
block; what then fails, and what does not, is part of each operation. What the entry reaches and
what every path runs through is said by paths; reverse postorder is found with an explicit stack of
half-explored blocks, beside which depth-first search by recursion stands for comparison.
-/

set_option autoImplicit false
set_option relaxedAutoImplicit false

namespace MethodLowering

/-- The targets of each block, in the order in which control considers them. -/
structure Graph where
  targets : List (List Nat)

namespace Graph

def size (g : Graph) : Nat := g.targets.length

def successors? (g : Graph) (block : Nat) : Option (List Nat) := g.targets[block]?

/-- Control can move from block `a` to target `b`. -/
def Edge (g : Graph) (a b : Nat) : Prop := ∃ next, g.successors? a = some next ∧ b ∈ next

/-- Every target of every block names a block. -/
def Closed (g : Graph) : Prop := ∀ next ∈ g.targets, ∀ b ∈ next, b < g.size

instance (g : Graph) : Decidable g.Closed :=
  inferInstanceAs (Decidable (∀ next ∈ g.targets, ∀ b ∈ next, b < g.size))

/-- All edges, by source and then in the order of its targets. -/
def edges (g : Graph) : List (Nat × Nat) :=
  g.targets.zipIdx.flatMap fun (next, source) => next.map fun target => (source, target)

/-- Append `source` to the list at `target`, which must exist. -/
def push (lists : List (List Nat)) (edge : Nat × Nat) : Option (List (List Nat)) :=
  (lists[edge.2]?).map fun sources => lists.set edge.2 (sources ++ [edge.1])

/-- The sources of the edges into each block; there are none if some target names no block. -/
def predecessors? (g : Graph) : Option (List (List Nat)) :=
  g.edges.foldlM push (List.replicate g.size [])

/-! ### Paths -/

/-- The list holds the blocks on a path from `a` to `b`, both included. -/
inductive Path (g : Graph) : Nat → List Nat → Nat → Prop
  | single (a : Nat) : Path g a [a] a
  | step {a b c : Nat} {blocks : List Nat} : g.Edge a b → Path g b blocks c →
      Path g a (a :: blocks) c

def Reaches (g : Graph) (a b : Nat) : Prop := ∃ blocks, g.Path a blocks b

def Reachable (g : Graph) (block : Nat) : Prop := block < g.size ∧ g.Reaches 0 block

/-- Every path from the entry to `block` runs through `d`. -/
def Dominates (g : Graph) (d block : Nat) : Prop := ∀ blocks, g.Path 0 blocks block → d ∈ blocks

/-- `d` is the dominator of `block` that is nearest to it, itself apart. -/
def ImmediatelyDominates (g : Graph) (d block : Nat) : Prop :=
  g.Dominates d block ∧ d ≠ block ∧
    ∀ other, g.Dominates other block → other ≠ block → g.Dominates other d

/-! ### Reverse postorder -/

/-- The steps a stack still needs if it enters no further block. -/
def pendingWork (stack : List (Nat × List Nat)) : Nat :=
  (stack.flatMap Prod.snd).length + stack.length

/-- Explore depth first. A frame of `stack` holds a block and its targets not looked at yet,
`fresh` the blocks not entered yet, and `order` the finished blocks, last one first. Looking at
a target that names no block fails. -/
def explore (g : Graph) (fresh : List Nat) (stack : List (Nat × List Nat)) (order : List Nat) :
    Option (List Nat) :=
  match stack with
  | [] => some order
  | (block, []) :: below => g.explore fresh below (block :: order)
  | (block, target :: rest) :: below =>
    if target ∈ fresh then
      match g.successors? target with
      | none => none
      | some next => g.explore (fresh.erase target) ((target, next) :: (block, rest) :: below) order
    else if target < g.size then g.explore fresh ((block, rest) :: below) order
    else none
termination_by (fresh.length, pendingWork stack)
decreasing_by
  · exact Prod.Lex.right _ (by simp [pendingWork])
  · refine Prod.Lex.left _ _ ?_
    have := List.length_pos_of_mem ‹target ∈ fresh›
    simp only [List.length_erase_of_mem ‹target ∈ fresh›]
    omega
  · exact Prod.Lex.right _ (by simp [pendingWork])

/-- The blocks reachable from the entry, each before its targets except along back edges. There
is no such order if a reachable block has a target that names no block. -/
def reversePostorder? (g : Graph) : Option (List Nat) :=
  match g.targets with
  | [] => some []
  | next :: _ => g.explore ((List.range g.size).erase 0) [(0, next)] []

/-! ### Depth-first search by recursion -/

/-- Search the blocks of `pending` one after another, as far as they are in `fresh`. The result
holds the finished blocks in order and the blocks that are still fresh. -/
def search (g : Graph) (fresh pending : List Nat) :
    { found : List Nat × List Nat // found.2.length ≤ fresh.length } :=
  match pending with
  | [] => ⟨([], fresh), Nat.le_refl _⟩
  | block :: rest =>
    if h : block ∈ fresh then
      have entered : (fresh.erase block).length < fresh.length := by
        have := List.length_pos_of_mem h
        rw [List.length_erase_of_mem h]
        omega
      match g.search (fresh.erase block) ((g.successors? block).getD []) with
      | ⟨(below, left), hleft⟩ =>
        have fewer : left.length < fresh.length := Nat.lt_of_le_of_lt hleft entered
        match g.search left rest with
        | ⟨(others, last), hlast⟩ =>
          ⟨(below ++ block :: others, last), Nat.le_of_lt (Nat.lt_of_le_of_lt hlast fewer)⟩
    else g.search fresh rest
termination_by (fresh.length, pending.length)

/-- The blocks that the entry reaches, each after the blocks searched below it. -/
def postorder (g : Graph) : List Nat := (g.search (List.range g.size) [0]).val.1

end Graph

end MethodLowering
