import MethodLowering.Flow.Graph
import MethodLowering.Logged

/-!
Immediate dominators of a flow graph. A table over positions in reverse postorder holds a candidate
for each position; sweeps replace every candidate by the nearest common ancestor of the predecessors
known so far, until a sweep changes nothing. The search breaks off at a table entry that does not
exist, and logs the positions whose meeting point it looks for.
-/

set_option autoImplicit false
set_option relaxedAutoImplicit false

namespace MethodLowering

/-- Candidates by position: the position of the immediate dominator, absent while unknown. -/
abbrev DominatorTable := Array (Option Nat)

/-- Two positions of a table whose meeting point is looked for. -/
structure Query where
  table : DominatorTable
  first : Nat
  second : Nat

/-- Why a search breaks off. -/
inductive Fault
  /-- A target names no block. -/
  | target
  /-- A table has no entry with the index that is looked up or replaced. -/
  | entry
  /-- A sweep changed the table without lowering its weight. -/
  | unsettled
  deriving DecidableEq

abbrev Search := Logged Query Fault

/-- Replace an entry, which must exist. -/
def store? {α : Type} (table : Array α) (entry : Nat × α) : Option (Array α) :=
  if entry.1 < table.size then some (table.setIfInBounds entry.1 entry.2) else none

namespace DominatorTable

/-- Lift the later of two positions along the table until they meet. An unknown candidate counts
as position 0. There is no answer if a position lies outside the table or a candidate does not
lie before its position. -/
def nearestCommon (table : DominatorTable) (a b : Nat) : Option Nat :=
  if a = b then some a
  else
    match table[max a b]? with
    | none => none
    | some candidate =>
      if candidate.getD 0 < max a b then table.nearestCommon (candidate.getD 0) (min a b)
      else none
termination_by a + b
decreasing_by omega

def query (table : DominatorTable) (a b : Nat) : Search Nat := do
  .tell ⟨table, a, b⟩
  .orFail .entry (table.nearestCommon a b)

/-- The nearest common ancestor of those of the given positions that have a candidate, starting
from `found`. -/
def meet (table : DominatorTable) (found : Option Nat) : List Nat → Search (Option Nat)
  | [] => pure found
  | source :: rest => do
    match ← .orFail .entry table[source]? with
    | none => table.meet found rest
    | some _ =>
      match found with
      | none => table.meet (some source) rest
      | some nearest => do
        let common ← table.query nearest source
        table.meet (some common) rest

/-- Store a newly found candidate, if there is one. -/
def record (table : DominatorTable) (position : Nat) : Option Nat → Search DominatorTable
  | none => pure table
  | some candidate => .orFail .entry (store? table (position, some candidate))

/-- Reconsider the positions from `position` on, whose predecessors are given in order. -/
def sweepFrom (position : Nat) : List (List Nat) → DominatorTable → Search DominatorTable
  | [], table => pure table
  | sources :: rest, table => do
    let candidate ← table.meet none sources
    let next ← table.record position candidate
    sweepFrom (position + 1) rest next

/-- Reconsider every position but that of the entry. -/
def sweep (incoming : List (List Nat)) (table : DominatorTable) : Search DominatorTable :=
  sweepFrom 1 incoming.tail table

/-- The sum of all candidates, where an unknown one counts as its own position. -/
def weight (table : DominatorTable) : Nat :=
  (table.toList.zipIdx.map fun (candidate, position) => candidate.getD position).foldr (· + ·) 0

/-- Sweep until nothing changes. A sweep that changes the table lowers its weight, so the sweeps
end. -/
def settle (incoming : List (List Nat)) (table : DominatorTable) : Search DominatorTable := do
  let next ← sweep incoming table
  if next = table then return table
  else if next.weight < table.weight then settle incoming next
  else .fail .unsettled
termination_by table.weight

end DominatorTable

namespace Graph

open DominatorTable

/-- The position of every block in an order, by block. -/
def positions? (size : Nat) (order : List Nat) : Option (Array (Option Nat)) :=
  (order.zipIdx.map fun (block, position) => (block, some position)).foldlM store?
    (Array.replicate size none)

/-- The positions of the predecessors of a block, as far as they have one. -/
def positionsBefore? (predecessors : List (List Nat)) (positions : Array (Option Nat))
    (block : Nat) : Option (List Nat) :=
  (predecessors[block]?).bind fun sources =>
    (sources.mapM fun source => positions[source]?).map fun found => found.filterMap id

/-- The block at a position with the block at its candidate. -/
def blockWithDominator? (order : List Nat) (candidate : Option Nat) (position : Nat) :
    Option (Nat × Option Nat) :=
  (order[position]?).bind fun block =>
    match candidate with
    | none => some (block, none)
    | some candidate => (order[candidate]?).map fun dominator => (block, some dominator)

def dominators? (size : Nat) (order : List Nat) (table : DominatorTable) :
    Option (Array (Option Nat)) :=
  (table.toList.zipIdx.mapM fun (candidate, position) =>
    blockWithDominator? order candidate position).bind fun entries =>
      entries.foldlM store? (Array.replicate size none)

def dominatorSearch (g : Graph) : Search (List (Option Nat)) := do
  let order ← .orFail .target g.reversePostorder?
  if order = [] then return List.replicate g.size none
  let positions ← .orFail .entry (positions? g.size order)
  let predecessors ← .orFail .target g.predecessors?
  let incoming ← .orFail .entry (order.mapM (positionsBefore? predecessors positions))
  let start ← .orFail .entry (store? (Array.replicate order.length none) (0, some 0))
  let table ← settle incoming start
  let dominators ← .orFail .entry (dominators? g.size order table)
  return dominators.toList

/-- The immediate dominator of every block. The entry is its own, and a block that the entry does
not reach has none. There is no answer if some block, reachable or not, has a target that names
no block. -/
def immediateDominators? (g : Graph) : Option (List (Option Nat)) :=
  g.dominatorSearch.result.toOption

end Graph

end MethodLowering
