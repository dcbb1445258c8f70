import MethodLowering.Classes
import MethodLowering.Flow.Body
import MethodLowering.Flow.Dominator
import MethodLowering.Trace

/-!
Checks that a class is initialized. A method whose entry must find its class initialized starts with
a check of it, if the class has an initializer. A check is dropped if its class has no initializer,
or if the class was asked about earlier in the block or in a block that dominates it; blocks that
the entry does not reach keep their checks. The others are expanded: a block is split at its first
check, the head tests whether the class is initialized and branches to the rest of the block,
directly or over a block that calls the initializer, and the two new blocks are added at the end and
are split in their turn.
-/

set_option autoImplicit false
set_option relaxedAutoImplicit false

namespace MethodLowering

/-! ### Entry checks -/

namespace EntryCheck

def wanted (hasInitializer : String → Bool) (method : Method) : Bool :=
  method.needsEntryCheck && hasInitializer method.ref.owner

/-- Put the check that the method wants in front of the entry block, if there is one. -/
def inject (hasInitializer : String → Bool) (method : Method) (body : Body) : Body :=
  if wanted hasInitializer method then
    body.modifyEntry fun entry => { entry with code := .check method.ref.owner :: entry.code }
  else body

def notes (hasInitializer : String → Bool) (method : Method) (body : Body) : List Note :=
  if wanted hasInitializer method && !body.blocks.isEmpty then [.injectedCheck method.ref] else []

end EntryCheck

/-! ### Elimination -/

namespace Elimination

/-- What becomes of an instruction. -/
inductive Verdict
  | keep
  | useless (name : String)
  | redundant (name : String)
  deriving DecidableEq

/-- The classes asked about after an instruction, when those in `known` were before it. A check
of a class without initializer asks nothing. -/
def learn (hasInitializer : String → Bool) (known : List String) : Instr → List String
  | .check name => if hasInitializer name then known.insert name else known
  | .test _ name => known.insert name
  | _ => known

/-- What becomes of an instruction when the classes in `known` were asked about before it. -/
def judge (hasInitializer : String → Bool) (known : List String) : Instr → Verdict
  | .check name =>
    if !hasInitializer name then .useless name
    else if name ∈ known then .redundant name
    else .keep
  | _ => .keep

/-- The instructions of a block, each with what becomes of it. -/
def sift (hasInitializer : String → Bool) (known : List String) :
    List Instr → List (Instr × Verdict)
  | [] => []
  | instr :: rest =>
    (instr, judge hasInitializer known instr) ::
      sift hasInitializer (learn hasInitializer known instr) rest

def survivors (judged : List (Instr × Verdict)) : List Instr :=
  (judged.filter fun item => item.2 == .keep).map Prod.fst

/-- Blocks by number, each with what becomes of its instructions. -/
abbrev Plan := List (Nat × List (Instr × Verdict))

/-- The classes asked about on entry to a block: those on exit from its immediate dominator, when
`exits` holds these for the blocks seen before. -/
def knownOnEntry (idoms : List (Option Nat)) (exits : List (Nat × List String)) (block : Nat) :
    List String :=
  match idoms[block]? with
  | some (some idom) => if idom = block then [] else (exits.lookup idom).getD []
  | _ => []

/-- Judge the blocks of `order` one after another. -/
def judgeBlocks (hasInitializer : String → Bool) (body : Body) (idoms : List (Option Nat)) :
    List Nat → List (Nat × List String) → Option Plan
  | [], _ => some []
  | block :: rest, exits =>
    match body.blocks[block]? with
    | none => none
    | some b =>
      let known := knownOnEntry idoms exits block
      let exit := b.code.foldl (learn hasInitializer) known
      (judgeBlocks hasInitializer body idoms rest ((block, exit) :: exits)).map
        ((block, sift hasInitializer known b.code) :: ·)

/-- Judge the blocks that the entry reaches, dominators first. -/
def plan? (hasInitializer : String → Bool) (body : Body) : Option Plan :=
  body.graph.immediateDominators?.bind fun idoms =>
    body.graph.reversePostorder?.bind fun order => judgeBlocks hasInitializer body idoms order []

/-- Keep what the plan keeps; a block outside the plan stays as it is. -/
def Plan.apply (plan : Plan) (body : Body) : Body :=
  { body with
    blocks := body.blocks.mapIdx fun number block =>
      match plan.lookup number with
      | none => block
      | some judged => { block with code := survivors judged } }

def Verdict.note? (block : Nat) : Verdict → Option Note
  | keep => none
  | useless name => some (.uselessCheck block name)
  | redundant name => some (.redundantCheck block name)

def Plan.notes (plan : Plan) : List Note :=
  plan.flatMap fun (block, judged) => judged.filterMap fun item => item.2.note? block

end Elimination

/-- The body without those checks, in the blocks that the entry reaches, whose class has no
initializer or was asked about earlier in the block or in a block that dominates it. There is none
if some block has a target that names no block. -/
def Body.eliminate? (hasInitializer : String → Bool) (body : Body) : Option Body :=
  (Elimination.plan? hasInitializer body).map fun plan => plan.apply body

/-! ### Expansion -/

namespace Expansion

/-- A finished block and, if it was split, the class whose check was there. -/
structure Piece where
  block : Block
  split? : Option String

/-- The instructions before the first check, its class, and the instructions after it. -/
def splitAtCheck? : List Instr → Option (List Instr × String × List Instr)
  | [] => none
  | .check name :: rest => some ([], name, rest)
  | instr :: rest =>
    (splitAtCheck? rest).map fun (before, name, after) => (instr :: before, name, after)

/-- The block that tests a class into `flag` after the instructions `before`, and goes to `next`
if the class is initialized and to the block after `next` otherwise. -/
def headBlock (before : List Instr) (name : String) (flag next : Nat) : Block :=
  ⟨before ++ [.test flag name], .branch flag next (next + 1)⟩

/-- The block that runs the initializer of a class and goes to `next`. -/
def initBlock (name : String) (next : Nat) : Block :=
  ⟨[.invoke none none (MethodRef.classInitializer name) []], .jump next⟩

def checkCount (blocks : List Block) : Nat :=
  (blocks.flatMap Block.code).countP Instr.isCheck

theorem countP_of_splitAtCheck? {code before after : List Instr} {name : String}
    (h : splitAtCheck? code = some (before, name, after)) :
    code.countP Instr.isCheck = after.countP Instr.isCheck + 1 := by
  fun_induction splitAtCheck? code generalizing before with
  | case1 => simp at h
  | case2 name rest =>
    simp only [Option.some.injEq, Prod.mk.injEq] at h
    obtain ⟨-, -, rfl⟩ := h
    exact List.countP_cons_of_pos rfl
  | case3 instr rest hne ih =>
    obtain ⟨⟨before', name', after'⟩, hrest, heq⟩ := Option.map_eq_some_iff.1 h
    simp only [Prod.mk.injEq] at heq
    obtain ⟨-, rfl, rfl⟩ := heq
    have hkind : instr.isCheck = false := by
      cases instr with
      | check name => exact absurd rfl (hne name)
      | _ => rfl
    simp [hkind, ih hrest]

/-- Split the blocks of `pending`, the first of which has the given number; `flag` is the next free
variable. -/
def expandFrom (number flag : Nat) (pending : List Block) : List Piece :=
  match pending with
  | [] => []
  | block :: rest =>
    match h : splitAtCheck? block.code with
    | none => ⟨block, none⟩ :: expandFrom (number + 1) flag rest
    | some (before, name, after) =>
      let next := number + 1 + rest.length
      ⟨headBlock before name flag next, some name⟩ ::
        expandFrom (number + 1) (flag + 1)
          (rest ++ [⟨after, block.terminator⟩, initBlock name next])
termination_by 2 * checkCount pending + pending.length
decreasing_by
  · simp [checkCount]
    omega
  · have := countP_of_splitAtCheck? h
    simp [checkCount, initBlock, Instr.isCheck]
    omega

def pieces (body : Body) : List Piece :=
  expandFrom 0 body.vars.length body.blocks

/-- The variable that takes the result of a test: a truth value without a name. -/
def flagInfo : VarInfo := ⟨some (.primitive .boolean), none⟩

def notes (body : Body) : List Note :=
  (pieces body).zipIdx.filterMap fun (piece, number) => piece.split?.map (.expandedCheck number)

end Expansion

/-- The body with every check spelled out as a test and a call. -/
def Body.expand (body : Body) : Body where
  vars := body.vars ++ (Expansion.pieces body).filterMap fun piece =>
    piece.split?.map fun _ => Expansion.flagInfo
  blocks := (Expansion.pieces body).map Expansion.Piece.block

end MethodLowering
