import MethodLowering.Descriptor.Signature
import MethodLowering.Flow.Graph

/-!
Method bodies: basic blocks of instructions over numbered variables, with their flow graph and their
equality. Floating-point literals are given by their interchange bits and compare as numbers: a NaN
equals nothing, and the two zeros equal each other.
-/

set_option autoImplicit false
set_option relaxedAutoImplicit false

namespace MethodLowering

/-! ### Floating-point numbers -/

/-- A single-precision number by its bits. -/
structure Binary32 where
  bits : UInt32
  deriving DecidableEq

namespace Binary32

/-- The quiet NaN without sign and payload. -/
def nan : Binary32 := ⟨0x7fc00000⟩

/-- The bits below the sign. -/
def magnitude (x : Binary32) : UInt32 := x.bits &&& 0x7fffffff

/-- Whether the number is a NaN: its magnitude lies above that of infinity. -/
def isNaN (x : Binary32) : Bool := 0x7f800000 < x.magnitude

def agrees (x y : Binary32) : Bool :=
  !x.isNaN && !y.isNaN && (x == y || (x.magnitude == 0 && y.magnitude == 0))

end Binary32

/-- A double-precision number by its bits. -/
structure Binary64 where
  bits : UInt64
  deriving DecidableEq

namespace Binary64

def nan : Binary64 := ⟨0x7ff8000000000000⟩

def magnitude (x : Binary64) : UInt64 := x.bits &&& 0x7fffffffffffffff

def isNaN (x : Binary64) : Bool := 0x7ff0000000000000 < x.magnitude

def agrees (x y : Binary64) : Bool :=
  !x.isNaN && !y.isNaN && (x == y || (x.magnitude == 0 && y.magnitude == 0))

end Binary64

/-! ### Blocks of instructions -/

inductive Literal
  | int (value : Int32)
  | long (value : Int64)
  | float (value : Binary32)
  | double (value : Binary64)
  | null
  deriving DecidableEq

inductive BinaryOp
  | add
  | subtract
  | multiply
  | divide
  | modulo
  | and
  | or
  | xor
  | shiftLeft
  | shiftRight
  | shiftRightUnsigned
  deriving DecidableEq

inductive NumericKind
  | int
  | long
  | float
  | double
  deriving DecidableEq

structure FieldRef where
  owner : String
  name : String
  deriving DecidableEq

/-- One instruction. Variables are numbers; `dest` is the variable written, `instance?` the
variable that holds the object, absent for what belongs to the class itself. -/
inductive Instr
  | const (dest : Nat) (value : Literal)
  | move (dest source : Nat)
  | binary (dest : Nat) (op : BinaryOp) (kind : NumericKind) (left right : Nat)
  | negate (dest : Nat) (kind : NumericKind) (operand : Nat)
  | invoke (dest instance? : Option Nat) (method : MethodRef) (args : List Nat)
  | getField (dest : Nat) (instance? : Option Nat) (field : FieldRef) (type : FieldType)
  | putField (instance? : Option Nat) (field : FieldRef) (type : FieldType) (value : Nat)
  /-- Make sure that the initializer of the class has run. -/
  | check (name : String)
  /-- Store whether the initializer of the class has run. -/
  | test (dest : Nat) (name : String)
  deriving DecidableEq

namespace Instr

/-- The class whose initialization the instruction asks about. -/
def guardedClass? : Instr → Option String
  | check name => some name
  | test _ name => some name
  | _ => none

/-- Whether the instruction makes sure that a class is initialized. -/
def isCheck : Instr → Bool
  | check _ => true
  | _ => false

def vars : Instr → List Nat
  | const dest _ => [dest]
  | move dest source => [dest, source]
  | binary dest _ _ left right => [dest, left, right]
  | negate dest _ operand => [dest, operand]
  | invoke dest instance? _ args => dest.toList ++ instance?.toList ++ args
  | getField dest instance? _ _ => dest :: instance?.toList
  | putField instance? _ _ value => instance?.toList ++ [value]
  | check _ => []
  | test dest _ => [dest]

end Instr

inductive Terminator
  | jump (target : Nat)
  | branch (condition consequent alternative : Nat)
  | exit (value : Option Nat)
  deriving DecidableEq

namespace Terminator

/-- The blocks control can move to; a branch whose arms agree has one target. -/
def targets : Terminator → List Nat
  | jump target => [target]
  | branch _ consequent alternative =>
    if consequent = alternative then [consequent] else [consequent, alternative]
  | exit _ => []

theorem nodup_targets (terminator : Terminator) : terminator.targets.Nodup := by
  cases terminator with
  | jump target => simp [targets]
  | branch condition consequent alternative =>
    by_cases h : consequent = alternative <;> simp [targets, h]
  | exit value => simp [targets]

def vars : Terminator → List Nat
  | jump _ => []
  | branch condition _ _ => [condition]
  | exit value => value.toList

end Terminator

/-- Instructions in a row and how they end. -/
structure Block where
  code : List Instr
  terminator : Terminator
  deriving DecidableEq

structure VarInfo where
  type : Option FieldType
  name : Option String
  deriving DecidableEq

/-- A method body: its variables and its blocks by number. Block 0 is the entry. -/
structure Body where
  vars : List VarInfo
  blocks : List Block
  deriving DecidableEq

namespace Body

def graph (body : Body) : Graph :=
  ⟨body.blocks.map fun block => block.terminator.targets⟩

@[simp]
theorem size_graph (body : Body) : body.graph.size = body.blocks.length :=
  List.length_map _

@[simp]
theorem successors?_graph (body : Body) (number : Nat) :
    body.graph.successors? number =
      (body.blocks[number]?).map fun block => block.terminator.targets :=
  List.getElem?_map

/-- Add a block at the end; its number is the old block count. -/
def addBlock (body : Body) (block : Block) : Body :=
  { body with blocks := body.blocks ++ [block] }

/-- Add a variable at the end; its number is the old variable count. -/
def addVar (body : Body) (info : VarInfo) : Body :=
  { body with vars := body.vars ++ [info] }

/-- Change the entry block, if there is one. -/
def modifyEntry (body : Body) (change : Block → Block) : Body :=
  { body with blocks := body.blocks.modifyHead change }

end Body

/-! ### Equality with floating-point literals compared as numbers -/

def Literal.agrees : Literal → Literal → Bool
  | float x, float y => x.agrees y
  | double x, double y => x.agrees y
  | a, b => a == b

def Instr.agrees : Instr → Instr → Bool
  | const dest x, const dest' y => dest == dest' && x.agrees y
  | a, b => a == b

def Block.agrees (a b : Block) : Bool :=
  a.code.isEqv b.code Instr.agrees && a.terminator == b.terminator

def Body.agrees (a b : Body) : Bool :=
  a.vars == b.vars && a.blocks.isEqv b.blocks Block.agrees

end MethodLowering
