import MethodLowering.Classes
import MethodLowering.Flow.Body
import MethodLowering.Flow.Graph
import MethodLowering.Linkage
import MethodLowering.Trace
import MethodLowering.Wasm

/-!
Backends: what turns a normalized body into an expression of the target. A decompiler makes a tree
and a variable list of the body, and an emitter an expression of the tree. The stub lists the
statements of the body one after another, with the branch structure left out: variable `i` lives in
local `i - first`; a variable below `first` has no local, and what would use it is unreachable, as
is all that has no expression.
-/

set_option autoImplicit false
set_option relaxedAutoImplicit false

namespace MethodLowering

/-! ### Listings -/

inductive Statement
  | perform (instr : Instr)
  | leave (value : Option Nat)

/-- The statements of a block: its instructions and, if it ends in an exit, the exit. -/
def Block.statements (block : Block) : List Statement :=
  block.code.map .perform ++
    match block.terminator with
    | .exit value => [.leave value]
    | _ => []

/-- The statements of the blocks that the entry reaches, in reverse postorder. There are none to
give if one of these blocks has a target that names no block. -/
def Body.listing? (body : Body) : Option (List Statement) :=
  body.graph.reversePostorder?.bind fun order =>
    (order.mapM fun number => body.blocks[number]?).map fun blocks =>
      blocks.flatMap Block.statements

/-! ### Emission -/

/-- The local of a variable, if it has one. -/
def localOf? (first v : Nat) : Option Nat :=
  if v < first then none else some (v - first)

def loadVariable (first v : Nat) : Wasm.Expr :=
  match localOf? first v with
  | none => .unreachable
  | some index => .localGet index

def storeVariable (first v : Nat) (value : Wasm.Expr) : Wasm.Expr :=
  match localOf? first v with
  | none => .unreachable
  | some index => .localSet index value

/-- The expression of a literal; the null reference has none. -/
def Literal.emit : Literal → Wasm.Expr
  | int value => .i32 value
  | long value => .i64 value
  | float value => .f32 value
  | double value => .f64 value
  | null => .unreachable

def BinaryOp.intOp : BinaryOp → Wasm.IntOp
  | add => .add
  | subtract => .sub
  | multiply => .mul
  | divide => .divSigned
  | modulo => .remSigned
  | and => .and
  | or => .or
  | xor => .xor
  | shiftLeft => .shl
  | shiftRight => .shrSigned
  | shiftRightUnsigned => .shrUnsigned

def BinaryOp.floatOp? : BinaryOp → Option Wasm.FloatOp
  | add => some .add
  | subtract => some .sub
  | multiply => some .mul
  | divide => some .div
  | _ => none

def emitFloatBinary (width : Wasm.FloatWidth) (op : BinaryOp) (left right : Wasm.Expr) :
    Wasm.Expr :=
  match op.floatOp? with
  | none => .unreachable
  | some op => .floatBinary width op left right

def emitBinary (op : BinaryOp) (kind : NumericKind) (left right : Wasm.Expr) : Wasm.Expr :=
  match kind with
  | .int => .intBinary .w32 op.intOp left right
  | .long => .intBinary .w64 op.intOp left right
  | .float => emitFloatBinary .w32 op left right
  | .double => emitFloatBinary .w64 op left right

def Instr.emit (first : Nat) : Instr → Wasm.Expr
  | const dest value => storeVariable first dest value.emit
  | move dest source => storeVariable first dest (loadVariable first source)
  | binary dest op kind left right =>
    storeVariable first dest
      (emitBinary op kind (loadVariable first left) (loadVariable first right))
  | negate dest _ _ => storeVariable first dest .unreachable
  | invoke dest instance? method args =>
    let call := .call method.symbol ((instance?.toList ++ args).map (loadVariable first))
    match dest with
    | none => call
    | some dest => storeVariable first dest call
  | getField dest _ _ _ => storeVariable first dest .unreachable
  | putField _ _ _ _ => .unreachable
  | check name => .call (MethodRef.classInitializer name).symbol []
  | test dest _ => storeVariable first dest .unreachable

def Statement.emit (first : Nat) : Statement → Wasm.Expr
  | perform instr => instr.emit first
  | leave value => .ret (value.map (loadVariable first))

/-- The expression of a listing: that of its only statement, or a block of all of them. -/
def emitListing (first : Nat) : List Statement → Wasm.Expr
  | [statement] => statement.emit first
  | statements => .block none none (statements.map (Statement.emit first))

/-! ### Backends -/

structure Decompiled (Tree : Type) where
  vars : List VarInfo
  tree : Tree

abbrev Decompiler (Tree : Type) := Method → Body → Traced (Decompiled Tree)

/-- What makes an expression of a tree, when the function is declared, for a method whose first
parameter is in the variable of the given number. -/
abbrev Emitter (Tree : Type) := Tree → Wasm.Function → MethodRef → Nat → Traced Wasm.Expr

structure Backend where
  Tree : Type
  decompile : Decompiler Tree
  emit : Emitter Tree

/-- List the statements of the body. The variables are those of the body, unless others are given
to be used instead. -/
def straightLine (vars? : Option (List VarInfo)) : Decompiler (List Statement) :=
  fun _ body => do
    .tell (.listed body)
    let listing ← .orFail .danglingTarget body.listing?
    return ⟨vars?.getD body.vars, listing⟩

def emitSimply : Emitter (List Statement) :=
  fun listing function ref first => do
    .tell (.emitted ⟨ref, first, function.params.length, function.locals.length⟩)
    return emitListing first listing

def Backend.stub (vars? : Option (List VarInfo)) : Backend :=
  ⟨List Statement, straightLine vars?, emitSimply⟩

end MethodLowering
