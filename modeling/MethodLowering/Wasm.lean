import MethodLowering.Descriptor.Signature
import MethodLowering.Flow.Body
import MethodLowering.Linkage

/-!
The target: value types and function types with their binary form and the readers that undo it,
expression trees, and functions, which have a name and a signature with either locals and a body or
an import.
-/

set_option autoImplicit false
set_option relaxedAutoImplicit false

namespace MethodLowering.Wasm

/-! ### Value types -/

inductive ValType
  | i32
  | i64
  | f32
  | f64
  | ref
  deriving DecidableEq

namespace ValType

def byte : ValType → UInt8
  | i32 => 0x7f
  | i64 => 0x7e
  | f32 => 0x7d
  | f64 => 0x7c
  | ref => 0x6f

def ofByte? (b : UInt8) : Option ValType :=
  if b = 0x7f then some i32
  else if b = 0x7e then some i64
  else if b = 0x7d then some f32
  else if b = 0x7c then some f64
  else if b = 0x6f then some ref
  else none

@[simp]
theorem ofByte?_byte (t : ValType) : ofByte? t.byte = some t := by
  cases t <;> rfl

/-- The value type that represents a field type: all small integers share one, and so do all
objects and arrays. -/
def ofFieldType : FieldType → ValType
  | .primitive .long => i64
  | .primitive .float => f32
  | .primitive .double => f64
  | .primitive _ => i32
  | .object _ => ref
  | .array _ => ref

/-- Read value types as long as there are any; what follows starts with none. -/
def readMany : List UInt8 → List ValType × List UInt8
  | [] => ([], [])
  | b :: rest =>
    match ofByte? b with
    | none => ([], b :: rest)
    | some type =>
      let (types, rest) := readMany rest
      (type :: types, rest)

end ValType

/-! ### Variable-length natural numbers -/

namespace Leb128

def encode (n : Nat) : List UInt8 :=
  if n < 128 then [UInt8.ofNat n]
  else UInt8.ofNat (n % 128 + 128) :: encode (n / 128)

/-- Read a natural number; the rest is what follows its last byte. -/
def decode? : List UInt8 → Option (Nat × List UInt8)
  | [] => none
  | b :: rest =>
    if b.toNat < 128 then some (b.toNat, rest)
    else (decode? rest).map fun (high, rest) => (b.toNat - 128 + 128 * high, rest)

theorem decode?_encode_append (n : Nat) (rest : List UInt8) :
    decode? (encode n ++ rest) = some (n, rest) := by
  fun_induction encode n with
  | case1 n h =>
    have : n % 256 = n := Nat.mod_eq_of_lt (by omega)
    simp [decode?, this, h]
  | case2 n h ih =>
    have : (n % 128 + 128) % 256 = n % 128 + 128 := Nat.mod_eq_of_lt (by omega)
    simp only [List.cons_append, decode?, UInt8.toNat_ofNat', this, ih, Option.map_some]
    rw [if_neg (by omega)]
    congr 2
    omega

/-- Read a number below `2 ^ 32` from at most five bytes. -/
def decode32? (bytes : List UInt8) : Option (Nat × List UInt8) :=
  (decode? bytes).filter fun (n, rest) => n < UInt32.size && bytes.length ≤ rest.length + 5

end Leb128

/-! ### Function types -/

structure FuncType where
  params : List ValType
  results : List ValType
  deriving DecidableEq

/-- The bytes of a vector of value types: its length, then the types. -/
def vectorBytes (types : List ValType) : List UInt8 :=
  Leb128.encode types.length ++ types.map ValType.byte

/-- The byte in front of every function type. -/
def FuncType.form : UInt8 := 0x60

def FuncType.bytes (type : FuncType) : List UInt8 :=
  form :: (vectorBytes type.params ++ vectorBytes type.results)

structure TypeSection where
  types : List FuncType

namespace TypeSection

def empty : TypeSection := ⟨[]⟩

def size (types : TypeSection) : Nat := types.types.length

/-- Add a type at the end; its index is the old size. -/
def add (types : TypeSection) (type : FuncType) : TypeSection :=
  ⟨types.types ++ [type]⟩

/-- Add types one after another; each gets its index. -/
def addAll (types : TypeSection) : List FuncType → List Nat × TypeSection
  | [] => ([], types)
  | type :: rest =>
    let (indices, result) := (types.add type).addAll rest
    (types.size :: indices, result)

/-- The number of types and then each of them. -/
def payload (types : TypeSection) : List UInt8 :=
  Leb128.encode types.size ++ types.types.flatMap FuncType.bytes

/-- The bytes in front of every module: a mark and the version. -/
def moduleHeader : List UInt8 := [0x00, 0x61, 0x73, 0x6d, 0x01, 0x00, 0x00, 0x00]

/-- The number of the type section among the sections of a module. -/
def sectionId : UInt8 := 1

/-- The bytes of a module that holds this section alone: the header, the section's number, the
length of its payload, and the payload. -/
def moduleBytes (types : TypeSection) : List UInt8 :=
  moduleHeader ++ sectionId :: (Leb128.encode types.payload.length ++ types.payload)

end TypeSection

/-! ### Readers -/

def readTypes? : Nat → List UInt8 → Option (List ValType × List UInt8)
  | 0, bytes => some ([], bytes)
  | _ + 1, [] => none
  | count + 1, b :: rest =>
    (ValType.ofByte? b).bind fun type =>
      (readTypes? count rest).map fun (types, rest) => (type :: types, rest)

def readVector? (bytes : List UInt8) : Option (List ValType × List UInt8) :=
  (Leb128.decode32? bytes).bind fun (count, rest) => readTypes? count rest

def FuncType.read? : List UInt8 → Option (FuncType × List UInt8)
  | [] => none
  | b :: rest =>
    if b = form then
      (readVector? rest).bind fun (params, rest) =>
        (readVector? rest).map fun (results, rest) => (⟨params, results⟩, rest)
    else none

def FuncType.readMany? : Nat → List UInt8 → Option (List FuncType × List UInt8)
  | 0, bytes => some ([], bytes)
  | count + 1, bytes =>
    (read? bytes).bind fun (type, rest) =>
      (readMany? count rest).map fun (types, rest) => (type :: types, rest)

/-- The types of a module that holds a type section alone. -/
def TypeSection.ofModuleBytes? (bytes : List UInt8) : Option TypeSection :=
  if bytes.take moduleHeader.length = moduleHeader then
    match bytes.drop moduleHeader.length with
    | [] => none
    | id :: rest =>
      if id = sectionId then
        (Leb128.decode32? rest).bind fun (size, payload) =>
          if payload.length = size then
            (Leb128.decode32? payload).bind fun (count, rest) =>
              match FuncType.readMany? count rest with
              | some (types, []) => some ⟨types⟩
              | _ => none
          else none
      else none
  else none

/-! ### Expressions -/

inductive IntWidth
  | w32
  | w64
  deriving DecidableEq

inductive FloatWidth
  | w32
  | w64
  deriving DecidableEq

inductive IntOp
  | add
  | sub
  | mul
  | divSigned
  | remSigned
  | and
  | or
  | xor
  | shl
  | shrSigned
  | shrUnsigned
  deriving DecidableEq

inductive FloatOp
  | add
  | sub
  | mul
  | div
  deriving DecidableEq

/-- An expression; locals are numbers and functions are named by their symbols. -/
inductive Expr
  | block (label : Option String) (result : Option ValType) (body : List Expr)
  | loop (label : Option String) (body : List Expr)
  | br (label : String) (condition : Option Expr)
  | cond (condition : Expr) (consequent alternative : List Expr)
  | ret (value : Option Expr)
  | drop (value : Expr)
  | localGet (index : Nat)
  | localSet (index : Nat) (value : Expr)
  | i32 (value : Int32)
  | i64 (value : Int64)
  | f32 (value : Binary32)
  | f64 (value : Binary64)
  | intBinary (width : IntWidth) (op : IntOp) (left right : Expr)
  | floatBinary (width : FloatWidth) (op : FloatOp) (left right : Expr)
  | call (function : String) (args : List Expr)
  | unreachable

mutual

/-- Whether two expressions are equal, constants as numbers. -/
def Expr.agrees : Expr → Expr → Bool
  | .block label result body, .block label' result' body' =>
    label == label' && result == result' && agreesAll body body'
  | .loop label body, .loop label' body' => label == label' && agreesAll body body'
  | .br label condition, .br label' condition' =>
    label == label' && agreesOption condition condition'
  | .cond condition consequent alternative, .cond condition' consequent' alternative' =>
    condition.agrees condition' && agreesAll consequent consequent' &&
      agreesAll alternative alternative'
  | .ret value, .ret value' => agreesOption value value'
  | .drop value, .drop value' => value.agrees value'
  | .localGet index, .localGet index' => index == index'
  | .localSet index value, .localSet index' value' => index == index' && value.agrees value'
  | .i32 value, .i32 value' => value == value'
  | .i64 value, .i64 value' => value == value'
  | .f32 value, .f32 value' => value.agrees value'
  | .f64 value, .f64 value' => value.agrees value'
  | .intBinary width op left right, .intBinary width' op' left' right' =>
    width == width' && op == op' && left.agrees left' && right.agrees right'
  | .floatBinary width op left right, .floatBinary width' op' left' right' =>
    width == width' && op == op' && left.agrees left' && right.agrees right'
  | .call function args, .call function' args' => function == function' && agreesAll args args'
  | .unreachable, .unreachable => true
  | _, _ => false

def Expr.agreesAll : List Expr → List Expr → Bool
  | [], [] => true
  | a :: as, b :: bs => a.agrees b && agreesAll as bs
  | _, _ => false

def Expr.agreesOption : Option Expr → Option Expr → Bool
  | none, none => true
  | some a, some b => a.agrees b
  | _, _ => false

end

/-! ### Functions -/

structure Local where
  type : ValType
  name : Option String
  deriving DecidableEq

/-- A function. The first locals hold the parameters. -/
structure Function where
  name : String
  params : List ValType
  result : Option ValType
  locals : List Local
  body? : Option Expr
  source? : Option Import

namespace Function

/-- The function of a name that takes, gives and does nothing yet. -/
def named (name : String) : Function := ⟨name, [], none, [], none, none⟩

/-- Add a local at the end; its index is the old number of locals. -/
def addLocal (function : Function) (slot : Local) : Function :=
  { function with locals := function.locals ++ [slot] }

def isImport (function : Function) : Bool := function.source?.isSome

def signature (function : Function) : FuncType :=
  ⟨function.params, function.result.toList⟩

def agrees (a b : Function) : Bool :=
  a.name == b.name && a.params == b.params && a.result == b.result && a.locals == b.locals &&
    Expr.agreesOption a.body? b.body? && a.source? == b.source?

end Function

end MethodLowering.Wasm
