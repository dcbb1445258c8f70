import MethodLowering.Backend
import MethodLowering.Check

/-!
Compilation of methods to functions. A body is normalized (its entry check put in, needless checks
dropped, the others expanded), decompiled and emitted; a method supplied from outside becomes an
import.
-/

set_option autoImplicit false
set_option relaxedAutoImplicit false

namespace MethodLowering

/-- The steps of normalization that are taken. -/
structure Options where
  inject : Bool
  eliminate : Bool
  expand : Bool
  deriving DecidableEq

def Options.default : Options := ⟨true, true, true⟩

/-- What compilation looks at. Which classes have an initializer is asked apart from the pool. -/
structure Compiler where
  pool : Pool
  hasInitializer : String → Bool
  imports : ImportTable
  options : Options
  backend : Backend

namespace Compiler

def lookup (c : Compiler) (ref : MethodRef) : Except Failure Method :=
  match c.pool.find? ref.owner with
  | none => .error (.classNotFound ref.owner)
  | some cls =>
    match cls.method? ref.selector with
    | none => .error (.methodNotFound ref)
    | some method => .ok method

def injectStep (c : Compiler) (method : Method) (body : Body) : Traced Body := do
  Traced.remark (EntryCheck.notes c.hasInitializer method body)
  return EntryCheck.inject c.hasInitializer method body

def eliminateStep (c : Compiler) (body : Body) : Traced Body := do
  let plan ← .orFail .danglingTarget (Elimination.plan? c.hasInitializer body)
  Traced.remark plan.notes
  return plan.apply body

def expandStep (body : Body) : Traced Body := do
  Traced.remark (Expansion.notes body)
  return body.expand

/-- The body of a method after the steps of normalization that the options name. -/
def normalize (c : Compiler) (method : Method) (body : Body) : Traced Body := do
  let body ← if c.options.inject then c.injectStep method body else pure body
  let body ← if c.options.eliminate then c.eliminateStep body else pure body
  if c.options.expand then expandStep body else pure body

/-- The locals for variables: those from `first` on, where one without type holds an integer. -/
def localsFor (first : Nat) (vars : List VarInfo) : List Wasm.Local :=
  (vars.drop first).map fun info => ⟨(info.type.map Wasm.ValType.ofFieldType).getD .i32, info.name⟩

/-- The function for a method before its body is emitted. -/
def declare (ref : MethodRef) (first : Nat) (vars : List VarInfo) : Wasm.Function :=
  let locals := localsFor first vars
  { name := ref.symbol
    params := (locals.take ref.params.length).map Wasm.Local.type
    result := ref.result.map Wasm.ValType.ofFieldType
    locals := locals
    body? := none
    source? := none }

def compile (c : Compiler) (ref : MethodRef) : Traced Wasm.Function := do
  let method ← .ofExcept (c.lookup ref)
  let body ← .orFail (.missingBody ref) method.body?
  Traced.remark [.compiling ref]
  let body ← c.normalize method body
  let decompiled ← c.backend.decompile method body
  let function := declare ref method.firstVariable decompiled.vars
  let tree ← c.backend.emit decompiled.tree function ref method.firstVariable
  let function := { function with body? := some tree }
  Traced.remark [.compiled ref function.name function.params.length function.locals.length]
  return function

/-- The function of a method supplied from outside. -/
def compileNative (c : Compiler) (ref : MethodRef) : Traced Wasm.Function := do
  let source ←
    match c.imports.find? ref with
    | some source => pure source
    | none => do
      Traced.remark [.unresolvedImport ref]
      pure Import.unresolved
  return { Wasm.Function.named ref.symbol with
    params := ref.params.map Wasm.ValType.ofFieldType
    source? := some source }

/-- The functions of some methods in order; abstract methods have none. -/
def compileMethods (c : Compiler) : List Method → Traced (List Wasm.Function)
  | [] => pure []
  | method :: rest => do
    if method.flags.isAbstract then c.compileMethods rest
    else
      let function ←
        if method.flags.isNative then c.compileNative method.ref else c.compile method.ref
      let functions ← c.compileMethods rest
      return function :: functions

def compileClass (c : Compiler) (name : String) : Traced (List Wasm.Function) := do
  let cls ← .orFail (.classNotFound name) (c.pool.find? name)
  c.compileMethods cls.methods.values

def compileClasses (c : Compiler) : List String → Traced (List Wasm.Function)
  | [] => pure []
  | name :: rest => do
    let functions ← c.compileClass name
    let others ← c.compileClasses rest
    return functions ++ others

end Compiler

end MethodLowering
