import MethodLowering.Descriptor.Signature
import MethodLowering.Flow.Body
import MethodLowering.Logged

/-!
Traces: the causes for which a request has no result, what is remarked while methods are lowered and
the wording of both, and computations that record all that happens in them.
-/

set_option autoImplicit false
set_option relaxedAutoImplicit false

namespace MethodLowering

/-! ### Failures -/

/-- Why a request has no result. -/
inductive Failure
  /-- No class of this name is known. -/
  | classNotFound (name : String)
  /-- The class is known but holds no such method. -/
  | methodNotFound (method : MethodRef)
  /-- The method is known but has no body to compile. -/
  | missingBody (method : MethodRef)
  /-- The text is not a descriptor of the kind asked for. -/
  | invalidDescriptor (text : String)
  /-- A block number names no block of the body. -/
  | danglingTarget
  deriving DecidableEq

def Failure.message : Failure → String
  | classNotFound name => "class not found: " ++ name
  | methodNotFound method => "method not found: " ++ method.text
  | missingBody method => "method has no program to compile: " ++ method.text
  | invalidDescriptor text => "invalid descriptor: " ++ text
  | danglingTarget => "block number out of range"

/-! ### Notes -/

inductive NoteLevel
  | detail
  | progress
  | warning
  deriving DecidableEq

/-- A remark on one step of the lowering of a method. -/
inductive Note
  /-- A check was dropped because its class has no initializer. -/
  | uselessCheck (block : Nat) (name : String)
  /-- A check was dropped because its class was checked before. -/
  | redundantCheck (block : Nat) (name : String)
  /-- A block was split at a check. -/
  | expandedCheck (block : Nat) (name : String)
  /-- A check of its own class was put in front of a method. -/
  | injectedCheck (method : MethodRef)
  /-- A method with a body was found. -/
  | compiling (method : MethodRef)
  /-- A method was compiled to a function with so many parameters and locals. -/
  | compiled (method : MethodRef) (symbol : String) (params locals : Nat)
  /-- No import is known for a method supplied from outside. -/
  | unresolvedImport (method : MethodRef)
  deriving DecidableEq

namespace Note

def level : Note → NoteLevel
  | uselessCheck .. | redundantCheck .. | expandedCheck .. | injectedCheck .. => .detail
  | compiling .. | compiled .. => .progress
  | unresolvedImport .. => .warning

private def onBlock (block : Nat) (remark : String) : String :=
  "B" ++ toString block ++ ": " ++ remark

def text : Note → String
  | uselessCheck block name => onBlock block ("dropping init of " ++ name ++ " (no initializer)")
  | redundantCheck block name => onBlock block ("dropping redundant init of " ++ name)
  | expandedCheck block name => onBlock block ("lowering init of " ++ name)
  | injectedCheck method => method.text ++ ": injecting init of " ++ method.owner
  | compiling method => "compiling " ++ method.text
  | compiled method symbol params locals =>
    "compiled " ++ method.text ++ " as " ++ symbol ++ " (" ++ toString params ++ " params, " ++
      toString locals ++ " locals)"
  | unresolvedImport method => "no import registered for native method " ++ method.text

end Note

/-! ### Events -/

/-- What the emission of a body was given. -/
structure EmissionCall where
  method : MethodRef
  firstVariable : Nat
  params : Nat
  locals : Nat
  deriving DecidableEq

/-- Something that happened while a method was compiled. -/
inductive Event
  /-- A remark was made. -/
  | noted (note : Note)
  /-- A body was handed over to be listed. -/
  | listed (body : Body)
  /-- A listing was handed over to be emitted. -/
  | emitted (call : EmissionCall)

namespace Event

def note? : Event → Option Note
  | noted note => some note
  | _ => none

def listedBody? : Event → Option Body
  | listed body => some body
  | _ => none

def emission? : Event → Option EmissionCall
  | emitted call => some call
  | _ => none

end Event

abbrev Traced := Logged Event Failure

namespace Traced

def remark (notes : List Note) : Traced Unit := ⟨notes.map .noted, .ok ()⟩

@[simp]
theorem result_remark (notes : List Note) : (remark notes).result = .ok () := rfl

end Traced

end MethodLowering
