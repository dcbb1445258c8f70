/-!
Field types, signatures, selectors and method references: eight primitive kinds, named object types
and arrays over them; the parameter and result types of a method, the same with its name, and the
same with the class that owns it. Each has a descriptor text and an order.
-/

set_option autoImplicit false
set_option relaxedAutoImplicit false

namespace MethodLowering

/-! ### Field types -/

/-- The primitive field types, listed in increasing order. -/
inductive Primitive
  | boolean
  | byte
  | short
  | char
  | int
  | long
  | float
  | double
  deriving DecidableEq

namespace Primitive

def letter : Primitive → Char
  | boolean => 'Z'
  | byte => 'B'
  | short => 'S'
  | char => 'C'
  | int => 'I'
  | long => 'J'
  | float => 'F'
  | double => 'D'

/-- The primitive type a letter stands for, if any. -/
def ofLetter? : Char → Option Primitive
  | 'Z' => some boolean
  | 'B' => some byte
  | 'S' => some short
  | 'C' => some char
  | 'I' => some int
  | 'J' => some long
  | 'F' => some float
  | 'D' => some double
  | _ => none

def rank : Primitive → Nat
  | boolean => 0
  | byte => 1
  | short => 2
  | char => 3
  | int => 4
  | long => 5
  | float => 6
  | double => 7

instance : Ord Primitive := ⟨compareOn rank⟩

@[simp]
theorem ofLetter?_letter (p : Primitive) : ofLetter? p.letter = some p := by
  cases p <;> rfl

theorem eq_letter_of_ofLetter? {c : Char} {p : Primitive} (h : ofLetter? c = some p) :
    c = p.letter := by
  unfold ofLetter? at h
  split at h <;> simp_all <;> subst h <;> rfl

end Primitive

inductive FieldType
  | primitive (kind : Primitive)
  | object (name : String)
  | array (item : FieldType)
  deriving DecidableEq

namespace FieldType

/-- The characters of the descriptor: a letter, a name between `L` and `;`, or `[` and the item. -/
def chars : FieldType → List Char
  | primitive kind => [kind.letter]
  | object name => 'L' :: (name.toList ++ [';'])
  | array item => '[' :: item.chars

def text (type : FieldType) : String :=
  String.ofList type.chars

/-- The type of arrays with `dims` dimensions over `element`. -/
def nested : Nat → FieldType → FieldType
  | 0, element => element
  | dims + 1, element => array (nested dims element)

def dims : FieldType → Nat
  | array item => item.dims + 1
  | _ => 0

def element : FieldType → FieldType
  | array item => item.element
  | type => type

/-- Primitive types come before object types and these before array types; objects are compared
by name, arrays by item. -/
def order : FieldType → FieldType → Ordering
  | primitive p, primitive q => compare p q
  | primitive _, _ => .lt
  | object _, primitive _ => .gt
  | object a, object b => compare a b
  | object _, array _ => .lt
  | array a, array b => order a b
  | array _, _ => .gt

instance : Ord FieldType := ⟨order⟩

end FieldType

/-! ### Methods -/

/-- Parameter types and result type of a method; a method without a result has none. -/
structure Signature where
  params : List FieldType
  result : Option FieldType
  deriving DecidableEq

namespace Signature

/-- Parameter lists are compared first, a shorter one before its extensions; then results, an
absent one before all others. -/
instance : Ord Signature := ⟨compareLex (compareOn params) (compareOn result)⟩

/-- The characters of a result type: `V` when there is none. -/
def resultChars : Option FieldType → List Char
  | none => ['V']
  | some type => type.chars

def chars (signature : Signature) : List Char :=
  '(' :: (signature.params.flatMap FieldType.chars ++ ')' :: resultChars signature.result)

def text (signature : Signature) : String :=
  String.ofList signature.chars

end Signature

/-- What identifies a method within its class: its name and its signature. -/
structure Selector where
  name : String
  signature : Signature
  deriving DecidableEq

namespace Selector

/-- Selectors are compared by name, then by signature. -/
instance : Ord Selector := ⟨compareLex (compareOn name) (compareOn signature)⟩

def chars (selector : Selector) : List Char :=
  selector.name.toList ++ selector.signature.chars

def text (selector : Selector) : String :=
  String.ofList selector.chars

def classInitializerName : String := "<clinit>"

def constructorName : String := "<init>"

/-- The selector of a class initializer, which takes nothing and gives nothing. -/
def classInitializer : Selector :=
  ⟨classInitializerName, ⟨[], none⟩⟩

/-- Whether the name, whatever the signature, is that of a class initializer. -/
def isClassInitializer (selector : Selector) : Bool :=
  selector.name == classInitializerName

def isConstructor (selector : Selector) : Bool :=
  selector.name == constructorName

end Selector

/-- The full identity of a method: the class that owns it and its selector there. -/
structure MethodRef where
  owner : String
  selector : Selector
  deriving DecidableEq

namespace MethodRef

/-- References are compared by owner, then by selector. -/
instance : Ord MethodRef := ⟨compareLex (compareOn owner) (compareOn selector)⟩

def params (ref : MethodRef) : List FieldType :=
  ref.selector.signature.params

def result (ref : MethodRef) : Option FieldType :=
  ref.selector.signature.result

def text (ref : MethodRef) : String :=
  ref.owner ++ "." ++ ref.selector.text

def classInitializer (owner : String) : MethodRef :=
  ⟨owner, Selector.classInitializer⟩

end MethodRef

end MethodLowering
