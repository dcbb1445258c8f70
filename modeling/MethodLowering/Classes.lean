import MethodLowering.Flow.Body
import MethodLowering.Order.StableSort

/-!
Methods with their access flags, classes as tables of methods in the order of the selectors, and
pools of classes in the order of their names.
-/

set_option autoImplicit false
set_option relaxedAutoImplicit false

namespace MethodLowering

/-! ### Access flags -/

/-- A set of access flags; bits without a name are kept. -/
structure AccessFlags where
  bits : UInt16
  deriving DecidableEq

namespace AccessFlags

/-- The flag of methods that belong to their class and not to an instance. -/
def static : AccessFlags := ⟨0x0008⟩

/-- The flag of methods supplied from outside. -/
def native : AccessFlags := ⟨0x0100⟩

/-- The flag of methods declared without an implementation. -/
def abstract : AccessFlags := ⟨0x0400⟩

/-- The named flags in the order of their bits. -/
def named : List (String × AccessFlags) :=
  [("PUBLIC", ⟨0x0001⟩), ("PRIVATE", ⟨0x0002⟩), ("PROTECTED", ⟨0x0004⟩), ("STATIC", static),
    ("FINAL", ⟨0x0010⟩), ("SYNCHRONIZED", ⟨0x0020⟩), ("BRIDGE", ⟨0x0040⟩), ("VARARGS", ⟨0x0080⟩),
    ("NATIVE", native), ("ABSTRACT", abstract), ("STRICT", ⟨0x0800⟩), ("SYNTHETIC", ⟨0x1000⟩)]

/-- The flags in `a`, in `b` or in both. -/
def union (a b : AccessFlags) : AccessFlags := ⟨a.bits ||| b.bits⟩

def intersection (a b : AccessFlags) : AccessFlags := ⟨a.bits &&& b.bits⟩

def difference (a b : AccessFlags) : AccessFlags := ⟨a.bits &&& ~~~b.bits⟩

/-- The flags in exactly one of `a` and `b`. -/
def symmetricDifference (a b : AccessFlags) : AccessFlags := ⟨a.bits ^^^ b.bits⟩

def empty : AccessFlags := ⟨0⟩

def all : AccessFlags := named.foldl (fun flags flag => flags.union flag.2) empty

/-- The named flags in a set. -/
def truncate (flags : AccessFlags) : AccessFlags := flags.intersection all

/-- The named flags that are not in a set. -/
def complement (flags : AccessFlags) : AccessFlags := all.difference flags

def contains (a b : AccessFlags) : Bool := a.intersection b == b

def intersects (a b : AccessFlags) : Bool := a.intersection b != empty

def isEmpty (flags : AccessFlags) : Bool := flags == empty

def isAll (flags : AccessFlags) : Bool := flags.contains all

/-- The set with the given bits, if each of them has a name. -/
def ofBits? (bits : UInt16) : Option AccessFlags :=
  if all.contains ⟨bits⟩ then some ⟨bits⟩ else none

def names (flags : AccessFlags) : List String :=
  (named.filter fun flag => flags.contains flag.2).map Prod.fst

def isStatic (flags : AccessFlags) : Bool := flags.contains static

def isNative (flags : AccessFlags) : Bool := flags.contains native

def isAbstract (flags : AccessFlags) : Bool := flags.contains abstract

end AccessFlags

/-! ### Methods -/

/-- A method with its identity, its flags and, unless it is supplied from outside or left open,
its body. -/
structure Method where
  ref : MethodRef
  flags : AccessFlags
  body? : Option Body

namespace Method

/-- The number of the variable that holds the first parameter: variable 0 of an instance method is
the instance. -/
def firstVariable (method : Method) : Nat :=
  if method.flags.isStatic then 0 else 1

/-- Whether entering the method must first make sure that its class is initialized: a class
initializer never, a constructor always, and any other method if it is static. -/
def needsEntryCheck (method : Method) : Bool :=
  if method.ref.selector.isClassInitializer then false
  else if method.ref.selector.isConstructor then true
  else method.flags.isStatic

end Method

/-! ### Classes -/

structure Class where
  name : String
  methods : Table Selector Method

namespace Class

def empty (name : String) : Class := ⟨name, .empty⟩

/-- Store a method under a selector, replacing what was stored there. -/
def place (cls : Class) (key : Selector) (method : Method) : Class :=
  { cls with methods := cls.methods.insert key method }

/-- Add a method of the class itself, replacing one with the same selector. -/
def declare (cls : Class) (selector : Selector) (flags : AccessFlags) (body? : Option Body) :
    Class :=
  cls.place selector ⟨⟨cls.name, selector⟩, flags, body?⟩

/-- The class of a name with the given methods, later ones replacing earlier ones with the same
selector. -/
def ofList (name : String) (members : List (Selector × AccessFlags × Option Body)) : Class :=
  members.foldl (fun cls (selector, flags, body?) => cls.declare selector flags body?) (empty name)

def method? (cls : Class) (selector : Selector) : Option Method :=
  cls.methods.find? selector

/-- The first method with a name, in the order of the selectors. -/
def firstNamed? (cls : Class) (name : String) : Option Method :=
  cls.methods.values.find? fun method => method.ref.selector.name == name

def hasInitializer (cls : Class) : Bool :=
  (cls.method? Selector.classInitializer).isSome

end Class

/-! ### Pools -/

structure Pool where
  classes : Table String Class

namespace Pool

def empty : Pool := ⟨.empty⟩

/-- Add a class under its name, replacing one of the same name. -/
def add (pool : Pool) (cls : Class) : Pool := ⟨pool.classes.insert cls.name cls⟩

/-- The pool of the given classes, later ones replacing earlier ones of the same name. -/
def ofList (classes : List Class) : Pool := classes.foldl add empty

def find? (pool : Pool) (name : String) : Option Class := pool.classes.find? name

def names (pool : Pool) : List String := pool.classes.keys

def size (pool : Pool) : Nat := pool.classes.size

def hasInitializer (pool : Pool) (name : String) : Bool :=
  (pool.find? name).any Class.hasInitializer

end Pool

end MethodLowering
