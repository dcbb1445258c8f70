import MethodLowering.Descriptor.Signature
import MethodLowering.Order.StableSort

/-!
Linkage: one identifier of letters, digits and `_` for every method reference, in which each other
character is spelled as an escape that starts with `_` and no escape starts with `_M` or `_D`, which
separate the parts; and imports, which say where the functions come from that a module does not
define itself.
-/

set_option autoImplicit false
set_option relaxedAutoImplicit false

namespace MethodLowering

/-! ### Symbols -/

namespace Symbol

def hexDigit (n : Nat) : Char :=
  if n < 10 then Char.ofNat (48 + n) else Char.ofNat (87 + n)

/-- The hexadecimal digits of a number in front of `rest`, without leading zeros. -/
def hexDigits (n : Nat) (rest : List Char) : List Char :=
  if n < 16 then hexDigit n :: rest
  else hexDigits (n / 16) (hexDigit (n % 16) :: rest)

def escape (c : Char) : List Char :=
  if c.isAlphanum then [c]
  else
    match c with
    | '_' => ['_', 'U']
    | '.' => ['_', 'd']
    | '/' => ['_', 's']
    | '$' => ['_', 'S']
    | '<' => ['_', 'l']
    | '>' => ['_', 'g']
    | '(' => ['_', 'o']
    | ')' => ['_', 'c']
    | ';' => ['_', 'e']
    | '[' => ['_', 'a']
    | c => '_' :: 'x' :: hexDigits c.toNat ['_']

/-- The characters of the symbol of a method: `meth_`, the owner, `_M`, the name, `_D` and the
signature. -/
def chars (method : MethodRef) : List Char :=
  ['m', 'e', 't', 'h', '_'] ++ method.owner.toList.flatMap escape ++
    ['_', 'M'] ++ method.selector.name.toList.flatMap escape ++
    ['_', 'D'] ++ method.selector.signature.chars.flatMap escape

end Symbol

def MethodRef.symbol (method : MethodRef) : String :=
  String.ofList (Symbol.chars method)

/-! ### Imports -/

/-- A function by the module that supplies it and its name there; the module is absent when it is
not known. -/
structure Import where
  module? : Option String
  name : String
  deriving DecidableEq

/-- The import of a function that nothing is known to supply. -/
def Import.unresolved : Import := ⟨none, "<unknown>"⟩

structure ImportTable where
  methods : Table MethodRef Import

namespace ImportTable

def empty : ImportTable := ⟨.empty⟩

/-- Say where a method comes from, replacing what was said before. -/
def register (imports : ImportTable) (method : MethodRef) (moduleName name : String) :
    ImportTable :=
  ⟨imports.methods.insert method ⟨some moduleName, name⟩⟩

def find? (imports : ImportTable) (method : MethodRef) : Option Import :=
  imports.methods.find? method

def size (imports : ImportTable) : Nat := imports.methods.size

end ImportTable

end MethodLowering
