import MethodLowering.Descriptor.Signature
import MethodLowering.Trace

/-!
Descriptors of field types and selectors: the grammar, as relations between texts and values, and
readers, which take a descriptor off the front of a text and return what follows. A whole text is a
descriptor when nothing follows.
-/

set_option autoImplicit false
set_option relaxedAutoImplicit false

namespace MethodLowering

/-! ### Grammar -/

namespace FieldType

/-- The texts that describe a field type. -/
inductive Described : List Char → FieldType → Prop
  | primitive (kind : Primitive) : Described [kind.letter] (primitive kind)
  | object {name : List Char} : name ≠ [] → ';' ∉ name →
      Described ('L' :: (name ++ [';'])) (object (String.ofList name))
  | array {text : List Char} {item : FieldType} : Described text item →
      Described ('[' :: text) (array item)

/-- Object names are not empty and hold no `;`. -/
def WellFormed : FieldType → Prop
  | primitive _ => True
  | object name => name ≠ "" ∧ ';' ∉ name.toList
  | array item => item.WellFormed

end FieldType

namespace Signature

inductive DescribedParams : List Char → List FieldType → Prop
  | nil : DescribedParams [] []
  | cons {text rest : List Char} {type : FieldType} {types : List FieldType} :
      FieldType.Described text type → DescribedParams rest types →
      DescribedParams (text ++ rest) (type :: types)

inductive DescribedResult : List Char → Option FieldType → Prop
  | none : DescribedResult ['V'] none
  | some {text : List Char} {type : FieldType} : FieldType.Described text type →
      DescribedResult text (some type)

def WellFormed (signature : Signature) : Prop :=
  (∀ type ∈ signature.params, type.WellFormed) ∧ ∀ type ∈ signature.result, type.WellFormed

end Signature

namespace Selector

inductive Described : List Char → Selector → Prop
  | intro {name params result : List Char} {types : List FieldType} {type : Option FieldType} :
      name ≠ [] → '(' ∉ name → Signature.DescribedParams params types →
      Signature.DescribedResult result type →
      Described (name ++ '(' :: (params ++ ')' :: result)) ⟨String.ofList name, ⟨types, type⟩⟩

/-- The name is not empty and holds no `(`, and the signature is well formed. -/
def WellFormed (selector : Selector) : Prop :=
  selector.name ≠ "" ∧ '(' ∉ selector.name.toList ∧ selector.signature.WellFormed

end Selector

/-! ### Readers -/

namespace FieldType

/-- Read the name of an object type, which is not empty and ends at the first `;`. -/
def readName? (text : List Char) : Option (String × List Char) :=
  match text.takeWhile (· != ';'), text.dropWhile (· != ';') with
  | c :: name, ';' :: rest => some (String.ofList (c :: name), rest)
  | _, _ => none

def read? : List Char → Option (FieldType × List Char)
  | [] => none
  | '[' :: rest => (read? rest).map fun (item, rest) => (array item, rest)
  | 'L' :: rest => (readName? rest).map fun (name, rest) => (object name, rest)
  | c :: rest => (Primitive.ofLetter? c).map fun kind => (primitive kind, rest)

theorem length_lt_of_readName? {text : List Char} {name : String} {rest : List Char}
    (h : readName? text = some (name, rest)) : rest.length < text.length := by
  unfold readName? at h
  split at h
  · rename_i c taken following htake hdrop
    have hlen := congrArg List.length
      (List.takeWhile_append_dropWhile (p := (· != ';')) (l := text))
    simp only [htake, hdrop, List.length_append, List.length_cons] at hlen
    simp only [Option.some.injEq, Prod.mk.injEq] at h
    rw [← h.2]
    omega
  · simp at h

theorem length_lt_of_read? {text : List Char} {type : FieldType} {rest : List Char}
    (h : read? text = some (type, rest)) : rest.length < text.length := by
  fun_induction read? text generalizing type with
  | case1 => simp at h
  | case2 tail ih =>
    obtain ⟨⟨item, after⟩, hitem, heq⟩ := Option.map_eq_some_iff.1 h
    obtain ⟨-, rfl⟩ := Prod.mk.inj heq
    have := ih hitem
    simp only [List.length_cons]
    omega
  | case3 tail =>
    obtain ⟨⟨name, after⟩, hname, heq⟩ := Option.map_eq_some_iff.1 h
    obtain ⟨-, rfl⟩ := Prod.mk.inj heq
    have := length_lt_of_readName? hname
    simp only [List.length_cons]
    omega
  | case4 c tail =>
    obtain ⟨kind, -, heq⟩ := Option.map_eq_some_iff.1 h
    obtain ⟨-, rfl⟩ := Prod.mk.inj heq
    simp

/-- Read field types as long as there are any. -/
def readMany (text : List Char) : List FieldType × List Char :=
  match h : read? text with
  | none => ([], text)
  | some (type, rest) =>
    have := length_lt_of_read? h
    let (types, rest) := readMany rest
    (type :: types, rest)
termination_by text.length

/-- The field type a whole text describes. -/
def ofChars? (text : List Char) : Option FieldType :=
  match read? text with
  | some (type, []) => some type
  | _ => none

/-- The field type a whole text describes, or the text as an invalid descriptor. -/
def parse (text : String) : Except Failure FieldType :=
  match ofChars? text.toList with
  | some type => .ok type
  | none => .error (.invalidDescriptor text)

end FieldType

namespace Signature

/-- The result type a whole text describes; `V` stands for none. -/
def resultOfChars? : List Char → Option (Option FieldType)
  | ['V'] => some none
  | text => (FieldType.ofChars? text).map some

/-- The signature a whole text `(params)result` describes. -/
def ofChars? : List Char → Option Signature
  | '(' :: text =>
    match FieldType.readMany text with
    | (params, ')' :: rest) => (resultOfChars? rest).map fun result => ⟨params, result⟩
    | _ => none
  | _ => none

end Signature

namespace Selector

/-- The selector a whole text `name(params)result` describes; the name is not empty and ends at
the first `(`. -/
def ofChars? (text : List Char) : Option Selector :=
  match text.takeWhile (· != '(') with
  | [] => none
  | c :: name =>
    (Signature.ofChars? (text.dropWhile (· != '('))).map fun signature =>
      ⟨String.ofList (c :: name), signature⟩

/-- The selector a whole text describes, or the text as an invalid descriptor. -/
def parse (text : String) : Except Failure Selector :=
  match ofChars? text.toList with
  | some selector => .ok selector
  | none => .error (.invalidDescriptor text)

end Selector

/-- The reference to the method of `owner` that a whole text describes. -/
def MethodRef.parse (owner text : String) : Except Failure MethodRef :=
  (Selector.parse text).map fun selector => ⟨owner, selector⟩

end MethodLowering
