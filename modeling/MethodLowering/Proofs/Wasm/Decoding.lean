import Mathlib.Algebra.Group.Nat.Defs
import Mathlib.Data.List.Flatten
import MethodLowering.Wasm

/-!
Encoded function types read back. The byte of a value type may also occur in a count, but a count
says where it ends and how many types follow it. So a function type is read off the front of any
bytes that start with its own, and a module gives back the types that were added to its section.
-/

set_option autoImplicit false
set_option relaxedAutoImplicit false

namespace MethodLowering.Wasm

namespace Leb128

theorem length_encode_le {n : Nat} (count : Nat) (h : n < 128 ^ (count + 1)) :
    (encode n).length ≤ count + 1 := by
  induction count generalizing n with
  | zero =>
    rw [encode, if_pos (by omega)]
    simp
  | succ count ih =>
    rw [encode]
    split
    · simp
    · have hhigh : n / 128 < 128 ^ (count + 1) := by
        rw [Nat.pow_succ] at h
        omega
      have := ih hhigh
      simp only [List.length_cons]
      omega

theorem decode32?_encode_append {n : Nat} (h : n < 2 ^ 32) (rest : List UInt8) :
    decode32? (encode n ++ rest) = some (n, rest) := by
  have hlength : (encode n).length ≤ 5 := length_encode_le 4 (by omega)
  have hfits : (n < UInt32.size && (encode n ++ rest).length ≤ rest.length + 5) = true := by
    simp only [List.length_append, Bool.and_eq_true, decide_eq_true_eq, UInt32.size]
    omega
  rw [decode32?, decode?_encode_append]
  exact if_pos hfits

end Leb128

variable {a b type : FuncType} {types : List FuncType} {rest rest' : List UInt8}

theorem readTypes?_append (types : List ValType) (rest : List UInt8) :
    readTypes? types.length (types.map ValType.byte ++ rest) = some (types, rest) := by
  induction types with
  | nil => rfl
  | cons type types ih =>
    simp only [List.length_cons, List.map_cons, List.cons_append, readTypes?]
    simp [ih]

theorem readVector?_append {types : List ValType} (h : types.length < 2 ^ 32)
    (rest : List UInt8) : readVector? (vectorBytes types ++ rest) = some (types, rest) := by
  rw [vectorBytes, List.append_assoc, readVector?, Leb128.decode32?_encode_append h]
  exact readTypes?_append types rest

namespace FuncType

/-- The counts of the type fit into 32 bits. -/
structure Encodable (type : FuncType) : Prop where
  params : type.params.length < 2 ^ 32
  results : type.results.length < 2 ^ 32

theorem read?_bytes_append (h : type.Encodable) (rest : List UInt8) :
    read? (type.bytes ++ rest) = some (type, rest) := by
  have hbytes : type.bytes ++ rest =
      form :: (vectorBytes type.params ++ (vectorBytes type.results ++ rest)) := by
    simp [bytes]
  rw [hbytes, read?, if_pos rfl, readVector?_append h.params]
  simp [readVector?_append h.results]

theorem bytes_append_inj (ha : a.Encodable) (hb : b.Encodable)
    (h : a.bytes ++ rest = b.bytes ++ rest') : a = b ∧ rest = rest' := by
  have hread := congrArg read? h
  rw [read?_bytes_append ha, read?_bytes_append hb, Option.some.injEq] at hread
  exact Prod.mk.inj hread

theorem bytes_inj (ha : a.Encodable) (hb : b.Encodable) : a.bytes = b.bytes ↔ a = b := by
  constructor
  · intro h
    exact (bytes_append_inj ha hb (congrArg (· ++ []) h)).1
  · exact congrArg bytes

theorem eq_of_bytes_prefix (ha : a.Encodable) (hb : b.Encodable) (h : a.bytes <+: b.bytes) :
    a = b := by
  obtain ⟨rest, hrest⟩ := h
  have hwhole : a.bytes ++ rest = b.bytes ++ [] := by rw [hrest, List.append_nil]
  exact (bytes_append_inj ha hb hwhole).1

theorem readMany?_append (h : ∀ type ∈ types, type.Encodable) (rest : List UInt8) :
    readMany? types.length (types.flatMap bytes ++ rest) = some (types, rest) := by
  induction types with
  | nil => rfl
  | cons type types ih =>
    rw [List.forall_mem_cons] at h
    rw [List.flatMap_cons, List.append_assoc, List.length_cons, readMany?,
      read?_bytes_append h.1]
    simp [ih h.2]

theorem length_lt_length_bytes (type : FuncType) :
    type.params.length < type.bytes.length ∧ type.results.length < type.bytes.length := by
  simp only [bytes, vectorBytes, List.length_cons, List.length_append, List.length_map]
  omega

end FuncType

namespace TypeSection

variable {types : TypeSection}

theorem addAll_eq (types : TypeSection) (added : List FuncType) :
    types.addAll added = (List.range' types.size added.length, ⟨types.types ++ added⟩) := by
  induction added generalizing types with
  | nil => simp [addAll]
  | cons type added ih =>
    rw [addAll, ih]
    simp [add, size, List.range'_succ]

theorem length_bytes_le (h : type ∈ types.types) : type.bytes.length ≤ types.payload.length := by
  have hsub : type.bytes.Sublist (types.types.flatMap FuncType.bytes) :=
    List.sublist_flatten_of_mem (List.mem_map_of_mem h)
  have := hsub.length_le
  rw [payload, List.length_append]
  omega

theorem size_le (types : TypeSection) : types.size ≤ types.payload.length := by
  have hitems : ∀ items : List FuncType, items.length ≤ (items.flatMap FuncType.bytes).length := by
    intro items
    induction items with
    | nil => simp
    | cons item items ih =>
      simp only [List.flatMap_cons, List.length_cons, List.length_append]
      have := item.length_lt_length_bytes
      omega
  have := hitems types.types
  rw [payload, List.length_append, size]
  omega

theorem ofModuleBytes?_moduleBytes (h : types.payload.length < 2 ^ 32) :
    ofModuleBytes? types.moduleBytes = some types := by
  have hencodable : ∀ type ∈ types.types, type.Encodable := by
    intro type hmem
    have hbytes := length_bytes_le hmem
    have hparts := type.length_lt_length_bytes
    constructor <;> omega
  have hsize : types.size < 2 ^ 32 := Nat.lt_of_le_of_lt types.size_le h
  have hmany : FuncType.readMany? types.size (types.types.flatMap FuncType.bytes) =
      some (types.types, []) := by
    have hread := FuncType.readMany?_append hencodable []
    rwa [List.append_nil] at hread
  have hpayload : Leb128.decode32? types.payload =
      some (types.size, types.types.flatMap FuncType.bytes) :=
    Leb128.decode32?_encode_append hsize _
  rw [moduleBytes, ofModuleBytes?, List.take_left, if_pos rfl, List.drop_left]
  simp only [if_true, Leb128.decode32?_encode_append h, Option.bind_some, hpayload, hmany]

end TypeSection

/-- A function type whose counts fit into 32 bits is read back from its bytes, whatever follows
them; so no two of these types have the same bytes, and the bytes of none start with those of
another. Types added to a new section are numbered in order, and the module that holds the section
gives back all of them. -/
theorem FuncType.bytes_decodable :
    (∀ type : FuncType, type.Encodable → ∀ further,
      read? (type.bytes ++ further) = some (type, further)) ∧
    (∀ a b : FuncType, a.Encodable → b.Encodable →
      (a.bytes = b.bytes ↔ a = b) ∧ (a.bytes <+: b.bytes → a = b)) ∧
    ∀ types : List FuncType,
      (TypeSection.empty.addAll types).1 = List.range types.length ∧
      ((TypeSection.empty.addAll types).2.payload.length < 2 ^ 32 →
        TypeSection.ofModuleBytes? (TypeSection.empty.addAll types).2.moduleBytes =
          some ⟨types⟩) := by
  refine ⟨fun type h => read?_bytes_append h, ?_, ?_⟩
  · intro a b ha hb
    exact ⟨bytes_inj ha hb, eq_of_bytes_prefix ha hb⟩
  · intro types
    rw [TypeSection.addAll_eq]
    exact ⟨List.range_eq_range'.symm, TypeSection.ofModuleBytes?_moduleBytes⟩

def FuncType.wide : FuncType := ⟨List.replicate 200 .ref, [.i64, .f32]⟩

theorem FuncType.bytes_decodable_wide :
    FuncType.wide.Encodable ∧ FuncType.Encodable ⟨[], []⟩ ∧
      read? (FuncType.wide.bytes ++ [0x60, 0x7f]) = some (FuncType.wide, [0x60, 0x7f]) ∧
      (FuncType.wide.bytes = FuncType.bytes ⟨[], []⟩ ↔ FuncType.wide = ⟨[], []⟩) ∧
      (TypeSection.empty.addAll [.wide, ⟨[], []⟩, .wide]).2.payload.length < 2 ^ 32 ∧
      TypeSection.ofModuleBytes? (TypeSection.empty.addAll [.wide, ⟨[], []⟩, .wide]).2.moduleBytes =
        some ⟨[.wide, ⟨[], []⟩, .wide]⟩ := by
  have hwide : FuncType.wide.Encodable := by
    constructor <;> decide +kernel
  have hempty : FuncType.Encodable ⟨[], []⟩ := by
    constructor <;> simp
  have hpayload :
      (TypeSection.empty.addAll [.wide, ⟨[], []⟩, .wide]).2.payload.length < 2 ^ 32 := by
    decide +kernel
  obtain ⟨hread, hinj, hmodule⟩ := FuncType.bytes_decodable
  exact ⟨hwide, hempty, hread _ hwide _, (hinj _ _ hwide hempty).1, hpayload,
    (hmodule _).2 hpayload⟩

end MethodLowering.Wasm
