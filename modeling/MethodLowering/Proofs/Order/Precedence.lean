import Mathlib.Data.List.Perm.Basic
import MethodLowering.Descriptor.Signature
import MethodLowering.Order.StableSort

/-!
The stable sort and the orders of descriptors. The sort gives an order of all positions in which no
item stands behind a greater one and equal items stay as they were given, and there is one such
order for every list of items. Field types, signatures, selectors and method references are totally
ordered, and only equal values compare as equal; which of them come before which is said without
their comparisons, and comparing and sorting them follows just these orders.
-/

set_option autoImplicit false
set_option relaxedAutoImplicit false

namespace MethodLowering

open Std

/-! ### Stable sorting -/

namespace StableSort

variable {α : Type} [Ord α] {items : List α} {order other : List Nat} {i j : Nat}

/-- All positions of the items in an order that does not decrease and that keeps equal items as
they were given. -/
structure Stable (items : List α) (order : List Nat) : Prop where
  perm : order.Perm (List.range items.length)
  nondecreasing : order.Pairwise fun i j =>
    ∀ a b, items[i]? = some a → items[j]? = some b → (compare a b).isLE
  stable : order.Pairwise fun i j => items[i]? = items[j]? → i < j

/-- The item at `i` is to stand in front of the item at `j`: it is less, or it is the same and was
given earlier. -/
def Ahead (items : List α) (i j : Nat) : Prop :=
  ∀ a b, items[i]? = some a → items[j]? = some b → compare a b = .lt ∨ a = b ∧ i < j

theorem Ahead.asymm [OrientedOrd α] (hij : Ahead items i j) (hji : Ahead items j i)
    (hi : i < items.length) (hj : j < items.length) : False := by
  have hi := List.getElem?_eq_getElem hi
  have hj := List.getElem?_eq_getElem hj
  obtain hlt | ⟨heq, hlt⟩ := hij _ _ hi hj
  · obtain hgt | ⟨heq, -⟩ := hji _ _ hj hi
    · rw [OrientedCmp.gt_iff_lt.2 hgt] at hlt
      exact absurd hlt nofun
    · rw [heq, ReflOrd.compare_self] at hlt
      exact absurd hlt nofun
  · obtain hgt | ⟨-, hgt⟩ := hji _ _ hj hi
    · rw [heq, ReflOrd.compare_self] at hgt
      exact absurd hgt nofun
    · omega

theorem Stable.pairwise_ahead [LawfulEqOrd α] (h : Stable items order) :
    order.Pairwise (Ahead items) := by
  apply h.nondecreasing.imp₂ _ h.stable
  intro i j hle hstable a b ha hb
  obtain hlt | heq := Ordering.isLE_iff_eq_lt_or_eq_eq.1 (hle a b ha hb)
  · exact .inl hlt
  · obtain rfl : a = b := LawfulEqOrd.eq_of_compare heq
    exact .inr ⟨rfl, hstable (ha.trans hb.symm)⟩

theorem Stable.unique [TransOrd α] [LawfulEqOrd α] (h : Stable items order)
    (hother : Stable items other) : order = other := by
  apply List.Perm.eq_of_pairwise _ h.pairwise_ahead hother.pairwise_ahead
    (h.perm.trans hother.perm.symm)
  intro i j hi hj hij hji
  have hi := List.mem_range.1 (h.perm.mem_iff.1 hi)
  have hj := List.mem_range.1 (hother.perm.mem_iff.1 hj)
  exact (hij.asymm hji hi hj).elim

theorem perm_permutation (items : List α) :
    (permutation items).Perm (List.range items.length) := by
  have hperm := (List.mergeSort_perm items.zipIdx fun a b => (compare a.1 b.1).isLE).map Prod.snd
  rwa [List.zipIdx_map_snd, ← List.range_eq_range'] at hperm

theorem mem_ranked {item : α × Nat} : item ∈ ranked items ↔ items[item.2]? = some item.1 := by
  rw [ranked, List.mem_mergeSort, List.mem_zipIdx_iff_getElem?]

theorem pairwise_ranked [TransOrd α] (items : List α) :
    (ranked items).Pairwise fun a b =>
      (compare a.1 b.1).isLE ∧ ((compare b.1 a.1).isLE → a.2 ≤ b.2) := by
  let le (a b : α × Nat) := (compare a.1 b.1).isLE
  have htrans (a b c : α × Nat) : le a b → le b c → le a c := TransOrd.isLE_trans
  have htotal (a b : α × Nat) : (le a b || le b a) = true := by
    show ((compare a.1 b.1).isLE || (compare b.1 a.1).isLE) = true
    rw [OrientedOrd.eq_swap (a := b.1)]
    cases compare a.1 b.1 <;> rfl
  -- Ranking does not tell positions apart; its stability shows on items numbered once more.
  have hsorted := List.pairwise_mergeSort (List.zipIdxLE_trans htrans)
    (List.zipIdxLE_total htotal) items.zipIdx.zipIdx
  rw [ranked, ← List.mergeSort_zipIdx, List.pairwise_map]
  refine hsorted.imp_of_mem ?_
  have hnumber {x : (α × Nat) × Nat}
      (hx : x ∈ items.zipIdx.zipIdx.mergeSort (List.zipIdxLE le)) : x.1.2 = x.2 := by
    rw [List.mem_mergeSort, List.mem_zipIdx_iff_getElem?, List.getElem?_zipIdx,
      Option.map_eq_some_iff] at hx
    obtain ⟨item, -, heq⟩ := hx
    rw [← heq, Nat.zero_add]
  intro x y hx hy hxy
  rw [hnumber hx, hnumber hy]
  unfold List.zipIdxLE at hxy
  split at hxy
  · rename_i hle
    refine ⟨hle, ?_⟩
    intro hge
    rw [if_pos hge] at hxy
    exact of_decide_eq_true hxy
  · exact absurd hxy nofun

theorem stable_permutation [TransOrd α] (items : List α) :
    Stable items (permutation items) := by
  have hnodup : (permutation items).Nodup :=
    (perm_permutation items).nodup_iff.2 List.nodup_range
  have hranked := (pairwise_ranked items).and (List.pairwise_map.1 hnodup)
  refine ⟨perm_permutation items, ?_, ?_⟩
  · refine List.pairwise_map.2 (hranked.imp_of_mem ?_)
    rintro x y hx hy ⟨⟨hle, -⟩, -⟩ a b ha hb
    obtain rfl : x.1 = a := Option.some.inj ((mem_ranked.1 hx).symm.trans ha)
    obtain rfl : y.1 = b := Option.some.inj ((mem_ranked.1 hy).symm.trans hb)
    exact hle
  · refine List.pairwise_map.2 (hranked.imp_of_mem ?_)
    rintro x y hx hy ⟨⟨hle, hstable⟩, hne⟩ heq
    rw [mem_ranked.1 hx, mem_ranked.1 hy, Option.some.injEq] at heq
    rw [heq] at hle hstable
    exact Nat.lt_of_le_of_ne (hstable hle) hne

theorem stable_iff [TransOrd α] [LawfulEqOrd α] :
    Stable items order ↔ order = permutation items := by
  constructor
  · intro h
    exact h.unique (stable_permutation items)
  · rintro rfl
    exact stable_permutation items

end StableSort

/-! ### Lawful comparison -/

section ByFields

variable {α β γ : Type} [Ord β] [Ord γ] {f : α → β} {g : α → γ}

theorem lawfulEqCmp_compareLex_compareOn [LawfulEqOrd β] [LawfulEqOrd γ]
    (h : ∀ a b, f a = f b → g a = g b → a = b) :
    LawfulEqCmp (compareLex (compareOn f) (compareOn g)) where
  eq_of_compare {a b} heq := by
    obtain ⟨hfirst, hsecond⟩ := compareLex_eq_eq.1 heq
    exact h a b (LawfulEqOrd.eq_of_compare hfirst) (LawfulEqOrd.eq_of_compare hsecond)

end ByFields

theorem isLE_of_split {α κ : Type} [Ord κ] [ReflOrd κ] {keyOf : α → κ} {items before after : List α}
    {item other : α} (hitems : items.Pairwise fun a b => compare (keyOf a) (keyOf b) = .lt)
    (hsplit : items = before ++ item :: after) (hother : other ∈ items) (hbefore : other ∉ before) :
    (compare (keyOf item) (keyOf other)).isLE := by
  subst hsplit
  have hrest := (List.pairwise_append.1 hitems).2.1
  obtain hmem | hmem := List.mem_append.1 hother
  · exact absurd hmem hbefore
  · obtain rfl | hafter := List.mem_cons.1 hmem
    · simp
    · rw [(List.pairwise_cons.1 hrest).1 other hafter]
      rfl

namespace Primitive

theorem rank_injective : Function.Injective rank := by
  intro p q h
  cases p <;> cases q <;> simp_all [rank]

instance : TransOrd Primitive :=
  inferInstanceAs (TransCmp (compareOn rank))

instance : LawfulEqOrd Primitive where
  eq_of_compare h := rank_injective (LawfulEqOrd.eq_of_compare (α := Nat) h)

end Primitive

namespace FieldType

variable {a b c : FieldType}

theorem order_swap (a b : FieldType) : order a b = (order b a).swap := by
  induction a generalizing b with
  | primitive p =>
    cases b with
    | primitive q => exact OrientedOrd.eq_swap
    | _ => rfl
  | object name =>
    cases b with
    | object other => exact OrientedOrd.eq_swap
    | _ => rfl
  | array item ih =>
    cases b with
    | array other => exact ih other
    | _ => rfl

theorem order_isLE_trans (hab : (order a b).isLE) (hbc : (order b c).isLE) :
    (order a c).isLE := by
  induction a generalizing b c with
  | primitive p =>
    cases c with
    | primitive r =>
      cases b with
      | primitive q => exact TransOrd.isLE_trans (α := Primitive) hab hbc
      | _ => exact absurd hbc nofun
    | _ => rfl
  | object name =>
    cases b with
    | primitive q => exact absurd hab nofun
    | object other =>
      cases c with
      | primitive r => exact absurd hbc nofun
      | object last => exact TransOrd.isLE_trans (α := String) hab hbc
      | array last => rfl
    | array other =>
      cases c with
      | array last => rfl
      | _ => exact absurd hbc nofun
  | array item ih =>
    cases b with
    | array other =>
      cases c with
      | array last => exact ih hab hbc
      | _ => exact absurd hbc nofun
    | _ => exact absurd hab nofun

theorem order_self (a : FieldType) : order a a = .eq := by
  induction a with
  | primitive p => exact ReflOrd.compare_self (α := Primitive)
  | object name => exact ReflOrd.compare_self (α := String)
  | array item ih => exact ih

theorem eq_of_order (h : order a b = .eq) : a = b := by
  induction a generalizing b with
  | primitive p =>
    cases b with
    | primitive q => exact congrArg primitive (LawfulEqOrd.eq_of_compare h)
    | _ => exact absurd h nofun
  | object name =>
    cases b with
    | object other => exact congrArg object (LawfulEqOrd.eq_of_compare h)
    | _ => exact absurd h nofun
  | array item ih =>
    cases b with
    | array other => exact congrArg array (ih h)
    | _ => exact absurd h nofun

instance : TransOrd FieldType where
  eq_swap := order_swap _ _
  isLE_trans := order_isLE_trans

instance : LawfulEqOrd FieldType where
  compare_self := order_self _
  eq_of_compare := eq_of_order

end FieldType

instance : TransOrd Signature :=
  inferInstanceAs (TransCmp (compareLex (compareOn Signature.params) (compareOn Signature.result)))

instance : LawfulEqOrd Signature := by
  apply lawfulEqCmp_compareLex_compareOn
  rintro ⟨params, result⟩ ⟨params', result'⟩ rfl rfl
  rfl

instance : TransOrd Selector :=
  inferInstanceAs (TransCmp (compareLex (compareOn Selector.name) (compareOn Selector.signature)))

instance : LawfulEqOrd Selector := by
  apply lawfulEqCmp_compareLex_compareOn
  rintro ⟨name, signature⟩ ⟨name', signature'⟩ rfl rfl
  rfl

instance : TransOrd MethodRef :=
  inferInstanceAs (TransCmp (compareLex (compareOn MethodRef.owner) (compareOn MethodRef.selector)))

instance : LawfulEqOrd MethodRef := by
  apply lawfulEqCmp_compareLex_compareOn
  rintro ⟨owner, selector⟩ ⟨owner', selector'⟩ rfl rfl
  rfl

/-! ### Precedence -/

/-- The first code point in which the texts differ is smaller in the first text, or the first text
is a proper beginning of the second. -/
def TextBefore (s t : String) : Prop :=
  List.Lex (· < ·) (s.toList.map Char.toNat) (t.toList.map Char.toNat)

def Primitive.Before (p q : Primitive) : Prop :=
  [p, q].Sublist [.boolean, .byte, .short, .char, .int, .long, .float, .double]

/-- Primitive types, then objects by name, then arrays by item. -/
inductive FieldType.Before : FieldType → FieldType → Prop
  | primitives {p q : Primitive} (h : p.Before q) : Before (.primitive p) (.primitive q)
  | primitive_object (p : Primitive) (name : String) : Before (.primitive p) (.object name)
  | primitive_array (p : Primitive) (item : FieldType) : Before (.primitive p) (.array item)
  | objects {s t : String} (h : TextBefore s t) : Before (.object s) (.object t)
  | object_array (name : String) (item : FieldType) : Before (.object name) (.array item)
  | arrays {a b : FieldType} (h : a.Before b) : Before (.array a) (.array b)

/-- By the first parameter that differs, a proper beginning of the parameters first; with the same
parameters by result, none first. -/
def Signature.Before (a b : Signature) : Prop :=
  List.Lex FieldType.Before a.params b.params ∨
    a.params = b.params ∧ Option.lt FieldType.Before a.result b.result

/-- By name, then by signature. -/
def Selector.Before (a b : Selector) : Prop :=
  TextBefore a.name b.name ∨ a.name = b.name ∧ a.signature.Before b.signature

def MethodRef.Before (a b : MethodRef) : Prop :=
  TextBefore a.owner b.owner ∨ a.owner = b.owner ∧ a.selector.Before b.selector

/-- Comparison is the total order in which `before` says what comes before what, equal for the same
value only; and sorting gives the one stable order of any items. -/
structure SortsBy {α : Type} [Ord α] (before : α → α → Prop) : Prop where
  lt_iff (a b : α) : compare a b = .lt ↔ before a b
  eq_iff (a b : α) : compare a b = .eq ↔ a = b
  swap (a b : α) : compare b a = (compare a b).swap
  antisymm (a b : α) : (compare a b).isLE → (compare b a).isLE → a = b
  trans (a b c : α) : (compare a b).isLE → (compare b c).isLE → (compare a c).isLE
  stable_iff (items : List α) (order : List Nat) :
    StableSort.Stable items order ↔ order = StableSort.permutation items

section Lawful

variable {α : Type} [Ord α] {before : α → α → Prop}

theorem SortsBy.of_lt_iff [TransOrd α] [LawfulEqOrd α]
    (h : ∀ a b, compare a b = .lt ↔ before a b) : SortsBy before where
  lt_iff := h
  eq_iff _ _ := LawfulEqOrd.compare_eq_iff_eq
  swap _ _ := OrientedOrd.eq_swap
  antisymm _ _ hab hba := LawfulEqOrd.eq_of_compare (OrientedCmp.isLE_antisymm hab hba)
  trans _ _ _ := TransOrd.isLE_trans
  stable_iff _ _ := StableSort.stable_iff

theorem compare_list_eq_lt_iff [LawfulEqOrd α] (h : ∀ a b, compare a b = .lt ↔ before a b)
    (xs ys : List α) : compare xs ys = .lt ↔ List.Lex before xs ys := by
  induction xs generalizing ys with
  | nil =>
    cases ys with
    | nil => exact iff_of_false nofun List.not_lex_nil
    | cons y ys => exact iff_of_true rfl .nil
  | cons x xs ih =>
    cases ys with
    | nil => exact iff_of_false nofun List.not_lex_nil
    | cons y ys =>
      rw [List.compare_cons_cons, Ordering.then_eq_lt, List.cons_lex_cons_iff, h, ih,
        LawfulEqOrd.compare_eq_iff_eq]

theorem compare_option_eq_lt_iff (h : ∀ a b, compare a b = .lt ↔ before a b) (x y : Option α) :
    compare x y = .lt ↔ Option.lt before x y := by
  cases x with
  | none =>
    cases y with
    | none => exact iff_of_false nofun id
    | some b => exact iff_of_true rfl trivial
  | some a =>
    cases y with
    | none => exact iff_of_false nofun id
    | some b => exact h a b

end Lawful

theorem compareLex_compareOn_eq_lt_iff {α β γ : Type} [Ord β] [LawfulEqOrd β] [Ord γ]
    {before : β → β → Prop} {next : γ → γ → Prop} {f : α → β} {g : α → γ}
    (hf : ∀ x y, compare x y = .lt ↔ before x y) (hg : ∀ x y, compare x y = .lt ↔ next x y)
    (a b : α) :
    compareLex (compareOn f) (compareOn g) a b = .lt ↔
      before (f a) (f b) ∨ f a = f b ∧ next (g a) (g b) := by
  show (compare (f a) (f b)).then (compare (g a) (g b)) = .lt ↔ _
  rw [Ordering.then_eq_lt, hf, hg, LawfulEqOrd.compare_eq_iff_eq]

theorem lex_map_toNat_iff (cs ds : List Char) :
    List.Lex (· < ·) (cs.map Char.toNat) (ds.map Char.toNat) ↔ cs < ds := by
  induction cs generalizing ds with
  | nil =>
    cases ds with
    | nil => exact iff_of_false List.not_lex_nil List.not_lex_nil
    | cons d ds => exact iff_of_true .nil .nil
  | cons c cs ih =>
    cases ds with
    | nil => exact iff_of_false List.not_lex_nil List.not_lex_nil
    | cons d ds =>
      rw [List.map_cons, List.map_cons, List.cons_lex_cons_iff, List.cons_lt_cons_iff, ih,
        Char.toNat_inj]
      rfl

theorem compare_text_eq_lt_iff (s t : String) : compare s t = .lt ↔ TextBefore s t := by
  rw [TextBefore, lex_map_toNat_iff]
  exact compareOfLessAndEq_eq_lt

theorem Primitive.compare_eq_lt_iff (p q : Primitive) : compare p q = .lt ↔ p.Before q := by
  unfold Primitive.Before
  cases p <;> cases q <;> decide

theorem FieldType.compare_eq_lt_iff (a b : FieldType) : compare a b = .lt ↔ a.Before b := by
  induction a generalizing b with
  | primitive p =>
    cases b with
    | primitive q =>
      show compare p q = .lt ↔ _
      rw [Primitive.compare_eq_lt_iff]
      exact ⟨.primitives, fun | .primitives h => h⟩
    | object name => exact iff_of_true rfl (.primitive_object p name)
    | array item => exact iff_of_true rfl (.primitive_array p item)
  | object name =>
    cases b with
    | primitive q => exact iff_of_false nofun nofun
    | object other =>
      show compare name other = .lt ↔ _
      rw [compare_text_eq_lt_iff]
      exact ⟨.objects, fun | .objects h => h⟩
    | array item => exact iff_of_true rfl (.object_array name item)
  | array item ih =>
    cases b with
    | array other =>
      show compare item other = .lt ↔ _
      rw [ih]
      exact ⟨.arrays, fun | .arrays h => h⟩
    | _ => exact iff_of_false nofun nofun

theorem Signature.compare_eq_lt_iff (a b : Signature) : compare a b = .lt ↔ a.Before b :=
  compareLex_compareOn_eq_lt_iff (compare_list_eq_lt_iff FieldType.compare_eq_lt_iff)
    (compare_option_eq_lt_iff FieldType.compare_eq_lt_iff) a b

theorem Selector.compare_eq_lt_iff (a b : Selector) : compare a b = .lt ↔ a.Before b :=
  compareLex_compareOn_eq_lt_iff compare_text_eq_lt_iff Signature.compare_eq_lt_iff a b

theorem MethodRef.compare_eq_lt_iff (a b : MethodRef) : compare a b = .lt ↔ a.Before b :=
  compareLex_compareOn_eq_lt_iff compare_text_eq_lt_iff Selector.compare_eq_lt_iff a b

/-- Field types, selectors and method references are totally ordered, each as said above, and lists
of them have one stable order, which sorting finds. -/
theorem descriptors_sortsBy :
    SortsBy FieldType.Before ∧ SortsBy Selector.Before ∧ SortsBy MethodRef.Before :=
  ⟨.of_lt_iff FieldType.compare_eq_lt_iff, .of_lt_iff Selector.compare_eq_lt_iff,
    .of_lt_iff MethodRef.compare_eq_lt_iff⟩

end MethodLowering
