import Mathlib.Data.List.TakeWhile
import MethodLowering.Descriptor.Reader
import MethodLowering.Descriptor.Signature

/-!
Rendering and reading. Nothing separates the types in a descriptor from each other, yet as long as
no object name holds a `;` each type ends where it can be seen to end, and a text stands for one
signature at most. A reader takes off the front of a text what renders to it, and no grammatical
text is misread by taking too much. So a text is accepted exactly if the grammar describes it, and
the value read is the only well-formed one with this text; a rendered value is read back exactly if
it is well formed.
-/

set_option autoImplicit false
set_option relaxedAutoImplicit false

namespace MethodLowering

/-! ### Rendering -/

section Cut

variable {α : Type} [DecidableEq α] {c : α} {front back text rest rest' : List α}

theorem cut_eq_iff : text.takeWhile (· != c) = front ∧ text.dropWhile (· != c) = c :: rest ↔
    c ∉ front ∧ text = front ++ c :: rest := by
  constructor
  · rintro ⟨rfl, hdrop⟩
    constructor
    · intro hmem
      have hne : (c != c) = true := List.mem_takeWhile_imp (p := (· != c)) hmem
      simp at hne
    · rw [← hdrop, List.takeWhile_append_dropWhile]
  · rintro ⟨hfront, rfl⟩
    have hall : ∀ x ∈ front, (x != c) = true := by
      intro x hx
      rw [bne_iff_ne]
      exact fun hsame => hfront (hsame ▸ hx)
    constructor
    · rw [List.takeWhile_append_of_pos hall]
      simp
    · rw [List.dropWhile_append_of_pos hall]
      simp

theorem cut_inj (hfront : c ∉ front) (hback : c ∉ back)
    (h : front ++ c :: rest = back ++ c :: rest') : front = back ∧ rest = rest' := by
  obtain ⟨htake, hdrop⟩ := cut_eq_iff.2 ⟨hfront, rfl⟩
  obtain ⟨htake', hdrop'⟩ := cut_eq_iff.2 ⟨hback, h⟩
  rw [htake] at htake'
  rw [hdrop, List.cons.injEq] at hdrop'
  exact ⟨htake', hdrop'.2⟩

end Cut

theorem Primitive.letter_injective : Function.Injective Primitive.letter := by
  intro p q h
  have hread := congrArg Primitive.ofLetter? h
  rwa [Primitive.ofLetter?_letter, Primitive.ofLetter?_letter, Option.some.injEq] at hread

theorem Primitive.letter_ne (p : Primitive) :
    p.letter ≠ 'L' ∧ p.letter ≠ '[' ∧ p.letter ≠ ')' ∧ p.letter ≠ 'V' := by
  cases p <;> decide

namespace FieldType

/-- No object name holds a `;`. -/
def Delimited : FieldType → Prop
  | primitive _ => True
  | object name => ';' ∉ name.toList
  | array item => item.Delimited

theorem chars_append_ne (type : FieldType) {c : Char} (hc : c = ')' ∨ c = 'V')
    (rest rest' : List Char) : type.chars ++ rest ≠ c :: rest' := by
  intro h
  cases type with
  | primitive kind =>
    have hletter : kind.letter = c := (List.cons.inj h).1
    obtain ⟨-, -, hclose, hvoid⟩ := kind.letter_ne
    rw [hletter] at hclose hvoid
    exact hc.elim hclose hvoid
  | object name =>
    have hfirst : 'L' = c := (List.cons.inj h).1
    subst hfirst
    exact absurd hc (by decide)
  | array item =>
    have hfirst : '[' = c := (List.cons.inj h).1
    subst hfirst
    exact absurd hc (by decide)

theorem chars_append_inj {a b : FieldType} (ha : a.Delimited) (hb : b.Delimited)
    {rest rest' : List Char} (h : a.chars ++ rest = b.chars ++ rest') : a = b ∧ rest = rest' := by
  induction a generalizing b with
  | primitive p =>
    cases b with
    | primitive q =>
      obtain ⟨hletter, htail⟩ := List.cons.inj h
      exact ⟨congrArg primitive (Primitive.letter_injective hletter), htail⟩
    | object name =>
      have hletter : p.letter = 'L' := (List.cons.inj h).1
      exact absurd hletter p.letter_ne.1
    | array item =>
      have hletter : p.letter = '[' := (List.cons.inj h).1
      exact absurd hletter p.letter_ne.2.1
  | object name =>
    cases b with
    | primitive q =>
      have hletter : 'L' = q.letter := (List.cons.inj h).1
      exact absurd hletter.symm q.letter_ne.1
    | object other =>
      have htail : name.toList ++ ';' :: rest = other.toList ++ ';' :: rest' := by
        simpa [chars] using h
      obtain ⟨hname, hrest⟩ := cut_inj ha hb htail
      exact ⟨congrArg object (String.toList_inj.1 hname), hrest⟩
    | array item => exact absurd (List.cons.inj h).1 (by decide)
  | array item ih =>
    cases b with
    | primitive q =>
      have hletter : '[' = q.letter := (List.cons.inj h).1
      exact absurd hletter.symm q.letter_ne.2.1
    | object name => exact absurd (List.cons.inj h).1 (by decide)
    | array other =>
      have htail : item.chars ++ rest = other.chars ++ rest' := (List.cons.inj h).2
      obtain ⟨hitem, hrest⟩ := ih ha (b := other) hb htail
      exact ⟨congrArg array hitem, hrest⟩

end FieldType

namespace Signature

def Delimited (signature : Signature) : Prop :=
  (∀ type ∈ signature.params, type.Delimited) ∧ ∀ type ∈ signature.result, type.Delimited

theorem params_append_inj {types types' : List FieldType} {rest rest' : List Char}
    (htypes : ∀ type ∈ types, type.Delimited) (htypes' : ∀ type ∈ types', type.Delimited)
    (h : types.flatMap FieldType.chars ++ ')' :: rest =
      types'.flatMap FieldType.chars ++ ')' :: rest') : types = types' ∧ rest = rest' := by
  induction types generalizing types' with
  | nil =>
    cases types' with
    | nil => exact ⟨rfl, (List.cons.inj h).2⟩
    | cons type' more' =>
      rw [List.flatMap_cons, List.append_assoc] at h
      exact absurd h.symm (type'.chars_append_ne (.inl rfl) _ _)
  | cons type more ih =>
    rw [List.flatMap_cons, List.append_assoc] at h
    cases types' with
    | nil => exact absurd h (type.chars_append_ne (.inl rfl) _ _)
    | cons type' more' =>
      rw [List.flatMap_cons, List.append_assoc] at h
      rw [List.forall_mem_cons] at htypes htypes'
      obtain ⟨rfl, hmore⟩ := FieldType.chars_append_inj htypes.1 htypes'.1 h
      obtain ⟨rfl, hrest⟩ := ih htypes.2 htypes'.2 hmore
      exact ⟨rfl, hrest⟩

theorem resultChars_inj {result result' : Option FieldType}
    (hresult : ∀ type ∈ result, type.Delimited) (hresult' : ∀ type ∈ result', type.Delimited)
    (h : resultChars result = resultChars result') : result = result' := by
  cases result with
  | none =>
    cases result' with
    | none => rfl
    | some type' =>
      have hvoid : type'.chars ++ [] = ['V'] := (List.append_nil _).trans h.symm
      exact absurd hvoid (type'.chars_append_ne (.inr rfl) _ _)
  | some type =>
    cases result' with
    | none =>
      have hvoid : type.chars ++ [] = ['V'] := (List.append_nil _).trans h
      exact absurd hvoid (type.chars_append_ne (.inr rfl) _ _)
    | some type' =>
      have hsame : type.chars ++ [] = type'.chars ++ [] := congrArg (· ++ []) h
      obtain ⟨rfl, -⟩ := FieldType.chars_append_inj (hresult _ rfl) (hresult' _ rfl) hsame
      rfl

theorem chars_inj {a b : Signature} (ha : a.Delimited) (hb : b.Delimited)
    (h : a.chars = b.chars) : a = b := by
  obtain ⟨params, result⟩ := a
  obtain ⟨params', result'⟩ := b
  obtain ⟨rfl, hresults⟩ := params_append_inj ha.1 hb.1 (List.cons.inj h).2
  obtain rfl := resultChars_inj ha.2 hb.2 hresults
  rfl

end Signature

/-! ### Reading -/

/-- The reader accepts the texts that are described, each as the value it describes, which is the
only well-formed one that renders to the text; it refuses any other text, naming the whole of it. -/
structure ReadsExactly {α : Type} (read : String → Except Failure α)
    (described : List Char → α → Prop) (wellFormed : α → Prop) (render : α → String) : Prop where
  accepts : ∀ text value, read text = .ok value ↔ described text.toList value
  inverts : ∀ text value, read text = .ok value ↔ wellFormed value ∧ render value = text
  refuses : ∀ text failure, read text = .error failure ↔
    failure = .invalidDescriptor text ∧ ∀ value, ¬ described text.toList value

namespace FieldType

variable {text rest : List Char} {type : FieldType} {types : List FieldType}

theorem readName?_eq_some_iff {name : String} : readName? text = some (name, rest) ↔
    name ≠ "" ∧ ';' ∉ name.toList ∧ text = name.toList ++ ';' :: rest := by
  unfold readName?
  constructor
  · intro h
    split at h
    · rename_i c taken following htake hdrop
      obtain ⟨hnot, htext⟩ := cut_eq_iff.1 ⟨htake, hdrop⟩
      simp only [Option.some.injEq, Prod.mk.injEq] at h
      obtain ⟨rfl, rfl⟩ := h
      rw [String.toList_ofList]
      refine ⟨?_, hnot, htext⟩
      intro hempty
      exact absurd (String.ofList_eq_empty_iff.1 hempty) nofun
    · exact absurd h nofun
  · rintro ⟨hne, hnot, htext⟩
    obtain ⟨htake, hdrop⟩ := cut_eq_iff.2 ⟨hnot, htext⟩
    rw [htake, hdrop]
    cases hname : name.toList with
    | nil => exact absurd (String.toList_eq_nil_iff.1 hname) hne
    | cons c more =>
      simp only [Option.some.injEq, Prod.mk.injEq, and_true]
      rw [← hname, String.ofList_toList]

theorem of_read? (h : read? text = some (type, rest)) :
    type.WellFormed ∧ text = type.chars ++ rest := by
  fun_induction read? text generalizing type with
  | case1 => cases h
  | case2 tail ih =>
    obtain ⟨⟨item, after⟩, hitem, heq⟩ := Option.map_eq_some_iff.1 h
    obtain ⟨rfl, rfl⟩ := Prod.mk.inj heq
    obtain ⟨hwell, htail⟩ := ih hitem
    exact ⟨hwell, congrArg ('[' :: ·) htail⟩
  | case3 tail =>
    obtain ⟨⟨name, after⟩, hname, heq⟩ := Option.map_eq_some_iff.1 h
    obtain ⟨rfl, rfl⟩ := Prod.mk.inj heq
    obtain ⟨hne, hnot, htail⟩ := readName?_eq_some_iff.1 hname
    refine ⟨⟨hne, hnot⟩, ?_⟩
    rw [htail]
    simp [chars]
  | case4 c tail =>
    obtain ⟨kind, hkind, heq⟩ := Option.map_eq_some_iff.1 h
    obtain ⟨rfl, rfl⟩ := Prod.mk.inj heq
    rw [Primitive.eq_letter_of_ofLetter? hkind]
    exact ⟨trivial, rfl⟩

theorem read?_chars_append (hwell : type.WellFormed) (rest : List Char) :
    read? (type.chars ++ rest) = some (type, rest) := by
  induction type with
  | primitive kind => cases kind <;> rfl
  | object name =>
    have hname : readName? (name.toList ++ ';' :: rest) = some (name, rest) :=
      readName?_eq_some_iff.2 ⟨hwell.1, hwell.2, rfl⟩
    have htext : (object name).chars ++ rest = 'L' :: (name.toList ++ ';' :: rest) := by
      simp [chars]
    rw [htext, read?, hname]
    rfl
  | array item ih =>
    have hitem : read? (item.chars ++ rest) = some (item, rest) := ih hwell
    have htext : (array item).chars ++ rest = '[' :: (item.chars ++ rest) := rfl
    rw [htext, read?, hitem]
    rfl

theorem described_iff : Described text type ↔ type.WellFormed ∧ type.chars = text := by
  constructor
  · intro h
    induction h with
    | primitive kind => exact ⟨trivial, rfl⟩
    | @object name hne hnot =>
      refine ⟨⟨?_, ?_⟩, ?_⟩
      · intro hempty
        exact hne (String.ofList_eq_empty_iff.1 hempty)
      · rwa [String.toList_ofList]
      · rw [chars, String.toList_ofList]
    | array _ ih => exact ⟨ih.1, congrArg ('[' :: ·) ih.2⟩
  · rintro ⟨hwell, rfl⟩
    induction type with
    | primitive kind => exact .primitive kind
    | object name =>
      have hne : name.toList ≠ [] := fun hnil => hwell.1 (String.toList_eq_nil_iff.1 hnil)
      have hdescribed := Described.object hne hwell.2
      rwa [String.ofList_toList] at hdescribed
    | array item ih => exact .array (ih hwell)

theorem readMany_of_none (h : read? rest = none) : readMany rest = ([], rest) := by
  rw [readMany]
  split
  · rfl
  · rename_i found
    rw [h] at found
    cases found

theorem readMany_of_some {after : List Char} (h : read? text = some (type, after)) :
    readMany text = (type :: (readMany after).1, (readMany after).2) := by
  rw [readMany]
  split
  · rename_i found
    rw [h] at found
    cases found
  · rename_i found
    rw [h, Option.some.injEq, Prod.mk.injEq] at found
    obtain ⟨rfl, rfl⟩ := found
    rfl

theorem readMany_eq_iff : readMany text = (types, rest) ↔ (∀ type ∈ types, type.WellFormed) ∧
    text = types.flatMap chars ++ rest ∧ read? rest = none := by
  constructor
  · intro h
    fun_induction readMany text generalizing types with
    | case1 text hnone =>
      obtain ⟨rfl, rfl⟩ := Prod.mk.inj h
      exact ⟨fun _ hmem => absurd hmem List.not_mem_nil, rfl, hnone⟩
    | case2 text type after hsome _ more last hmany ih =>
      obtain ⟨rfl, rfl⟩ := Prod.mk.inj h
      obtain ⟨hwell, htext⟩ := of_read? hsome
      obtain ⟨hmore, hafter, hstop⟩ := ih hmany
      refine ⟨List.forall_mem_cons.2 ⟨hwell, hmore⟩, ?_, hstop⟩
      rw [htext, hafter, List.flatMap_cons, List.append_assoc]
  · rintro ⟨hwell, rfl, hstop⟩
    induction types with
    | nil => exact readMany_of_none hstop
    | cons type more ih =>
      rw [List.forall_mem_cons] at hwell
      rw [List.flatMap_cons, List.append_assoc, readMany_of_some (read?_chars_append hwell.1 _),
        ih hwell.2]

theorem ofChars?_eq_some_iff :
    ofChars? text = some type ↔ type.WellFormed ∧ type.chars = text := by
  unfold ofChars?
  constructor
  · intro h
    split at h
    · rename_i found hread
      obtain rfl := Option.some.inj h
      obtain ⟨hwell, htext⟩ := of_read? hread
      rw [List.append_nil] at htext
      exact ⟨hwell, htext.symm⟩
    · exact absurd h nofun
  · rintro ⟨hwell, rfl⟩
    have hread := read?_chars_append hwell []
    rw [List.append_nil] at hread
    rw [hread]

end FieldType

namespace Signature

open FieldType

variable {text : List Char} {types : List FieldType} {result : Option FieldType}
  {signature : Signature}

theorem resultOfChars?_eq_some_iff : resultOfChars? text = some result ↔
    (∀ type ∈ result, type.WellFormed) ∧ resultChars result = text := by
  have hvoid : ∀ type : FieldType, type.chars ≠ ['V'] := by
    intro type h
    exact type.chars_append_ne (.inr rfl) [] [] ((List.append_nil _).trans h)
  unfold resultOfChars?
  split
  · cases result with
    | none => simp [resultChars]
    | some type => simp [resultChars, hvoid]
  · rename_i hother
    cases result with
    | none => simpa [resultChars] using Ne.symm hother
    | some type => simp [resultChars, FieldType.ofChars?_eq_some_iff]

theorem ofChars?_eq_some_iff :
    ofChars? text = some signature ↔ signature.WellFormed ∧ signature.chars = text := by
  obtain ⟨types, result⟩ := signature
  constructor
  · intro h
    unfold ofChars? at h
    split at h
    · split at h
      · rename_i params rest hmany
        obtain ⟨found, hresult, heq⟩ := Option.map_eq_some_iff.1 h
        obtain ⟨rfl, rfl⟩ := Signature.mk.inj heq
        obtain ⟨hparams, htext, -⟩ := readMany_eq_iff.1 hmany
        obtain ⟨hwell, hrest⟩ := resultOfChars?_eq_some_iff.1 hresult
        refine ⟨⟨hparams, hwell⟩, ?_⟩
        rw [htext, chars, hrest]
      · exact absurd h nofun
    · exact absurd h nofun
  · rintro ⟨⟨hparams, hwell⟩, rfl⟩
    -- no type starts with the `)` at which the parameters end
    have hmany : readMany (types.flatMap FieldType.chars ++ ')' :: resultChars result) =
        (types, ')' :: resultChars result) := readMany_eq_iff.2 ⟨hparams, rfl, rfl⟩
    have hresult : resultOfChars? (resultChars result) = some result :=
      resultOfChars?_eq_some_iff.2 ⟨hwell, rfl⟩
    rw [chars, ofChars?, hmany]
    exact congrArg (Option.map _) hresult

theorem describedParams_iff : DescribedParams text types ↔
    (∀ type ∈ types, type.WellFormed) ∧ types.flatMap FieldType.chars = text := by
  constructor
  · intro h
    induction h with
    | nil => exact ⟨fun _ hmem => absurd hmem List.not_mem_nil, rfl⟩
    | cons hfirst _ ih =>
      obtain ⟨hwell, rfl⟩ := FieldType.described_iff.1 hfirst
      obtain ⟨hmore, rfl⟩ := ih
      exact ⟨List.forall_mem_cons.2 ⟨hwell, hmore⟩, List.flatMap_cons⟩
  · rintro ⟨hwell, rfl⟩
    induction types with
    | nil => exact .nil
    | cons type more ih =>
      rw [List.forall_mem_cons] at hwell
      rw [List.flatMap_cons]
      exact .cons (FieldType.described_iff.2 ⟨hwell.1, rfl⟩) (ih hwell.2)

theorem describedResult_iff : DescribedResult text result ↔
    (∀ type ∈ result, type.WellFormed) ∧ resultChars result = text := by
  constructor
  · intro h
    cases h with
    | none => exact ⟨fun _ hmem => absurd hmem nofun, rfl⟩
    | some hdescribed =>
      obtain ⟨hwell, htext⟩ := FieldType.described_iff.1 hdescribed
      refine ⟨fun type hmem => ?_, htext⟩
      rwa [← Option.mem_some_iff.1 hmem]
  · rintro ⟨hwell, rfl⟩
    cases result with
    | none => exact .none
    | some type => exact .some (FieldType.described_iff.2 ⟨hwell type rfl, rfl⟩)

end Signature

namespace Selector

variable {text : List Char} {selector : Selector}

theorem ofChars?_eq_some_iff :
    ofChars? text = some selector ↔ selector.WellFormed ∧ selector.chars = text := by
  obtain ⟨name, signature⟩ := selector
  unfold ofChars?
  constructor
  · intro h
    split at h
    · exact absurd h nofun
    · rename_i c more htake
      obtain ⟨found, hsignature, heq⟩ := Option.map_eq_some_iff.1 h
      obtain ⟨rfl, rfl⟩ := Selector.mk.inj heq
      obtain ⟨hwell, hdrop⟩ := Signature.ofChars?_eq_some_iff.1 hsignature
      obtain ⟨hnot, htext⟩ := cut_eq_iff.1 ⟨htake, hdrop.symm⟩
      refine ⟨⟨?_, ?_, hwell⟩, ?_⟩
      · intro hempty
        exact absurd (String.ofList_eq_empty_iff.1 hempty) nofun
      · rwa [String.toList_ofList]
      · rw [chars, String.toList_ofList, htext]
        rfl
  · rintro ⟨⟨hne, hnot, hwell⟩, rfl⟩
    obtain ⟨htake, hdrop⟩ := cut_eq_iff.2 ⟨hnot, rfl⟩
    have hsignature : Signature.ofChars? signature.chars = some signature :=
      Signature.ofChars?_eq_some_iff.2 ⟨hwell, rfl⟩
    have htext : chars ⟨name, signature⟩ = name.toList ++ signature.chars := rfl
    rw [htext, Signature.chars, htake, hdrop, ← Signature.chars, hsignature]
    cases hname : name.toList with
    | nil => exact absurd (String.toList_eq_nil_iff.1 hname) hne
    | cons c more =>
      dsimp only
      rw [Option.map_some, ← hname, String.ofList_toList]

theorem described_iff :
    Described text selector ↔ selector.WellFormed ∧ selector.chars = text := by
  constructor
  · intro h
    obtain ⟨hne, hnot, hparams, hresult⟩ := h
    obtain ⟨hwell, rfl⟩ := Signature.describedParams_iff.1 hparams
    obtain ⟨hwell', rfl⟩ := Signature.describedResult_iff.1 hresult
    refine ⟨⟨?_, ?_, hwell, hwell'⟩, ?_⟩
    · intro hempty
      exact hne (String.ofList_eq_empty_iff.1 hempty)
    · rwa [String.toList_ofList]
    · rw [chars, String.toList_ofList]
      rfl
  · rintro ⟨⟨hne, hnot, hwell, hwell'⟩, rfl⟩
    obtain ⟨name, types, result⟩ := selector
    have hname : name.toList ≠ [] := fun hnil => hne (String.toList_eq_nil_iff.1 hnil)
    have hdescribed := Described.intro hname hnot (Signature.describedParams_iff.2 ⟨hwell, rfl⟩)
      (Signature.describedResult_iff.2 ⟨hwell', rfl⟩)
    rwa [String.ofList_toList] at hdescribed

end Selector

section ReadsExactly

variable {α : Type} {read : String → Except Failure α} {ofChars? : List Char → Option α}
  {described : List Char → α → Prop} {wellFormed : α → Prop} {chars : α → List Char}

theorem readsExactly_of_ofChars?
    (hread : ∀ text, read text =
      (ofChars? text.toList).elim (.error (.invalidDescriptor text)) .ok)
    (hvalue : ∀ text value, ofChars? text = some value ↔ wellFormed value ∧ chars value = text)
    (hdescribed : ∀ text value, described text value ↔ wellFormed value ∧ chars value = text) :
    ReadsExactly read described wellFormed fun value => String.ofList (chars value) := by
  have hok : ∀ text value, read text = .ok value ↔ described text.toList value := by
    intro text value
    rw [hread, hdescribed, ← hvalue]
    cases ofChars? text.toList with
    | none => simp
    | some found => simp
  refine ⟨hok, ?_, ?_⟩
  · intro text value
    have htext : String.ofList (chars value) = text ↔ chars value = text.toList := by
      rw [← String.toList_inj, String.toList_ofList]
    rw [hok, hdescribed, htext]
  · intro text failure
    have hnone : (∀ value, ¬ described text.toList value) ↔ ofChars? text.toList = none := by
      simp only [hdescribed, ← hvalue]
      exact Option.eq_none_iff_forall_ne_some.symm
    rw [hnone, hread]
    cases ofChars? text.toList with
    | none => simp [eq_comm]
    | some found => simp

theorem ReadsExactly.read_render_iff {render : α → String}
    (h : ReadsExactly read described wellFormed render) (value : α) :
    read (render value) = .ok value ↔ wellFormed value := by
  rw [h.inverts]
  exact and_iff_left rfl

end ReadsExactly

theorem FieldType.readsExactly :
    ReadsExactly FieldType.parse FieldType.Described FieldType.WellFormed FieldType.text := by
  refine readsExactly_of_ofChars? (fun text => ?_) (fun _ _ => FieldType.ofChars?_eq_some_iff)
    fun _ _ => FieldType.described_iff
  unfold FieldType.parse
  split <;> simp [*]

theorem Selector.readsExactly :
    ReadsExactly Selector.parse Selector.Described Selector.WellFormed Selector.text := by
  refine readsExactly_of_ofChars? (fun text => ?_) (fun _ _ => Selector.ofChars?_eq_some_iff)
    fun _ _ => Selector.described_iff
  unfold Selector.parse
  split <;> simp [*]

/-- Field types and selectors are read exactly. A method name ends at the first `(`, an object name
at the first `;`. -/
theorem parse_exact :
    ReadsExactly FieldType.parse FieldType.Described FieldType.WellFormed FieldType.text ∧
      ReadsExactly Selector.parse Selector.Described Selector.WellFormed Selector.text :=
  ⟨FieldType.readsExactly, Selector.readsExactly⟩

example : Selector.parse "a)b;(L(;[I)V" =
    .ok ⟨"a)b;", ⟨[.object "(", .array (.primitive .int)], none⟩⟩ := by cbv

/-- Exactly the well-formed field types and selectors are read back from their texts. -/
theorem parse_text_iff :
    (∀ type : FieldType, FieldType.parse type.text = .ok type ↔ type.WellFormed) ∧
      ∀ selector : Selector, Selector.parse selector.text = .ok selector ↔ selector.WellFormed :=
  ⟨FieldType.readsExactly.read_render_iff, Selector.readsExactly.read_render_iff⟩

/-- A bad name can make the text that of another selector. -/
example : Selector.parse (Selector.text ⟨"f", ⟨[.object "A;LB"], none⟩⟩) =
    .ok ⟨"f", ⟨[.object "A", .object "B"], none⟩⟩ := by cbv

end MethodLowering
