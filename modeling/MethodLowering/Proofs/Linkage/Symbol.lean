import MethodLowering.Linkage
import MethodLowering.Proofs.Descriptor.Reading

/-!
Symbols read back. The spelling of a character can be told apart from whatever follows it, and no
spelling starts like a separator, so the three parts of a symbol can be read from it: two methods
have one symbol only if they agree in owner, name and text of the signature.
-/

set_option autoImplicit false
set_option relaxedAutoImplicit false

namespace MethodLowering

namespace Symbol

def digitValue (c : Char) : Nat :=
  if c.toNat < 58 then c.toNat - 48 else c.toNat - 87

def readDigits (digits : List Char) : Nat :=
  digits.foldl (fun sum c => sum * 16 + digitValue c) 0

/-- The character that is spelled `_` and this one. -/
def marked? : Char → Option Char
  | 'U' => some '_'
  | 'd' => some '.'
  | 's' => some '/'
  | 'S' => some '$'
  | 'l' => some '<'
  | 'g' => some '>'
  | 'o' => some '('
  | 'c' => some ')'
  | 'e' => some ';'
  | 'a' => some '['
  | _ => none

/-- Read the character that the text spells first. -/
def read? : List Char → Option (Char × List Char)
  | [] => none
  | '_' :: 'x' :: rest => some (Char.ofNat (readDigits (rest.takeWhile (· != '_'))),
      (rest.dropWhile (· != '_')).tail)
  | '_' :: mark :: rest => (marked? mark).map fun c => (c, rest)
  | c :: rest => if c = '_' then none else some (c, rest)

variable {c d : Char} {n : Nat} {text text' rest rest' : List Char}

/-! ### Hexadecimal digits -/

theorem digitValue_hexDigit (h : n < 16) : digitValue (hexDigit n) = n := by
  have hall : ∀ k < 16, digitValue (hexDigit k) = k := by decide
  exact hall n h

theorem isAlphanum_hexDigit (h : n < 16) : (hexDigit n).isAlphanum = true := by
  have hall : ∀ k < 16, (hexDigit k).isAlphanum = true := by decide
  exact hall n h

theorem hexDigits_append (n : Nat) (front rest : List Char) :
    hexDigits n (front ++ rest) = hexDigits n front ++ rest := by
  fun_induction hexDigits n front with
  | case1 n front hlt => rw [hexDigits, if_pos hlt, List.cons_append]
  | case2 n front hge ih => rw [hexDigits, if_neg hge, ← List.cons_append, ih]

theorem hexDigits_eq_append (n : Nat) (rest : List Char) :
    hexDigits n rest = hexDigits n [] ++ rest :=
  hexDigits_append n [] rest

theorem hexDigits_nil_of_ge (h : ¬ n < 16) :
    hexDigits n [] = hexDigits (n / 16) [] ++ [hexDigit (n % 16)] := by
  rw [hexDigits, if_neg h, hexDigits_eq_append]

theorem isAlphanum_of_mem_hexDigits (h : c ∈ hexDigits n []) : c.isAlphanum = true := by
  induction n using Nat.strongRecOn with
  | ind n ih =>
    by_cases hlt : n < 16
    · rw [hexDigits, if_pos hlt, List.mem_singleton] at h
      exact h ▸ isAlphanum_hexDigit hlt
    · have hsmaller : n / 16 < n := by omega
      rw [hexDigits_nil_of_ge hlt, List.mem_append, List.mem_singleton] at h
      obtain hhigh | rfl := h
      · exact ih _ hsmaller hhigh
      · exact isAlphanum_hexDigit (Nat.mod_lt n (by decide))

theorem readDigits_hexDigits (n : Nat) : readDigits (hexDigits n []) = n := by
  induction n using Nat.strongRecOn with
  | ind n ih =>
    by_cases hlt : n < 16
    · rw [hexDigits, if_pos hlt]
      simp [readDigits, digitValue_hexDigit hlt]
    · have hsmaller : n / 16 < n := by omega
      have hhigh : readDigits (hexDigits (n / 16) []) = n / 16 := ih _ hsmaller
      have hlow : digitValue (hexDigit (n % 16)) = n % 16 :=
        digitValue_hexDigit (Nat.mod_lt n (by decide))
      rw [hexDigits_nil_of_ge hlt, readDigits, List.foldl_append, ← readDigits, hhigh,
        List.foldl_cons, List.foldl_nil, hlow]
      omega

/-! ### Spelled characters -/

theorem read?_hexadecimal (c : Char) (rest : List Char) :
    read? ('_' :: 'x' :: hexDigits c.toNat ['_'] ++ rest) = some (c, rest) := by
  have hdigits : '_' ∉ hexDigits c.toNat [] := by
    intro hmem
    exact absurd (isAlphanum_of_mem_hexDigits hmem) (by decide)
  obtain ⟨htake, hdrop⟩ := cut_eq_iff.2 ⟨hdigits, rfl⟩
  have htext : '_' :: 'x' :: hexDigits c.toNat ['_'] ++ rest =
      '_' :: 'x' :: (hexDigits c.toNat [] ++ '_' :: rest) := by
    simp [hexDigits_eq_append c.toNat ['_']]
  rw [htext, read?, htake, hdrop, readDigits_hexDigits, Char.ofNat_toNat, List.tail_cons]

theorem read?_escape_append (c : Char) (rest : List Char) :
    read? (escape c ++ rest) = some (c, rest) := by
  unfold escape
  split
  · rename_i hplain
    have hne : c ≠ '_' := by
      rintro rfl
      exact absurd hplain (by decide)
    simp [read?, hne]
  · split
    -- ten characters have a mark of their own, all others are spelled by their number
    iterate 10 next => rfl
    exact read?_hexadecimal c rest

theorem escape_append_inj (h : escape c ++ rest = escape d ++ rest') : c = d ∧ rest = rest' := by
  have hread := congrArg read? h
  rw [read?_escape_append, read?_escape_append, Option.some.injEq] at hread
  exact Prod.mk.inj hread

/-- What spelled texts are followed by, if it starts with no spelled character, is no part of
them. -/
theorem flatMap_escape_append_inj (hrest : read? rest = none) (hrest' : read? rest' = none)
    (h : text.flatMap escape ++ rest = text'.flatMap escape ++ rest') :
    text = text' ∧ rest = rest' := by
  induction text generalizing text' with
  | nil =>
    cases text' with
    | nil => exact ⟨rfl, h⟩
    | cons d more' =>
      have hread : read? rest = some (d, more'.flatMap escape ++ rest') := by
        rw [← read?_escape_append d, ← List.append_assoc, ← List.flatMap_cons, ← h]
        rfl
      rw [hrest] at hread
      exact absurd hread nofun
  | cons c more ih =>
    cases text' with
    | nil =>
      have hread : read? rest' = some (c, more.flatMap escape ++ rest) := by
        rw [← read?_escape_append c, ← List.append_assoc, ← List.flatMap_cons, h]
        rfl
      rw [hrest'] at hread
      exact absurd hread nofun
    | cons d more' =>
      rw [List.flatMap_cons, List.append_assoc, List.flatMap_cons, List.append_assoc] at h
      obtain ⟨rfl, htail⟩ := escape_append_inj h
      obtain ⟨rfl, hsame⟩ := ih htail
      exact ⟨rfl, hsame⟩

theorem chars_inj {a b : MethodRef} (h : chars a = chars b) :
    a.owner = b.owner ∧ a.selector.name = b.selector.name ∧
      a.selector.signature.chars = b.selector.signature.chars := by
  have hparts : ∀ method : MethodRef, chars method = ['m', 'e', 't', 'h', '_'] ++
      (method.owner.toList.flatMap escape ++ ('_' :: 'M' ::
        (method.selector.name.toList.flatMap escape ++ ('_' :: 'D' ::
          (method.selector.signature.chars.flatMap escape ++ []))))) := by
    intro method
    simp [chars]
  rw [hparts, hparts] at h
  have howner := List.append_cancel_left h
  -- neither `_M` nor `_D` nor the end of the symbol is where a spelled character could start
  obtain ⟨howners, hafter⟩ := flatMap_escape_append_inj rfl rfl howner
  have hname := (List.cons.inj (List.cons.inj hafter).2).2
  obtain ⟨hnames, hafter'⟩ := flatMap_escape_append_inj rfl rfl hname
  have hsignature := (List.cons.inj (List.cons.inj hafter').2).2
  obtain ⟨hsignatures, -⟩ := flatMap_escape_append_inj rfl rfl hsignature
  exact ⟨String.toList_inj.1 howners, String.toList_inj.1 hnames, hsignatures⟩

theorem of_mem_escape (h : d ∈ escape c) : d.isAlphanum = true ∨ d = '_' := by
  unfold escape at h
  split at h
  · rename_i hplain
    rw [List.mem_singleton] at h
    exact .inl (h ▸ hplain)
  · have hmarks : ∀ mark : Char, mark.isAlphanum = true → d ∈ ['_', mark] →
        d.isAlphanum = true ∨ d = '_' := by
      intro mark hmark hmem
      simp only [List.mem_cons, List.not_mem_nil, or_false] at hmem
      obtain rfl | rfl := hmem
      · exact .inr rfl
      · exact .inl hmark
    split at h
    iterate 10 next => exact hmarks _ rfl h
    rw [hexDigits_eq_append] at h
    simp only [List.mem_cons, List.mem_append, List.not_mem_nil, or_false] at h
    obtain rfl | rfl | hdigit | rfl := h
    · exact .inr rfl
    · exact .inl rfl
    · exact .inl (isAlphanum_of_mem_hexDigits hdigit)
    · exact .inr rfl

theorem of_mem_chars (method : MethodRef) :
    ∀ c ∈ chars method, c.isAlphanum = true ∨ c = '_' := by
  have hfixed : ∀ text : List Char, text.all (fun c => c.isAlphanum || c == '_') = true →
      ∀ c ∈ text, c.isAlphanum = true ∨ c = '_' := by
    intro text hall c hmem
    simpa using List.all_eq_true.1 hall c hmem
  have hpart : ∀ text : List Char, ∀ c ∈ text.flatMap escape, c.isAlphanum = true ∨ c = '_' := by
    intro text c hmem
    obtain ⟨d, -, hd⟩ := List.mem_flatMap.1 hmem
    exact of_mem_escape hd
  unfold chars
  simp only [List.forall_mem_append]
  exact ⟨⟨⟨⟨⟨hfixed _ rfl, hpart _⟩, hfixed _ rfl⟩, hpart _⟩, hfixed _ rfl⟩, hpart _⟩

end Symbol

namespace MethodRef

theorem symbol_eq_iff (a b : MethodRef) : a.symbol = b.symbol ↔ a.owner = b.owner ∧
    a.selector.name = b.selector.name ∧
    a.selector.signature.text = b.selector.signature.text := by
  constructor
  · intro h
    obtain ⟨howner, hname, hsignature⟩ := Symbol.chars_inj (String.ofList_injective h)
    exact ⟨howner, hname, congrArg String.ofList hsignature⟩
  · rintro ⟨howner, hname, hsignature⟩
    have hchars := String.ofList_injective hsignature
    rw [symbol, symbol, Symbol.chars, Symbol.chars, howner, hname, hchars]

theorem symbol_inj {a b : MethodRef} (ha : a.selector.signature.Delimited)
    (hb : b.selector.signature.Delimited) (h : a.symbol = b.symbol) : a = b := by
  obtain ⟨howner, hname, hsignature⟩ := (symbol_eq_iff a b).1 h
  have hsignatures := Signature.chars_inj ha hb (String.ofList_injective hsignature)
  obtain ⟨owner, name, signature⟩ := a
  obtain ⟨owner', name', signature'⟩ := b
  cases howner
  cases hname
  cases hsignatures
  rfl

/-- Two methods have one symbol exactly if they have the same owner, the same name and the same text
of the signature, and so only if they are the same, unless an object name holds a `;`. A symbol is
made of letters, digits and `_`. -/
theorem symbol_exact (a b : MethodRef) :
    (a.symbol = b.symbol ↔ a.owner = b.owner ∧ a.selector.name = b.selector.name ∧
      a.selector.signature.text = b.selector.signature.text) ∧
    (a.selector.signature.Delimited → b.selector.signature.Delimited →
      (a.symbol = b.symbol ↔ a = b)) ∧
    ∀ c ∈ a.symbol.toList, c.isAlphanum = true ∨ c = '_' := by
  refine ⟨symbol_eq_iff a b, ?_, ?_⟩
  · intro ha hb
    exact ⟨symbol_inj ha hb, congrArg symbol⟩
  · intro c hc
    rw [symbol, String.toList_ofList] at hc
    exact Symbol.of_mem_chars a c hc

/-- The spelling of the owner ends in `_`, and the name starts with `M`. -/
def accentedOwner : MethodRef :=
  ⟨"\u00e9", ⟨"M", ⟨[.array (.array (.object "L")), .object ""], some (.array (.primitive .int))⟩⟩⟩

/-- The same text in another place: the owner has the `M`, the name is empty. -/
def shiftedOwner : MethodRef :=
  ⟨"\u00e9M", ⟨"", accentedOwner.selector.signature⟩⟩

theorem symbol_exact_shiftedOwner :
    accentedOwner.selector.signature.Delimited ∧ shiftedOwner.selector.signature.Delimited ∧
      (accentedOwner.symbol = shiftedOwner.symbol ↔ accentedOwner = shiftedOwner) ∧
      accentedOwner.symbol ≠ shiftedOwner.symbol := by
  have hdelimited : accentedOwner.selector.signature.Delimited := by
    simp [accentedOwner, Signature.Delimited, FieldType.Delimited]
  have hiff : accentedOwner.symbol = shiftedOwner.symbol ↔ accentedOwner = shiftedOwner :=
    (symbol_exact accentedOwner shiftedOwner).2.1 hdelimited hdelimited
  refine ⟨hdelimited, hdelimited, hiff, ?_⟩
  rw [ne_eq, hiff]
  decide

/-- One object type and two have one text if a name holds a `;`. -/
example : (MethodRef.mk "A" ⟨"f", ⟨[.object "A;LB"], none⟩⟩).symbol =
    (MethodRef.mk "A" ⟨"f", ⟨[.object "A", .object "B"], none⟩⟩).symbol := by cbv

end MethodRef

end MethodLowering
