import MethodLowering.Classes
import MethodLowering.Order.StableSort
import MethodLowering.Proofs.Order.Precedence

/-!
How tables, classes and pools are kept. Storing a value in a table keeps the keys increasing, is
seen under its own key and under no other; so after any number of values each key holds the one that
was stored last. A class whose methods were added as its own holds them in the order of their
selectors, each under its own; a pool of such classes holds them in the order of their names. Under
each selector and each name stands what was added last.
-/

set_option autoImplicit false
set_option relaxedAutoImplicit false

namespace MethodLowering

open Std

/-! ### Tables -/

namespace Table

variable {κ α ι : Type} [Ord κ] {table : Table κ α} {key other : κ} {value : α}
  {entries : List (κ × α)}

def Sorted (table : Table κ α) : Prop :=
  table.keys.Pairwise fun a b => compare a b = .lt

theorem sorted_empty : (empty : Table κ α).Sorted :=
  List.Pairwise.nil

@[simp]
theorem find?_empty (key : κ) : (empty : Table κ α).find? key = none := rfl

theorem find?_insertEntry [LawfulEqOrd κ] [DecidableEq κ] (key other : κ) (value : α)
    (entries : List (κ × α)) :
    (insertEntry key value entries).find? (fun entry => compare other entry.1 == .eq) =
      if other = key then some (key, value)
      else entries.find? fun entry => compare other entry.1 == .eq := by
  induction entries with
  | nil => by_cases h : other = key <;> simp [insertEntry, h]
  | cons entry rest ih =>
    unfold insertEntry
    split
    · by_cases h : other = key <;> simp [h]
    · rename_i heq
      obtain rfl : key = entry.1 := LawfulEqOrd.eq_of_compare heq
      by_cases h : other = entry.1 <;> simp [h]
    · rename_i hgt
      have hne : key ≠ entry.1 := by
        rintro rfl
        simp at hgt
      by_cases h : other = key
      · subst h
        simp [hne, ih]
      · simp [List.find?_cons, ih, h]

theorem find?_insert [LawfulEqOrd κ] [DecidableEq κ] (table : Table κ α) (key other : κ)
    (value : α) :
    (table.insert key value).find? other =
      if other = key then some value else table.find? other := by
  rw [insert, find?, find?_insertEntry]
  by_cases h : other = key <;> simp [find?, h]

theorem of_mem_insertEntry {entry : κ × α} (h : entry ∈ insertEntry key value entries) :
    entry = (key, value) ∨ entry ∈ entries := by
  induction entries with
  | nil => exact .inl (List.mem_singleton.1 h)
  | cons first rest ih =>
    unfold insertEntry at h
    split at h
    · exact List.mem_cons.1 h
    · exact (List.mem_cons.1 h).imp_right (List.mem_cons_of_mem first)
    · obtain rfl | hrest := List.mem_cons.1 h
      · exact .inr List.mem_cons_self
      · exact (ih hrest).imp_right (List.mem_cons_of_mem first)

theorem Sorted.insert [TransOrd κ] [LawfulEqOrd κ] (h : table.Sorted) (key : κ) (value : α) :
    (table.insert key value).Sorted := by
  obtain ⟨entries⟩ := table
  change ((insertEntry key value entries).map Prod.fst).Pairwise _
  change (entries.map Prod.fst).Pairwise _ at h
  induction entries with
  | nil => simp [insertEntry]
  | cons entry rest ih =>
    rw [List.map_cons, List.pairwise_cons] at h
    unfold insertEntry
    split
    · rename_i hlt
      rw [List.map_cons, List.map_cons, List.pairwise_cons, List.pairwise_cons]
      refine ⟨?_, h⟩
      intro k hk
      obtain rfl | hrest := List.mem_cons.1 hk
      · exact hlt
      · exact TransCmp.lt_trans hlt (h.1 k hrest)
    · rename_i heq
      obtain rfl : key = entry.1 := LawfulEqOrd.eq_of_compare heq
      rw [List.map_cons, List.pairwise_cons]
      exact h
    · rename_i hgt
      rw [List.map_cons, List.pairwise_cons]
      refine ⟨?_, ih h.2⟩
      intro k hk
      obtain ⟨later, hlater, rfl⟩ := List.mem_map.1 hk
      obtain rfl | hrest := of_mem_insertEntry hlater
      · exact OrientedCmp.gt_iff_lt.1 hgt
      · exact h.1 _ (List.mem_map_of_mem hrest)

theorem Sorted.find?_eq_some_iff [TransOrd κ] [LawfulEqOrd κ] (h : table.Sorted) :
    table.find? key = some value ↔ (key, value) ∈ table.entries := by
  obtain ⟨entries⟩ := table
  change (entries.map Prod.fst).Pairwise _ at h
  change (entries.find? _).map _ = _ ↔ _ ∈ entries
  induction entries with
  | nil => simp
  | cons entry rest ih =>
    rw [List.map_cons, List.pairwise_cons] at h
    rw [List.mem_cons]
    by_cases heq : key = entry.1
    · subst heq
      have hrest : (entry.1, value) ∉ rest := by
        intro hmem
        have hlt := h.1 _ (List.mem_map_of_mem hmem)
        simp at hlt
      simp [hrest, Prod.ext_iff, eq_comm]
    · have hne : (key, value) ≠ entry := by
        rintro rfl
        exact heq rfl
      simp [heq, hne, ih h.2]

theorem find?_foldl_insert [LawfulEqOrd κ] [DecidableEq κ] (keyOf : ι → κ) (valueOf : ι → α)
    (items : List ι) (table : Table κ α) (key : κ) :
    (items.foldl (fun table item => table.insert (keyOf item) (valueOf item)) table).find? key =
      ((items.reverse.find? fun item => keyOf item = key).map valueOf).or (table.find? key) := by
  induction items generalizing table with
  | nil => rfl
  | cons item items ih =>
    rw [List.foldl_cons, ih, find?_insert, List.reverse_cons, List.find?_append]
    cases items.reverse.find? fun item => keyOf item = key with
    | some last => rfl
    | none =>
      by_cases h : key = keyOf item
      · simp [h]
      · simp [h, Ne.symm h]

end Table

/-! ### Classes and pools -/

/-- A class as it is added up: its name and its methods in the order in which they were added. -/
structure ClassOutline where
  name : String
  members : List (Selector × AccessFlags × Option Body)

def ClassOutline.build (outline : ClassOutline) : Class :=
  Class.ofList outline.name outline.members

/-- The pool to which the classes of some outlines were added in order. -/
def Pool.ofOutlines (outlines : List ClassOutline) : Pool :=
  Pool.ofList (outlines.map ClassOutline.build)

namespace Class

variable {cls : Class} {name : String} {selector : Selector} {method other : Method}

/-- The methods stand in the order of their selectors, each under its own, and belong to the
class. -/
structure WellKept (cls : Class) : Prop where
  sorted : cls.methods.Sorted
  identified : ∀ entry ∈ cls.methods.entries, entry.2.ref = ⟨cls.name, entry.1⟩

theorem wellKept_empty (name : String) : (empty name).WellKept :=
  ⟨Table.sorted_empty, nofun⟩

theorem WellKept.declare (h : cls.WellKept) (selector : Selector) (flags : AccessFlags)
    (body? : Option Body) : (cls.declare selector flags body?).WellKept := by
  refine ⟨h.sorted.insert _ _, ?_⟩
  intro entry hentry
  obtain rfl | hold := Table.of_mem_insertEntry hentry
  · rfl
  · exact h.identified entry hold

/-- The method that is stored when a member is added to a class of this name. -/
def memberOf (name : String) (member : Selector × AccessFlags × Option Body) : Method :=
  ⟨⟨name, member.1⟩, member.2.1, member.2.2⟩

theorem ofList_eq (name : String) (members : List (Selector × AccessFlags × Option Body)) :
    ofList name members = ⟨name,
      members.foldl (fun table member => table.insert member.1 (memberOf name member)) .empty⟩ :=
  List.foldl_hom (Class.mk name) fun _ _ => rfl

@[simp]
theorem name_ofList (name : String) (members : List (Selector × AccessFlags × Option Body)) :
    (ofList name members).name = name := by
  rw [ofList_eq]

theorem ofList_concat (name : String) (members : List (Selector × AccessFlags × Option Body))
    (selector : Selector) (flags : AccessFlags) (body? : Option Body) :
    ofList name (members ++ [(selector, flags, body?)]) =
      (ofList name members).declare selector flags body? := by
  rw [ofList, List.foldl_append]
  rfl

theorem wellKept_ofList (name : String) (members : List (Selector × AccessFlags × Option Body)) :
    (ofList name members).WellKept :=
  List.foldlRecOn members _ (wellKept_empty name) fun _ h member _ =>
    h.declare member.1 member.2.1 member.2.2

theorem method?_ofList (name : String) (members : List (Selector × AccessFlags × Option Body))
    (selector : Selector) :
    (ofList name members).method? selector =
      (members.reverse.find? fun member => member.1 = selector).map (memberOf name) := by
  rw [ofList_eq, method?, Table.find?_foldl_insert, Table.find?_empty, Option.or_none]

theorem WellKept.method?_eq_some_iff (h : cls.WellKept) :
    cls.method? selector = some method ↔ (selector, method) ∈ cls.methods.entries :=
  h.sorted.find?_eq_some_iff

theorem WellKept.ref_eq (h : cls.WellKept) (hfound : cls.method? selector = some method) :
    method.ref = ⟨cls.name, selector⟩ :=
  h.identified _ (h.method?_eq_some_iff.1 hfound)

theorem WellKept.mem_values_iff (h : cls.WellKept) :
    method ∈ cls.methods.values ↔ cls.method? method.ref.selector = some method := by
  rw [h.method?_eq_some_iff, Table.values, List.mem_map]
  constructor
  · rintro ⟨entry, hentry, rfl⟩
    rw [h.identified entry hentry]
    exact hentry
  · intro hentry
    exact ⟨_, hentry, rfl⟩

theorem WellKept.owner_eq (h : cls.WellKept) (hmethod : method ∈ cls.methods.values) :
    method.ref = ⟨cls.name, method.ref.selector⟩ :=
  h.ref_eq (h.mem_values_iff.1 hmethod)

theorem WellKept.pairwise_values (h : cls.WellKept) :
    cls.methods.values.Pairwise fun a b => compare a.ref.selector b.ref.selector = .lt := by
  rw [Table.values, List.pairwise_map]
  have hkeys := List.pairwise_map.1 h.sorted
  refine hkeys.imp_of_mem ?_
  intro a b ha hb hlt
  rwa [h.identified a ha, h.identified b hb]

/-- The method has the name, and its selector comes first among those of the class that have it. -/
structure Leads (cls : Class) (name : String) (method : Method) : Prop where
  found : cls.method? method.ref.selector = some method
  named : method.ref.selector.name = name
  first : ∀ selector other, cls.method? selector = some other → selector.name = name →
    (compare method.ref.selector selector).isLE

theorem WellKept.leads_of_firstNamed? (h : cls.WellKept)
    (hfirst : cls.firstNamed? name = some method) : cls.Leads name method := by
  obtain ⟨hname, before, after, hvalues, hbefore⟩ := List.find?_eq_some_iff_append.1 hfirst
  have hmem : method ∈ cls.methods.values := by
    rw [hvalues]
    simp
  refine ⟨h.mem_values_iff.1 hmem, by simpa using hname, ?_⟩
  intro selector other hother hsame
  obtain rfl : other.ref.selector = selector := by rw [h.ref_eq hother]
  apply isLE_of_split h.pairwise_values hvalues (h.mem_values_iff.2 hother)
  intro hearlier
  have hno := hbefore other hearlier
  simp [hsame] at hno

theorem WellKept.firstNamed?_eq_none_iff (h : cls.WellKept) :
    cls.firstNamed? name = none ↔
      ∀ selector method, cls.method? selector = some method → selector.name ≠ name := by
  rw [firstNamed?, List.find?_eq_none]
  constructor
  · intro hnone selector method hfound
    have href := h.ref_eq hfound
    have hmem : method ∈ cls.methods.values := by
      rw [h.mem_values_iff, href]
      exact hfound
    simpa [href] using hnone method hmem
  · intro hnone method hmem
    simpa using hnone _ method (h.mem_values_iff.1 hmem)

theorem Leads.unique (hmethod : cls.Leads name method) (hother : cls.Leads name other) :
    method = other := by
  have hle := hmethod.first _ _ hother.found hother.named
  have hge := hother.first _ _ hmethod.found hmethod.named
  have hsame : method.ref.selector = other.ref.selector :=
    LawfulEqCmp.eq_of_compare (OrientedCmp.isLE_antisymm hle hge)
  have hfound := hmethod.found
  rw [hsame, hother.found] at hfound
  exact (Option.some.inj hfound).symm

theorem WellKept.firstNamed?_eq_some_iff (h : cls.WellKept) :
    cls.firstNamed? name = some method ↔ cls.Leads name method := by
  constructor
  · exact h.leads_of_firstNamed?
  · intro hleads
    cases hfirst : cls.firstNamed? name with
    | none =>
      have hno := h.firstNamed?_eq_none_iff.1 hfirst _ _ hleads.found
      exact absurd hleads.named hno
    | some first => rw [(h.leads_of_firstNamed? hfirst).unique hleads]

end Class

namespace Pool

variable {pool : Pool} {cls : Class} {name : String} {classes : List Class}

/-- The classes stand in the order of their names, each under its own, and are well kept. -/
structure WellKept (pool : Pool) : Prop where
  sorted : pool.names.Pairwise (· < ·)
  named : ∀ entry ∈ pool.classes.entries, entry.2.name = entry.1
  kept : ∀ entry ∈ pool.classes.entries, entry.2.WellKept

theorem sorted_iff : pool.classes.Sorted ↔ pool.names.Pairwise (· < ·) := by
  have hlt : ∀ a b : String, compare a b = .lt ↔ a < b := by
    intro a b
    exact compareOfLessAndEq_eq_lt
  simp only [Table.Sorted, hlt, names]

theorem wellKept_empty : empty.WellKept :=
  ⟨List.Pairwise.nil, nofun, nofun⟩

theorem WellKept.add (h : pool.WellKept) (hcls : cls.WellKept) : (pool.add cls).WellKept := by
  have hentry : ∀ entry ∈ (pool.add cls).classes.entries,
      entry = (cls.name, cls) ∨ entry ∈ pool.classes.entries :=
    fun entry => Table.of_mem_insertEntry
  refine ⟨sorted_iff.1 ((sorted_iff.2 h.sorted).insert _ _), ?_, ?_⟩
  · intro entry hmem
    obtain rfl | hold := hentry entry hmem
    · rfl
    · exact h.named entry hold
  · intro entry hmem
    obtain rfl | hold := hentry entry hmem
    · exact hcls
    · exact h.kept entry hold

theorem wellKept_ofOutlines (outlines : List ClassOutline) : (ofOutlines outlines).WellKept := by
  refine List.foldlRecOn _ _ wellKept_empty ?_
  intro pool h cls hcls
  obtain ⟨outline, -, rfl⟩ := List.mem_map.1 hcls
  exact h.add (Class.wellKept_ofList _ _)

theorem find?_add (pool : Pool) (cls : Class) (name : String) :
    (pool.add cls).find? name = if name = cls.name then some cls else pool.find? name :=
  Table.find?_insert _ _ _ _

theorem find?_ofList (classes : List Class) (name : String) :
    (ofList classes).find? name = classes.reverse.find? fun cls => cls.name = name := by
  have hclasses : ofList classes =
      ⟨classes.foldl (fun table cls => table.insert cls.name cls) .empty⟩ :=
    List.foldl_hom Pool.mk fun _ _ => rfl
  have hfound := Table.find?_foldl_insert Class.name id classes .empty name
  rw [Table.find?_empty, Option.or_none, Option.map_id_apply] at hfound
  rw [hclasses]
  exact hfound

theorem find?_ofOutlines (outlines : List ClassOutline) (name : String) :
    (ofOutlines outlines).find? name =
      (outlines.reverse.find? fun outline => outline.name = name).map ClassOutline.build := by
  rw [ofOutlines, find?_ofList, ← List.map_reverse, List.find?_map]
  congr 2
  funext outline
  simp [ClassOutline.build]

theorem WellKept.find?_eq_some_iff (h : pool.WellKept) :
    pool.find? name = some cls ↔ (name, cls) ∈ pool.classes.entries :=
  (sorted_iff.2 h.sorted).find?_eq_some_iff

theorem WellKept.of_find? (h : pool.WellKept) (hfound : pool.find? name = some cls) :
    cls.name = name ∧ cls.WellKept := by
  have hentry := h.find?_eq_some_iff.1 hfound
  exact ⟨h.named _ hentry, h.kept _ hentry⟩

theorem WellKept.mem_values_iff (h : pool.WellKept) :
    cls ∈ pool.classes.values ↔ pool.find? cls.name = some cls := by
  rw [h.find?_eq_some_iff, Table.values, List.mem_map]
  constructor
  · rintro ⟨entry, hentry, rfl⟩
    rw [h.named entry hentry]
    exact hentry
  · intro hentry
    exact ⟨_, hentry, rfl⟩

theorem exists_member {outlines : List ClassOutline} {method : Method}
    (hcls : cls ∈ (ofOutlines outlines).classes.values) (hmethod : method ∈ cls.methods.values) :
    ∃ outline ∈ outlines, ∃ member ∈ outline.members,
      method = Class.memberOf outline.name member := by
  have hpool := wellKept_ofOutlines outlines
  have hfound := hpool.mem_values_iff.1 hcls
  have hkept : cls.WellKept := (hpool.of_find? hfound).2
  rw [find?_ofOutlines] at hfound
  obtain ⟨outline, houtline, rfl⟩ := Option.map_eq_some_iff.1 hfound
  have hmember := hkept.mem_values_iff.1 hmethod
  rw [ClassOutline.build, Class.method?_ofList] at hmember
  obtain ⟨member, hlast, rfl⟩ := Option.map_eq_some_iff.1 hmember
  exact ⟨outline, List.mem_reverse.1 (List.mem_of_find?_eq_some houtline), member,
    List.mem_reverse.1 (List.mem_of_find?_eq_some hlast), rfl⟩

end Pool

end MethodLowering
