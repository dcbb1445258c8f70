import MethodLowering.Proofs.Compile.Outcome
import MethodLowering.Proofs.Descriptor.Reading
import MethodLowering.Proofs.Linkage.Symbol

/-!
Linkage of a whole pool. The classes of a pool have different names and the methods of a class
different selectors; selectors that were read are delimited, so no two methods of the pool have one
symbol. A function bears the symbol of the method it comes of, whichever way it is made, and so a
call that names a method names one function only.
-/

set_option autoImplicit false
set_option relaxedAutoImplicit false

namespace MethodLowering

theorem filter_key_eq_singleton {α β : Type} [DecidableEq β] {key : α → β} {items : List α}
    {item : α} (hdistinct : (items.map key).Nodup) (hitem : item ∈ items) :
    items.filter (fun other => key other = key item) = [item] := by
  obtain ⟨before, after, rfl⟩ := List.append_of_mem hitem
  rw [List.map_append, List.map_cons, List.nodup_middle, List.nodup_cons,
    ← List.map_append] at hdistinct
  have hother : ∀ other ∈ before ++ after, key other ≠ key item := by
    intro other hmem hsame
    exact hdistinct.1 (hsame ▸ List.mem_map_of_mem hmem)
  have hnone : ∀ part, part ⊆ before ++ after →
      part.filter (fun other => key other = key item) = [] := by
    intro part hpart
    rw [List.filter_eq_nil_iff]
    intro other hmem
    simpa using hother other (hpart hmem)
  rw [List.filter_append, List.filter_cons_of_pos (by simp),
    hnone before (List.subset_append_left _ _), hnone after (List.subset_append_right _ _),
    List.nil_append]

/-! ### Symbols of a pool -/

theorem FieldType.WellFormed.delimited {type : FieldType} (h : type.WellFormed) :
    type.Delimited := by
  induction type with
  | primitive kind => trivial
  | object name => exact h.2
  | array item ih => exact ih h

theorem Selector.WellFormed.delimited {selector : Selector} (h : selector.WellFormed) :
    selector.signature.Delimited := by
  obtain ⟨-, -, hparams, hresult⟩ := h
  exact ⟨fun type hmem => (hparams type hmem).delimited,
    fun type hmem => (hresult type hmem).delimited⟩

theorem Selector.wellFormed_of_parse {text : String} {selector : Selector}
    (h : parse text = .ok selector) : selector.WellFormed :=
  ((Selector.readsExactly.inverts text selector).1 h).1

theorem Class.WellKept.nodup_selectors {cls : Class} (h : cls.WellKept) :
    (cls.methods.values.map fun method => method.ref.selector).Nodup := by
  rw [List.Nodup, List.pairwise_map]
  refine h.pairwise_values.imp ?_
  intro a b hlt hsame
  have hself : compare b.ref.selector b.ref.selector = .eq := Std.ReflCmp.compare_self
  rw [hsame, hself] at hlt
  exact absurd hlt nofun

namespace Pool

variable {pool : Pool} {cls : Class} {method : Method}

def AllDelimited (pool : Pool) : Prop :=
  ∀ cls ∈ pool.classes.values, ∀ method ∈ cls.methods.values,
    method.ref.selector.signature.Delimited

theorem allDelimited_ofOutlines {outlines : List ClassOutline}
    (h : ∀ outline ∈ outlines, ∀ member ∈ outline.members,
      ∃ text, Selector.parse text = .ok member.1) : (ofOutlines outlines).AllDelimited := by
  intro cls hcls method hmethod
  obtain ⟨outline, houtline, member, hmember, rfl⟩ := exists_member hcls hmethod
  obtain ⟨text, htext⟩ := h outline houtline member hmember
  exact (Selector.wellFormed_of_parse htext).delimited

theorem WellKept.pairwise_values (h : pool.WellKept) :
    pool.classes.values.Pairwise fun a b => a.name ≠ b.name := by
  have hnames : pool.classes.entries.Pairwise fun a b => a.1 < b.1 := List.pairwise_map.1 h.sorted
  rw [Table.values, List.pairwise_map]
  refine hnames.imp_of_mem ?_
  intro a b ha hb hlt
  rw [h.named a ha, h.named b hb]
  exact ne_of_lt hlt

def symbols (pool : Pool) : List String :=
  pool.classes.values.flatMap fun cls => cls.methods.values.map fun method => method.ref.symbol

theorem nodup_symbols (hpool : pool.WellKept) (hdelimited : pool.AllDelimited) :
    pool.symbols.Nodup := by
  have hkept : ∀ cls ∈ pool.classes.values, cls.WellKept := by
    intro cls hcls
    exact (hpool.of_find? (hpool.mem_values_iff.1 hcls)).2
  rw [symbols, List.nodup_flatMap]
  constructor
  · intro cls hcls
    apply List.Nodup.map_on
    · intro a ha b hb hsame
      have href := MethodRef.symbol_inj (hdelimited cls hcls a ha) (hdelimited cls hcls b hb) hsame
      have hselector := congrArg MethodRef.selector href
      exact List.inj_on_of_nodup_map (hkept cls hcls).nodup_selectors ha hb hselector
    · exact (hkept cls hcls).nodup_selectors.of_map _
  · refine hpool.pairwise_values.imp_of_mem ?_
    intro cls other hcls hother hne
    rw [Function.onFun, List.disjoint_left]
    intro symbol hmem hmem'
    obtain ⟨a, ha, rfl⟩ := List.mem_map.1 hmem
    obtain ⟨b, hb, hsame⟩ := List.mem_map.1 hmem'
    have href :=
      MethodRef.symbol_inj (hdelimited other hother b hb) (hdelimited cls hcls a ha) hsame
    rw [(hkept cls hcls).owner_eq ha, (hkept other hother).owner_eq hb] at href
    exact hne (congrArg MethodRef.owner href).symm

end Pool

namespace Compiler

variable {c : Compiler} {cls : Class} {ref : MethodRef} {method : Method}
  {function : Wasm.Function} {functions : List Wasm.Function}

/-! ### Names of functions -/

theorem name_of_result_compile (h : (c.compile ref).result = .ok function) :
    function.name = ref.symbol := by
  unfold compile at h
  obtain ⟨method, -, h⟩ := Logged.result_bind_eq_ok_iff.1 h
  obtain ⟨body, -, h⟩ := Logged.result_bind_eq_ok_iff.1 h
  obtain ⟨-, -, h⟩ := Logged.result_bind_eq_ok_iff.1 h
  obtain ⟨normal, -, h⟩ := Logged.result_bind_eq_ok_iff.1 h
  obtain ⟨decompiled, -, h⟩ := Logged.result_bind_eq_ok_iff.1 h
  obtain ⟨tree, -, h⟩ := Logged.result_bind_eq_ok_iff.1 h
  obtain ⟨-, -, h⟩ := Logged.result_bind_eq_ok_iff.1 h
  rw [Logged.result_pure, Except.ok.injEq] at h
  rw [← h]
  rfl

theorem name_of_functionOf (h : (c.functionOf method).result = .ok function) :
    function.name = method.ref.symbol := by
  unfold functionOf at h
  cases hnative : method.flags.isNative with
  | true =>
    rw [hnative, if_pos rfl, result_compileNative, Except.ok.injEq] at h
    rw [← h]
    rfl
  | false =>
    rw [hnative, if_neg Bool.false_ne_true] at h
    exact name_of_result_compile h

/-- The functions of a class, none if it does not compile. -/
def functionsOf (c : Compiler) (cls : Class) : List Wasm.Function :=
  match (c.compileClass cls.name).result with
  | .ok functions => functions
  | .error _ => []

/-- The functions of all classes of the pool that compile, class by class. -/
def poolFunctions (c : Compiler) : List Wasm.Function :=
  c.pool.classes.values.flatMap c.functionsOf

theorem functionsOf_eq (h : (c.compileClass cls.name).result = .ok functions) :
    c.functionsOf cls = functions := by
  rw [functionsOf, h]

theorem map_name_eq (hpool : c.pool.WellKept) (hcls : cls ∈ c.pool.classes.values)
    (h : (c.compileClass cls.name).result = .ok functions) :
    functions.map Wasm.Function.name = cls.concrete.map fun method => method.ref.symbol := by
  have hall := (compileClass_eq_ok_iff (hpool.mem_values_iff.1 hcls)).1 h
  rw [← List.forall₂_eq_eq_eq, List.forall₂_map_left_iff, List.forall₂_map_right_iff]
  exact (hall.imp fun _ _ => name_of_functionOf).flip

theorem sublist_symbols (hpool : c.pool.WellKept) :
    (c.poolFunctions.map Wasm.Function.name).Sublist c.pool.symbols := by
  rw [poolFunctions, List.map_flatMap, Pool.symbols]
  apply List.Sublist.flatMap_right
  intro cls hcls
  cases hresult : (c.compileClass cls.name).result with
  | error failure =>
    rw [functionsOf, hresult]
    exact List.nil_sublist _
  | ok functions =>
    rw [functionsOf_eq hresult, map_name_eq hpool hcls hresult]
    exact List.filter_sublist.map _

/-! ### Calls -/

/-- The function comes of the method of the class and bears its symbol, and it is the only function
of the pool that a call of the method, or a check that is one, names. -/
structure Resolves (c : Compiler) (cls : Class) (method : Method) (function : Wasm.Function) :
    Prop where
  made : (c.functionOf method).result = .ok function
  name : function.name = MethodRef.symbol ⟨cls.name, method.ref.selector⟩
  only : c.poolFunctions.filter (fun other => other.name = method.ref.symbol) = [function]
  called : ∀ first instance? args, (Instr.invoke none instance? method.ref args).emit first =
    .call function.name ((instance?.toList ++ args).map (loadVariable first))
  stored : ∀ first dest instance? args,
    (Instr.invoke (some dest) instance? method.ref args).emit first = storeVariable first dest
      (.call function.name ((instance?.toList ++ args).map (loadVariable first)))
  checked : method.ref = .classInitializer cls.name →
    ∀ first, (Instr.check cls.name).emit first = .call function.name []

/-- No two functions of the pool have one name, and those of a class that compiles stand in the
order of its methods that are not abstract, each the one that calls of its method name. -/
structure Linked (c : Compiler) : Prop where
  distinct : (c.poolFunctions.map Wasm.Function.name).Nodup
  resolves : ∀ cls ∈ c.pool.classes.values, ∀ functions,
    (c.compileClass cls.name).result = .ok functions →
      List.Forall₂ (c.Resolves cls) cls.concrete functions

theorem resolves_of_result (hdistinct : (c.poolFunctions.map Wasm.Function.name).Nodup)
    (howner : method.ref = ⟨cls.name, method.ref.selector⟩) (hmem : function ∈ c.poolFunctions)
    (hresult : (c.functionOf method).result = .ok function) : c.Resolves cls method function := by
  have hname : function.name = method.ref.symbol := name_of_functionOf hresult
  refine ⟨hresult, howner ▸ hname, ?_, ?_, ?_, ?_⟩
  · rw [← hname]
    exact filter_key_eq_singleton hdistinct hmem
  · intro first instance? args
    rw [hname]
    rfl
  · intro first dest instance? args
    rw [hname]
    rfl
  · intro hinitializer first
    rw [hname, hinitializer]
    rfl

/-- In a pool to which classes were added whose methods were added with selectors that were read,
linkage is unambiguous, whatever classes are said to have an initializer and whatever the imports,
the options and the backend are. -/
theorem pool_linked (outlines : List ClassOutline) (hasInitializer : String → Bool)
    (imports : ImportTable) (options : Options) (backend : Backend)
    (hparsed : ∀ outline ∈ outlines, ∀ member ∈ outline.members,
      ∃ text, Selector.parse text = .ok member.1) :
    Linked ⟨Pool.ofOutlines outlines, hasInitializer, imports, options, backend⟩ := by
  have hpool := Pool.wellKept_ofOutlines outlines
  have hsymbols := Pool.nodup_symbols hpool (Pool.allDelimited_ofOutlines hparsed)
  have hdistinct := hsymbols.sublist (sublist_symbols
    (c := ⟨Pool.ofOutlines outlines, hasInitializer, imports, options, backend⟩) hpool)
  refine ⟨hdistinct, ?_⟩
  intro cls hcls functions hresult
  have hfound := hpool.mem_values_iff.1 hcls
  have hkept : cls.WellKept := (hpool.of_find? hfound).2
  obtain ⟨hlength, hmade⟩ := List.forall₂_iff_zip.1 ((compileClass_eq_ok_iff hfound).1 hresult)
  refine List.forall₂_iff_zip.2 ⟨hlength, ?_⟩
  intro method function hpair
  obtain ⟨hmethod, hfunction⟩ := List.of_mem_zip hpair
  apply resolves_of_result hdistinct
  · exact hkept.owner_eq (Class.mem_concrete_iff.1 hmethod).1
  · exact List.mem_flatMap.2 ⟨cls, hcls, by rwa [functionsOf_eq hresult]⟩
  · exact hmade hpair

/-- A class that is added twice, with a method that is added twice, and one that would share a
symbol with it if `_` were not spelled out. -/
def readdedClasses : List ClassOutline :=
  [⟨"a", [(⟨"b_Mc", ⟨[], none⟩⟩, .static, none)]⟩,
    ⟨"a_Mb", [(⟨"c", ⟨[], none⟩⟩, .native, none)]⟩,
    ⟨"a", [(⟨"b_Mc", ⟨[], none⟩⟩, .abstract, none),
      (⟨"b_Mc", ⟨[], none⟩⟩, .static, some ⟨[], [⟨[.check "a"], .exit none⟩]⟩),
      (⟨"c", ⟨[.array (.object "A(B")], none⟩⟩, .native, none)]⟩]

/-- None of these classes has an initializer. -/
def readdedCompiler : Compiler :=
  ⟨Pool.ofOutlines readdedClasses, fun _ => false, .empty, .default, .stub none⟩

theorem pool_linked_readdedClasses :
    (∀ outline ∈ readdedClasses, ∀ member ∈ outline.members,
      ∃ text, Selector.parse text = .ok member.1) ∧
    readdedCompiler.Linked ∧
    (readdedCompiler.compileClass "a").result =
      .ok [⟨"meth_a_Mb_UMc_D_o_cV", [], none, [], some (.ret none), none⟩,
        ⟨"meth_a_Mc_D_o_aLA_oB_e_cV", [.ref], none, [], none, some .unresolved⟩] ∧
    (readdedCompiler.compileClass "a_Mb").result =
      .ok [⟨"meth_a_UMb_Mc_D_o_cV", [], none, [], none, some .unresolved⟩] := by
  have hparsed : ∀ outline ∈ readdedClasses, ∀ member ∈ outline.members,
      ∃ text, Selector.parse text = .ok member.1 := by
    have hname : ∃ text, Selector.parse text = .ok ⟨"b_Mc", ⟨[], none⟩⟩ := ⟨"b_Mc()V", by cbv⟩
    have hplain : ∃ text, Selector.parse text = .ok ⟨"c", ⟨[], none⟩⟩ := ⟨"c()V", by cbv⟩
    have harray : ∃ text, Selector.parse text =
        .ok ⟨"c", ⟨[.array (.object "A(B")], none⟩⟩ := ⟨"c([LA(B;)V", by cbv⟩
    simp only [readdedClasses, List.forall_mem_cons]
    exact ⟨⟨hname, List.forall_mem_nil _⟩, ⟨hplain, List.forall_mem_nil _⟩,
      ⟨hname, hname, harray, List.forall_mem_nil _⟩, List.forall_mem_nil _⟩
  exact ⟨hparsed, pool_linked readdedClasses _ .empty .default (.stub none) hparsed, by cbv,
    by cbv⟩

end Compiler

end MethodLowering
