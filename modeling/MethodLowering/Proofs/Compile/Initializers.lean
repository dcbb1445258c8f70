import MethodLowering.Proofs.Check.Redirection
import MethodLowering.Proofs.Compile.Linkage
import MethodLowering.Proofs.Compile.Signature

/-!
Initializers that are called. What a normalized body tests and calls, as far as its entry reaches,
are classes of the pool that have an initializer: the others lost their checks in the blocks that
the entry reaches, and expansion reaches no others. In the functions of such a class the symbol of
its initializer is found once.
-/

set_option autoImplicit false
set_option relaxedAutoImplicit false

namespace MethodLowering

def Instr.Involves (name : String) (instr : Instr) : Prop :=
  (∃ dest, instr = .test dest name) ∨
    ∃ dest instance? args, instr = .invoke dest instance? (.classInitializer name) args

/-! ### The symbol of an initializer -/

/-- No other signature is written like that of an initializer, whatever its object names hold. -/
theorem Signature.eq_of_text_eq {signature : Signature}
    (h : signature.text = Selector.classInitializer.signature.text) :
    signature = Selector.classInitializer.signature := by
  obtain ⟨params, result⟩ := signature
  have hchars : params.flatMap FieldType.chars ++ ')' :: resultChars result = [')', 'V'] :=
    (List.cons.inj (String.ofList_injective h)).2
  cases params with
  | cons type params =>
    rw [List.flatMap_cons, List.append_assoc] at hchars
    exact absurd hchars (type.chars_append_ne (.inl rfl) _ _)
  | nil =>
    cases result with
    | none => rfl
    | some type =>
      have hresult : type.chars ++ [] = ['V'] :=
        (List.append_nil _).trans (List.cons.inj hchars).2
      exact absurd hresult (type.chars_append_ne (.inr rfl) _ _)

theorem MethodRef.symbol_eq_classInitializer_iff {ref : MethodRef} {name : String} :
    ref.symbol = (classInitializer name).symbol ↔ ref = classInitializer name := by
  refine ⟨fun h => ?_, congrArg symbol⟩
  obtain ⟨owner, selectorName, signature⟩ := ref
  obtain ⟨howner, hname, htext⟩ := (symbol_eq_iff _ _).1 h
  have hsignature : signature = Selector.classInitializer.signature :=
    Signature.eq_of_text_eq htext
  cases howner
  cases hname
  cases hsignature
  rfl

theorem Pool.hasInitializer_iff {pool : Pool} {name : String} : pool.hasInitializer name = true ↔
    ∃ cls method, pool.find? name = some cls ∧
      cls.method? Selector.classInitializer = some method := by
  simp [hasInitializer, Class.hasInitializer, Option.any_eq_true, Option.isSome_iff_exists]

theorem exists_filter_eq_singleton {α β γ : Type} [DecidableEq γ] {key : α → γ} {key' : β → γ}
    {items : List α} {others : List β} {sought : γ} {other : β}
    (hkeys : items.map key = others.map key')
    (honly : others.filter (fun other => key' other = sought) = [other]) :
    ∃ item, items.filter (fun item => key item = sought) = [item] := by
  have hfound : (items.filter fun item => key item = sought).map key = [key' other] := by
    calc (items.filter fun item => key item = sought).map key
        = (items.map key).filter (· = sought) := by
          rw [List.filter_map]
          rfl
      _ = (others.map key').filter (· = sought) := by rw [hkeys]
      _ = (others.filter fun other => key' other = sought).map key' := List.filter_map
      _ = [key' other] := by rw [honly, List.map_singleton]
  obtain ⟨item, hitem, -⟩ := List.map_eq_singleton_iff.1 hfound
  exact ⟨item, hitem⟩

namespace Compiler

variable {c : Compiler} {cls : Class} {method : Method} {functions : List Wasm.Function}

theorem exists_function_of_initializer {name : String} (hpool : c.pool.WellKept)
    (hfound : c.pool.find? name = some cls)
    (hmethod : cls.method? Selector.classInitializer = some method)
    (hconcrete : method.flags.isAbstract = false)
    (h : (c.compileClass name).result = .ok functions) :
    ∃ function, functions.filter (fun other =>
      other.name = (MethodRef.classInitializer name).symbol) = [function] := by
  obtain ⟨rfl, hkept⟩ := hpool.of_find? hfound
  have href : method.ref = .classInitializer cls.name := hkept.ref_eq hmethod
  have hmem : method ∈ cls.concrete := by
    rw [Class.mem_concrete_iff, hkept.mem_values_iff, href]
    exact ⟨hmethod, hconcrete⟩
  have hdistinct : (cls.concrete.map fun other => other.ref.selector).Nodup :=
    hkept.nodup_selectors.sublist (List.filter_sublist.map _)
  have hsame : ∀ other ∈ cls.concrete,
      (other.ref.symbol = (MethodRef.classInitializer cls.name).symbol ↔
        other.ref.selector = method.ref.selector) := by
    intro other hother
    rw [MethodRef.symbol_eq_classInitializer_iff, href]
    refine ⟨congrArg MethodRef.selector, fun hselector => ?_⟩
    rw [hkept.owner_eq (Class.mem_concrete_iff.1 hother).1, hselector]
    rfl
  have honly : cls.concrete.filter (fun other =>
      other.ref.symbol = (MethodRef.classInitializer cls.name).symbol) = [method] := by
    rw [List.filter_congr fun other hother => decide_eq_decide.2 (hsame other hother)]
    exact filter_key_eq_singleton hdistinct hmem
  exact exists_filter_eq_singleton (map_name_eq hpool (hpool.mem_values_iff.2 hfound) h) honly

end Compiler

/-- The class has an initializer and, unless that is abstract, one of its functions has the symbol
of the initializer, whatever compiler for the pool compiles the class. -/
def Pool.Provides (pool : Pool) (name : String) : Prop :=
  ∃ cls initializer, pool.find? name = some cls ∧
    cls.method? Selector.classInitializer = some initializer ∧
    ∀ (c : Compiler) (functions : List Wasm.Function), c.pool = pool →
      (c.compileClass name).result = .ok functions → initializer.flags.isAbstract = false →
        ∃ function, functions.filter (fun other =>
          other.name = (MethodRef.classInitializer name).symbol) = [function]

theorem Pool.WellKept.provides {pool : Pool} {name : String} (h : pool.WellKept)
    (hname : pool.hasInitializer name = true) : pool.Provides name := by
  obtain ⟨cls, initializer, hfound, hmethod⟩ := Pool.hasInitializer_iff.1 hname
  refine ⟨cls, initializer, hfound, hmethod, ?_⟩
  rintro c functions rfl hresult hconcrete
  exact Compiler.exists_function_of_initializer h hfound hmethod hconcrete hresult

/-! ### Normalized bodies -/

namespace Body

variable {body : Body} {number : Nat} {block : Block} {instr : Instr}

/-- What stands in a block that an expansion reaches stood in a block reached before, or tests or
initializes a class that such a block checks. -/
theorem of_mem_expand (hclosed : body.graph.ClosedFromEntry)
    (hreaches : body.expand.graph.Reaches 0 number)
    (hblock : body.expand.blocks[number]? = some block) (hinstr : instr ∈ block.code) :
    ∃ source b, body.graph.Reaches 0 source ∧ body.blocks[source]? = some b ∧
      (instr ∈ b.code ∨ ∃ name, .check name ∈ b.code ∧
        ((∃ flag, instr = .test flag name) ∨
          instr = .invoke none none (.classInitializer name) [])) := by
  have hnumber : number < body.expand.blocks.length := (List.getElem?_eq_some_iff.1 hblock).1
  obtain ⟨source, b, links, hsource, hb, hchain, hpart⟩ :=
    exists_part_of_reaches hclosed hreaches hnumber
  refine ⟨source, b, hsource, hb, ?_⟩
  obtain ⟨rest, hrest, hlast⟩ | ⟨link, -, name, hcheck, ⟨before, hbefore, hhead⟩ | hinit⟩ :=
    hchain.block_of_part hpart
  · obtain rfl := Option.some.inj (hblock.symm.trans hlast)
    exact .inl (hrest hinstr)
  · obtain rfl := Option.some.inj (hblock.symm.trans hhead)
    obtain hold | htest := List.mem_append.1 hinstr
    · exact .inl (hbefore hold)
    · exact .inr ⟨name, hcheck, .inl ⟨link.flag, List.mem_singleton.1 htest⟩⟩
  · obtain rfl := Option.some.inj (hblock.symm.trans hinit)
    exact .inr ⟨name, hcheck, .inr (List.mem_singleton.1 hinstr)⟩

def Uninvolved (body : Body) : Prop :=
  ∀ block ∈ body.blocks, ∀ instr ∈ block.code, ∀ name, ¬ instr.Involves name

theorem uninvolved_inject (h : body.Uninvolved) (hasInitializer : String → Bool)
    (method : Method) : (EntryCheck.inject hasInitializer method body).Uninvolved := by
  intro block hblock instr hinstr name
  obtain ⟨b, hb, -, hcode⟩ := EntryCheck.of_mem_inject hblock
  obtain hold | ⟨checked, rfl⟩ := hcode instr hinstr
  · exact h b hb instr hold name
  · rintro (⟨dest, hdest⟩ | ⟨dest, instance?, args, hcall⟩)
    · exact absurd hdest nofun
    · exact absurd hcall nofun

theorem Eliminated.hasInitializer_of_involves {reduced : Body} {hasInitializer : String → Bool}
    {name : String} (helim : body.Eliminated hasInitializer reduced) (hclosed : body.graph.Closed)
    (hfree : body.Uninvolved) (hreaches : reduced.expand.graph.Reaches 0 number)
    (hblock : reduced.expand.blocks[number]? = some block) (hinstr : instr ∈ block.code)
    (hname : instr.Involves name) : hasInitializer name = true := by
  obtain ⟨source, b, hsource, hb, hcode⟩ :=
    of_mem_expand (helim.closed hclosed).fromEntry hreaches hblock hinstr
  obtain ⟨b', hb', -, hkept, hchecks⟩ := helim.of_getElem? hb
  obtain hold | ⟨other, hcheck, hnew⟩ := hcode
  · exact absurd hname (hfree b' (List.mem_of_getElem? hb') instr (hkept instr hold) name)
  · have hother : other = name := by
      obtain ⟨flag, rfl⟩ | rfl := hnew
      · obtain ⟨dest, hdest⟩ | ⟨dest, instance?, args, hcall⟩ := hname
        · exact (Instr.test.inj hdest).2
        · exact absurd hcall nofun
      · obtain ⟨dest, hdest⟩ | ⟨dest, instance?, args, hcall⟩ := hname
        · exact absurd hdest nofun
        · exact congrArg MethodRef.owner (Instr.invoke.inj hcall).2.2.1
    exact hother ▸ hchecks (helim.graph_eq ▸ hsource) other hcheck

end Body

namespace Compiler

/-- A body without tests and calls of initializers is normalized, in a pool to which classes were
added whose methods were added as their own and which says what has an initializer. No check is
left, and as far as the entry reaches the classes that are tested or initialized are classes of the
pool with an initializer, which a function of the class provides. -/
theorem normalize_involves (outlines : List ClassOutline) (imports : ImportTable)
    (backend : Backend) (method : Method) (body : Body) (hclosed : body.graph.Closed)
    (hfree : body.Uninvolved) :
    ∃ normal, (normalize ⟨Pool.ofOutlines outlines, (Pool.ofOutlines outlines).hasInitializer,
        imports, .default, backend⟩ method body).result = .ok normal ∧
      (∀ block ∈ normal.blocks, ∀ instr ∈ block.code, ∀ name, instr ≠ .check name) ∧
      ∀ (number : Nat) (block : Block), normal.graph.Reaches 0 number →
        normal.blocks[number]? = some block → ∀ instr ∈ block.code, ∀ name,
          instr.Involves name → (Pool.ofOutlines outlines).Provides name := by
  have hinjected := Body.closed_inject hclosed (Pool.ofOutlines outlines).hasInitializer method
  obtain ⟨reduced, hreduced, helim⟩ :=
    Body.eliminate?_of_closed (Pool.ofOutlines outlines).hasInitializer hinjected
  refine ⟨reduced.expand, normalize_eq_ok_iff.2 ⟨reduced, hreduced, rfl⟩, ?_, ?_⟩
  · rintro block hblock instr hinstr name rfl
    exact absurd (Expansion.checkCount_eq_zero_iff.1 reduced.checkCount_expand block hblock _
      hinstr) nofun
  · intro number block hreaches hblock instr hinstr name hname
    have hfree := Body.uninvolved_inject hfree (Pool.ofOutlines outlines).hasInitializer method
    exact (Pool.wellKept_ofOutlines outlines).provides
      (helim.hasInitializer_of_involves hinjected hfree hreaches hblock hinstr hname)

/-- Two classes with initializers, one of them supplied from outside, and one with a method that is
only named like an initializer. -/
def initializedClasses : List ClassOutline :=
  [⟨"A", [(.classInitializer, .static, some ⟨[], [⟨[.check "A"], .exit none⟩]⟩)]⟩,
    ⟨"B", [(.classInitializer, .native, none)]⟩,
    ⟨"C", [(⟨"<clinit>", ⟨[.primitive .int], none⟩⟩, .static, none)]⟩]

theorem normalize_involves_initializedClasses :
    Body.entryLoop.graph.Closed ∧ Body.entryLoop.Uninvolved ∧
      ∃ normal, (normalize ⟨Pool.ofOutlines initializedClasses,
          (Pool.ofOutlines initializedClasses).hasInitializer, .empty, .default, .stub none⟩
          Body.staticMethod Body.entryLoop).result = .ok normal ∧
        (∀ block ∈ normal.blocks, ∀ instr ∈ block.code, ∀ name, instr ≠ .check name) ∧
        ∀ (number : Nat) (block : Block), normal.graph.Reaches 0 number →
          normal.blocks[number]? = some block → ∀ instr ∈ block.code, ∀ name,
            instr.Involves name → (Pool.ofOutlines initializedClasses).Provides name := by
  have hclosed : Body.entryLoop.graph.Closed := by decide
  have hfree : Body.entryLoop.Uninvolved := by
    simp [Body.Uninvolved, Body.entryLoop, Instr.Involves]
  exact ⟨hclosed, hfree, normalize_involves initializedClasses .empty (.stub none)
    Body.staticMethod Body.entryLoop hclosed hfree⟩

example : ["A", "B", "C", "N"].map (Pool.ofOutlines initializedClasses).hasInitializer =
    [true, true, false, false] := by cbv

end Compiler

end MethodLowering
