import MethodLowering.Proofs.Check.Closure
import MethodLowering.Proofs.Check.Splitting
import MethodLowering.Proofs.Compile.Outcome

/-!
Signatures and slots of compiled methods. Normalization keeps the declared variables and adds one
truth value for each check that is spelled out, so the locals of a function are those of the
declared variables and the added ones behind them; parameters and result do not depend on the
options. When the blocks that the entry reaches name only declared variables, all locals in the
expression of a function are locals of the function: local `i` holds variable `i`, or variable
`i + 1` where variable 0 is the instance.
-/

set_option autoImplicit false
set_option relaxedAutoImplicit false

namespace MethodLowering

/-! ### Signatures -/

/-- The local for a variable. A variable without type holds an integer. -/
def VarInfo.slot (info : VarInfo) : Wasm.Local :=
  ⟨(info.type.map Wasm.ValType.ofFieldType).getD .i32, info.name⟩

/-- The variable list that comes of a body is that of the body. -/
def Backend.KeepsVars (backend : Backend) : Prop :=
  ∀ method body decompiled, (backend.decompile method body).result = .ok decompiled →
    decompiled.vars = body.vars

theorem Backend.keepsVars_straightLine (emit : Emitter (List Statement)) :
    KeepsVars ⟨List Statement, straightLine none, emit⟩ := by
  intro method body decompiled h
  obtain ⟨-, -, h⟩ := Logged.result_bind_eq_ok_iff.1 h
  obtain ⟨listing, -, h⟩ := Logged.result_bind_eq_ok_iff.1 h
  rw [Logged.result_pure, Except.ok.injEq] at h
  rw [← h, Option.getD_none]

namespace Compiler

variable {c : Compiler} {ref : MethodRef} {method : Method} {body normal reduced : Body}
  {function : Wasm.Function}

/-- The body of a method with its entry check and without the needless checks, as far as the options
name these steps. -/
def reduce? (c : Compiler) (method : Method) (body : Body) : Option Body :=
  let injected :=
    if c.options.inject then EntryCheck.inject c.hasInitializer method body else body
  if c.options.eliminate then injected.eliminate? c.hasInitializer else some injected

theorem normalize_eq_ok_iff : (c.normalize method body).result = .ok normal ↔
    ∃ reduced, c.reduce? method body = some reduced ∧
      normal = if c.options.expand then reduced.expand else reduced := by
  have hinjected : (if c.options.inject then c.injectStep method body else pure body).result =
      .ok (if c.options.inject then EntryCheck.inject c.hasInitializer method body
        else body) := by
    cases c.options.inject <;> rfl
  rw [normalize_eq, Logged.result_bind_of_ok hinjected, Logged.result_bind_eq_ok_iff]
  refine exists_congr fun reduced => and_congr ?_ ?_
  · unfold reduce?
    cases c.options.eliminate with
    | true => exact eliminateStep_eq_ok_iff
    | false =>
      exact ⟨fun h => congrArg some (Except.ok.inj h), fun h => congrArg _ (Option.some.inj h)⟩
  · have hexpanded : (if c.options.expand then expandStep reduced else pure reduced).result =
        .ok (if c.options.expand then reduced.expand else reduced) := by
      cases c.options.expand <;> rfl
    rw [hexpanded, Except.ok.injEq, eq_comm]

theorem vars_reduce? (h : c.reduce? method body = some reduced) : reduced.vars = body.vars := by
  unfold reduce? at h
  have hinjected : (if c.options.inject then EntryCheck.inject c.hasInitializer method body
      else body).vars = body.vars := by
    split
    · exact (EntryCheck.inject_frame c.hasInitializer method body).1
    · rfl
  dsimp only at h
  split at h
  · obtain ⟨plan, -, rfl⟩ := Option.map_eq_some_iff.1 h
    exact hinjected
  · exact Option.some.inj h ▸ hinjected

/-- The number of truth values that normalization adds to the variables of the reduced body. -/
def flagCount (options : Options) (reduced : Body) : Nat :=
  if options.expand then Expansion.checkCount reduced.blocks else 0

theorem vars_of_normalize (h : (c.normalize method body).result = .ok normal) :
    ∃ reduced, c.reduce? method body = some reduced ∧ normal.vars =
      body.vars ++ List.replicate (flagCount c.options reduced) Expansion.flagInfo := by
  obtain ⟨reduced, hreduced, rfl⟩ := normalize_eq_ok_iff.1 h
  refine ⟨reduced, hreduced, ?_⟩
  unfold flagCount
  cases c.options.expand with
  | true =>
    rw [if_pos rfl, if_pos rfl, Body.vars_expand, vars_reduce? hreduced]
  | false =>
    rw [if_neg Bool.false_ne_true, if_neg Bool.false_ne_true, List.replicate_zero,
      List.append_nil, vars_reduce? hreduced]

theorem function_of_compile (hbackend : c.backend.KeepsVars) (hlookup : c.lookup ref = .ok method)
    (hbody : method.body? = some body) (h : (c.compile ref).result = .ok function) :
    ∃ reduced, c.reduce? method body = some reduced ∧
      function.name = ref.symbol ∧
      function.locals = (body.vars.map VarInfo.slot ++ List.replicate
        (flagCount c.options reduced) (⟨.i32, none⟩ : Wasm.Local)).drop method.firstVariable ∧
      function.params = (function.locals.take ref.params.length).map Wasm.Local.type ∧
      function.result = ref.result.map Wasm.ValType.ofFieldType := by
  obtain ⟨normal, decompiled, tree, hnormal, hdecompiled, -, rfl⟩ :=
    (compile_eq_ok_iff hlookup hbody).1 h
  obtain ⟨reduced, hreduced, hvars⟩ := vars_of_normalize hnormal
  refine ⟨reduced, hreduced, rfl, ?_, rfl, rfl⟩
  show (decompiled.vars.drop method.firstVariable).map VarInfo.slot = _
  rw [hbackend method normal decompiled hdecompiled, hvars, List.map_drop, List.map_append,
    List.map_replicate]
  rfl

/-- The locals of a function stand for the declared variables of the body and, when checks are
spelled out, an integer for each check that was left; the instance of a method that is not static
has none. The first of them are the parameters. Where the body declares enough variables, all
options give the same name, parameters and result. All this is so for the stub decompiler, whatever
emitter there is and whatever classes are said to have an initializer. -/
theorem compile_signature (c : Compiler) (emit : Emitter (List Statement))
    (hstub : c.backend = ⟨List Statement, straightLine none, emit⟩) (ref : MethodRef)
    (method : Method) (body : Body) (hlookup : c.lookup ref = .ok method)
    (hbody : method.body? = some body) :
    (∀ (options : Options) (function : Wasm.Function),
      ({ c with options := options }.compile ref).result = .ok function →
      ∃ reduced, { c with options := options }.reduce? method body = some reduced ∧
        function.locals = (body.vars.map VarInfo.slot ++
          List.replicate (if options.expand then Expansion.checkCount reduced.blocks else 0)
            (⟨.i32, none⟩ : Wasm.Local)).drop (if method.flags.isStatic then 0 else 1) ∧
        function.params = (function.locals.take
          (min ref.params.length function.locals.length)).map Wasm.Local.type ∧
        function.result = ref.result.map Wasm.ValType.ofFieldType) ∧
    (ref.params.length + (if method.flags.isStatic then 0 else 1) ≤ body.vars.length →
      ∀ (options options' : Options) (function function' : Wasm.Function),
        ({ c with options := options }.compile ref).result = .ok function →
        ({ c with options := options' }.compile ref).result = .ok function' →
        function.name = function'.name ∧ function.params = function'.params ∧
          function.result = function'.result) := by
  have hbackend : c.backend.KeepsVars := hstub ▸ Backend.keepsVars_straightLine emit
  constructor
  · intro options function h
    obtain ⟨reduced, hreduced, -, hlocals, hparams, hresult⟩ :=
      function_of_compile (c := { c with options := options }) hbackend hlookup hbody h
    refine ⟨reduced, hreduced, hlocals, ?_, hresult⟩
    rw [hparams, ← List.take_eq_take_min]
  · intro hdeclared
    have hdeclared' : ref.params.length + method.firstVariable ≤ body.vars.length := hdeclared
    -- the parameters are cut from the declared variables, before any that were added
    have hparams : ∀ (options : Options) (function : Wasm.Function),
        ({ c with options := options }.compile ref).result = .ok function →
        function.name = ref.symbol ∧
          function.params = (((body.vars.map VarInfo.slot).drop method.firstVariable).take
            ref.params.length).map Wasm.Local.type ∧
          function.result = ref.result.map Wasm.ValType.ofFieldType := by
      intro options function h
      obtain ⟨reduced, -, hname, hlocals, hparams, hresult⟩ :=
        function_of_compile (c := { c with options := options }) hbackend hlookup hbody h
      refine ⟨hname, ?_, hresult⟩
      rw [hparams, hlocals, List.drop_append_of_le_length, List.take_append_of_le_length]
      · rw [List.length_drop, List.length_map]
        omega
      · rw [List.length_map]
        omega
    intro options options' function function' h h'
    obtain ⟨hname, hcut, hresult⟩ := hparams options function h
    obtain ⟨hname', hcut', hresult'⟩ := hparams options' function' h'
    exact ⟨hname.trans hname'.symm, hcut.trans hcut'.symm, hresult.trans hresult'.symm⟩

/-- The body of a constructor with checks in a loop through its entry, and with a block that nothing
leads to. -/
def loopingBody : Body where
  vars := [⟨some (.object "A"), some "this"⟩, ⟨some (.primitive .long), some "n"⟩, ⟨none, none⟩]
  blocks := [⟨[.check "A", .const 2 (.int 1), .check "B"], .branch 2 1 2⟩,
    ⟨[.check "B", .invoke (some 1) (some 0) ⟨"B", ⟨"f", ⟨[], none⟩⟩⟩ [1, 2]], .jump 0⟩,
    ⟨[.check "A"], .exit (some 1)⟩, ⟨[.check "A", .move 98 99], .exit (some 97)⟩]

def constructorRef : MethodRef :=
  ⟨"A", ⟨Selector.constructorName, ⟨[.primitive .long], none⟩⟩⟩

def loopingConstructor : Method := ⟨constructorRef, .empty, some loopingBody⟩

def loopingCompiler : Compiler :=
  ⟨Pool.ofOutlines [⟨"A", [(constructorRef.selector, .empty, some loopingBody),
    (Selector.classInitializer, .static, some ⟨[], [⟨[], .exit none⟩]⟩)]⟩], (· == "A"), .empty,
    .default, .stub none⟩

theorem lookup_loopingConstructor :
    loopingCompiler.lookup constructorRef = .ok loopingConstructor := by
  cbv

theorem compile_signature_loopingConstructor :
    loopingCompiler.backend = ⟨List Statement, straightLine none, emitSimply⟩ ∧
      loopingCompiler.lookup constructorRef = .ok loopingConstructor ∧
      loopingConstructor.body? = some loopingBody ∧
      constructorRef.params.length + (if loopingConstructor.flags.isStatic then 0 else 1) ≤
        loopingBody.vars.length ∧
      ∃ function function' reduced,
        ({ loopingCompiler with options := .default }.compile constructorRef).result =
          .ok function ∧
        ({ loopingCompiler with options := ⟨false, false, true⟩ }.compile constructorRef).result =
          .ok function' ∧
        { loopingCompiler with options := .default }.reduce? loopingConstructor loopingBody =
          some reduced ∧
        function.locals = (loopingBody.vars.map VarInfo.slot ++ List.replicate
          (if Options.default.expand then Expansion.checkCount reduced.blocks else 0)
            (⟨.i32, none⟩ : Wasm.Local)).drop (if loopingConstructor.flags.isStatic then 0 else 1) ∧
        function.params = (function.locals.take
          (min constructorRef.params.length function.locals.length)).map Wasm.Local.type ∧
        function.name = function'.name ∧ function.params = function'.params ∧
          function.result = function'.result := by
  have hclosed : loopingBody.graph.Closed := by decide
  have hdeclared : constructorRef.params.length +
      (if loopingConstructor.flags.isStatic then 0 else 1) ≤ loopingBody.vars.length := by decide
  obtain ⟨hlocals, hsame⟩ := compile_signature loopingCompiler emitSimply rfl
    constructorRef loopingConstructor loopingBody lookup_loopingConstructor rfl
  have hcompiles : ∀ options : Options, ∃ function,
      ({ loopingCompiler with options := options }.compile constructorRef).result =
        .ok function := fun options =>
    exists_result_compile (c := { loopingCompiler with options := options })
      (Backend.total_stub none) lookup_loopingConstructor rfl hclosed
  obtain ⟨function, hfunction⟩ := hcompiles .default
  obtain ⟨function', hfunction'⟩ := hcompiles ⟨false, false, true⟩
  obtain ⟨reduced, hreduced, hslots, hparams, -⟩ := hlocals _ function hfunction
  exact ⟨rfl, lookup_loopingConstructor, rfl, hdeclared, function, function', reduced, hfunction,
    hfunction', hreduced, hslots, hparams, hsame hdeclared _ _ function function' hfunction
      hfunction'⟩

end Compiler

/-! ### Slots -/

namespace Compiler

variable {c : Compiler} {ref : MethodRef} {method : Method} {body normal : Body}
  {listing : List Statement}

theorem exists_normalize_declares (c : Compiler) (method : Method) (hclosed : body.graph.Closed)
    (hdeclares : body.Declares) : ∃ normal, (c.normalize method body).result = .ok normal ∧
      normal.graph.Closed ∧ normal.Declares := by
  refine c.exists_normalize_of_kept (P := fun body => body.graph.Closed ∧ body.Declares) method
    ⟨hclosed, hdeclares⟩ ?_ ?_ ?_
  · rintro body ⟨hclosed, hdeclares⟩
    exact ⟨Body.closed_inject hclosed _ _, Body.declares_inject hdeclares _ _⟩
  · rintro body ⟨hclosed, hdeclares⟩
    obtain ⟨reduced, hreduced, helim⟩ := Body.eliminate?_of_closed c.hasInitializer hclosed
    exact ⟨reduced, hreduced, helim.closed hclosed, helim.declares hdeclares⟩
  · rintro body ⟨hclosed, hdeclares⟩
    exact ⟨Body.closed_expand hclosed, Body.declares_expand hdeclares hclosed⟩

theorem of_mem_placed {first v : Nat} (hclosed : normal.graph.Closed) (hdeclares : normal.Declares)
    (hlisting : normal.listing? = some listing)
    (hv : v ∈ listing.flatMap (Statement.placed first)) : first ≤ v ∧ v < normal.vars.length := by
  obtain ⟨statement, hstatement, hplaced⟩ := List.mem_flatMap.1 hv
  obtain ⟨hle, hnamed⟩ := Statement.of_mem_placed hplaced
  obtain ⟨number, block, hreaches, hblock, hmem⟩ :=
    Body.of_mem_listing hclosed hlisting hstatement
  exact ⟨hle, hdeclares number block hreaches hblock statement hmem v hnamed⟩

theorem exists_compile_of_stub (hstub : c.backend = .stub none)
    (hlookup : c.lookup ref = .ok method) (hbody : method.body? = some body)
    (hnormal : (c.normalize method body).result = .ok normal)
    (hlisting : normal.listing? = some listing) :
    ∃ function, (c.compile ref).result = .ok function ∧
      function.locals = (normal.vars.drop method.firstVariable).map VarInfo.slot ∧
      function.body? = some (emitListing method.firstVariable listing) := by
  obtain ⟨pool, hasInitializer, imports, options, backend⟩ := c
  obtain rfl : backend = .stub none := hstub
  exact ⟨_, (compile_eq_ok_iff hlookup hbody).2 ⟨normal, ⟨normal.vars, listing⟩, _, hnormal,
    Backend.result_straightLine none method hlisting, rfl, rfl⟩, rfl, rfl⟩

/-- A method with a closed body whose reached blocks name only declared variables gives a function
with the stub backend, whatever the options are and whatever classes are said to have an
initializer. The locals in its expression stand, in order, for the variables that the statements of
the normalized body have locals for, block after block as far as the entry reaches: local `i` for
variable `i` or, unless the method is static, for variable `i + 1`. Each of them is a local of the
function and was made for this variable. -/
theorem compile_locals (c : Compiler) (hstub : c.backend = .stub none) (ref : MethodRef)
    (method : Method) (body : Body) (hlookup : c.lookup ref = .ok method)
    (hbody : method.body? = some body) (hclosed : body.graph.Closed) (hdeclares : body.Declares) :
    ∃ function tree normal listing, (c.compile ref).result = .ok function ∧
      function.body? = some tree ∧
      (c.normalize method body).result = .ok normal ∧ normal.listing? = some listing ∧
      (∃ order : List Nat, order.Nodup ∧
        (∀ number, number ∈ order ↔ normal.graph.Reachable number) ∧
        listing = order.flatMap normal.statementsAt) ∧
      (∀ i ∈ tree.locals, i < function.locals.length) ∧
      tree.locals.map (fun i => i + if method.flags.isStatic then 0 else 1) =
        listing.flatMap (Statement.placed (if method.flags.isStatic then 0 else 1)) ∧
      ∀ i, function.locals[i]? =
        (normal.vars[i + if method.flags.isStatic then 0 else 1]?).map VarInfo.slot := by
  obtain ⟨normal, hnormal, hclosed', hdeclares'⟩ :=
    c.exists_normalize_declares method hclosed hdeclares
  obtain ⟨order, -, horder, hlisting⟩ := Body.exists_listing_eq hclosed'
  obtain ⟨function, hfunction, hlocals, htree⟩ := exists_compile_of_stub hstub hlookup hbody hnormal
    hlisting
  have hplaced := standsFor_emitListing method.firstVariable (order.flatMap normal.statementsAt)
  refine ⟨function, _, normal, _, hfunction, htree, hnormal, hlisting,
    ⟨order, horder.nodup, horder.mem_iff, rfl⟩, fun i hi => ?_, hplaced, fun i => ?_⟩
  · have hstands : i + method.firstVariable ∈
        (order.flatMap normal.statementsAt).flatMap (Statement.placed method.firstVariable) :=
      hplaced ▸ List.mem_map_of_mem hi
    obtain ⟨-, hlt⟩ := of_mem_placed hclosed' hdeclares' hlisting hstands
    rw [hlocals, List.length_map, List.length_drop]
    omega
  · rw [hlocals, List.getElem?_map, List.getElem?_drop, Nat.add_comm]
    rfl

theorem declares_loopingBody : loopingBody.Declares := by
  intro number block hreaches hblock
  have hlt : number < 3 := hreaches.lt_of_stays (by decide) (by decide)
  have hall : ∀ block ∈ loopingBody.blocks.take 3, ∀ statement ∈ block.statements,
      ∀ v ∈ statement.vars, v < loopingBody.vars.length := by
    decide
  exact hall block (List.mem_of_getElem? ((List.getElem?_take_of_lt hlt).trans hblock))

theorem compile_locals_loopingConstructor :
    loopingCompiler.backend = .stub none ∧
      loopingCompiler.lookup constructorRef = .ok loopingConstructor ∧
      loopingConstructor.body? = some loopingBody ∧ loopingBody.graph.Closed ∧
      loopingBody.Declares ∧
      ∃ function tree normal listing, (loopingCompiler.compile constructorRef).result =
          .ok function ∧
        function.body? = some tree ∧
        (loopingCompiler.normalize loopingConstructor loopingBody).result = .ok normal ∧
        normal.listing? = some listing ∧
        (∃ order : List Nat, order.Nodup ∧
          (∀ number, number ∈ order ↔ normal.graph.Reachable number) ∧
          listing = order.flatMap normal.statementsAt) ∧
        (∀ i ∈ tree.locals, i < function.locals.length) ∧
        tree.locals.map (fun i => i + if loopingConstructor.flags.isStatic then 0 else 1) =
          listing.flatMap
            (Statement.placed (if loopingConstructor.flags.isStatic then 0 else 1)) ∧
        ∀ i, function.locals[i]? =
          (normal.vars[i + if loopingConstructor.flags.isStatic then 0 else 1]?).map
            VarInfo.slot := by
  have hclosed : loopingBody.graph.Closed := by decide
  exact ⟨rfl, lookup_loopingConstructor, rfl, hclosed, declares_loopingBody,
    compile_locals loopingCompiler rfl constructorRef loopingConstructor loopingBody
      lookup_loopingConstructor rfl hclosed declares_loopingBody⟩

end Compiler

end MethodLowering
