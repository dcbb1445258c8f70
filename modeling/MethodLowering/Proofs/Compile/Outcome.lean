import MethodLowering.Compiler
import MethodLowering.Proofs.Check.Closure
import MethodLowering.Proofs.Classes.Keeping

/-!
What comes of compiling a class. In a well-kept pool every method is found again under its own
reference, and a closed body always gives a function; so a class that is known fails only for a
method that needs a body and has none, the first of these in the order of the selectors, and gives
one function for each method that is not abstract otherwise.
-/

set_option autoImplicit false
set_option relaxedAutoImplicit false

namespace MethodLowering

section MapM

variable {α β ε : Type} {f : α → Except ε β} {items : List α} {results : List β} {failure : ε}

theorem mapM_cons_eq_ok_iff {item : α} : (item :: items).mapM f = .ok results ↔
    ∃ result more, f item = .ok result ∧ items.mapM f = .ok more ∧ results = result :: more := by
  rw [List.mapM_cons]
  constructor
  · intro h
    cases hitem : f item with
    | error failure =>
      rw [hitem] at h
      cases h
    | ok result =>
      cases hmore : items.mapM f with
      | error failure =>
        rw [hitem, hmore] at h
        cases h
      | ok more =>
        rw [hitem, hmore] at h
        cases h
        exact ⟨result, more, rfl, rfl, rfl⟩
  · rintro ⟨result, more, hitem, hmore, rfl⟩
    rw [hitem, hmore]
    rfl

theorem mapM_eq_ok_iff :
    items.mapM f = .ok results ↔ List.Forall₂ (fun a b => f a = .ok b) items results := by
  induction items generalizing results with
  | nil =>
    rw [List.forall₂_nil_left_iff]
    exact ⟨fun h => (Except.ok.inj h).symm, fun h => h ▸ rfl⟩
  | cons item items ih =>
    rw [mapM_cons_eq_ok_iff, List.forall₂_cons_left_iff]
    simp only [ih]

theorem mapM_cons_eq_error_iff {item : α} : (item :: items).mapM f = .error failure ↔
    f item = .error failure ∨ (∃ result, f item = .ok result) ∧ items.mapM f = .error failure := by
  rw [List.mapM_cons]
  cases hitem : f item with
  | error found => simp [bind, Except.bind]
  | ok result => cases hmore : items.mapM f <;> simp [bind, Except.bind, pure, Except.pure]

theorem mapM_eq_error_iff :
    items.mapM f = .error failure ↔ ∃ before item after, items = before ++ item :: after ∧
      (∀ a ∈ before, ∃ b, f a = .ok b) ∧ f item = .error failure := by
  induction items with
  | nil => simp [pure, Except.pure]
  | cons first items ih =>
    rw [mapM_cons_eq_error_iff, ih]
    constructor
    · rintro (hfirst | ⟨hfirst, before, item, after, rfl, hbefore, hitem⟩)
      · exact ⟨[], first, items, rfl, by simp, hfirst⟩
      · exact ⟨first :: before, item, after, rfl, List.forall_mem_cons.2 ⟨hfirst, hbefore⟩, hitem⟩
    · rintro ⟨before, item, after, hsplit, hbefore, hitem⟩
      cases before with
      | nil =>
        obtain ⟨rfl, rfl⟩ := List.cons.inj hsplit
        exact .inl hitem
      | cons other before =>
        obtain ⟨rfl, rfl⟩ := List.cons.inj hsplit
        rw [List.forall_mem_cons] at hbefore
        exact .inr ⟨hbefore.1, before, item, after, rfl, hbefore.2, hitem⟩

end MapM

def ImportTable.ofRegistrations (registered : List (MethodRef × String × String)) : ImportTable :=
  registered.foldl (fun imports entry => imports.register entry.1 entry.2.1 entry.2.2) empty

/-- The import of a method: the last one registered for it, or the one for what is not known. -/
def Import.lastOf (registered : List (MethodRef × String × String)) (ref : MethodRef) : Import :=
  match registered.reverse.find? fun entry => entry.1 = ref with
  | some entry => ⟨some entry.2.1, entry.2.2⟩
  | none => .unresolved

theorem ImportTable.find?_ofRegistrations (registered : List (MethodRef × String × String))
    (ref : MethodRef) :
    ((ofRegistrations registered).find? ref).getD .unresolved = Import.lastOf registered ref := by
  have hregistered : ofRegistrations registered = ⟨registered.foldl
      (fun table entry => table.insert entry.1 ⟨some entry.2.1, entry.2.2⟩) .empty⟩ :=
    List.foldl_hom ImportTable.mk fun _ _ => rfl
  rw [hregistered, find?, Table.find?_foldl_insert, Table.find?_empty, Option.or_none,
    Import.lastOf]
  cases registered.reverse.find? fun entry => entry.1 = ref <;> rfl

/-- The function that stands for a method supplied from outside. -/
def Wasm.Function.stub (ref : MethodRef) (source : Import) : Wasm.Function :=
  { name := ref.symbol
    params := ref.params.map ValType.ofFieldType
    result := none
    locals := []
    body? := none
    source? := some source }

def Pool.AllClosed (pool : Pool) : Prop :=
  ∀ cls ∈ pool.classes.values, ∀ method ∈ cls.methods.values, ∀ body, method.body? = some body →
    body.graph.Closed

theorem Pool.allClosed_ofOutlines {outlines : List ClassOutline}
    (h : ∀ outline ∈ outlines, ∀ member ∈ outline.members, ∀ body, member.2.2 = some body →
      body.graph.Closed) : (ofOutlines outlines).AllClosed := by
  intro cls hcls method hmethod body hbody
  obtain ⟨outline, houtline, member, hmember, rfl⟩ := exists_member hcls hmethod
  exact h outline houtline member hmember body hbody

/-- The method needs a body and has none. -/
structure Method.LacksBody (method : Method) : Prop where
  concrete : method.flags.isAbstract = false
  own : method.flags.isNative = false
  missing : method.body? = none

namespace Class

variable {cls : Class} {method : Method}

/-- The methods of a class that are not abstract, in the order of their selectors. -/
def concrete (cls : Class) : List Method :=
  cls.methods.values.filter fun method => !method.flags.isAbstract

theorem mem_concrete_iff :
    method ∈ cls.concrete ↔ method ∈ cls.methods.values ∧ method.flags.isAbstract = false := by
  simp [concrete]

theorem WellKept.pairwise_concrete (h : cls.WellKept) :
    cls.concrete.Pairwise fun a b => compare a.ref.selector b.ref.selector = .lt :=
  h.pairwise_values.sublist List.filter_sublist

/-- The first method of the class, in the order of the selectors, that lacks its body. -/
structure FirstLacking (cls : Class) (method : Method) : Prop where
  mem : method ∈ cls.methods.values
  lacks : method.LacksBody
  first : ∀ other ∈ cls.methods.values, other.LacksBody →
    (compare method.ref.selector other.ref.selector).isLE

end Class

namespace Backend

/-- A closed body is always decompiled, and what comes of it emitted. -/
def Total (backend : Backend) : Prop :=
  ∀ method body, body.graph.Closed →
    ∃ decompiled, (backend.decompile method body).result = .ok decompiled ∧
      ∀ function ref first, ∃ tree,
        (backend.emit decompiled.tree function ref first).result = .ok tree

theorem result_straightLine (vars? : Option (List VarInfo)) (method : Method) {body : Body}
    {listing : List Statement} (h : body.listing? = some listing) :
    (straightLine vars? method body).result = .ok ⟨vars?.getD body.vars, listing⟩ := by
  rw [straightLine, Logged.result_bind_of_ok (Logged.result_tell _), h, Logged.orFail_some_bind,
    Logged.result_pure]

theorem total_stub (vars? : Option (List VarInfo)) : (stub vars?).Total := by
  intro method body hclosed
  obtain ⟨listing, hlisting⟩ := Body.exists_listing hclosed
  exact ⟨_, result_straightLine vars? method hlisting, fun _ _ first =>
    ⟨emitListing first listing, rfl⟩⟩

end Backend

namespace Compiler

variable {c : Compiler} {cls : Class} {name : String} {ref : MethodRef} {method : Method}
  {body reduced : Body} {function : Wasm.Function} {functions : List Wasm.Function}
  {failure : Failure}

/-! ### Compiling one method -/

theorem result_eliminateStep (c : Compiler) (body : Body) :
    (c.eliminateStep body).result =
      (body.eliminate? c.hasInitializer).elim (.error .danglingTarget) .ok := by
  unfold eliminateStep Body.eliminate?
  cases Elimination.plan? c.hasInitializer body <;> rfl

theorem eliminateStep_eq_ok_iff : (c.eliminateStep body).result = .ok reduced ↔
    body.eliminate? c.hasInitializer = some reduced := by
  rw [result_eliminateStep]
  cases body.eliminate? c.hasInitializer <;> simp

theorem normalize_eq (c : Compiler) (method : Method) (body : Body) :
    c.normalize method body =
      (if c.options.inject then c.injectStep method body else pure body) >>= fun body =>
        (if c.options.eliminate then c.eliminateStep body else pure body) >>= fun body =>
          if c.options.expand then expandStep body else pure body := by
  unfold normalize
  cases c.options.inject <;> cases c.options.eliminate <;> rfl

theorem exists_step {P : Body → Prop} (taken : Bool) (step : Traced Body) (h : P body)
    (hstep : ∃ result, step.result = .ok result ∧ P result) :
    ∃ result, (if taken then step else pure body).result = .ok result ∧ P result := by
  cases taken with
  | false => exact ⟨body, rfl, h⟩
  | true => exact hstep

/-- What every step of normalization keeps holds of a normalized body. -/
theorem exists_normalize_of_kept {P : Body → Prop} (c : Compiler) (method : Method) (h : P body)
    (hinject : ∀ body, P body → P (EntryCheck.inject c.hasInitializer method body))
    (heliminate : ∀ body, P body → ∃ reduced,
      body.eliminate? c.hasInitializer = some reduced ∧ P reduced)
    (hexpand : ∀ body, P body → P body.expand) :
    ∃ result, (c.normalize method body).result = .ok result ∧ P result := by
  obtain ⟨injected, hinjected, hkept⟩ := exists_step c.options.inject
    (c.injectStep method body) h ⟨_, rfl, hinject body h⟩
  obtain ⟨found, hfound, hkeptFound⟩ := heliminate injected hkept
  obtain ⟨reduced, hreduced, hkept'⟩ := exists_step c.options.eliminate
    (c.eliminateStep injected) hkept ⟨found, eliminateStep_eq_ok_iff.2 hfound, hkeptFound⟩
  obtain ⟨expanded, hexpanded, hkept''⟩ := exists_step c.options.expand
    (expandStep reduced) hkept' ⟨_, rfl, hexpand reduced hkept'⟩
  refine ⟨expanded, ?_, hkept''⟩
  rw [normalize_eq, Logged.result_bind_of_ok hinjected, Logged.result_bind_of_ok hreduced,
    hexpanded]

theorem exists_normalize (c : Compiler) (method : Method) (h : body.graph.Closed) :
    ∃ result, (c.normalize method body).result = .ok result ∧ result.graph.Closed := by
  refine c.exists_normalize_of_kept (P := fun body => body.graph.Closed) method h
    (fun _ h => Body.closed_inject h _ _) (fun _ h => ?_) (fun _ h => Body.closed_expand h)
  obtain ⟨reduced, hreduced, helim⟩ := Body.eliminate?_of_closed c.hasInitializer h
  exact ⟨reduced, hreduced, helim.closed h⟩

theorem result_compile_of_missing (hlookup : c.lookup ref = .ok method)
    (hbody : method.body? = none) : (c.compile ref).result = .error (.missingBody ref) := by
  rw [compile, Logged.result_bind_of_ok hlookup, hbody]
  rfl

theorem compile_eq_ok_iff (hlookup : c.lookup ref = .ok method)
    (hbody : method.body? = some body) : (c.compile ref).result = .ok function ↔
      ∃ normal decompiled tree, (c.normalize method body).result = .ok normal ∧
        (c.backend.decompile method normal).result = .ok decompiled ∧
        (c.backend.emit decompiled.tree (declare ref method.firstVariable decompiled.vars) ref
          method.firstVariable).result = .ok tree ∧
        function =
          { declare ref method.firstVariable decompiled.vars with body? := some tree } := by
  rw [compile, Logged.result_bind_of_ok hlookup, hbody, Logged.orFail_some_bind,
    Logged.result_bind_of_ok (Traced.result_remark _)]
  simp only [Logged.result_bind_eq_ok_iff, Traced.result_remark, Logged.result_pure,
    Except.ok.injEq, exists_and_left, true_and, exists_const, eq_comm (a := function)]

theorem exists_result_compile (hbackend : c.backend.Total) (hlookup : c.lookup ref = .ok method)
    (hbody : method.body? = some body) (h : body.graph.Closed) :
    ∃ function, (c.compile ref).result = .ok function := by
  obtain ⟨normal, hnormal, hclosed⟩ := c.exists_normalize method h
  obtain ⟨decompiled, hdecompiled, hemit⟩ := hbackend method normal hclosed
  obtain ⟨tree, htree⟩ := hemit (declare ref method.firstVariable decompiled.vars) ref
    method.firstVariable
  exact ⟨_, (compile_eq_ok_iff hlookup hbody).2
    ⟨normal, decompiled, tree, hnormal, hdecompiled, htree, rfl⟩⟩

theorem result_compileNative (c : Compiler) (ref : MethodRef) :
    (c.compileNative ref).result =
      .ok (.stub ref ((c.imports.find? ref).getD .unresolved)) := by
  unfold compileNative
  cases c.imports.find? ref <;> rfl

/-- The function of a method that is not abstract. -/
def functionOf (c : Compiler) (method : Method) : Traced Wasm.Function :=
  if method.flags.isNative then c.compileNative method.ref else c.compile method.ref

/-! ### Compiling a class -/

theorem compileMethods_cons (c : Compiler) (method : Method) (methods : List Method) :
    c.compileMethods (method :: methods) =
      if method.flags.isAbstract then c.compileMethods methods
      else c.functionOf method >>= fun function =>
        c.compileMethods methods >>= fun functions => pure (function :: functions) := by
  rw [compileMethods, functionOf]
  cases method.flags.isNative <;> rfl

theorem result_compileMethods (c : Compiler) (methods : List Method) :
    (c.compileMethods methods).result =
      (methods.filter fun method => !method.flags.isAbstract).mapM fun method =>
        (c.functionOf method).result := by
  induction methods with
  | nil => rfl
  | cons method methods ih =>
    rw [compileMethods_cons]
    cases habstract : method.flags.isAbstract with
    | true => rw [if_pos rfl, ih, List.filter_cons_of_neg (by simp [habstract])]
    | false =>
      rw [if_neg Bool.false_ne_true, List.filter_cons_of_pos (by simp [habstract]), List.mapM_cons,
        ← ih, Logged.result_bind]
      cases (c.functionOf method).result with
      | error failure => rfl
      | ok function =>
        simp only [Except.bind, Logged.result_bind]
        cases (c.compileMethods methods).result <;> rfl

theorem result_compileClass (hfound : c.pool.find? name = some cls) :
    (c.compileClass name).result =
      cls.concrete.mapM fun method => (c.functionOf method).result := by
  rw [compileClass, hfound, Logged.orFail_some_bind]
  exact c.result_compileMethods cls.methods.values

theorem result_compileClass_of_unknown (hfound : c.pool.find? name = none) :
    (c.compileClass name).result = .error (.classNotFound name) := by
  rw [compileClass, hfound, Logged.orFail_none_bind]
  rfl

theorem compileClass_eq_ok_iff (hfound : c.pool.find? name = some cls) :
    (c.compileClass name).result = .ok functions ↔
      List.Forall₂ (fun method function => (c.functionOf method).result = .ok function)
        cls.concrete functions := by
  rw [result_compileClass hfound]
  exact mapM_eq_ok_iff

theorem lookup_of_mem (hpool : c.pool.WellKept) (hfound : c.pool.find? name = some cls)
    (hmethod : method ∈ cls.methods.values) : c.lookup method.ref = .ok method := by
  obtain ⟨rfl, hkept⟩ := hpool.of_find? hfound
  have howner : method.ref.owner = cls.name := by rw [hkept.owner_eq hmethod]
  rw [lookup, howner, hfound]
  simp only [hkept.mem_values_iff.1 hmethod]

theorem functionOf_eq_error_iff (hbackend : c.backend.Total) (hpool : c.pool.WellKept)
    (hclosed : c.pool.AllClosed) (hfound : c.pool.find? name = some cls)
    (hmethod : method ∈ cls.concrete) :
    (c.functionOf method).result = .error failure ↔
      method.LacksBody ∧ failure = .missingBody method.ref := by
  obtain ⟨hmem, habstract⟩ := Class.mem_concrete_iff.1 hmethod
  have hlookup := lookup_of_mem hpool hfound hmem
  have hcls : cls ∈ c.pool.classes.values :=
    List.mem_map.2 ⟨_, hpool.find?_eq_some_iff.1 hfound, rfl⟩
  unfold functionOf
  cases hnative : method.flags.isNative with
  | true =>
    rw [if_pos rfl, result_compileNative]
    constructor
    · exact fun h => absurd h nofun
    · rintro ⟨⟨-, hown, -⟩, -⟩
      exact absurd (hnative.symm.trans hown) nofun
  | false =>
    rw [if_neg Bool.false_ne_true]
    cases hbody : method.body? with
    | none =>
      rw [result_compile_of_missing hlookup hbody, Except.error.injEq]
      constructor
      · exact fun h => ⟨⟨habstract, hnative, hbody⟩, h.symm⟩
      · exact fun h => h.2.symm
    | some body =>
      obtain ⟨function, hfunction⟩ :=
        exists_result_compile hbackend hlookup hbody (hclosed cls hcls method hmem body hbody)
      rw [hfunction]
      constructor
      · exact fun h => absurd h nofun
      · rintro ⟨⟨-, -, hmissing⟩, -⟩
        exact absurd (hbody.symm.trans hmissing) nofun

/-- What comes of compiling the class of a name: it is unknown, or the first method that lacks its
body is reported, or each method that is not abstract gives a function, in the order of the
selectors. One supplied from outside gives a stub with the import registered last. -/
structure ClassOutcome (c : Compiler) (registered : List (MethodRef × String × String))
    (name : String) : Prop where
  unknown : (c.compileClass name).result = .error (.classNotFound name) ↔ c.pool.find? name = none
  fails : ∀ cls, c.pool.find? name = some cls →
    ((∃ failure, (c.compileClass name).result = .error failure) ↔
      ∃ method ∈ cls.methods.values, method.LacksBody)
  reports : ∀ cls failure, c.pool.find? name = some cls →
    ((c.compileClass name).result = .error failure ↔
      ∃ method, cls.FirstLacking method ∧ failure = .missingBody method.ref)
  gives : ∀ cls, c.pool.find? name = some cls →
    (∀ method ∈ cls.methods.values, ¬ method.LacksBody) →
    ∃ functions, (c.compileClass name).result = .ok functions ∧
      List.Forall₂ (fun method function =>
        (method.flags.isNative = true →
          function = .stub method.ref (Import.lastOf registered method.ref)) ∧
        (method.flags.isNative = false → (c.compile method.ref).result = .ok function))
        cls.concrete functions
  increasing : ∀ cls, c.pool.find? name = some cls →
    cls.concrete.Pairwise fun a b => compare a.ref.selector b.ref.selector = .lt

theorem compileClass_eq_error_iff (hbackend : c.backend.Total) (hpool : c.pool.WellKept)
    (hclosed : c.pool.AllClosed) (hfound : c.pool.find? name = some cls) :
    (c.compileClass name).result = .error failure ↔
      ∃ method, cls.FirstLacking method ∧ failure = .missingBody method.ref := by
  have hkept : cls.WellKept := (hpool.of_find? hfound).2
  have hfails : ∀ method ∈ cls.concrete, ∀ failure,
      (c.functionOf method).result = .error failure ↔
        method.LacksBody ∧ failure = .missingBody method.ref :=
    fun method hmethod failure => functionOf_eq_error_iff hbackend hpool hclosed hfound hmethod
  rw [result_compileClass hfound, mapM_eq_error_iff]
  constructor
  · rintro ⟨before, method, after, hsplit, hbefore, hfailure⟩
    have hmem : method ∈ cls.concrete := by simp [hsplit]
    obtain ⟨hlacks, rfl⟩ := (hfails method hmem failure).1 hfailure
    refine ⟨method, ⟨(Class.mem_concrete_iff.1 hmem).1, hlacks, ?_⟩, rfl⟩
    intro other hother hothers
    have hmem' : other ∈ cls.concrete := Class.mem_concrete_iff.2 ⟨hother, hothers.concrete⟩
    apply isLE_of_split hkept.pairwise_concrete hsplit hmem'
    intro hearlier
    obtain ⟨function, hfunction⟩ := hbefore other hearlier
    rw [(hfails other hmem' _).2 ⟨hothers, rfl⟩] at hfunction
    exact absurd hfunction nofun
  · rintro ⟨method, hfirst, rfl⟩
    have hmem : method ∈ cls.concrete :=
      Class.mem_concrete_iff.2 ⟨hfirst.mem, hfirst.lacks.concrete⟩
    obtain ⟨before, after, hsplit⟩ := List.append_of_mem hmem
    refine ⟨before, method, after, hsplit, ?_, (hfails method hmem _).2 ⟨hfirst.lacks, rfl⟩⟩
    intro other hearlier
    have hmem' : other ∈ cls.concrete := by
      rw [hsplit]
      exact List.mem_append_left _ hearlier
    cases hresult : (c.functionOf other).result with
    | ok function => exact ⟨function, rfl⟩
    | error found =>
      -- an earlier method that lacks its body would come first
      have hlacks := ((hfails other hmem' found).1 hresult).1
      have hle := hfirst.first other (Class.mem_concrete_iff.1 hmem').1 hlacks
      have hpairs := hsplit ▸ hkept.pairwise_concrete
      have hlt := (List.pairwise_append.1 hpairs).2.2 other hearlier method List.mem_cons_self
      rw [Std.OrientedCmp.gt_iff_lt.2 hlt] at hle
      exact absurd hle nofun

theorem exists_error_iff (hbackend : c.backend.Total) (hpool : c.pool.WellKept)
    (hclosed : c.pool.AllClosed) (hfound : c.pool.find? name = some cls) :
    (∃ failure, (c.compileClass name).result = .error failure) ↔
      ∃ method ∈ cls.methods.values, method.LacksBody := by
  constructor
  · rintro ⟨failure, hfailure⟩
    obtain ⟨method, hfirst, -⟩ :=
      (compileClass_eq_error_iff hbackend hpool hclosed hfound).1 hfailure
    exact ⟨method, hfirst.mem, hfirst.lacks⟩
  · rintro ⟨method, hmethod, hlacks⟩
    cases hresult : (c.compileClass name).result with
    | error failure => exact ⟨failure, rfl⟩
    | ok functions =>
      have hall := (compileClass_eq_ok_iff hfound).1 hresult
      have heach : ∀ method ∈ cls.concrete, ∃ function,
          (c.functionOf method).result = .ok function :=
        ((List.forall₂_and_left _ _).1 (hall.imp fun _ function h => ⟨⟨function, h⟩, h⟩)).1
      have hmem := Class.mem_concrete_iff.2 ⟨hmethod, hlacks.concrete⟩
      obtain ⟨function, hfunction⟩ := heach method hmem
      rw [(functionOf_eq_error_iff hbackend hpool hclosed hfound hmem).2 ⟨hlacks, rfl⟩] at hfunction
      exact absurd hfunction nofun

theorem exists_ok (hbackend : c.backend.Total) (hpool : c.pool.WellKept)
    (hclosed : c.pool.AllClosed) (hfound : c.pool.find? name = some cls)
    (hbodies : ∀ method ∈ cls.methods.values, ¬ method.LacksBody) :
    ∃ functions, (c.compileClass name).result = .ok functions := by
  cases hresult : (c.compileClass name).result with
  | ok functions => exact ⟨functions, rfl⟩
  | error failure =>
    obtain ⟨method, hmethod, hlacks⟩ :=
      (exists_error_iff hbackend hpool hclosed hfound).1 ⟨_, hresult⟩
    exact absurd hlacks (hbodies method hmethod)

/-- In a pool to which classes were added whose methods were added as their own, and whose bodies
are closed, every class has its outcome with the stub backend, whatever classes are said to have an
initializer and whatever the options and the registered imports are. -/
theorem compileClass_outcome (outlines : List ClassOutline)
    (hasInitializer : String → Bool) (registered : List (MethodRef × String × String))
    (options : Options) (vars? : Option (List VarInfo))
    (hclosed : (Pool.ofOutlines outlines).AllClosed) (name : String) :
    ClassOutcome ⟨Pool.ofOutlines outlines, hasInitializer,
      ImportTable.ofRegistrations registered, options, .stub vars?⟩ registered name := by
  have hbackend := Backend.total_stub vars?
  have hpool := Pool.wellKept_ofOutlines outlines
  constructor
  · constructor
    · intro h
      cases hfound : (Pool.ofOutlines outlines).find? name with
      | none => rfl
      | some cls =>
        obtain ⟨method, -, hfailure⟩ :=
          (compileClass_eq_error_iff hbackend hpool hclosed hfound).1 h
        exact absurd hfailure nofun
    · exact result_compileClass_of_unknown
  · exact fun cls hfound => exists_error_iff hbackend hpool hclosed hfound
  · exact fun cls failure hfound => compileClass_eq_error_iff hbackend hpool hclosed hfound
  · intro cls hfound hbodies
    obtain ⟨functions, hresult⟩ := exists_ok hbackend hpool hclosed hfound hbodies
    refine ⟨functions, hresult, ((compileClass_eq_ok_iff hfound).1 hresult).imp ?_⟩
    intro method function hfunction
    unfold functionOf at hfunction
    constructor
    · intro hnative
      rw [if_pos hnative, result_compileNative, ImportTable.find?_ofRegistrations] at hfunction
      exact (Except.ok.inj hfunction).symm
    · intro hown
      rwa [if_neg (by simp [hown])] at hfunction
  · exact fun cls hfound => (hpool.of_find? hfound).2.pairwise_concrete

/-- A class with a method of each kind: one is abstract and native, one is native and has a body,
one has a body, and two lack theirs. -/
def mixedClass : ClassOutline where
  name := "A"
  members :=
    [(⟨"r", ⟨[], none⟩⟩, .empty, none),
      (⟨"n", ⟨[.primitive .int], none⟩⟩, .native, some ⟨[], [⟨[.check "A"], .jump 0⟩]⟩),
      (⟨"a", ⟨[], none⟩⟩, AccessFlags.abstract.union .native, none),
      (⟨"q", ⟨[], none⟩⟩, .static, none),
      (⟨"f", ⟨[], none⟩⟩, .static, some ⟨[], [⟨[.check "A"], .exit none⟩]⟩)]

theorem compileClass_outcome_mixedClass :
    (Pool.ofOutlines [mixedClass]).AllClosed ∧
      ClassOutcome ⟨Pool.ofOutlines [mixedClass], (Pool.ofOutlines [mixedClass]).hasInitializer,
        ImportTable.ofRegistrations
          [(⟨"A", ⟨"n", ⟨[.primitive .int], none⟩⟩⟩, "io", "old"),
            (⟨"A", ⟨"n", ⟨[.primitive .int], none⟩⟩⟩, "io", "new")], .default, .stub none⟩
        [(⟨"A", ⟨"n", ⟨[.primitive .int], none⟩⟩⟩, "io", "old"),
          (⟨"A", ⟨"n", ⟨[.primitive .int], none⟩⟩⟩, "io", "new")] "A" := by
  have hclosed : (Pool.ofOutlines [mixedClass]).AllClosed := by
    apply Pool.allClosed_ofOutlines
    intro outline houtline member hmember body hbody
    obtain rfl := List.mem_singleton.1 houtline
    simp only [mixedClass, List.mem_cons, List.not_mem_nil, or_false] at hmember
    obtain rfl | rfl | rfl | rfl | rfl := hmember
    · cases hbody
    · cases hbody
      simp [Body.closed_iff, Terminator.targets]
    · cases hbody
    · cases hbody
    · cases hbody
      simp [Body.closed_iff, Terminator.targets]
  exact ⟨hclosed, compileClass_outcome [mixedClass] _ _ .default none hclosed "A"⟩

end Compiler

end MethodLowering
