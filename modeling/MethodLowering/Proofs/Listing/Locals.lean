import MethodLowering.Backend

/-!
Locals of emitted expressions. The locals that the expression of a listing reads and writes stand,
in order, for the variables that its statements name, as far as these have locals and what they are
used for has an expression: local `i` stands for variable `i + first`.
-/

set_option autoImplicit false
set_option relaxedAutoImplicit false

namespace MethodLowering

namespace Wasm

mutual

/-- The locals read or written anywhere in an expression, in order. -/
def Expr.locals : Expr → List Nat
  | .block _ _ body => localsAll body
  | .loop _ body => localsAll body
  | .br _ condition => localsOption condition
  | .cond condition consequent alternative =>
    condition.locals ++ localsAll consequent ++ localsAll alternative
  | .ret value => localsOption value
  | .drop value => value.locals
  | .localGet index => [index]
  | .localSet index value => index :: value.locals
  | .i32 _ => []
  | .i64 _ => []
  | .f32 _ => []
  | .f64 _ => []
  | .intBinary _ _ left right => left.locals ++ right.locals
  | .floatBinary _ _ left right => left.locals ++ right.locals
  | .call _ args => localsAll args
  | .unreachable => []

def Expr.localsAll : List Expr → List Nat
  | [] => []
  | e :: es => e.locals ++ localsAll es

def Expr.localsOption : Option Expr → List Nat
  | none => []
  | some e => e.locals

end

theorem Expr.localsAll_eq_flatMap (es : List Expr) : localsAll es = es.flatMap locals := by
  induction es with
  | nil => rfl
  | cons e es ih => rw [localsAll, ih, List.flatMap_cons]

end Wasm

def Statement.vars : Statement → List Nat
  | perform instr => instr.vars
  | leave value => value.toList

/-- Whether an operation on two numbers has an expression. -/
def NumericKind.emits (kind : NumericKind) (op : BinaryOp) : Bool :=
  match kind with
  | int | long => true
  | float | double => op.floatOp?.isSome

/-- The variables in a store of `sources` to `dest`, as far as they have locals; without a local to
store to there is no expression. -/
def placedStore (first dest : Nat) (sources : List Nat) : List Nat :=
  if dest < first then [] else dest :: sources.filter (first ≤ ·)

/-- The variables that the expression of an instruction has locals for, in order. -/
def Instr.placed (first : Nat) : Instr → List Nat
  | const dest _ => placedStore first dest []
  | move dest source => placedStore first dest [source]
  | binary dest op kind left right =>
    placedStore first dest (if kind.emits op then [left, right] else [])
  | negate dest _ _ => placedStore first dest []
  | invoke none instance? _ args => (instance?.toList ++ args).filter (first ≤ ·)
  | invoke (some dest) instance? _ args => placedStore first dest (instance?.toList ++ args)
  | getField dest _ _ _ => placedStore first dest []
  | putField _ _ _ _ => []
  | check _ => []
  | test dest _ => placedStore first dest []

def Statement.placed (first : Nat) : Statement → List Nat
  | perform instr => instr.placed first
  | leave value => value.toList.filter (first ≤ ·)

namespace Wasm.Expr

/-- The variables that the locals of an expression stand for, in order, when local `i` stands for
variable `i + first`. -/
def standsFor (first : Nat) (e : Expr) : List Nat := e.locals.map (· + first)

variable {first : Nat}

theorem standsFor_call (function : String) (args : List Expr) :
    (call function args).standsFor first = args.flatMap (standsFor first) := by
  rw [standsFor, locals, localsAll_eq_flatMap, List.map_flatMap]
  rfl

theorem standsFor_block (label : Option String) (result : Option ValType) (body : List Expr) :
    (block label result body).standsFor first = body.flatMap (standsFor first) := by
  rw [standsFor, locals, localsAll_eq_flatMap, List.map_flatMap]
  rfl

end Wasm.Expr

open Wasm

variable {first v dest : Nat} {sources : List Nat} {instr : Instr} {statement : Statement}

theorem standsFor_loadVariable (first v : Nat) :
    (loadVariable first v).standsFor first = [v].filter (first ≤ ·) := by
  unfold loadVariable localOf?
  by_cases hv : v < first
  · simp [hv, Expr.standsFor, Expr.locals]
  · simp [hv, Expr.standsFor, Expr.locals, Nat.sub_add_cancel, Nat.not_lt.1 hv]

theorem standsFor_loadVariables (first : Nat) (sources : List Nat) :
    (sources.map (loadVariable first)).flatMap (Expr.standsFor first) =
      sources.filter (first ≤ ·) := by
  induction sources with
  | nil => rfl
  | cons source sources ih =>
    rw [List.map_cons, List.flatMap_cons, ih, standsFor_loadVariable, ← List.filter_append,
      List.singleton_append]

theorem standsFor_storeVariable (first dest : Nat) {value : Expr}
    (hvalue : value.standsFor first = sources.filter (first ≤ ·)) :
    (storeVariable first dest value).standsFor first = placedStore first dest sources := by
  unfold storeVariable localOf? placedStore
  rw [← hvalue]
  by_cases hdest : dest < first
  · simp [hdest, Expr.standsFor, Expr.locals]
  · simp [hdest, Expr.standsFor, Expr.locals, Nat.sub_add_cancel, Nat.not_lt.1 hdest]

theorem standsFor_emit_literal (first : Nat) (value : Literal) :
    value.emit.standsFor first = [] := by
  cases value <;> rfl

theorem standsFor_emitBinary (first : Nat) (op : BinaryOp) (kind : NumericKind)
    (left right : Nat) :
    (emitBinary op kind (loadVariable first left) (loadVariable first right)).standsFor first =
      (if kind.emits op then [left, right] else []).filter (first ≤ ·) := by
  have hboth : ((loadVariable first left).locals ++ (loadVariable first right).locals).map
      (· + first) = [left, right].filter (first ≤ ·) := by
    have hpair := standsFor_loadVariables first [left, right]
    rw [List.map_cons, List.map_singleton, List.flatMap_cons, List.flatMap_singleton] at hpair
    rw [List.map_append]
    exact hpair
  have hfloat : ∀ width, (emitFloatBinary width op (loadVariable first left)
      (loadVariable first right)).standsFor first =
      (if op.floatOp?.isSome then [left, right] else []).filter (first ≤ ·) := by
    intro width
    unfold emitFloatBinary
    cases op.floatOp? with
    | none => rfl
    | some op => exact hboth
  cases kind with
  | int => exact hboth
  | long => exact hboth
  | float => exact hfloat .w32
  | double => exact hfloat .w64

theorem Instr.standsFor_emit (first : Nat) (instr : Instr) :
    (instr.emit first).standsFor first = instr.placed first := by
  cases instr with
  | const dest value =>
    exact standsFor_storeVariable first dest (standsFor_emit_literal first value)
  | move dest source =>
    exact standsFor_storeVariable first dest (standsFor_loadVariable first source)
  | binary dest op kind left right =>
    exact standsFor_storeVariable first dest (standsFor_emitBinary first op kind left right)
  | negate dest kind operand => exact standsFor_storeVariable first dest rfl
  | invoke dest instance? method args =>
    have hcall : (Expr.call method.symbol ((instance?.toList ++ args).map
        (loadVariable first))).standsFor first =
        (instance?.toList ++ args).filter (first ≤ ·) := by
      rw [Expr.standsFor_call, standsFor_loadVariables]
    cases dest with
    | none => exact hcall
    | some dest => exact standsFor_storeVariable first dest hcall
  | getField dest instance? field type => exact standsFor_storeVariable first dest rfl
  | putField instance? field type value => rfl
  | check name => rfl
  | test dest name => exact standsFor_storeVariable first dest rfl

theorem Statement.standsFor_emit (first : Nat) (statement : Statement) :
    (statement.emit first).standsFor first = statement.placed first := by
  cases statement with
  | perform instr => exact instr.standsFor_emit first
  | leave value =>
    cases value with
    | none => rfl
    | some v => exact standsFor_loadVariable first v

theorem standsFor_emitListing (first : Nat) (listing : List Statement) :
    (emitListing first listing).standsFor first = listing.flatMap (Statement.placed first) := by
  have hblock : (Expr.block none none (listing.map (Statement.emit first))).standsFor first =
      listing.flatMap (Statement.placed first) := by
    rw [Expr.standsFor_block, List.flatMap_map]
    simp only [Statement.standsFor_emit]
  unfold emitListing
  split
  · rw [Statement.standsFor_emit, List.flatMap_singleton]
  · exact hblock

theorem of_mem_placedStore (h : v ∈ placedStore first dest sources) :
    first ≤ v ∧ v ∈ dest :: sources := by
  unfold placedStore at h
  split at h
  · exact absurd h List.not_mem_nil
  · obtain rfl | hsource := List.mem_cons.1 h
    · exact ⟨by omega, List.mem_cons_self⟩
    · obtain ⟨hmem, hle⟩ := List.mem_filter.1 hsource
      exact ⟨of_decide_eq_true hle, List.mem_cons_of_mem dest hmem⟩

theorem Instr.of_mem_placed (h : v ∈ instr.placed first) : first ≤ v ∧ v ∈ instr.vars := by
  cases instr with
  | binary dest op kind left right =>
    obtain ⟨hle, hmem⟩ := of_mem_placedStore h
    refine ⟨hle, ?_⟩
    split at hmem
    · exact hmem
    · exact List.mem_cons.2 ((List.mem_cons.1 hmem).imp_right fun hnone => absurd hnone nofun)
  | negate dest kind operand =>
    obtain ⟨hle, hmem⟩ := of_mem_placedStore h
    exact ⟨hle, List.mem_cons.2 (.inl (List.mem_singleton.1 hmem))⟩
  | invoke dest instance? method args =>
    cases dest with
    | none =>
      obtain ⟨hmem, hle⟩ := List.mem_filter.1 h
      exact ⟨of_decide_eq_true hle, hmem⟩
    | some dest => exact of_mem_placedStore h
  | getField dest instance? field type =>
    obtain ⟨hle, hmem⟩ := of_mem_placedStore h
    exact ⟨hle, List.mem_cons.2 (.inl (List.mem_singleton.1 hmem))⟩
  | putField instance? field type value => exact absurd h List.not_mem_nil
  | check name => exact absurd h List.not_mem_nil
  | const dest value => exact of_mem_placedStore h
  | move dest source => exact of_mem_placedStore h
  | test dest name => exact of_mem_placedStore h

theorem Statement.of_mem_placed (h : v ∈ statement.placed first) :
    first ≤ v ∧ v ∈ statement.vars := by
  cases statement with
  | perform instr => exact instr.of_mem_placed h
  | leave value =>
    obtain ⟨hmem, hle⟩ := List.mem_filter.1 h
    exact ⟨of_decide_eq_true hle, hmem⟩

end MethodLowering
