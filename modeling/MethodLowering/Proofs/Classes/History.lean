import MethodLowering.Proofs.Classes.Keeping
import MethodLowering.Workspace

/-!
Histories of a workspace. Classes and methods are stored and replaced in any order, with
compilations in between, and a ledger keeps what was asked: the classes stored since the pool was
last replaced, and the draft since it was last begun. Whatever the history, the tables of the
workspace are well kept and answer from the last entry of the ledger.
-/

set_option autoImplicit false
set_option relaxedAutoImplicit false

namespace MethodLowering

/-- What is asked of a workspace: methods are only ever added as a class's own. -/
inductive Request
  | addClass (outline : ClassOutline)
  | replacePool (outlines : List ClassOutline)
  | beginDraft (name : String)
  | declare (selector : Selector) (flags : AccessFlags) (body? : Option Body)
  | commit
  | register (method : MethodRef) (moduleName name : String)
  | setOptions (options : Options)
  | setVariables (vars? : Option (List VarInfo))
  | compile (ref : MethodRef)
  | compileNative (ref : MethodRef)
  | compileClasses (names : List String)

/-- The request stores a class of this name, or replaces the whole pool. -/
def Request.Stores (ws : Workspace) (name : String) : Request → Prop
  | addClass outline => outline.name = name
  | replacePool _ => True
  | commit => ws.draft.name = name
  | _ => False

/-- The request adds a method with this selector to the draft, or begins a new draft. -/
def Request.Redrafts (selector : Selector) : Request → Prop
  | beginDraft _ => True
  | declare added _ _ => added = selector
  | _ => False

/-- The classes stored since the pool was last replaced, those it was replaced by included, and the
draft since it was last begun. -/
structure Ledger where
  stored : List ClassOutline
  draft : ClassOutline

namespace Ledger

def empty : Ledger := ⟨[], ⟨"", []⟩⟩

def enter (ledger : Ledger) : Request → Ledger
  | .addClass outline => { ledger with stored := ledger.stored ++ [outline] }
  | .replacePool outlines => { ledger with stored := outlines }
  | .beginDraft name => { ledger with draft := ⟨name, []⟩ }
  | .declare selector flags body? =>
    { ledger with
      draft := ⟨ledger.draft.name, ledger.draft.members ++ [(selector, flags, body?)]⟩ }
  | .commit => { ledger with stored := ledger.stored ++ [ledger.draft] }
  | _ => ledger

def of (requests : List Request) : Ledger := requests.foldl enter empty

def class? (ledger : Ledger) (name : String) : Option Class :=
  (ledger.stored.reverse.find? fun outline => outline.name = name).map ClassOutline.build

def method? (ledger : Ledger) (selector : Selector) : Option Method :=
  (ledger.draft.members.reverse.find? fun member => member.1 = selector).map
    (Class.memberOf ledger.draft.name)

end Ledger

namespace Workspace

variable {ws : Workspace} {ledger : Ledger} {request : Request} {name : String}
  {selector : Selector}

def perform (ws : Workspace) : Request → Workspace
  | .addClass outline => ws.addClass outline.build
  | .replacePool outlines => ws.replacePool (outlines.map ClassOutline.build)
  | .beginDraft name => ws.beginDraft name
  | .declare selector flags body? => ws.declare selector flags body?
  | .commit => ws.commit
  | .register method moduleName name => ws.register method moduleName name
  | .setOptions options => ws.setOptions options
  | .setVariables vars? => ws.setVariables vars?
  | .compile ref => (ws.run (·.compile ref)).1
  | .compileNative ref => (ws.run (·.compileNative ref)).1
  | .compileClasses names => (ws.run (·.compileClasses names)).1

def after (requests : List Request) : Workspace := requests.foldl perform empty

/-- The tables of the workspace are those that the ledger describes. -/
structure Matches (ws : Workspace) (ledger : Ledger) : Prop where
  pool : ws.pool = Pool.ofOutlines ledger.stored
  draft : ws.draft = ledger.draft.build

theorem Matches.perform (h : ws.Matches ledger) (request : Request) :
    (ws.perform request).Matches (ledger.enter request) := by
  have hadd : ∀ outline : ClassOutline, (ws.addClass outline.build).Matches
      { ledger with stored := ledger.stored ++ [outline] } := by
    intro outline
    refine ⟨?_, h.draft⟩
    change ws.pool.add outline.build = _
    rw [h.pool, Pool.ofOutlines, Pool.ofOutlines, List.map_append, Pool.ofList, Pool.ofList,
      List.foldl_append]
    rfl
  cases request with
  | addClass outline => exact hadd outline
  | replacePool outlines => exact ⟨rfl, h.draft⟩
  | beginDraft name => exact ⟨h.pool, rfl⟩
  | declare selector flags body? =>
    refine ⟨h.pool, ?_⟩
    change ws.draft.declare selector flags body? = _
    rw [h.draft]
    exact (Class.ofList_concat _ _ _ _ _).symm
  | commit =>
    change (ws.addClass ws.draft).Matches _
    rw [h.draft]
    exact hadd ledger.draft
  | _ => exact ⟨h.pool, h.draft⟩

theorem matches_after (requests : List Request) :
    (after requests).Matches (Ledger.of requests) := by
  have hrun : ∀ (ws : Workspace) (ledger : Ledger), ws.Matches ledger →
      (requests.foldl perform ws).Matches (requests.foldl Ledger.enter ledger) := by
    induction requests with
    | nil => exact fun _ _ h => h
    | cons request requests ih => exact fun _ _ h => ih _ _ (h.perform request)
  exact hrun _ _ ⟨rfl, rfl⟩

theorem find?_perform (h : ¬ request.Stores ws name) :
    (ws.perform request).pool.find? name = ws.pool.find? name := by
  cases request with
  | addClass outline =>
    have hname : name ≠ outline.build.name := by
      rintro rfl
      exact h (Class.name_ofList _ _).symm
    exact (Pool.find?_add _ _ _).trans (if_neg hname)
  | commit =>
    have hname : name ≠ ws.draft.name := by
      rintro rfl
      exact h rfl
    exact (Pool.find?_add _ _ _).trans (if_neg hname)
  | replacePool outlines => exact absurd trivial h
  | _ => rfl

theorem method?_perform (h : ¬ request.Redrafts selector) :
    (ws.perform request).draft.method? selector = ws.draft.method? selector := by
  cases request with
  | beginDraft name => exact absurd trivial h
  | declare added flags body? =>
    have hadded : selector ≠ added := by
      rintro rfl
      exact h rfl
    exact (Table.find?_insert _ _ _ _).trans (if_neg hadded)
  | _ => rfl

/-- The tables are well kept, look-ups answer from the ledger, and no request changes the answers
for another name or another selector than its own. The first method with a name is the one with the
least selector. -/
structure Answers (ws : Workspace) (ledger : Ledger) : Prop where
  pool : ws.pool.WellKept
  draft : ws.draft.WellKept
  class_eq : ∀ name, ws.pool.find? name = ledger.class? name
  method_eq : ∀ selector, ws.draft.method? selector = ledger.method? selector
  class_frame : ∀ request name, ¬ Request.Stores ws name request →
    (ws.perform request).pool.find? name = ws.pool.find? name
  method_frame : ∀ request selector, ¬ Request.Redrafts selector request →
    (ws.perform request).draft.method? selector = ws.draft.method? selector
  first_named : ∀ cls, cls = ws.draft ∨ (∃ key, ws.pool.find? key = some cls) → ∀ name,
    (∀ method, cls.firstNamed? name = some method ↔ cls.Leads name method) ∧
    (cls.firstNamed? name = none ↔
      ∀ selector method, cls.method? selector = some method → selector.name ≠ name)

theorem answers_after (requests : List Request) :
    (after requests).Answers (Ledger.of requests) := by
  have h := matches_after requests
  have hpool : (after requests).pool.WellKept := h.pool ▸ Pool.wellKept_ofOutlines _
  have hdraft : (after requests).draft.WellKept := h.draft ▸ Class.wellKept_ofList _ _
  refine ⟨hpool, hdraft, ?_, ?_, fun _ _ => find?_perform, fun _ _ => method?_perform, ?_⟩
  · intro name
    rw [h.pool]
    exact Pool.find?_ofOutlines _ _
  · intro selector
    rw [h.draft]
    exact Class.method?_ofList _ _ _
  · intro cls hcls name
    have hkept : cls.WellKept := by
      obtain rfl | ⟨key, hkey⟩ := hcls
      · exact hdraft
      · exact (hpool.of_find? hkey).2
    exact ⟨fun _ => hkept.firstNamed?_eq_some_iff, hkept.firstNamed?_eq_none_iff⟩

end Workspace

end MethodLowering
