import MethodLowering.Compiler

/-!
Workspaces: classes under construction, what is needed to compile them, and the history of what
happened so far.
-/

set_option autoImplicit false
set_option relaxedAutoImplicit false

namespace MethodLowering

/-- The known classes, one class under construction, and the settings and history of
compilation. -/
structure Workspace where
  pool : Pool
  draft : Class
  imports : ImportTable
  options : Options
  vars? : Option (List VarInfo)
  history : List Event

namespace Workspace

def empty : Workspace where
  pool := .empty
  draft := .empty ""
  imports := .empty
  options := .default
  vars? := none
  history := []

def addClass (ws : Workspace) (cls : Class) : Workspace :=
  { ws with pool := ws.pool.add cls }

def replacePool (ws : Workspace) (classes : List Class) : Workspace :=
  { ws with pool := Pool.ofList classes }

def beginDraft (ws : Workspace) (name : String) : Workspace :=
  { ws with draft := .empty name }

def declare (ws : Workspace) (selector : Selector) (flags : AccessFlags) (body? : Option Body) :
    Workspace :=
  { ws with draft := ws.draft.declare selector flags body? }

/-- Store any method under any selector of the draft. -/
def place (ws : Workspace) (key : Selector) (method : Method) : Workspace :=
  { ws with draft := ws.draft.place key method }

def commit (ws : Workspace) : Workspace :=
  ws.addClass ws.draft

def register (ws : Workspace) (method : MethodRef) (moduleName name : String) : Workspace :=
  { ws with imports := ws.imports.register method moduleName name }

def setOptions (ws : Workspace) (options : Options) : Workspace :=
  { ws with options := options }

/-- Choose the variable list to compile with; without one, that of the body is used. -/
def setVariables (ws : Workspace) (vars? : Option (List VarInfo)) : Workspace :=
  { ws with vars? := vars? }

/-- What compilation sees of the workspace. -/
def compiler (ws : Workspace) : Compiler :=
  ⟨ws.pool, ws.pool.hasInitializer, ws.imports, ws.options, .stub ws.vars?⟩

/-- Run a compilation and keep what happened in it. -/
def run {α : Type} (ws : Workspace) (work : Compiler → Traced α) : Workspace × Except Failure α :=
  let traced := work ws.compiler
  ({ ws with history := ws.history ++ traced.events }, traced.result)

def notes (ws : Workspace) : List Note := ws.history.filterMap Event.note?

def listedBodies (ws : Workspace) : List Body := ws.history.filterMap Event.listedBody?

def emissions (ws : Workspace) : List EmissionCall := ws.history.filterMap Event.emission?

end Workspace

end MethodLowering
