import MethodLowering.Flow.Body

/-!
Execution of bodies. What the instructions compute is left to a model of the outside world, which
knows the classes that are initialized; checks, tests and calls of class initializers act on that
knowledge. Variables beyond the declared ones hold the truth values that tests store there.
-/

set_option autoImplicit false
set_option relaxedAutoImplicit false

namespace MethodLowering

/-- The class whose initializer an instruction calls, if it does. -/
def Instr.calledInitializer? : Instr → Option String
  | invoke _ _ method _ =>
    if method.selector = Selector.classInitializer then some method.owner else none
  | _ => none

/-- What instructions and branch tests mean, over values `V` and states `W` of the outside world.
A class that is initialized stays so. -/
structure Model (V W : Type) where
  /-- The number of declared variables. -/
  declared : Nat
  /-- Whether a class has an initializer that a check runs. -/
  hasInitializer : String → Bool
  /-- Whether a class is initialized. -/
  initialized : W → String → Bool
  /-- Run the initializer of a class. -/
  runInitializer : String → W → W
  /-- Perform any other instruction. -/
  perform : Instr → (Nat → V) → W → (Nat → V) × W
  /-- Whether a branch on a declared variable takes its consequent. -/
  holds : Nat → (Nat → V) → W → Bool
  /-- The value of a truth value. -/
  ofBool : Bool → V
  initialized_runInitializer_self : ∀ name w, initialized (runInitializer name w) name = true
  initialized_runInitializer : ∀ name w other, initialized w other = true →
    initialized (runInitializer name w) other = true
  initialized_perform : ∀ instr vars w name, initialized w name = true →
    initialized (perform instr vars w).2 name = true

structure MachineState (V W : Type) where
  vars : Nat → V
  flags : Nat → Bool
  world : W

inductive Observation (V W : Type)
  /-- An initializer was run from this state of the world. -/
  | ranInitializer (name : String) (world : W)
  /-- An instruction was performed on these values in this world. -/
  | performed (instr : Instr) (vars : Nat → V) (world : W)
  /-- The truth value of whether a class is initialized was stored. -/
  | tested (dest : Nat) (name : String) (answer : Bool)
  /-- The body was left. -/
  | left (value : Option Nat) (vars : Nat → V) (world : W)

/-- A place in a body, by what is still to be done in its block, and the state there. -/
structure Config (V W : Type) where
  code : List Instr
  terminator : Terminator
  state : MachineState V W

namespace Model

variable {V W : Type}

/-- Store a truth value: with the declared variables if the variable is one of them. -/
def store (m : Model V W) (state : MachineState V W) (dest : Nat) (answer : Bool) :
    MachineState V W :=
  if dest < m.declared then
    { state with vars := fun v => if v = dest then m.ofBool answer else state.vars v }
  else { state with flags := fun v => if v = dest then answer else state.flags v }

/-- Whether a branch on a variable takes its consequent. -/
def test (m : Model V W) (state : MachineState V W) (condition : Nat) : Bool :=
  if condition < m.declared then m.holds condition state.vars state.world
  else state.flags condition

def initializeClass (m : Model V W) (state : MachineState V W) (name : String) :
    MachineState V W × List (Observation V W) :=
  ({ state with world := m.runInitializer name state.world }, [.ranInitializer name state.world])

def exec (m : Model V W) (state : MachineState V W) (instr : Instr) :
    MachineState V W × List (Observation V W) :=
  match instr with
  | .check name =>
    if m.hasInitializer name && !m.initialized state.world name then m.initializeClass state name
    else (state, [])
  | .test dest name =>
    let answer := m.initialized state.world name
    (m.store state dest answer,
      if dest < m.declared then [.tested dest name answer] else [])
  | instr =>
    match instr.calledInitializer? with
    | some name => m.initializeClass state name
    | none =>
      let after := m.perform instr state.vars state.world
      ({ state with vars := after.1, world := after.2 },
        [.performed instr state.vars state.world])

def enter? (body : Body) (block : Nat) (state : MachineState V W) : Option (Config V W) :=
  (body.blocks[block]?).map fun b => ⟨b.code, b.terminator, state⟩

/-- One step: execute the next instruction, or move on at the end of a block. The place after the
step is absent when the body was left or when there is no such block. -/
def step (m : Model V W) (body : Body) (config : Config V W) :
    Option (Config V W) × List (Observation V W) :=
  match config.code with
  | instr :: rest =>
    let after := m.exec config.state instr
    (some { config with code := rest, state := after.1 }, after.2)
  | [] =>
    match config.terminator with
    | .jump target => (enter? body target config.state, [])
    | .branch condition consequent alternative =>
      (enter? body (if m.test config.state condition then consequent else alternative)
        config.state, [])
    | .exit value => (none, [.left value config.state.vars config.state.world])

/-- What can be observed in so many steps from a place. -/
def observe (m : Model V W) (body : Body) : Nat → Option (Config V W) → List (Observation V W)
  | 0, _ => []
  | _ + 1, none => []
  | steps + 1, some config =>
    let after := m.step body config
    after.2 ++ m.observe body steps after.1

def observeFrom (m : Model V W) (body : Body) (steps block : Nat) (state : MachineState V W) :
    List (Observation V W) :=
  m.observe body steps (enter? body block state)

end Model

end MethodLowering
