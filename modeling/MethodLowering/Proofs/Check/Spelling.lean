import MethodLowering.Check
import MethodLowering.Proofs.Flow.Simulation

/-!
Expanded bodies. A block with checks is spelled out by a chain of blocks that starts at its own
number: each head tests a class into a variable of its own and leads to the block that spells out
the rest, directly or by way of the initializer. So each step of a body is matched by its expansion,
a check by two steps or by the four that run the initializer, and both runs show the same, the
variables of the tests apart.
-/

set_option autoImplicit false
set_option relaxedAutoImplicit false

namespace MethodLowering

namespace Expansion

/-- Among the blocks of an expansion, the second block and those it leads to spell out the first. -/
inductive Spelled (declared : Nat) (blocks : List Block) : Block → Block → Prop
  | plain {block : Block} : splitAtCheck? block.code = none → Spelled declared blocks block block
  | split {block following : Block} {before after : List Instr} {name : String} {flag next : Nat} :
      splitAtCheck? block.code = some (before, name, after) → declared ≤ flag →
      blocks[next]? = some following → blocks[next + 1]? = some (initBlock name next) →
      Spelled declared blocks ⟨after, block.terminator⟩ following →
      Spelled declared blocks block (headBlock before name flag next)

def SpelledAt (declared : Nat) (blocks : List Block) (number : Nat) (block : Block) : Prop :=
  ∃ b, blocks[number]? = some b ∧ Spelled declared blocks block b

variable {declared number flag next : Nat} {blocks : List Block} {block other : Block}
  {instr : Instr} {name : String} {rest : List Instr} {terminator : Terminator}

theorem splitAtCheck?_cons (h : instr.isCheck = false) :
    splitAtCheck? (instr :: rest) =
      (splitAtCheck? rest).map fun (before, name, after) => (instr :: before, name, after) := by
  cases instr with
  | check name => exact absurd h nofun
  | _ => rfl

theorem eq_check_of_isCheck (h : instr.isCheck = true) : ∃ name, instr = .check name := by
  cases instr with
  | check name => exact ⟨name, rfl⟩
  | _ => exact absurd h nofun

theorem Spelled.eq_of_initBlock (h : Spelled declared blocks (initBlock name next) other) :
    other = initBlock name next := by
  cases h with
  | plain => rfl
  | split hsplit => exact absurd hsplit nofun

/-- The pending blocks are spelled out under their numbers behind the finished blocks. -/
theorem spelledAt_expandFrom (number flag : Nat) (pending finished : List Block)
    (hnumber : finished.length = number) (hflag : declared ≤ flag) :
    ∀ i block, pending[i]? = some block → SpelledAt declared
      (finished ++ (expandFrom number flag pending).map Piece.block) (number + i) block := by
  fun_induction expandFrom number flag pending generalizing finished with
  | case1 => exact fun i block hblock => absurd hblock nofun
  | case2 number flag first rest hsplit ih =>
    rw [List.map_cons, List.append_cons]
    have hlater := ih (finished ++ [first]) (by simp [hnumber]) hflag
    intro i block hblock
    cases i with
    | zero =>
      rw [List.getElem?_cons_zero, Option.some.injEq] at hblock
      subst hblock
      refine ⟨first, ?_, .plain hsplit⟩
      simp [← hnumber]
    | succ i =>
      rw [List.getElem?_cons_succ] at hblock
      rw [Nat.add_comm i 1, ← Nat.add_assoc]
      exact hlater i block hblock
  | case3 number flag first rest before name after hsplit next ih =>
    rw [List.map_cons, List.append_cons]
    have hlater := ih (finished ++ [headBlock before name flag next]) (by simp [hnumber])
      (Nat.le_succ_of_le hflag)
    intro i block hblock
    cases i with
    | zero =>
      rw [List.getElem?_cons_zero, Option.some.injEq] at hblock
      subst hblock
      -- the rest of the block and the call wait behind the other blocks: their numbers are `next`
      -- and `next + 1`
      obtain ⟨following, hfollowing, hspelled⟩ :=
        hlater rest.length ⟨after, first.terminator⟩ (by simp)
      obtain ⟨init, hinit, hsame⟩ := hlater (rest.length + 1) (initBlock name next) (by simp)
      rw [hsame.eq_of_initBlock] at hinit
      refine ⟨headBlock before name flag next, ?_, .split hsplit hflag hfollowing hinit hspelled⟩
      simp [← hnumber]
    | succ i =>
      rw [List.getElem?_cons_succ] at hblock
      rw [Nat.add_comm i 1, ← Nat.add_assoc]
      refine hlater i block ?_
      rw [List.getElem?_append_left (List.getElem?_eq_some_iff.1 hblock).1, hblock]

theorem spelledAt_expand (body : Body) (h : body.blocks[number]? = some block) :
    SpelledAt body.vars.length body.expand.blocks number block := by
  have hspelled := spelledAt_expandFrom 0 body.vars.length body.blocks [] rfl (Nat.le_refl _)
    number block h
  rwa [Nat.zero_add, List.nil_append] at hspelled

/-! ### What a block that spells out another does first -/

theorem Spelled.of_nil (h : Spelled declared blocks ⟨[], terminator⟩ other) :
    other = ⟨[], terminator⟩ := by
  cases h with
  | plain => rfl
  | split hsplit => exact absurd hsplit nofun

theorem Spelled.of_cons (h : Spelled declared blocks ⟨instr :: rest, terminator⟩ other)
    (hinstr : instr.isCheck = false) :
    ∃ rest', other.code = instr :: rest' ∧
      Spelled declared blocks ⟨rest, terminator⟩ ⟨rest', other.terminator⟩ := by
  cases h with
  | plain hsplit =>
    refine ⟨rest, rfl, .plain ?_⟩
    rw [splitAtCheck?_cons hinstr, Option.map_eq_none_iff] at hsplit
    exact hsplit
  | @split _ following before after name flag next hsplit hflag hnext hinit hspelled =>
    rw [splitAtCheck?_cons hinstr, Option.map_eq_some_iff] at hsplit
    obtain ⟨⟨before', name', after'⟩, hrest, heq⟩ := hsplit
    cases heq
    have hshorter : Spelled declared blocks ⟨rest, terminator⟩ (headBlock before' name flag next) :=
      .split hrest hflag hnext hinit hspelled
    exact ⟨before' ++ [.test flag name], rfl, hshorter⟩

theorem Spelled.of_check (h : Spelled declared blocks ⟨.check name :: rest, terminator⟩ other) :
    ∃ flag next following, other = headBlock [] name flag next ∧ declared ≤ flag ∧
      blocks[next]? = some following ∧ blocks[next + 1]? = some (initBlock name next) ∧
      Spelled declared blocks ⟨rest, terminator⟩ following := by
  cases h with
  | plain hsplit => exact absurd hsplit nofun
  | @split _ following before after name flag next hsplit hflag hnext hinit hspelled =>
    cases hsplit
    exact ⟨flag, next, following, rfl, hflag, hnext, hinit, hspelled⟩

end Expansion

def Block.Within (declared : Nat) (block : Block) : Prop :=
  (∀ instr ∈ block.code, ∀ v ∈ instr.vars, v < declared) ∧
    ∀ v ∈ block.terminator.vars, v < declared

namespace Model

open Expansion

variable {V W : Type}

/-- The states agree on what is declared and on the world. -/
structure Alike (a b : MachineState V W) : Prop where
  vars : b.vars = a.vars
  world : b.world = a.world

theorem Alike.trans {a b c : MachineState V W} (hfirst : Alike a b) (hsecond : Alike b c) :
    Alike a c :=
  ⟨hsecond.vars.trans hfirst.vars, hsecond.world.trans hfirst.world⟩

/-- The model declares the variables that the body has and uses, and the checks that the body can
come to from the start are of classes with initializers. -/
structure Suits (m : Model V W) (body : Body) (start : Nat) : Prop where
  declared : m.declared = body.vars.length
  closed : body.graph.Closed
  within : ∀ block ∈ body.blocks, block.Within body.vars.length
  checks : ∀ number block, body.graph.Reaches start number → body.blocks[number]? = some block →
    ∀ name, Instr.check name ∈ block.code → m.hasInitializer name = true

/-- A place of the body that the start leads to, and a place of the expansion where the same is
still to be done in a state that is alike. -/
structure Spells (body : Body) (start : Nat) (config other : Config V W) : Prop where
  within : ∃ number block, body.graph.Reaches start number ∧ body.blocks[number]? = some block ∧
    config.code <:+ block.code ∧ config.terminator = block.terminator
  spelled : Spelled body.vars.length body.expand.blocks ⟨config.code, config.terminator⟩
    ⟨other.code, other.terminator⟩
  alike : Alike config.state other.state

variable {m : Model V W} {body : Body} {start number next flag : Nat} {a b : MachineState V W}
  {config other : Config V W} {instr : Instr} {rest : List Instr} {name : String}

theorem initializeClass_alike (h : Alike a b) (name : String) :
    Alike (m.initializeClass a name).1 (m.initializeClass b name).1 ∧
      (m.initializeClass b name).2 = (m.initializeClass a name).2 := by
  unfold initializeClass
  rw [h.world]
  exact ⟨⟨h.vars, rfl⟩, rfl⟩

theorem exec_alike (h : Alike a b) (hvars : ∀ v ∈ instr.vars, v < m.declared) :
    Alike (m.exec a instr).1 (m.exec b instr).1 ∧ (m.exec b instr).2 = (m.exec a instr).2 := by
  unfold exec
  cases instr with
  | check name =>
    dsimp only
    rw [h.world]
    split
    · exact initializeClass_alike h name
    · exact ⟨h, rfl⟩
  | test dest name =>
    have hdest : dest < m.declared := hvars dest List.mem_cons_self
    dsimp only
    unfold store
    rw [h.world, if_pos hdest, if_pos hdest]
    exact ⟨⟨by rw [h.vars], rfl⟩, rfl⟩
  | _ =>
    dsimp only
    split
    · exact initializeClass_alike h _
    · rw [h.vars, h.world]
      exact ⟨⟨rfl, rfl⟩, rfl⟩

theorem following?_alike (h : Alike config.state other.state)
    (hterm : other.terminator = config.terminator)
    (hvars : ∀ v ∈ config.terminator.vars, v < m.declared) :
    m.following? other = m.following? config := by
  unfold following?
  rw [hterm]
  cases hcase : config.terminator with
  | jump target => rfl
  | branch condition consequent alternative =>
    have hcondition : condition < m.declared := hvars condition (by simp [hcase, Terminator.vars])
    dsimp only
    unfold test
    rw [if_pos hcondition, if_pos hcondition, h.vars, h.world]
  | exit value => rfl

theorem spells_enter (hreaches : body.graph.Reaches start number)
    (hnumber : number < body.blocks.length) (halike : Alike a b) :
    Option.Rel (Spells body start) (enter? body number a) (enter? body.expand number b) := by
  have hblock := List.getElem?_eq_getElem hnumber
  obtain ⟨other, hother, hspelled⟩ := spelledAt_expand body hblock
  unfold enter?
  rw [hblock, hother]
  exact .some ⟨⟨number, _, hreaches, hblock, List.suffix_rfl, rfl⟩, hspelled, halike⟩

theorem run_headBlock (body : Body) (name : String) (next : Nat) (hflag : m.declared ≤ flag)
    (state : MachineState V W) :
    ∃ tested, Alike state tested ∧
      m.observe body 2 (some ⟨[.test flag name], .branch flag next (next + 1), state⟩) = [] ∧
      m.after? body 1 (some ⟨[.test flag name], .branch flag next (next + 1), state⟩) =
        some ⟨[], .branch flag next (next + 1), tested⟩ ∧
      m.after? body 2 (some ⟨[.test flag name], .branch flag next (next + 1), state⟩) =
        enter? body (if m.initialized state.world name then next else next + 1) tested := by
  have hfresh : ¬ flag < m.declared := Nat.not_lt.2 hflag
  have hfirst : m.step body ⟨[.test flag name], .branch flag next (next + 1), state⟩ =
      (some ⟨[], .branch flag next (next + 1),
        m.store state flag (m.initialized state.world name)⟩, []) := by
    rw [step_of_cons rfl]
    simp [exec, hfresh]
  have htarget : m.following? ⟨[], .branch flag next (next + 1),
      m.store state flag (m.initialized state.world name)⟩ =
        some (if m.initialized state.world name then next else next + 1) := by
    simp [following?, test, store, hfresh]
  have hsecond := step_of_following body rfl htarget
  refine ⟨m.store state flag (m.initialized state.world name), ?_, ?_, ?_, ?_⟩
  · unfold store
    rw [if_neg hfresh]
    exact ⟨rfl, rfl⟩
  · rw [observe_succ, hfirst, observe_one, hsecond]
    rfl
  · rw [after?_succ, hfirst]
    rfl
  · rw [after?_succ, hfirst, after?_succ, hsecond]
    rfl

theorem run_initBlock (body : Body) (name : String) (next : Nat) (state : MachineState V W) :
    m.observe body 2 (some ⟨(initBlock name next).code, .jump next, state⟩) =
        (m.initializeClass state name).2 ∧
      m.after? body 1 (some ⟨(initBlock name next).code, .jump next, state⟩) =
        some ⟨[], .jump next, (m.initializeClass state name).1⟩ ∧
      m.after? body 2 (some ⟨(initBlock name next).code, .jump next, state⟩) =
        enter? body next (m.initializeClass state name).1 := by
  have hfirst : m.step body ⟨(initBlock name next).code, .jump next, state⟩ =
      (some ⟨[], .jump next, (m.initializeClass state name).1⟩,
        (m.initializeClass state name).2) := rfl
  have hsecond : m.step body ⟨[], .jump next, (m.initializeClass state name).1⟩ =
      (enter? body next (m.initializeClass state name).1, []) := rfl
  refine ⟨?_, ?_, ?_⟩
  · rw [observe_succ, hfirst, observe_one, hsecond, List.append_nil]
  · rw [after?_succ, hfirst]
    rfl
  · rw [after?_succ, hfirst, after?_succ, hsecond]
    rfl

/-- A place between the test of a class and what follows its check. All that can be executed there
is the call of the initializer, and only if the class is not initialized. -/
structure InsideCheck (m : Model V W) (name : String) (before : MachineState V W)
    (place : Config V W) : Prop where
  vars : place.state.vars = before.vars
  calls : ∀ instr, place.code.head? = some instr →
    instr = .invoke none none (MethodRef.classInitializer name) [] ∧
      place.state.world = before.world ∧ m.initialized before.world name = false

theorem insideCheck_of_nil {before : MachineState V W} (hcode : config.code = [])
    (hvars : config.state.vars = before.vars) : m.InsideCheck name before config := by
  refine ⟨hvars, fun instr hinstr => ?_⟩
  rw [hcode] at hinstr
  cases hinstr

/-- The number of steps in which an expansion does the next step of a body. -/
def spelledCost (m : Model V W) (config : Config V W) : Nat :=
  match config.code with
  | .check name :: _ => if m.initialized config.state.world name then 2 else 4
  | _ => 1

theorem spelledCost_of_check (hcode : config.code = .check name :: rest) :
    m.spelledCost config = if m.initialized config.state.world name then 2 else 4 := by
  unfold spelledCost
  rw [hcode]

theorem spelledCost_of_not_check (h : ∀ instr, config.code.head? = some instr →
    instr.isCheck = false) : m.spelledCost config = 1 := by
  unfold spelledCost
  split
  · rename_i name rest hcode
    have hcheck := h (.check name) (by rw [hcode]; rfl)
    exact absurd hcheck nofun
  · rfl

/-- The blocks that spell out a check do what the check does, and go on to what follows it. -/
theorem run_split {following : Block} (hname : m.hasInitializer name = true)
    (hflag : m.declared ≤ flag) (hnext : body.blocks[next]? = some following)
    (hcall : body.blocks[next + 1]? = some (initBlock name next)) (state : MachineState V W)
    {steps : Nat} (hsteps : steps = if m.initialized state.world name then 2 else 4) :
    m.observe body steps (some ⟨[.test flag name], .branch flag next (next + 1), state⟩) =
        (m.exec state (.check name)).2 ∧
      (∃ state', m.after? body steps
          (some ⟨[.test flag name], .branch flag next (next + 1), state⟩) =
          some ⟨following.code, following.terminator, state'⟩ ∧
        Alike (m.exec state (.check name)).1 state') ∧
      ∀ inside, 0 < inside → inside < steps → ∃ place, m.after? body inside
          (some ⟨[.test flag name], .branch flag next (next + 1), state⟩) = some place ∧
        m.InsideCheck name state place := by
  obtain ⟨tested, halike, hsilent, hbefore, hafter⟩ := run_headBlock body name next hflag state
  have htested : m.InsideCheck name state ⟨[], .branch flag next (next + 1), tested⟩ :=
    insideCheck_of_nil rfl halike.vars
  cases hinit : m.initialized state.world name with
  | true =>
    rw [hinit, if_pos rfl] at hsteps hafter
    rw [enter?, hnext] at hafter
    subst hsteps
    rw [exec_check_of_idle (.inr hinit)]
    refine ⟨hsilent, ⟨tested, hafter, halike⟩, fun inside hpos hlt => ?_⟩
    obtain rfl : inside = 1 := by omega
    exact ⟨_, hbefore, htested⟩
  | false =>
    rw [hinit, if_neg Bool.false_ne_true] at hsteps hafter
    rw [enter?, hcall] at hafter
    subst hsteps
    obtain ⟨hshows, hcalled, hends⟩ := run_initBlock (m := m) body name next tested
    obtain ⟨hstate, hsame⟩ := initializeClass_alike (m := m) halike name
    rw [exec_check_of_firing hname hinit, observe_add 2 2, after?_add 2 2, hsilent, hafter]
    refine ⟨hshows.trans hsame, ⟨_, hends.trans ?_, hstate⟩, fun inside hpos hlt => ?_⟩
    · rw [enter?, hnext]
      rfl
    · obtain rfl | rfl | rfl : inside = 1 ∨ inside = 2 ∨ inside = 3 := by omega
      · exact ⟨_, hbefore, htested⟩
      · refine ⟨_, hafter, halike.vars, fun instr hinstr => ?_⟩
        exact ⟨(Option.some.inj hinstr).symm, halike.world, hinit⟩
      · rw [after?_add 2 1, hafter]
        exact ⟨_, hcalled, insideCheck_of_nil rfl hstate.vars⟩

/-- The place of the body is in front of a check, and the other inside the blocks that spell it
out. -/
def AtCheck (m : Model V W) (config place : Config V W) : Prop :=
  ∃ name, config.code.head? = some (.check name) ∧ m.InsideCheck name config.state place

theorem Spells.match_plain (hsuits : m.Suits body start) (h : Spells body start config other)
    (hplain : ∀ instr, config.code.head? = some instr → instr.isCheck = false) :
    m.observe body.expand 1 (some other) = (m.step body config).2 ∧
      Option.Rel (Spells body start) (m.step body config).1
        (m.after? body.expand 1 (some other)) := by
  obtain ⟨⟨number, block, hreaches, hblock, hsuffix, hterm⟩, hspelled, halike⟩ := h
  have hwithin := hsuits.within block (List.mem_of_getElem? hblock)
  rw [observe_one, after?_succ]
  cases hcode : config.code with
  | nil =>
    -- at its end a block is spelled out by itself, so both runs leave it the same way
    rw [hcode] at hspelled
    obtain ⟨hcode', hterm'⟩ := Block.mk.inj hspelled.of_nil
    have hvars : ∀ v ∈ config.terminator.vars, v < m.declared := by
      rw [hterm, hsuits.declared]
      exact hwithin.2
    have hsame := following?_alike halike hterm' hvars
    cases htarget : m.following? config with
    | none =>
      obtain ⟨hnone, hstep⟩ := step_congr_of_not_following body body.expand hcode htarget hcode'
        hterm' halike.vars halike.world
      rw [hstep]
      exact ⟨rfl, hnone ▸ .none⟩
    | some target =>
      have hedge := edge_of_following hblock hterm htarget
      rw [step_of_following body hcode htarget,
        step_of_following body.expand hcode' (hsame.trans htarget)]
      have hsize : target < body.blocks.length :=
        body.size_graph ▸ hsuits.closed.target_lt_size hedge
      exact ⟨rfl, spells_enter (hreaches.step hedge) hsize halike⟩
  | cons instr rest =>
    rw [hcode] at hspelled hsuffix hplain
    have hrest : rest <:+ block.code := (List.suffix_cons _ rest).trans hsuffix
    have hvars : ∀ v ∈ instr.vars, v < m.declared :=
      hsuits.declared ▸ hwithin.1 instr (hsuffix.mem List.mem_cons_self)
    obtain ⟨hstate, hshows⟩ := exec_alike halike hvars
    obtain ⟨rest', hcode', hspelled'⟩ := hspelled.of_cons (hplain instr rfl)
    rw [step_of_cons hcode, step_of_cons hcode', hshows]
    exact ⟨rfl, .some ⟨⟨number, block, hreaches, hblock, hrest, hterm⟩, hspelled', hstate⟩⟩

theorem Spells.match_check (hsuits : m.Suits body start) (h : Spells body start config other)
    (hcode : config.code = .check name :: rest) :
    m.observe body.expand (m.spelledCost config) (some other) = (m.step body config).2 ∧
      Option.Rel (Spells body start) (m.step body config).1
        (m.after? body.expand (m.spelledCost config) (some other)) ∧
      ∀ steps, 0 < steps → steps < m.spelledCost config →
        ∃ place, m.after? body.expand steps (some other) = some place ∧ m.AtCheck config place := by
  obtain ⟨⟨number, block, hreaches, hblock, hsuffix, hterm⟩, hspelled, halike⟩ := h
  rw [hcode] at hspelled hsuffix
  have hrest : rest <:+ block.code := (List.suffix_cons _ rest).trans hsuffix
  have hname := hsuits.checks number block hreaches hblock name (hsuffix.mem List.mem_cons_self)
  obtain ⟨flag, next, following, hother, hflag, hnext, hcall, hspelled'⟩ := hspelled.of_check
  obtain ⟨code, terminator, state⟩ := other
  cases hother
  have hchecked : Alike (m.exec config.state (.check name)).1 (m.exec state (.check name)).1 ∧
      (m.exec state (.check name)).2 = (m.exec config.state (.check name)).2 :=
    exec_alike halike nofun
  have hcost : m.spelledCost config = if m.initialized state.world name then 2 else 4 := by
    rw [spelledCost_of_check hcode, halike.world]
  obtain ⟨hshows, ⟨state', hafter, hstate⟩, hway⟩ :=
    run_split hname (hsuits.declared ▸ hflag) hnext hcall state hcost
  rw [step_of_cons hcode]
  refine ⟨hshows.trans hchecked.2, ?_, fun steps hpos hlt => ?_⟩
  · rw [show m.after? body.expand _ _ = _ from hafter]
    exact .some ⟨⟨number, block, hreaches, hblock, hrest, hterm⟩, hspelled',
      hchecked.1.trans hstate⟩
  · obtain ⟨place, hplace, hvars, hcalls⟩ := hway steps hpos hlt
    refine ⟨place, hplace, name, by rw [hcode]; rfl, hvars.trans halike.vars, ?_⟩
    rw [← halike.world]
    exact hcalls

/-- Each step of a body is matched by its expansion; on the way the expansion is inside a check. -/
theorem simulates_expand (hsuits : m.Suits body start) :
    m.SimulatesBy body body.expand (Spells body start) m.AtCheck m.spelledCost := by
  intro config other h
  by_cases hplain : ∀ instr, config.code.head? = some instr → instr.isCheck = false
  · obtain ⟨hshows, hnext⟩ := h.match_plain hsuits hplain
    rw [spelledCost_of_not_check hplain]
    exact ⟨Nat.one_pos, hshows, hnext, fun steps hpos hlt => by omega⟩
  · simp only [not_forall, Bool.not_eq_false] at hplain
    obtain ⟨instr, hhead, hcheck⟩ := hplain
    obtain ⟨name, rfl⟩ := eq_check_of_isCheck hcheck
    obtain ⟨rest, hcode⟩ := List.head?_eq_some_iff.1 hhead
    have hpos : 0 < m.spelledCost config := by
      rw [spelledCost_of_check hcode]
      split <;> decide
    exact ⟨hpos, h.match_check hsuits hcode⟩

theorem observeFrom_expand (hsuits : m.Suits body start) (hstart : start < body.blocks.length)
    (state : MachineState V W) (events : List (Observation V W)) :
    (∃ steps, m.observeFrom body steps start state = events) ↔
      ∃ steps, m.observeFrom body.expand steps start state = events :=
  (simulates_expand hsuits).simulates.exists_observe_iff
    (spells_enter (.refl body.graph start) hstart ⟨rfl, rfl⟩) events

theorem observeFrom_expand_entry (hsuits : m.Suits body 0) (state : MachineState V W)
    (events : List (Observation V W)) :
    (∃ steps, m.observeFrom body steps 0 state = events) ↔
      ∃ steps, m.observeFrom body.expand steps 0 state = events := by
  cases hblocks : body.blocks with
  | nil =>
    have hexpand : body.expand.blocks = [] := by
      unfold Body.expand pieces
      rw [hblocks, expandFrom]
      rfl
    refine (simulates_expand hsuits).simulates.exists_observe_iff ?_ events
    unfold enter?
    rw [hblocks, hexpand]
    exact .none
  | cons entry rest => exact observeFrom_expand hsuits (by rw [hblocks]; simp) state events

end Model

end MethodLowering
