import MethodLowering.Check
import MethodLowering.Proofs.Check.Guards
import MethodLowering.Proofs.Check.Spelling

/-!
Runs of expanded and of normalized bodies. From every block a body and its expansion run alike: at
each instruction of the body they have the same values and the same world behind them, and what the
expansion does more is to call an initializer where a check comes to a class that is not
initialized. A body without tests gets its entry check, loses the checks that can be left out and
has the others expanded; its runs show the same all the time.
-/

set_option autoImplicit false
set_option relaxedAutoImplicit false

namespace MethodLowering

/-! ### Expansion -/

namespace Body

/-- If checks run the initializers of all classes, then from every block and every state the run of
the expansion follows that of the body: by a clock it is always where the body is, in a state that
is alike and having shown the same, and between these times it is inside a check. Both runs show the
same all the time. -/
theorem expand_follows {V W : Type} (m : Model V W) (body : Body) (hclosed : body.graph.Closed)
    (hdeclared : m.declared = body.vars.length)
    (hwithin : ∀ block ∈ body.blocks, block.Within body.vars.length)
    (hall : ∀ name, m.hasInitializer name = true) (start : Nat)
    (hstart : start < body.blocks.length) (state : MachineState V W) :
    (∃ clock, m.Follows body body.expand (Model.Spells body start) m.AtCheck
      (Model.enter? body start state) (Model.enter? body.expand start state) clock) ∧
    ∀ events, (∃ steps, m.observeFrom body steps start state = events) ↔
      ∃ steps, m.observeFrom body.expand steps start state = events := by
  have hsuits : m.Suits body start := ⟨hdeclared, hclosed, hwithin, fun _ _ _ _ name _ => hall name⟩
  have hentered : Option.Rel (Model.Spells body start) (Model.enter? body start state)
      (Model.enter? body.expand start state) :=
    Model.spells_enter (.refl body.graph start) hstart ⟨rfl, rfl⟩
  constructor
  · exact ⟨_, (Model.simulates_expand hsuits).follows hentered⟩
  · exact Model.observeFrom_expand hsuits hstart state

/-- A loop with two checks in one block, left over a test of the class that is checked first. -/
def checkedTwice : Body where
  vars := [⟨none, none⟩]
  blocks := [⟨[.test 0 "A"], .branch 0 2 1⟩,
    ⟨[.check "A", .const 0 (.int 1), .check "B"], .jump 0⟩, ⟨[.check "A"], .exit (some 0)⟩]

theorem expand_follows_checkedTwice :
    checkedTwice.graph.Closed ∧
      (Model.tally 1 fun _ => true).declared = checkedTwice.vars.length ∧
      (∀ block ∈ checkedTwice.blocks, block.Within checkedTwice.vars.length) ∧
      (∀ name, (Model.tally 1 fun _ => true).hasInitializer name = true) ∧
      1 < checkedTwice.blocks.length ∧
      (∃ clock, (Model.tally 1 fun _ => true).Follows checkedTwice checkedTwice.expand
        (Model.Spells checkedTwice 1) (Model.tally 1 fun _ => true).AtCheck
        (Model.enter? checkedTwice 1 Model.unstarted)
        (Model.enter? checkedTwice.expand 1 Model.unstarted) clock) ∧
      ∀ events,
        (∃ steps, (Model.tally 1 fun _ => true).observeFrom checkedTwice steps 1 Model.unstarted =
          events) ↔
        ∃ steps, (Model.tally 1 fun _ => true).observeFrom checkedTwice.expand steps 1
          Model.unstarted = events := by
  have hclosed : checkedTwice.graph.Closed := by decide
  have hwithin : ∀ block ∈ checkedTwice.blocks, block.Within checkedTwice.vars.length := by
    unfold Block.Within
    decide
  have hall : ∀ name, (Model.tally 1 fun _ => true).hasInitializer name = true := fun _ => rfl
  exact ⟨hclosed, rfl, hwithin, hall, by decide, expand_follows (Model.tally 1 fun _ => true)
    checkedTwice hclosed rfl hwithin hall 1 (by decide) Model.unstarted⟩

/-- A check of a class takes four steps when the class is not initialized and two when it is. -/
example : (List.range 9).map ((Model.tally 1 fun _ => true).clock checkedTwice
      (Model.tally 1 fun _ => true).spelledCost (Model.enter? checkedTwice 1 Model.unstarted)) =
    [0, 4, 5, 9, 10, 11, 12, 14, 15] := by cbv

end Body

/-! ### Normalization -/

def Body.Untested (body : Body) : Prop :=
  ∀ block ∈ body.blocks, ∀ instr ∈ block.code, ∀ dest name, instr ≠ .test dest name

namespace EntryCheck

variable {hasInitializer : String → Bool} {method : Method} {body : Body} {block : Block}

theorem inject_frame (hasInitializer : String → Bool) (method : Method) (body : Body) :
    (inject hasInitializer method body).vars = body.vars ∧
      (inject hasInitializer method body).graph = body.graph := by
  unfold inject
  split
  · refine ⟨rfl, ?_⟩
    unfold Body.graph Body.modifyEntry
    cases body.blocks with
    | nil => rfl
    | cons entry rest => rfl
  · exact ⟨rfl, rfl⟩

theorem of_mem_inject (hblock : block ∈ (inject hasInitializer method body).blocks) :
    ∃ b ∈ body.blocks, block.terminator = b.terminator ∧
      ∀ instr ∈ block.code, instr ∈ b.code ∨ ∃ name, instr = .check name := by
  have hunchanged : ∀ b ∈ body.blocks, ∃ b' ∈ body.blocks, b.terminator = b'.terminator ∧
      ∀ instr ∈ b.code, instr ∈ b'.code ∨ ∃ name, instr = .check name :=
    fun b hb => ⟨b, hb, rfl, fun instr hinstr => .inl hinstr⟩
  unfold inject at hblock
  split at hblock
  · unfold Body.modifyEntry at hblock
    cases hblocks : body.blocks with
    | nil =>
      rw [hblocks] at hblock
      exact absurd hblock nofun
    | cons entry rest =>
      rw [hblocks] at hblock hunchanged
      obtain rfl | hrest := List.mem_cons.1 hblock
      · refine ⟨entry, List.mem_cons_self, rfl, fun instr hinstr => ?_⟩
        exact (List.mem_cons.1 hinstr).symm.imp_right fun hnew => ⟨_, hnew⟩
      · exact hunchanged block (List.mem_cons_of_mem entry hrest)
  · exact hunchanged block hblock

theorem within_inject {declared : Nat} (h : ∀ block ∈ body.blocks, block.Within declared) :
    ∀ block ∈ (inject hasInitializer method body).blocks, block.Within declared := by
  intro block hblock
  obtain ⟨b, hb, hterm, hcode⟩ := of_mem_inject hblock
  refine ⟨fun instr hinstr v hv => ?_, hterm ▸ (h b hb).2⟩
  obtain hold | ⟨name, rfl⟩ := hcode instr hinstr
  · exact (h b hb).1 instr hold v hv
  · exact absurd hv nofun

theorem untested_inject (h : body.Untested) : (inject hasInitializer method body).Untested := by
  intro block hblock instr hinstr dest name
  obtain ⟨b, hb, -, hcode⟩ := of_mem_inject hblock
  obtain hold | ⟨checked, rfl⟩ := hcode instr hinstr
  · exact h b hb instr hold dest name
  · exact nofun

end EntryCheck

namespace Body

variable {hasInitializer : String → Bool} {body reduced : Body} {number : Nat} {block : Block}
  {declared : Nat}

theorem Eliminated.of_getElem? (helim : body.Eliminated hasInitializer reduced)
    (hblock : reduced.blocks[number]? = some block) :
    ∃ b, body.blocks[number]? = some b ∧ block.terminator = b.terminator ∧
      (∀ instr ∈ block.code, instr ∈ b.code) ∧
      (body.graph.Reaches 0 number → ∀ name, Instr.check name ∈ block.code →
        hasInitializer name = true) := by
  have hsize : number < body.blocks.length :=
    helim.length ▸ (List.getElem?_eq_some_iff.1 hblock).1
  have hb : body.blocks[number]? = some body.blocks[number] := List.getElem?_eq_getElem hsize
  refine ⟨body.blocks[number], hb, ?_⟩
  by_cases hreaches : body.graph.Reaches 0 number
  · rw [helim.reached number _ hb hreaches, Option.some.injEq] at hblock
    subst hblock
    refine ⟨rfl, fun instr hinstr => ?_, fun _ name hname => ?_⟩
    · obtain ⟨k, hk, -⟩ := mem_neededCode_iff.1 hinstr
      exact List.mem_of_getElem? hk
    · obtain ⟨k, -, hkept⟩ := mem_neededCode_iff.1 hname
      by_contra hno
      exact hkept ⟨name, rfl, .inl (Bool.not_eq_true _ ▸ hno)⟩
  · rw [helim.unreached number _ hb hreaches, Option.some.injEq] at hblock
    subst hblock
    exact ⟨rfl, fun _ hinstr => hinstr, fun h => absurd h hreaches⟩

theorem Eliminated.graph_eq (helim : body.Eliminated hasInitializer reduced) :
    reduced.graph = body.graph := by
  refine congrArg Graph.mk (List.ext_getElem? fun number => ?_)
  rw [List.getElem?_map, List.getElem?_map]
  cases hblock : reduced.blocks[number]? with
  | none =>
    rw [List.getElem?_eq_none_iff, helim.length, ← List.getElem?_eq_none_iff] at hblock
    rw [hblock]
  | some block =>
    obtain ⟨b, hb, hterm, -, -⟩ := helim.of_getElem? hblock
    rw [hb, Option.map_some, Option.map_some, hterm]

theorem before_check_of_untested (h : body.Untested) (name : String) (block index : Nat)
    (hasked : body.Before (Instr.AsksAbout name) block index) :
    body.Before (· = .check name) block index := by
  have hsame : ∀ (number : Nat) (b : Block), body.blocks[number]? = some b → ∀ instr ∈ b.code,
      instr.AsksAbout name → instr = .check name := by
    intro number b hb instr hinstr hasks
    cases instr with
    | check other => exact congrArg Instr.check (Option.some.inj hasks)
    | test dest other => exact absurd rfl (h b (List.mem_of_getElem? hb) _ hinstr dest other)
    | _ => exact absurd hasks nofun
  obtain ⟨b, hb, instr, hinstr, hasks⟩ | ⟨d, hne, hdom, b, hb, instr, hinstr, hasks⟩ := hasked
  · exact .inl ⟨b, hb, instr, hinstr, hsame block b hb instr (List.mem_of_mem_take hinstr) hasks⟩
  · exact .inr ⟨d, hne, hdom, b, hb, instr, hinstr, hsame d b hb instr hinstr hasks⟩

end Body

namespace Model

variable {V W : Type} {m : Model V W} {body reduced : Body} {state : MachineState V W}

/-- The places of a run from the entry of a body and those of the reduced body that are abreast. -/
def Alongside (m : Model V W) (body : Body) (state : MachineState V W)
    (other config : Config V W) : Prop :=
  ∃ steps block index, m.Abreast body state steps block index config other

theorem Abreast.match_kept {steps block index : Nat} {config other : Config V W}
    (helim : body.Eliminated m.hasInitializer reduced)
    (h : m.Abreast body state steps block index config other)
    (hkept : ∀ instr, config.code.head? = some instr →
      ¬ body.Needless m.hasInitializer block index instr) :
    m.observe body 1 (some config) = (m.step reduced other).2 ∧
      Option.Rel (m.Alongside body state) (m.step reduced other).1
        (m.after? body 1 (some config)) := by
  obtain ⟨-, hshows, hnext⟩ := h.advance helim hkept
  refine ⟨(observe_one config).trans hshows.symm, ?_⟩
  exact rel_swap (fun _ _ ⟨block', index', habreast⟩ => ⟨steps + 1, block', index', habreast⟩) hnext

/-- A step of the reduced body is matched by the same step of the body, taken after the checks that
are skipped. -/
theorem simulates_eliminated (helim : body.Eliminated m.hasInitializer reduced)
    (hguard : ¬ m.OnlyTested body state) :
    m.Simulates reduced body (m.Alongside body state) := by
  rintro other config ⟨steps, block, index, habreast⟩
  -- by induction on the code that the run of the body has before it
  generalize hcode : config.code = code
  induction code generalizing config steps index with
  | nil =>
    refine ⟨1, Nat.one_pos, habreast.match_kept helim fun instr hhead => ?_⟩
    rw [hcode] at hhead
    exact absurd hhead nofun
  | cons instr rest ih =>
    by_cases hneedless : body.Needless m.hasInitializer block index instr
    · obtain ⟨hstep, hnext⟩ := habreast.skip hguard hcode hneedless
      obtain ⟨later, -, hshows, hafter⟩ := ih _ (steps + 1) (index + 1) hnext rfl
      refine ⟨later + 1, Nat.succ_pos later, ?_, ?_⟩
      · rw [observe_succ, hstep]
        exact hshows
      · rw [after?_succ, hstep]
        exact hafter
    · refine ⟨1, Nat.one_pos, habreast.match_kept helim fun instr' hhead => ?_⟩
      rw [hcode, List.head?_cons, Option.some.injEq] at hhead
      exact hhead ▸ hneedless

theorem suits_eliminated (hdeclared : m.declared = body.vars.length) (hclosed : body.graph.Closed)
    (hwithin : ∀ block ∈ body.blocks, block.Within body.vars.length)
    (helim : body.Eliminated m.hasInitializer reduced) : m.Suits reduced 0 := by
  have hgraph := helim.graph_eq
  refine ⟨helim.vars ▸ hdeclared, hgraph ▸ hclosed, ?_, ?_⟩
  · intro block hblock
    obtain ⟨number, hnumber⟩ := List.getElem?_of_mem hblock
    obtain ⟨b, hb, hterm, hcode, -⟩ := helim.of_getElem? hnumber
    obtain ⟨hvars, hvars'⟩ := hwithin b (List.mem_of_getElem? hb)
    rw [helim.vars]
    exact ⟨fun instr hinstr => hvars instr (hcode instr hinstr), hterm ▸ hvars'⟩
  · intro number block hreaches hblock
    obtain ⟨b, -, -, -, hchecks⟩ := helim.of_getElem? hblock
    exact hchecks (hgraph ▸ hreaches)

theorem observeFrom_eliminated (helim : body.Eliminated m.hasInitializer reduced)
    (hguard : ¬ m.OnlyTested body state) (events : List (Observation V W)) :
    (∃ steps, m.observeFrom reduced steps 0 state = events) ↔
      ∃ steps, m.observeFrom body steps 0 state = events := by
  refine (simulates_eliminated helim hguard).exists_observe_iff ?_ events
  exact rel_swap (fun _ _ ⟨block, index, habreast⟩ => ⟨0, block, index, habreast⟩)
    (abreast_start helim)

end Model

namespace Body

theorem exists_eliminated_expand {V W : Type} (m : Model V W) (body : Body)
    (hclosed : body.graph.Closed) (hdeclared : m.declared = body.vars.length)
    (hwithin : ∀ block ∈ body.blocks, block.Within body.vars.length) (huntested : body.Untested) :
    ∃ reduced, body.eliminate? m.hasInitializer = some reduced ∧ ∀ state events,
      (∃ steps, m.observeFrom body steps 0 state = events) ↔
        ∃ steps, m.observeFrom reduced.expand steps 0 state = events := by
  obtain ⟨reduced, hreduced, helim⟩ := eliminate?_of_closed m.hasInitializer hclosed
  refine ⟨reduced, hreduced, fun state events => ?_⟩
  have hguard : ¬ m.OnlyTested body state :=
    Model.not_onlyTested_of_covered (fun name block index _ =>
      before_check_of_untested huntested name block index) state
  have hsuits : m.Suits reduced 0 := Model.suits_eliminated hdeclared hclosed hwithin helim
  rw [← Model.observeFrom_eliminated helim hguard]
  exact Model.observeFrom_expand_entry hsuits state events

/-- Let a body without tests get its entry check, if the method wants one; eliminate checks and
spell out those that are left. From every state the runs before and after show the same. -/
theorem normalize_observe_iff {V W : Type} (m : Model V W) (method : Method) (body : Body)
    (hclosed : body.graph.Closed) (hdeclared : m.declared = body.vars.length)
    (hwithin : ∀ block ∈ body.blocks, block.Within body.vars.length) (huntested : body.Untested) :
    ∃ reduced,
      (EntryCheck.inject m.hasInitializer method body).eliminate? m.hasInitializer = some reduced ∧
      ∀ state events,
        (∃ steps, m.observeFrom (EntryCheck.inject m.hasInitializer method body) steps 0 state =
          events) ↔ ∃ steps, m.observeFrom reduced.expand steps 0 state = events := by
  obtain ⟨hvars, hgraph⟩ := EntryCheck.inject_frame m.hasInitializer method body
  apply exists_eliminated_expand
  · exact hgraph ▸ hclosed
  · exact hvars ▸ hdeclared
  · rw [hvars]
    exact EntryCheck.within_inject hwithin
  · exact EntryCheck.untested_inject huntested

def staticMethod : Method := ⟨⟨"A", ⟨"run", ⟨[], none⟩⟩⟩, AccessFlags.static, none⟩

/-- A loop through the entry with checks on both ways out of it. -/
def entryLoop : Body where
  vars := [⟨none, none⟩]
  blocks := [⟨[.check "B", .const 0 (.int 1)], .branch 0 1 2⟩,
    ⟨[.check "B", .check "C", .check "N"], .jump 0⟩, ⟨[.check "A", .check "C"], .exit (some 0)⟩]

theorem normalize_observe_iff_entryLoop :
    entryLoop.graph.Closed ∧ (Model.tally 1 (· != "N")).declared = entryLoop.vars.length ∧
      (∀ block ∈ entryLoop.blocks, block.Within entryLoop.vars.length) ∧ entryLoop.Untested ∧
      ∃ reduced, (EntryCheck.inject (Model.tally 1 (· != "N")).hasInitializer staticMethod
          entryLoop).eliminate? (Model.tally 1 (· != "N")).hasInitializer = some reduced ∧
        ∀ state events,
          (∃ steps, (Model.tally 1 (· != "N")).observeFrom (EntryCheck.inject
            (Model.tally 1 (· != "N")).hasInitializer staticMethod entryLoop) steps 0 state =
              events) ↔
            ∃ steps, (Model.tally 1 (· != "N")).observeFrom reduced.expand steps 0 state =
              events := by
  have hclosed : entryLoop.graph.Closed := by decide
  have hwithin : ∀ block ∈ entryLoop.blocks, block.Within entryLoop.vars.length := by
    unfold Block.Within
    decide
  have huntested : entryLoop.Untested := by
    simp [Untested, entryLoop]
  exact ⟨hclosed, rfl, hwithin, huntested,
    normalize_observe_iff (Model.tally 1 (· != "N")) staticMethod entryLoop hclosed rfl hwithin
      huntested⟩

example : ((EntryCheck.inject (· != "N") staticMethod entryLoop).eliminate? (· != "N")).map
      (fun reduced => (reduced.blocks.map Block.code, reduced.expand.blocks.length)) =
    some ([[.check "A", .check "B", .const 0 (.int 1)], [.check "C"], [.check "C"]], 11) := by cbv

end Body

end MethodLowering
