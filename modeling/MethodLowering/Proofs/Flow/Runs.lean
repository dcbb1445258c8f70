import MethodLowering.Flow.Execution
import MethodLowering.Proofs.Flow.Edges

/-!
Runs of bodies. A run is followed step by step together with the block it is in and the number of
instructions of that block it has executed; the blocks it has left form a path, and all their
instructions were executed.
-/

set_option autoImplicit false
set_option relaxedAutoImplicit false

namespace MethodLowering

namespace Model

variable {V W : Type} (m : Model V W) (body : Body) (state : MachineState V W)

/-- The place of the run from the entry after so many steps, if it has not ended. -/
def place : Nat → Option (Config V W)
  | 0 => enter? body 0 state
  | steps + 1 => (place steps).bind fun config => (m.step body config).1

/-- The block that follows at the end of a block, if one does. -/
def following? (config : Config V W) : Option Nat :=
  match config.terminator with
  | .jump target => some target
  | .branch condition consequent alternative =>
    some (if m.test config.state condition then consequent else alternative)
  | .exit _ => none

/-- After so many steps the run is in a block of which it has executed so many instructions. -/
inductive Arrives : Nat → Nat → Nat → Config V W → Prop
  | start {config : Config V W} : enter? body 0 state = some config → Arrives 0 0 0 config
  | execute {steps block index : Nat} {config next : Config V W} {instr : Instr}
      {rest : List Instr} : Arrives steps block index config → config.code = instr :: rest →
      (m.step body config).1 = some next → Arrives (steps + 1) block (index + 1) next
  | leave {steps block index target : Nat} {config next : Config V W} :
      Arrives steps block index config → config.code = [] → m.following? config = some target →
      (m.step body config).1 = some next → Arrives (steps + 1) target 0 next

def Executed (p : Instr → Prop) (steps : Nat) : Prop :=
  ∃ earlier < steps, ∃ config, m.place body state earlier = some config ∧
    ∃ instr, config.code.head? = some instr ∧ p instr

variable {m body state} {p : Instr → Prop} {config next : Config V W} {instr : Instr}
  {rest : List Instr} {steps block index target : Nat} {name : String}

theorem enter?_eq_some_iff : enter? body block state = some config ↔
    ∃ b, body.blocks[block]? = some b ∧ config = ⟨b.code, b.terminator, state⟩ := by
  simp only [enter?, Option.map_eq_some_iff]
  exact exists_congr fun b => and_congr_right fun _ => eq_comm

theorem place_add_eq_none (h : m.place body state steps = none) (more : Nat) :
    m.place body state (steps + more) = none := by
  induction more with
  | zero => exact h
  | succ more ih => rw [← Nat.add_assoc, place, ih, Option.bind_none]

theorem step_of_cons (hcode : config.code = instr :: rest) :
    m.step body config = (some { config with
      code := rest, state := (m.exec config.state instr).1 }, (m.exec config.state instr).2) := by
  unfold step
  rw [hcode]

theorem step_of_following (body : Body) (hcode : config.code = [])
    (htarget : m.following? config = some target) :
    m.step body config = (enter? body target config.state, []) := by
  unfold step
  unfold following? at htarget
  rw [hcode]
  cases hterm : config.terminator with
  | jump target =>
    simp only [hterm, Option.some.injEq] at htarget ⊢
    rw [htarget]
  | branch condition consequent alternative =>
    simp only [hterm, Option.some.injEq] at htarget ⊢
    rw [htarget]
  | exit value => simp [hterm] at htarget

theorem step_of_not_following (body : Body) (hcode : config.code = [])
    (hend : m.following? config = none) :
    ∃ value, config.terminator = .exit value ∧
      m.step body config = (none, [.left value config.state.vars config.state.world]) := by
  unfold following? at hend
  cases hterm : config.terminator with
  | jump target => simp [hterm] at hend
  | branch condition consequent alternative => simp [hterm] at hend
  | exit value =>
    refine ⟨value, rfl, ?_⟩
    unfold step
    simp only [hcode, hterm]

theorem step_congr_of_not_following (body other : Body) {config' : Config V W}
    (hcode : config.code = []) (hend : m.following? config = none) (hcode' : config'.code = [])
    (hterm : config'.terminator = config.terminator)
    (hvars : config'.state.vars = config.state.vars)
    (hworld : config'.state.world = config.state.world) :
    (m.step body config).1 = none ∧ m.step other config' = m.step body config := by
  obtain ⟨value, hexit, hstep⟩ := step_of_not_following body hcode hend
  rw [hexit] at hterm
  refine ⟨by rw [hstep], ?_⟩
  rw [hstep, ← hvars, ← hworld]
  unfold step
  rw [hcode', hterm]

theorem mem_targets_of_following (h : m.following? config = some target) :
    target ∈ config.terminator.targets := by
  unfold following? at h
  unfold Terminator.targets
  cases hterm : config.terminator with
  | jump target => simpa [hterm, eq_comm] using h
  | branch condition consequent alternative =>
    simp only [hterm, Option.some.injEq] at h ⊢
    by_cases hsame : consequent = alternative
    · simp [← h, hsame]
    · rw [if_neg hsame, ← h]
      split <;> simp
  | exit value => simp [hterm] at h

theorem edge_of_following {b : Block} (hb : body.blocks[block]? = some b)
    (hterm : config.terminator = b.terminator) (htarget : m.following? config = some target) :
    body.graph.Edge block target := by
  refine ⟨b.terminator.targets, ?_, hterm ▸ mem_targets_of_following htarget⟩
  rw [Body.successors?_graph, hb, Option.map_some]

theorem Arrives.place_eq (h : m.Arrives body state steps block index config) :
    m.place body state steps = some config := by
  induction h with
  | start h => exact h
  | execute _ _ hstep ih => rw [place, ih, Option.bind_some, hstep]
  | leave _ _ _ hstep ih => rw [place, ih, Option.bind_some, hstep]

theorem Arrives.stands (h : m.Arrives body state steps block index config) :
    ∃ b, body.blocks[block]? = some b ∧ config.code = b.code.drop index ∧
      config.terminator = b.terminator := by
  induction h with
  | start h =>
    obtain ⟨b, hb, rfl⟩ := enter?_eq_some_iff.1 h
    exact ⟨b, hb, rfl, rfl⟩
  | @execute steps block index config next instr rest _ hcode hstep ih =>
    obtain ⟨b, hb, hdrop, hterm⟩ := ih
    rw [step_of_cons hcode, Option.some.injEq] at hstep
    subst hstep
    refine ⟨b, hb, ?_, hterm⟩
    rw [← List.tail_drop, ← hdrop, hcode]
    rfl
  | leave _ hcode htarget hstep =>
    rw [step_of_following _ hcode htarget] at hstep
    obtain ⟨b, hb, rfl⟩ := enter?_eq_some_iff.1 hstep
    exact ⟨b, hb, rfl, rfl⟩

theorem Executed.mono {more : Nat} (h : m.Executed body state p steps) (hle : steps ≤ more) :
    m.Executed body state p more := by
  obtain ⟨earlier, hlt, hexecuted⟩ := h
  exact ⟨earlier, by omega, hexecuted⟩

theorem executed_succ (hplace : m.place body state steps = some config)
    (hcode : config.code.head? = some instr) (hp : p instr) :
    m.Executed body state p (steps + 1) :=
  ⟨steps, Nat.lt_succ_self steps, config, hplace, instr, hcode, hp⟩

/-- The instructions of the block in front of the place, and all those of the blocks on the path to
it, were executed. -/
theorem Arrives.executed (h : m.Arrives body state steps block index config) :
    (∀ b, body.blocks[block]? = some b → ∀ instr ∈ b.code.take index,
      m.Executed body state (· = instr) steps) ∧
    ∃ front, body.graph.Path 0 (front ++ [block]) block ∧
      ∀ d ∈ front, ∀ b, body.blocks[d]? = some b → ∀ instr ∈ b.code,
        m.Executed body state (· = instr) steps := by
  induction h with
  | start => exact ⟨fun b _ instr hinstr => by simp at hinstr, [], .single 0, by simp⟩
  | @execute steps block index config next instr rest harrives hcode hstep ih =>
    obtain ⟨htaken, front, hpath, hfront⟩ := ih
    obtain ⟨b, hb, hdrop, -⟩ := harrives.stands
    refine ⟨fun c hc other hother => ?_, front, hpath, fun d hd c hc other hother =>
      (hfront d hd c hc other hother).mono (Nat.le_succ steps)⟩
    rw [hb, Option.some.injEq] at hc
    subst hc
    have hnext : b.code[index]? = some instr := by
      rw [← List.head?_drop, ← hdrop, hcode]
      rfl
    rw [List.take_add_one, hnext] at hother
    rcases List.mem_append.1 hother with hbefore | hlast
    · exact (htaken b hb other hbefore).mono (Nat.le_succ steps)
    · have hsame : other = instr := by simpa using hlast
      exact executed_succ harrives.place_eq (by rw [hcode]; rfl) hsame.symm
  | @leave steps block index target config next harrives hcode htarget hstep ih =>
    obtain ⟨htaken, front, hpath, hfront⟩ := ih
    obtain ⟨b, hb, hdrop, hterm⟩ := harrives.stands
    have hedge := edge_of_following hb hterm htarget
    refine ⟨fun c _ other hother => by simp at hother, front ++ [block], hpath.concat hedge, ?_⟩
    intro d hd c hc other hother
    rcases List.mem_append.1 hd with hbefore | hlast
    · exact (hfront d hbefore c hc other hother).mono (Nat.le_succ steps)
    · rw [List.mem_singleton.1 hlast, hb, Option.some.injEq] at hc
      subst hc
      have hall : b.code.take index = b.code := by
        rw [hcode, eq_comm, List.drop_eq_nil_iff] at hdrop
        exact List.take_of_length_le hdrop
      exact (htaken b hb other (hall.symm ▸ hother)).mono (Nat.le_succ steps)

theorem Arrives.reaches (h : m.Arrives body state steps block index config) :
    body.graph.Reaches 0 block := by
  obtain ⟨-, front, hpath, -⟩ := h.executed
  exact ⟨front ++ [block], hpath⟩

theorem exec_check_of_idle
    (h : m.hasInitializer name = false ∨ m.initialized state.world name = true) :
    m.exec state (.check name) = (state, []) := by
  unfold exec
  obtain hnone | hinit := h
  · simp [hnone]
  · simp [hinit]

theorem exec_check_of_firing (hname : m.hasInitializer name = true)
    (hinit : m.initialized state.world name = false) :
    m.exec state (.check name) = m.initializeClass state name := by
  unfold exec
  simp [hname, hinit]

theorem initialized_exec_check (hname : m.hasInitializer name = true) :
    m.initialized (m.exec state (.check name)).1.world name = true := by
  cases hinit : m.initialized state.world name with
  | true => rw [exec_check_of_idle (.inr hinit), hinit]
  | false =>
    rw [exec_check_of_firing hname hinit]
    exact m.initialized_runInitializer_self name state.world

theorem initialized_exec (h : m.initialized state.world name = true) :
    m.initialized (m.exec state instr).1.world name = true := by
  unfold exec
  split
  · split
    · exact m.initialized_runInitializer _ _ _ h
    · exact h
  · unfold store
    split <;> exact h
  · split
    · exact m.initialized_runInitializer _ _ _ h
    · exact m.initialized_perform _ _ _ _ h

theorem initialized_step (h : m.initialized config.state.world name = true)
    (hstep : (m.step body config).1 = some next) :
    m.initialized next.state.world name = true := by
  cases hcode : config.code with
  | cons instr rest =>
    rw [step_of_cons hcode, Option.some.injEq] at hstep
    subst hstep
    exact initialized_exec h
  | nil =>
    cases htarget : m.following? config with
    | some target =>
      rw [step_of_following _ hcode htarget] at hstep
      obtain ⟨b, -, rfl⟩ := enter?_eq_some_iff.1 hstep
      exact h
    | none =>
      obtain ⟨value, -, hnone⟩ := step_of_not_following body hcode htarget
      rw [hnone] at hstep
      exact absurd hstep nofun

theorem initialized_of_executed (hname : m.hasInitializer name = true)
    (hexecuted : m.Executed body state (· = .check name) steps)
    (hplace : m.place body state steps = some config) :
    m.initialized config.state.world name = true := by
  induction steps generalizing config with
  | zero =>
    obtain ⟨earlier, hlt, -⟩ := hexecuted
    exact absurd hlt (Nat.not_lt_zero earlier)
  | succ steps ih =>
    rw [place, Option.bind_eq_some_iff] at hplace
    obtain ⟨before, hbefore, hstep⟩ := hplace
    obtain ⟨earlier, hlt, found, hfound, instr, hinstr, rfl⟩ := hexecuted
    rcases Nat.lt_succ_iff_lt_or_eq.1 hlt with hearlier | rfl
    · exact initialized_step
        (ih ⟨earlier, hearlier, found, hfound, _, hinstr, rfl⟩ hbefore) hstep
    · rw [hbefore, Option.some.injEq] at hfound
      subst hfound
      obtain ⟨rest, hcode⟩ := List.head?_eq_some_iff.1 hinstr
      rw [step_of_cons hcode, Option.some.injEq] at hstep
      subst hstep
      exact initialized_exec_check hname

end Model

end MethodLowering
