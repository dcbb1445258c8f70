import MethodLowering.Proofs.Check.Coverage
import MethodLowering.Proofs.Flow.Simulation

/-!
Runs after elimination. As long as no check runs an initializer of a class that was asked about
before, the run of the reduced body goes through the same states and only skips checks. A class can
be asked about by a test alone; a check behind it that was left out is then missing.
-/

set_option autoImplicit false
set_option relaxedAutoImplicit false

namespace MethodLowering

namespace Body

variable {body : Body} {hasInitializer : String → Bool} {p : Instr → Prop} {block index : Nat}
  {instr : Instr} {code : List Instr}

theorem Before.mono {later : Nat} (h : body.Before p block index) (hle : index ≤ later) :
    body.Before p block later := by
  obtain ⟨b, hb, instr, hinstr, hp⟩ | hentry := h
  · exact .inl ⟨b, hb, instr, List.take_subset_take_left b.code hle hinstr, hp⟩
  · exact .inr hentry

theorem neededCode_cons_of_needless (h : body.Needless hasInitializer block index instr) :
    body.neededCode hasInitializer block index (instr :: code) =
      body.neededCode hasInitializer block (index + 1) code := by
  unfold neededCode
  rw [List.zipIdx_cons, List.filter_cons_of_neg (by simpa using h)]

theorem neededCode_cons (h : ¬ body.Needless hasInitializer block index instr) :
    body.neededCode hasInitializer block index (instr :: code) =
      instr :: body.neededCode hasInitializer block (index + 1) code := by
  unfold neededCode
  rw [List.zipIdx_cons, List.filter_cons_of_pos (by simpa using h), List.map_cons]

theorem mem_neededCode_iff {start : Nat} :
    instr ∈ body.neededCode hasInitializer block start code ↔
      ∃ k, code[k]? = some instr ∧ ¬ body.Needless hasInitializer block (start + k) instr := by
  unfold neededCode
  simp only [List.mem_map, List.mem_filter, decide_eq_true_iff, Prod.exists,
    List.mk_mem_zipIdx_iff_le_and_getElem?_sub]
  constructor
  · rintro ⟨found, k, ⟨⟨hle, hk⟩, hkept⟩, rfl⟩
    refine ⟨k - start, hk, ?_⟩
    rwa [Nat.add_sub_cancel' hle]
  · rintro ⟨k, hk, hkept⟩
    refine ⟨instr, start + k, ⟨⟨Nat.le_add_right start k, ?_⟩, hkept⟩, rfl⟩
    rwa [Nat.add_sub_cancel_left]

end Body

namespace Model

variable {V W : Type} (m : Model V W) (body reduced : Body) (state : MachineState V W)

/-- The run comes to a check that runs an initializer although the class was asked about before,
which then was by tests only. -/
def OnlyTested : Prop :=
  ∃ steps block index config, m.Arrives body state steps block index config ∧
    ∃ name, config.code.head? = some (.check name) ∧ m.hasInitializer name = true ∧
      body.Before (Instr.AsksAbout name) block index ∧
      m.initialized config.state.world name = false

/-- After `pace n` steps the run of `reduced` is where the run of `body` is after `n` steps: in the
same state, in front of the same instruction, or in front of a later one if the instruction is a
check that is skipped. Both runs end together. -/
structure KeepsPace (pace : Nat → Nat) : Prop where
  start : pace 0 = 0
  follows : ∀ steps config, m.place body state steps = some config →
    ∃ other, m.place reduced state (pace steps) = some other ∧
      other.state = config.state ∧ other.terminator = config.terminator ∧
      ((other.code.head? = config.code.head? ∧ pace (steps + 1) = pace steps + 1) ∨
        ∃ name, config.code.head? = some (.check name) ∧ pace (steps + 1) = pace steps)
  ends : ∀ steps, m.place body state steps = none → m.place reduced state (pace steps) = none

/-- The run of `reduced` executes the same instructions, checks apart, in the same order and on the
same states, and finds initialized whatever class with an initializer was checked in `body`. -/
def Guarded : Prop :=
  ∃ pace, m.KeepsPace body reduced state pace ∧
    ∀ steps other name, m.hasInitializer name = true →
      m.Executed body state (· = .check name) steps →
      m.place reduced state (pace steps) = some other →
      m.initialized other.state.world name = true

/-- After so many steps the run is in front of a check that can be left out. -/
def Skips (steps : Nat) : Prop :=
  ∃ block index config, m.Arrives body state steps block index config ∧
    ∃ instr, config.code.head? = some instr ∧
      body.Needless m.hasInitializer block index instr

open Classical in
/-- The number of steps that are left of so many when needless checks are left out. -/
noncomputable def pace : Nat → Nat
  | 0 => 0
  | steps + 1 => if m.Skips body state steps then pace steps else pace steps + 1

/-- The run of `body` is at `config`, and `other` has the same state and what is needed of the code
that is left. -/
structure Abreast (steps block index : Nat) (config other : Config V W) : Prop where
  arrives : m.Arrives body state steps block index config
  code : other.code = body.neededCode m.hasInitializer block index config.code
  terminator : other.terminator = config.terminator
  state : other.state = config.state

variable {m body reduced state} {steps block index : Nat} {config other : Config V W}
  {instr : Instr} {name : String} {rest : List Instr}

/-- A check that can be left out does nothing, unless its class was only tested. -/
theorem exec_of_needless (hguard : ¬ m.OnlyTested body state)
    (harrives : m.Arrives body state steps block index config)
    (hhead : config.code.head? = some instr)
    (hneedless : body.Needless m.hasInitializer block index instr) :
    m.exec config.state instr = (config.state, []) := by
  obtain ⟨name, rfl, hwhy⟩ := hneedless
  apply exec_check_of_idle
  by_contra hfires
  rw [not_or, Bool.not_eq_false, Bool.not_eq_true] at hfires
  obtain ⟨hname, hinit⟩ := hfires
  have hbefore := hwhy.resolve_left (by simp [hname])
  exact hguard ⟨steps, block, index, config, harrives, name, hhead, hname, hbefore, hinit⟩

theorem enter?_eliminated (helim : body.Eliminated m.hasInitializer reduced)
    (hreaches : body.graph.Reaches 0 block) (state : MachineState V W) :
    enter? reduced block state = (enter? body block state).map fun config =>
      { config with code := body.neededCode m.hasInitializer block 0 config.code } := by
  unfold enter?
  cases hb : body.blocks[block]? with
  | some b => rw [helim.reached block b hb hreaches]; rfl
  | none =>
    rw [List.getElem?_eq_none_iff] at hb
    rw [List.getElem?_eq_none_iff.2 (helim.length ▸ hb)]
    rfl

theorem abreast_start (helim : body.Eliminated m.hasInitializer reduced) :
    Option.Rel (fun config other => ∃ block index, m.Abreast body state 0 block index config other)
      (m.place body state 0) (m.place reduced state 0) := by
  unfold place
  rw [enter?_eliminated helim ⟨[0], .single 0⟩]
  cases hconfig : enter? body 0 state with
  | none => exact .none
  | some config => exact .some ⟨0, 0, .start hconfig, rfl, rfl, rfl⟩

theorem Abreast.skip (hguard : ¬ m.OnlyTested body state)
    (h : m.Abreast body state steps block index config other) (hcode : config.code = instr :: rest)
    (hneedless : body.Needless m.hasInitializer block index instr) :
    m.step body config = (some { config with code := rest }, []) ∧
      m.Abreast body state (steps + 1) block (index + 1) { config with code := rest } other := by
  have hidle := exec_of_needless hguard h.arrives (by rw [hcode]; rfl) hneedless
  have hstep : m.step body config = (some { config with code := rest }, []) := by
    rw [step_of_cons hcode, hidle]
  refine ⟨hstep, .execute h.arrives hcode (by rw [hstep]), ?_, h.terminator, h.state⟩
  rw [h.code, hcode, Body.neededCode_cons_of_needless hneedless]

theorem following?_congr (hterm : other.terminator = config.terminator)
    (hstate : other.state = config.state) : m.following? other = m.following? config := by
  unfold following?
  rw [hterm, hstate]

theorem Abreast.advance (helim : body.Eliminated m.hasInitializer reduced)
    (h : m.Abreast body state steps block index config other)
    (hkept : ∀ instr, config.code.head? = some instr →
      ¬ body.Needless m.hasInitializer block index instr) :
    other.code.head? = config.code.head? ∧
      (m.step reduced other).2 = (m.step body config).2 ∧
      Option.Rel
        (fun next next' => ∃ block index, m.Abreast body state (steps + 1) block index next next')
        (m.step body config).1 (m.step reduced other).1 := by
  cases hcode : config.code with
  | cons instr rest =>
    have hother : other.code =
        instr :: body.neededCode m.hasInitializer block (index + 1) rest := by
      rw [h.code, hcode, Body.neededCode_cons (hkept instr (by rw [hcode]; rfl))]
    have hnext : (m.step body config).1 =
        some { config with code := rest, state := (m.exec config.state instr).1 } := by
      rw [step_of_cons hcode]
    refine ⟨by rw [hother]; rfl, by rw [step_of_cons hcode, step_of_cons hother, h.state], ?_⟩
    rw [hnext, step_of_cons hother]
    exact .some ⟨block, index + 1, .execute h.arrives hcode hnext, rfl, h.terminator,
      by rw [h.state]⟩
  | nil =>
    have hother : other.code = [] := by rw [h.code, hcode]; rfl
    refine ⟨by rw [hother], ?_⟩
    have hsame := following?_congr (m := m) h.terminator h.state
    cases htarget : m.following? config with
    | none =>
      obtain ⟨hnone, hstep⟩ := step_congr_of_not_following body reduced hcode htarget hother
        h.terminator (by rw [h.state]) (by rw [h.state])
      rw [hstep, hnone]
      exact ⟨rfl, .none⟩
    | some target =>
      have hstep := step_of_following body hcode htarget
      rw [hstep, step_of_following _ hother (hsame.trans htarget), h.state]
      refine ⟨rfl, ?_⟩
      cases hnext : enter? body target config.state with
      | none =>
        have hmissing : enter? reduced target config.state = none := by
          unfold enter? at hnext ⊢
          simpa [helim.length] using hnext
        rw [hmissing]
        exact .none
      | some next =>
        have harrives : m.Arrives body state (steps + 1) target 0 next :=
          .leave h.arrives hcode htarget (by rw [hstep, hnext])
        rw [enter?_eliminated helim harrives.reaches, hnext]
        exact .some ⟨target, 0, harrives, rfl, rfl, rfl⟩

theorem Arrives.unique {block' index' : Nat} {config' : Config V W}
    (h : m.Arrives body state steps block index config)
    (h' : m.Arrives body state steps block' index' config') : block = block' ∧ index = index' := by
  induction h generalizing block' index' config' with
  | start => cases h'; exact ⟨rfl, rfl⟩
  | execute harrives hcode _ ih =>
    cases h' with
    | execute harrives' _ _ =>
      obtain ⟨rfl, rfl⟩ := ih harrives'
      exact ⟨rfl, rfl⟩
    | leave harrives' hcode' _ _ =>
      have hsame := Option.some.inj (harrives.place_eq.symm.trans harrives'.place_eq)
      rw [hsame, hcode'] at hcode
      cases hcode
  | leave harrives hcode htarget _ ih =>
    cases h' with
    | execute harrives' hcode' _ =>
      have hsame := Option.some.inj (harrives.place_eq.symm.trans harrives'.place_eq)
      rw [← hsame, hcode] at hcode'
      cases hcode'
    | leave harrives' _ htarget' _ =>
      have hsame := Option.some.inj (harrives.place_eq.symm.trans harrives'.place_eq)
      rw [← hsame, htarget, Option.some.injEq] at htarget'
      exact ⟨htarget', rfl⟩

theorem skips_iff (h : m.Arrives body state steps block index config) :
    m.Skips body state steps ↔ ∃ instr, config.code.head? = some instr ∧
      body.Needless m.hasInitializer block index instr := by
  constructor
  · rintro ⟨block', index', config', h', hskip⟩
    obtain ⟨rfl, rfl⟩ := h.unique h'
    rwa [Option.some.inj (h'.place_eq.symm.trans h.place_eq)] at hskip
  · exact fun hskip => ⟨block, index, config, h, hskip⟩

theorem Abreast.kept (h : m.Abreast body state steps block index config other)
    (hskips : ¬ m.Skips body state steps) (instr : Instr)
    (hhead : config.code.head? = some instr) :
    ¬ body.Needless m.hasInitializer block index instr := by
  intro hneedless
  exact hskips ((skips_iff h.arrives).2 ⟨instr, hhead, hneedless⟩)

/-- As many steps on as its pace tells, the run of the reduced body is abreast of the other. -/
theorem abreast_pace (helim : body.Eliminated m.hasInitializer reduced)
    (hguard : ¬ m.OnlyTested body state) (steps : Nat) :
    Option.Rel
      (fun config other => ∃ block index, m.Abreast body state steps block index config other)
      (m.place body state steps) (m.place reduced state (m.pace body state steps)) := by
  induction steps with
  | zero => exact abreast_start helim
  | succ steps ih =>
    cases hplace : m.place body state steps with
    | none =>
      have hskips : ¬ m.Skips body state steps := by
        rintro ⟨block, index, config, harrives, -⟩
        rw [harrives.place_eq] at hplace
        cases hplace
      rw [hplace] at ih
      rw [place, hplace, pace, if_neg hskips, place, eq_none_of_rel ih]
      exact .none
    | some config =>
      rw [hplace] at ih
      obtain ⟨other, hplace', block, index, habreast⟩ := exists_of_rel ih
      rw [place, hplace, pace, Option.bind_some]
      by_cases hskips : m.Skips body state steps
      · obtain ⟨instr, hhead, hneedless⟩ := (skips_iff habreast.arrives).1 hskips
        obtain ⟨rest, hcode⟩ := List.head?_eq_some_iff.1 hhead
        obtain ⟨hstep, hnext⟩ := habreast.skip hguard hcode hneedless
        rw [if_pos hskips, hplace', hstep]
        exact .some ⟨block, index + 1, hnext⟩
      · rw [if_neg hskips, place, hplace', Option.bind_some]
        exact (habreast.advance helim (habreast.kept hskips)).2.2

theorem keepsPace_pace (helim : body.Eliminated m.hasInitializer reduced)
    (hguard : ¬ m.OnlyTested body state) :
    m.KeepsPace body reduced state (m.pace body state) := by
  refine ⟨rfl, fun steps config hplace => ?_, fun steps hplace => ?_⟩
  · have hrel := abreast_pace helim hguard steps
    rw [hplace] at hrel
    obtain ⟨other, hplace', block, index, habreast⟩ := exists_of_rel hrel
    refine ⟨other, hplace', habreast.state, habreast.terminator, ?_⟩
    by_cases hskips : m.Skips body state steps
    · obtain ⟨instr, hhead, name, rfl, -⟩ := (skips_iff habreast.arrives).1 hskips
      exact .inr ⟨name, hhead, by rw [pace, if_pos hskips]⟩
    · obtain ⟨hsame, -, -⟩ := habreast.advance helim (habreast.kept hskips)
      exact .inl ⟨hsame, by rw [pace, if_neg hskips]⟩
  · have hrel := abreast_pace helim hguard steps
    rw [hplace] at hrel
    exact eq_none_of_rel hrel

theorem KeepsPace.arrives {pace : Nat → Nat} (hpace : m.KeepsPace body reduced state pace)
    (h : m.Arrives body state steps block index config) :
    ∃ other index', m.place reduced state (pace steps) = some other ∧
      other.state = config.state ∧ m.Arrives reduced state (pace steps) block index' other := by
  induction h with
  | @start config hstart =>
    obtain ⟨other, hplace, hstate, -⟩ := hpace.follows 0 config hstart
    refine ⟨other, 0, hplace, hstate, ?_⟩
    rw [hpace.start] at hplace ⊢
    exact .start hplace
  | @execute steps block index config next instr rest harrives hcode hstep ih =>
    obtain ⟨before, index', hbefore, -, harrives'⟩ := ih
    obtain ⟨other, hother, -, -, hmoves⟩ := hpace.follows steps config harrives.place_eq
    obtain ⟨after, hafter, hstate, -⟩ :=
      hpace.follows (steps + 1) next (Arrives.execute harrives hcode hstep).place_eq
    rw [hbefore, Option.some.injEq] at hother
    subst hother
    obtain ⟨hhead, hmoved⟩ | ⟨name, -, hstays⟩ := hmoves
    · rw [hcode] at hhead
      obtain ⟨rest', hcode'⟩ := List.head?_eq_some_iff.1 hhead
      refine ⟨after, index' + 1, hafter, hstate, ?_⟩
      rw [hmoved] at hafter ⊢
      rw [place, hbefore, Option.bind_some] at hafter
      exact .execute harrives' hcode' hafter
    · refine ⟨after, index', hafter, hstate, ?_⟩
      rw [hstays] at hafter ⊢
      rwa [← Option.some.inj (hbefore.symm.trans hafter)]
  | @leave steps block index target config next harrives hcode htarget hstep ih =>
    obtain ⟨before, index', hbefore, -, harrives'⟩ := ih
    obtain ⟨other, hother, hsame, hterm, hmoves⟩ := hpace.follows steps config harrives.place_eq
    obtain ⟨after, hafter, hstate, -⟩ :=
      hpace.follows (steps + 1) next (Arrives.leave harrives hcode htarget hstep).place_eq
    rw [hbefore, Option.some.injEq] at hother
    subst hother
    obtain ⟨hhead, hmoved⟩ | ⟨name, hcheck, -⟩ := hmoves
    · rw [hcode, List.head?_nil, List.head?_eq_none_iff] at hhead
      refine ⟨after, 0, hafter, hstate, ?_⟩
      rw [hmoved] at hafter ⊢
      rw [place, hbefore, Option.bind_some] at hafter
      exact .leave harrives' hhead ((following?_congr hterm hsame).trans htarget) hafter
    · rw [hcode] at hcheck
      cases hcheck

/-- A check that fires where it can be left out is not executed by a run that keeps pace. -/
theorem not_onlyTested_of_keepsPace {pace : Nat → Nat}
    (helim : body.Eliminated m.hasInitializer reduced)
    (hpace : m.KeepsPace body reduced state pace) : ¬ m.OnlyTested body state := by
  rintro ⟨steps, block, index, config, harrives, name, hhead, hname, hbefore, hinit⟩
  obtain ⟨other, index', hother, hstate, harrives'⟩ := hpace.arrives harrives
  obtain ⟨found, hfound, -, -, hmoves⟩ := hpace.follows steps config harrives.place_eq
  rw [hother, Option.some.injEq] at hfound
  subst hfound
  obtain ⟨hsame, -⟩ | ⟨checked, -, hstays⟩ := hmoves
  · -- the check would be one that was kept, so one that stands before this one in the block
    obtain ⟨b, hb, -, -⟩ := harrives.stands
    obtain ⟨b', hb', hdrop, -⟩ := harrives'.stands
    rw [helim.reached block b hb harrives.reaches, Option.some.injEq] at hb'
    have hmem : Instr.check name ∈ body.neededCode m.hasInitializer block 0 b.code := by
      have hcheck : Instr.check name ∈ other.code := List.mem_of_head? (hsame.trans hhead)
      rw [hdrop, ← hb'] at hcheck
      exact List.mem_of_mem_drop hcheck
    obtain ⟨k, hk, hkept⟩ := Body.mem_neededCode_iff.1 hmem
    rw [Nat.zero_add] at hkept
    have hlt : k < index := by
      by_contra hge
      exact hkept ⟨name, rfl, .inr (hbefore.mono (not_lt.1 hge))⟩
    have htaken : Instr.check name ∈ b.code.take index := by
      rw [List.mem_iff_getElem?]
      exact ⟨k, by rw [List.getElem?_take_of_lt hlt, hk]⟩
    have hchecked : m.initialized config.state.world name = true :=
      initialized_of_executed hname (harrives.executed.1 b hb _ htaken) harrives.place_eq
    rw [hchecked] at hinit
    cases hinit
  · -- the run would stand still while the class becomes initialized
    obtain ⟨rest, hcode⟩ := List.head?_eq_some_iff.1 hhead
    have hnext : m.place body state (steps + 1) = some { config with
        code := rest, state := (m.exec config.state (.check name)).1 } := by
      rw [place, harrives.place_eq, Option.bind_some, step_of_cons hcode]
    obtain ⟨after, hafter, hstate', -⟩ := hpace.follows (steps + 1) _ hnext
    rw [hstays, hother, Option.some.injEq] at hafter
    have hsame : (m.exec config.state (.check name)).1 = config.state :=
      hstate'.symm.trans (hafter ▸ hstate)
    have hchecked : m.initialized (m.exec config.state (.check name)).1.world name = true :=
      initialized_exec_check hname
    rw [hsame, hinit] at hchecked
    cases hchecked

theorem guarded_of_not_onlyTested (helim : body.Eliminated m.hasInitializer reduced)
    (hguard : ¬ m.OnlyTested body state) : m.Guarded body reduced state := by
  have hpace := keepsPace_pace helim hguard
  refine ⟨m.pace body state, hpace, ?_⟩
  intro steps other name hname hexecuted hother
  cases hplace : m.place body state steps with
  | none =>
    rw [hpace.ends steps hplace] at hother
    cases hother
  | some config =>
    obtain ⟨found, hfound, hstate, -⟩ := hpace.follows steps config hplace
    rw [hother, Option.some.injEq] at hfound
    rw [hfound, hstate]
    exact initialized_of_executed hname hexecuted hplace

theorem not_onlyTested_of_covered
    (hcovered : ∀ name block index, m.hasInitializer name = true →
      body.Before (Instr.AsksAbout name) block index → body.Before (· = .check name) block index)
    (state : MachineState V W) : ¬ m.OnlyTested body state := by
  rintro ⟨steps, block, index, config, harrives, name, -, hname, hasked, hinit⟩
  have hexecuted : m.Executed body state (· = .check name) steps := by
    obtain ⟨htaken, front, hpath, hfront⟩ := harrives.executed
    obtain ⟨b, hb, _, hinstr, rfl⟩ | ⟨d, hne, hdom, b, hb, _, hinstr, rfl⟩ :=
      hcovered name block index hname hasked
    · exact htaken b hb _ hinstr
    · have hmem : d ∈ front := by
        have hd := hdom _ hpath
        rw [List.mem_append, List.mem_singleton] at hd
        exact hd.resolve_right hne
      exact hfront d hmem b hb _ hinstr
  rw [initialized_of_executed hname hexecuted harrives.place_eq] at hinit
  cases hinit

/-- Numbers as values; the world is the list of the classes whose initializers ran, latest first. -/
def tally (declared : Nat) (hasInitializer : String → Bool) : Model Nat (List String) where
  declared := declared
  hasInitializer := hasInitializer
  initialized world name := world.contains name
  runInitializer name world := name :: world
  perform instr vars world :=
    match instr with
    | .const dest (.int value) => (fun v => if v = dest then value.toInt.toNat else vars v, world)
    | .move dest source => (fun v => if v = dest then vars source else vars v, world)
    | _ => (vars, world)
  holds condition vars _ := vars condition != 0
  ofBool answer := answer.toNat
  initialized_runInitializer_self name world := by simp
  initialized_runInitializer name world other h := by simp_all
  initialized_perform instr vars world name h := by split <;> exact h

def unstarted : MachineState Nat (List String) := ⟨fun _ => 0, fun _ => false, []⟩

end Model

namespace Body

/-- Elimination of checks from a closed body leaves a run guarded exactly if the run comes to no
check that runs an initializer although the class was asked about before. There is none in any run
if every class with an initializer that is asked about on every path is checked on every path. -/
theorem eliminate?_guarded_iff {V W : Type} (m : Model V W) (body : Body)
    (hclosed : body.graph.Closed) :
    ∃ reduced, body.eliminate? m.hasInitializer = some reduced ∧
      (∀ state, m.Guarded body reduced state ↔ ¬ m.OnlyTested body state) ∧
      ((∀ name block index, m.hasInitializer name = true →
        body.Before (Instr.AsksAbout name) block index →
        body.Before (· = .check name) block index) → ∀ state, m.Guarded body reduced state) := by
  obtain ⟨reduced, hreduced, helim⟩ := eliminate?_of_closed m.hasInitializer hclosed
  refine ⟨reduced, hreduced, fun state => ⟨?_, Model.guarded_of_not_onlyTested helim⟩, ?_⟩
  · rintro ⟨pace, hpace, -⟩
    exact Model.not_onlyTested_of_keepsPace helim hpace
  · exact fun hcovered state =>
      Model.guarded_of_not_onlyTested helim (Model.not_onlyTested_of_covered hcovered state)

/-- A test of a class, then a check of it. -/
def testedThenChecked : Body := ⟨[⟨none, none⟩], [⟨[.test 0 "A", .check "A"], .exit none⟩]⟩

def testedOnly : Body := ⟨[⟨none, none⟩], [⟨[.test 0 "A"], .exit none⟩]⟩

theorem eliminate?_guarded_iff_testedThenChecked :
    testedThenChecked.graph.Closed ∧
      ∃ reduced, testedThenChecked.eliminate? (Model.tally 1 (· == "A")).hasInitializer =
          some reduced ∧
        (∀ state, (Model.tally 1 (· == "A")).Guarded testedThenChecked reduced state ↔
          ¬ (Model.tally 1 (· == "A")).OnlyTested testedThenChecked state) ∧
        ((∀ name block index, (Model.tally 1 (· == "A")).hasInitializer name = true →
          testedThenChecked.Before (Instr.AsksAbout name) block index →
          testedThenChecked.Before (· = .check name) block index) →
          ∀ state, (Model.tally 1 (· == "A")).Guarded testedThenChecked reduced state) :=
  ⟨by decide, eliminate?_guarded_iff (Model.tally 1 (· == "A")) testedThenChecked (by decide)⟩

/-- With no class initialized at the start, the body checks the class and what elimination leaves
of it never has it initialized. -/
theorem not_guarded_testedOnly :
    testedThenChecked.graph.Closed ∧
      testedThenChecked.eliminate? (· == "A") = some testedOnly ∧
      (Model.tally 1 (· == "A")).Executed testedThenChecked Model.unstarted (· = .check "A") 2 ∧
      (∀ steps other,
        (Model.tally 1 (· == "A")).place testedOnly Model.unstarted steps = some other →
        (Model.tally 1 (· == "A")).initialized other.state.world "A" = false) ∧
      ¬ (Model.tally 1 (· == "A")).Guarded testedThenChecked testedOnly Model.unstarted := by
  have hexecuted : (Model.tally 1 (· == "A")).Executed testedThenChecked Model.unstarted
      (· = .check "A") 2 := ⟨1, by decide, _, rfl, _, rfl, rfl⟩
  have hnever : ∀ steps other,
      (Model.tally 1 (· == "A")).place testedOnly Model.unstarted steps = some other →
      (Model.tally 1 (· == "A")).initialized other.state.world "A" = false := by
    have hended : (Model.tally 1 (· == "A")).place testedOnly Model.unstarted 2 = none := rfl
    intro steps other hother
    obtain _ | _ | more := steps
    · cases hother
      rfl
    · cases hother
      rfl
    · rw [Nat.add_comm more 1, Nat.add_right_comm, Model.place_add_eq_none hended] at hother
      cases hother
  refine ⟨by decide, by cbv, hexecuted, hnever, ?_⟩
  rintro ⟨pace, hpace, hguard⟩
  obtain ⟨other, hother, -⟩ := hpace.follows 2 _ rfl
  have hinit := hguard 2 other "A" rfl hexecuted hother
  rw [hnever _ _ hother] at hinit
  cases hinit

end Body

end MethodLowering
