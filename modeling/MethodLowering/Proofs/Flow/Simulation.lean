import Mathlib.Order.Monotone.Basic
import MethodLowering.Proofs.Flow.Runs

/-!
Simulation between bodies. If places are related so that each step of one run is matched by one or
more steps of the other with the same observations, then the two runs show the same. Where it is
known how many steps match a step, and what can be met on the way, a clock tells after how many
steps the second run is abreast of the first, and every place of the second run is either abreast of
one of the first or on the way to the next.
-/

set_option autoImplicit false
set_option relaxedAutoImplicit false

namespace MethodLowering

section Rel

variable {α β : Type} {r : α → β → Prop} {s : β → α → Prop} {a : Option α} {b : Option β}

theorem rel_swap (hrs : ∀ x y, r x y → s y x) (h : Option.Rel r a b) : Option.Rel s b a := by
  cases h with
  | none => exact .none
  | some h => exact .some (hrs _ _ h)

theorem eq_none_of_rel (h : Option.Rel r none b) : b = none := by
  cases h with
  | none => rfl

theorem exists_of_rel {x : α} (h : Option.Rel r (some x) b) : ∃ y, b = some y ∧ r x y := by
  cases h with
  | some h => exact ⟨_, rfl, h⟩

end Rel

namespace Model

variable {V W : Type} (m : Model V W) (body other : Body)

def after? : Nat → Option (Config V W) → Option (Config V W)
  | 0, place => place
  | steps + 1, place => after? steps (place.bind fun config => (m.step body config).1)

/-- Each step from a place is matched by one or more steps from any place related to it. -/
def Simulates (R : Config V W → Config V W → Prop) : Prop :=
  ∀ config config', R config config' → ∃ steps, 0 < steps ∧
    m.observe other steps (some config') = (m.step body config).2 ∧
    Option.Rel R (m.step body config).1 (m.after? other steps (some config'))

variable {m body other} {R : Config V W → Config V W → Prop} {place place' : Option (Config V W)}

@[simp]
theorem observe_none (steps : Nat) : m.observe body steps none = [] := by
  cases steps <;> rfl

theorem observe_succ (steps : Nat) (config : Config V W) :
    m.observe body (steps + 1) (some config) =
      (m.step body config).2 ++ m.observe body steps (m.step body config).1 := rfl

theorem observe_one (config : Config V W) :
    m.observe body 1 (some config) = (m.step body config).2 :=
  List.append_nil _

theorem after?_none (steps : Nat) : m.after? body steps none = none := by
  induction steps with
  | zero => rfl
  | succ steps ih => exact ih

theorem after?_succ (steps : Nat) (config : Config V W) :
    m.after? body (steps + 1) (some config) = m.after? body steps (m.step body config).1 := rfl

theorem observe_add (first second : Nat) (place : Option (Config V W)) :
    m.observe body (first + second) place =
      m.observe body first place ++ m.observe body second (m.after? body first place) := by
  induction first generalizing place with
  | zero => rw [Nat.zero_add]; rfl
  | succ first ih =>
    cases place with
    | none => simp [after?_none]
    | some config =>
      rw [Nat.add_right_comm, observe_succ, observe_succ, after?_succ, ih, List.append_assoc]

theorem after?_add (first second : Nat) (place : Option (Config V W)) :
    m.after? body (first + second) place = m.after? body second (m.after? body first place) := by
  induction first generalizing place with
  | zero => rw [Nat.zero_add]; rfl
  | succ first ih => rw [Nat.add_right_comm]; exact ih _

theorem length_exec_le (state : MachineState V W) (instr : Instr) :
    (m.exec state instr).2.length ≤ 1 := by
  unfold exec initializeClass
  cases instr with
  | check name => dsimp only; split <;> simp
  | test dest name => dsimp only; split <;> simp
  | _ => dsimp only; split <;> simp

theorem length_step_le (config : Config V W) : (m.step body config).2.length ≤ 1 := by
  cases hcode : config.code with
  | cons instr rest =>
    rw [step_of_cons hcode]
    exact length_exec_le config.state instr
  | nil =>
    cases htarget : m.following? config with
    | some target => rw [step_of_following _ hcode htarget]; exact Nat.zero_le 1
    | none =>
      obtain ⟨value, -, hstep⟩ := step_of_not_following body hcode htarget
      rw [hstep]
      exact Nat.le_refl 1

theorem Simulates.exists_observe_target (hsim : m.Simulates body other R)
    (hrel : Option.Rel R place place') (steps : Nat) :
    ∃ steps', m.observe other steps' place' = m.observe body steps place := by
  induction steps generalizing place place' with
  | zero => exact ⟨0, rfl⟩
  | succ steps ih =>
    cases hrel with
    | none => exact ⟨0, rfl⟩
    | some hconfig =>
      obtain ⟨first, -, hsame, hnext⟩ := hsim _ _ hconfig
      obtain ⟨second, hlater⟩ := ih hnext
      exact ⟨first + second, by rw [observe_add, hsame, hlater, observe_succ]⟩

/-- The steps that match a step of the first run show one thing at most, so that cut off anywhere
they show what the first run shows before the step or after it. -/
theorem Simulates.exists_observe_source (hsim : m.Simulates body other R)
    (hrel : Option.Rel R place place') (steps : Nat) :
    ∃ steps', m.observe body steps' place = m.observe other steps place' := by
  induction steps using Nat.strongRecOn generalizing place place' with
  | ind steps ih =>
    cases hrel with
    | none => exact ⟨0, (observe_none steps).symm⟩
    | @some config config' hconfig =>
      obtain ⟨first, hpos, hsame, hnext⟩ := hsim _ _ hconfig
      by_cases hle : first ≤ steps
      · obtain ⟨later, hlater⟩ := ih (steps - first) (by omega) hnext
        refine ⟨later + 1, ?_⟩
        rw [observe_succ, hlater, ← hsame, ← observe_add, Nat.add_sub_cancel' hle]
      · have hcut : m.observe other steps (some config') <+: (m.step body config).2 := by
          rw [← hsame, ← Nat.add_sub_cancel' (Nat.le_of_not_le hle), observe_add]
          exact List.prefix_append _ _
        obtain hnil | hall : m.observe other steps (some config') = [] ∨
            m.observe other steps (some config') = (m.step body config).2 := by
          obtain hzero | hsome := Nat.eq_zero_or_pos (m.observe other steps (some config')).length
          · exact .inl (List.length_eq_zero_iff.1 hzero)
          · exact .inr (hcut.eq_of_length_le (Nat.le_trans (length_step_le config) hsome))
        · exact ⟨0, hnil.symm⟩
        · exact ⟨1, (observe_one config).trans hall.symm⟩

theorem Simulates.exists_observe_iff (hsim : m.Simulates body other R)
    (hrel : Option.Rel R place place') (events : List (Observation V W)) :
    (∃ steps, m.observe body steps place = events) ↔
      ∃ steps, m.observe other steps place' = events := by
  constructor
  · rintro ⟨steps, rfl⟩
    exact hsim.exists_observe_target hrel steps
  · rintro ⟨steps, rfl⟩
    exact hsim.exists_observe_source hrel steps

end Model

/-! ### Clocks -/

namespace Model

variable {V W : Type} (m : Model V W) (body other : Body)

/-- Each step from a place is matched by `cost` steps, at least one, from any place related to it,
and `Q` relates the place to those on the way. -/
def SimulatesBy (R Q : Config V W → Config V W → Prop) (cost : Config V W → Nat) : Prop :=
  ∀ config config', R config config' → 0 < cost config ∧
    m.observe other (cost config) (some config') = (m.step body config).2 ∧
    Option.Rel R (m.step body config).1 (m.after? other (cost config) (some config')) ∧
    ∀ steps, 0 < steps → steps < cost config →
      ∃ between, m.after? other steps (some config') = some between ∧ Q config between

/-- The number of steps that match so many steps of a run; one each once it has ended. -/
def clock (cost : Config V W → Nat) (place : Option (Config V W)) : Nat → Nat
  | 0 => 0
  | steps + 1 => clock cost place steps + ((m.after? body steps place).map cost).getD 1

/-- After `clock n` steps the second run is at a place related to that of the first run after `n`
steps, and has shown the same; or both have ended. At any other time it is between two such
places. -/
structure Follows (R Q : Config V W → Config V W → Prop) (place place' : Option (Config V W))
    (clock : Nat → Nat) : Prop where
  start : clock 0 = 0
  strictMono : StrictMono clock
  shows : ∀ steps, m.observe other (clock steps) place' = m.observe body steps place
  abreast : ∀ steps,
    Option.Rel R (m.after? body steps place) (m.after? other (clock steps) place')
  between : ∀ time, (∃ steps, time = clock steps) ∨
    ∃ steps config config', clock steps < time ∧ time < clock (steps + 1) ∧
      m.after? body steps place = some config ∧ m.after? other time place' = some config' ∧
      Q config config'

variable {m body other} {R Q : Config V W → Config V W → Prop} {cost : Config V W → Nat}
  {place place' : Option (Config V W)} {steps : Nat}

theorem SimulatesBy.simulates (h : m.SimulatesBy body other R Q cost) :
    m.Simulates body other R := by
  intro config config' hrel
  obtain ⟨hpos, hshows, hnext, -⟩ := h config config' hrel
  exact ⟨cost config, hpos, hshows, hnext⟩

theorem clock_succ_of_some {config : Config V W}
    (h : m.after? body steps place = some config) :
    m.clock body cost place (steps + 1) = m.clock body cost place steps + cost config := by
  rw [clock, h]
  rfl

theorem clock_succ_of_none (h : m.after? body steps place = none) :
    m.clock body cost place (steps + 1) = m.clock body cost place steps + 1 := by
  rw [clock, h]
  rfl

theorem SimulatesBy.abreast (h : m.SimulatesBy body other R Q cost)
    (hrel : Option.Rel R place place') (steps : Nat) :
    m.observe other (m.clock body cost place steps) place' = m.observe body steps place ∧
      Option.Rel R (m.after? body steps place)
        (m.after? other (m.clock body cost place steps) place') := by
  induction steps with
  | zero => exact ⟨rfl, hrel⟩
  | succ steps ih =>
    obtain ⟨hshows, habreast⟩ := ih
    rw [observe_add steps 1, after?_add steps 1]
    cases hplace : m.after? body steps place with
    | none =>
      rw [hplace] at habreast
      rw [clock_succ_of_none hplace, observe_add, after?_add, hshows, eq_none_of_rel habreast]
      exact ⟨by rw [observe_none, observe_none], .none⟩
    | some config =>
      rw [hplace] at habreast
      obtain ⟨config', hplace', hconfig⟩ := exists_of_rel habreast
      obtain ⟨-, hsame, hnext, -⟩ := h config config' hconfig
      rw [clock_succ_of_some hplace, observe_add, after?_add, hshows, hplace', hsame, observe_one]
      exact ⟨rfl, hnext⟩

theorem SimulatesBy.clock_lt (h : m.SimulatesBy body other R Q cost)
    (hrel : Option.Rel R place place') (steps : Nat) :
    m.clock body cost place steps < m.clock body cost place (steps + 1) := by
  cases hplace : m.after? body steps place with
  | none =>
    rw [clock_succ_of_none hplace]
    exact Nat.lt_succ_self _
  | some config =>
    obtain ⟨-, habreast⟩ := h.abreast hrel steps
    rw [hplace] at habreast
    obtain ⟨config', -, hconfig⟩ := exists_of_rel habreast
    have hpos := (h config config' hconfig).1
    rw [clock_succ_of_some hplace]
    omega

theorem exists_clock_le {clock : Nat → Nat} (hstart : clock 0 = 0) (hmono : StrictMono clock)
    (time : Nat) : ∃ steps, clock steps ≤ time ∧ time < clock (steps + 1) := by
  induction time with
  | zero =>
    have hfirst : clock 0 < clock (0 + 1) := hmono Nat.one_pos
    exact ⟨0, by omega, by omega⟩
  | succ time ih =>
    obtain ⟨steps, hle, hlt⟩ := ih
    by_cases hlater : time + 1 < clock (steps + 1)
    · exact ⟨steps, by omega, hlater⟩
    · have hnext : clock (steps + 1) < clock (steps + 1 + 1) :=
        hmono (Nat.lt_succ_self _)
      exact ⟨steps + 1, by omega, by omega⟩

theorem SimulatesBy.follows (h : m.SimulatesBy body other R Q cost)
    (hrel : Option.Rel R place place') :
    m.Follows body other R Q place place' (m.clock body cost place) := by
  have hmono : StrictMono (m.clock body cost place) :=
    strictMono_nat_of_lt_succ (h.clock_lt hrel)
  refine ⟨rfl, hmono, fun steps => (h.abreast hrel steps).1, fun steps => (h.abreast hrel steps).2,
    fun time => ?_⟩
  obtain ⟨steps, hle, hlt⟩ := exists_clock_le rfl hmono time
  obtain heq | hgt := Nat.eq_or_lt_of_le hle
  · exact .inl ⟨steps, heq.symm⟩
  · right
    obtain ⟨-, habreast⟩ := h.abreast hrel steps
    cases hplace : m.after? body steps place with
    | none =>
      rw [clock_succ_of_none hplace] at hlt
      omega
    | some config =>
      rw [hplace] at habreast
      obtain ⟨config', hplace', hconfig⟩ := exists_of_rel habreast
      rw [clock_succ_of_some hplace] at hlt
      obtain ⟨-, -, -, hway⟩ := h config config' hconfig
      obtain ⟨between, hbetween, hQ⟩ :=
        hway (time - m.clock body cost place steps) (by omega) (by omega)
      refine ⟨steps, config, between, hgt, ?_, hplace, ?_, hQ⟩
      · rw [clock_succ_of_some hplace]
        exact hlt
      · rw [← Nat.add_sub_cancel' hle, after?_add, hplace', hbetween]

end Model

end MethodLowering
