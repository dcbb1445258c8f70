/-!
Logged computations: a result or a failure together with all that was logged up to it, in order.
-/

set_option autoImplicit false
set_option relaxedAutoImplicit false

namespace MethodLowering

/-- A result or a failure, and what was logged before it. -/
structure Logged (E F α : Type) where
  events : List E
  result : Except F α

namespace Logged

variable {E F α β : Type}

def value (a : α) : Logged E F α := ⟨[], .ok a⟩

/-- Go on with a value, unless there is a failure. -/
def andThen (x : Logged E F α) (f : α → Logged E F β) : Logged E F β :=
  match x.result with
  | .error failure => ⟨x.events, .error failure⟩
  | .ok a => ⟨x.events ++ (f a).events, (f a).result⟩

instance : Monad (Logged E F) where
  pure := value
  bind := andThen

def fail (failure : F) : Logged E F α := ⟨[], .error failure⟩

def ofExcept (result : Except F α) : Logged E F α := ⟨[], result⟩

/-- Give the value, or fail if there is none. -/
def orFail (failure : F) : Option α → Logged E F α
  | none => fail failure
  | some a => value a

def tell (event : E) : Logged E F Unit := ⟨[event], .ok ()⟩

@[simp]
theorem result_bind (x : Logged E F α) (f : α → Logged E F β) :
    (x >>= f).result = x.result.bind fun a => (f a).result := by
  show (andThen x f).result = _
  unfold andThen
  cases x.result <;> rfl

theorem result_bind_of_ok {x : Logged E F α} {a : α} (h : x.result = .ok a)
    (f : α → Logged E F β) : (x >>= f).result = (f a).result := by
  rw [result_bind, h]
  rfl

theorem result_bind_eq_ok_iff {x : Logged E F α} {f : α → Logged E F β} {b : β} :
    (x >>= f).result = .ok b ↔ ∃ a, x.result = .ok a ∧ (f a).result = .ok b := by
  rw [result_bind]
  cases x.result with
  | error failure => exact ⟨nofun, fun ⟨_, h, _⟩ => nomatch h⟩
  | ok a => exact ⟨fun h => ⟨a, rfl, h⟩, fun ⟨_, h, hb⟩ => Except.ok.inj h ▸ hb⟩

@[simp]
theorem result_pure (a : α) : (pure a : Logged E F α).result = .ok a := rfl

@[simp]
theorem result_tell (event : E) : (tell event : Logged E F Unit).result = .ok () := rfl

theorem orFail_some_bind (failure : F) (a : α) (f : α → Logged E F β) :
    (orFail failure (some a) >>= f) = f a := rfl

theorem orFail_none_bind (failure : F) (f : α → Logged E F β) :
    (orFail failure none >>= f) = fail failure := rfl

end Logged

end MethodLowering
