/-!
# Computations that can fail

Computations here return an `Except` value.  A sequence of them succeeds exactly
when each of them does, and every proof about such a sequence takes it apart
with the lemmas of this module.  Some computations also carry a state along; the
state survives a failure.
-/

namespace Provision

section Outcome

variable {ε α β : Type}

@[simp] theorem ok_bind (a : α) (f : α → Except ε β) : (Except.ok a >>= f) = f a := rfl

@[simp] theorem error_bind (e : ε) (f : α → Except ε β) :
    ((Except.error e : Except ε α) >>= f) = .error e := rfl

/-- A sequence succeeds when its first part does and the rest does on what that gives. -/
theorem bind_eq_ok {x : Except ε α} {f : α → Except ε β} {b : β} :
    (x >>= f) = .ok b ↔ ∃ a, x = .ok a ∧ f a = .ok b := by
  cases x with
  | error e =>
    constructor
    · intro h
      cases h
    · rintro ⟨a, h, -⟩
      cases h
  | ok a =>
    constructor
    · exact fun h => ⟨a, rfl, h⟩
    · rintro ⟨a', h, hf⟩
      cases h
      exact hf

theorem toOption_eq_some {x : Except ε α} {a : α} : x.toOption = some a ↔ x = .ok a := by
  cases x with
  | error e => simp [Except.toOption]
  | ok b => simp [Except.toOption]

end Outcome

section Run

variable {ε σ α β : Type}

theorem run_get (s : σ) : (get : ExceptT ε (StateM σ) σ).run s = (.ok s, s) :=
  rfl

theorem run_modify (f : σ → σ) (s : σ) :
    (modify f : ExceptT ε (StateM σ) Unit).run s = (.ok (), f s) :=
  rfl

theorem run_bind (m : ExceptT ε (StateM σ) α) (f : α → ExceptT ε (StateM σ) β) (s : σ) :
    (m >>= f).run s =
      match m.run s with
      | (.ok a, t) => (f a).run t
      | (.error e, t) => (.error e, t) := by
  show StateT.bind m.run (ExceptT.bindCont f) s = _
  unfold StateT.bind
  cases m.run s with
  | mk outcome t => cases outcome <;> rfl

theorem run_bind_ok {m : ExceptT ε (StateM σ) α} {f : α → ExceptT ε (StateM σ) β} {s t : σ} {a : α}
    (h : m.run s = (.ok a, t)) :
    (m >>= f).run s = (f a).run t := by
  rw [run_bind, h]

theorem run_bind_error {m : ExceptT ε (StateM σ) α} {f : α → ExceptT ε (StateM σ) β} {s t : σ}
    {e : ε}
    (h : m.run s = (.error e, t)) :
    (m >>= f).run s = (.error e, t) := by
  rw [run_bind, h]

/-- A sequence succeeds when its first part does and the rest does from where that ends. -/
theorem run_bind_eq_ok {m : ExceptT ε (StateM σ) α} {f : α → ExceptT ε (StateM σ) β} {s t : σ}
    {b : β} :
    (m >>= f).run s = (.ok b, t) ↔ ∃ a r, m.run s = (.ok a, r) ∧ (f a).run r = (.ok b, t) := by
  rw [run_bind]
  cases hrun : m.run s with
  | mk outcome r =>
    cases outcome with
    | error e =>
      constructor
      · intro h
        cases h
      · rintro ⟨a, r', h, -⟩
        cases h
    | ok a =>
      constructor
      · exact fun h => ⟨a, r, rfl, h⟩
      · rintro ⟨a', r', h, hf⟩
        cases h
        exact hf

/-- A sequence without failures runs its second part from where the first ends. -/
theorem run_bind_state (m : StateM σ α) (f : α → StateM σ β) (s : σ) :
    (m >>= f).run s = (f (m.run s).1).run (m.run s).2 :=
  rfl

end Run

end Provision
