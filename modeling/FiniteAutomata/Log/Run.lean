import FiniteAutomata.Log.Record

/-!
# Log/Run — computations that report and may fail

What was reported before a failure stays reported.  `Run.debugLog` leaves out the details.
-/

namespace FiniteAutomata

/-- An outcome, and the records written on the way to it. -/
structure Run (ε α : Type) where
  outcome : Except ε α
  log : List Record

namespace Run

variable {ε ε' α β : Type}

/-- Nothing to report. -/
def ofExcept (outcome : Except ε α) : Run ε α := ⟨outcome, []⟩

/-- Stops with a failure. -/
def fail (e : ε) : Run ε α := ⟨.error e, []⟩

/-- Stops with a failure if there is no value. -/
def ofOption (e : ε) : Option α → Run ε α
  | some a => ⟨.ok a, []⟩
  | none => fail e

/-- Writes records. -/
def report (records : List Record) : Run ε Unit := ⟨.ok (), records⟩

/-- Goes on after a success. -/
def andThen (x : Run ε α) (f : α → Run ε β) : Run ε β :=
  match x.outcome with
  | .ok a => ⟨(f a).outcome, x.log ++ (f a).log⟩
  | .error e => ⟨.error e, x.log⟩

instance : Monad (Run ε) where
  pure a := ⟨.ok a, []⟩
  bind := andThen

@[ext] theorem ext : ∀ {x y : Run ε α}, x.outcome = y.outcome → x.log = y.log → x = y
  | ⟨_, _⟩, ⟨_, _⟩, rfl, rfl => rfl

/-- What was reported stays in order, however the steps are grouped. -/
instance : LawfulMonad (Run ε) :=
  LawfulMonad.mk' _
    (fun
      | ⟨.ok _, log⟩ => ext rfl (List.append_nil log)
      | ⟨.error _, _⟩ => rfl)
    (fun _ _ => rfl)
    (fun x f g =>
      match x with
      | ⟨.error _, _⟩ => rfl
      | ⟨.ok a, log⟩ => by
        show andThen (andThen ⟨.ok a, log⟩ f) g = andThen ⟨.ok a, log⟩ fun b => andThen (f b) g
        unfold andThen
        cases h : (f a).outcome with
        | error => simp [h]
        | ok b => simp [h])

theorem fail_bind (e : ε) (f : α → Run ε β) : fail e >>= f = fail e := rfl

/-- Renames the failures. -/
def mapError (f : ε → ε') (x : Run ε α) : Run ε' α := ⟨x.outcome.mapError f, x.log⟩

@[simp] theorem outcome_pure (a : α) : (pure a : Run ε α).outcome = .ok a := rfl

@[simp] theorem log_pure (a : α) : (pure a : Run ε α).log = [] := rfl

theorem outcome_bind (x : Run ε α) (f : α → Run ε β) :
    (x >>= f).outcome = x.outcome >>= fun a => (f a).outcome := by
  show (andThen x f).outcome = _
  unfold andThen
  cases x.outcome <;> rfl

theorem outcome_bind_of_ok {x : Run ε α} {a : α} (h : x.outcome = .ok a) (f : α → Run ε β) :
    (x >>= f).outcome = (f a).outcome := by
  rw [outcome_bind, h]
  rfl

theorem outcome_bind_of_error {x : Run ε α} {e : ε} (h : x.outcome = .error e)
    (f : α → Run ε β) : (x >>= f).outcome = .error e := by
  rw [outcome_bind, h]
  rfl

theorem outcome_ofOption_bind {e : ε} {x : Option α} {a : α} (h : x = some a) (f : α → Run ε β) :
    (ofOption e x >>= f).outcome = (f a).outcome :=
  outcome_bind_of_ok (h ▸ rfl) f

end Run

end FiniteAutomata
