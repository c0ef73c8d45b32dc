import Mathlib.Data.String.Basic

/-! The exceptions the modelled functions raise. -/
namespace Mic3

/-- One object of a run's output listing. -/
structure Artifact where
  bucket : String
  objectKey : String
  sizeBytes : ℤ
  deriving DecidableEq

inductive Raised where
  | modelError (message : String)
  | modelReleaseNotFound (message : String)
  | runNotFound (message : String)
  | runAdmissionExceeded (message : String)
  | requesterNotFound (message : String)
  | executionFailure (code : String) (artifacts : List Artifact)
  | infrastructureUnavailable (message : String)
  | publicationError (message : String)
  /-- A constraint of the schema refused a statement. -/
  | integrityError
  | databaseError
  | keyError
  | indexError
  | valueError
  | attributeError
  deriving DecidableEq

@[simp] theorem pure_eq_ok {α : Type} {a b : α} : (pure a : Except Raised α) = .ok b ↔ a = b :=
  ⟨Except.ok.inj, congrArg _⟩

@[simp] theorem throw_ne_ok {α : Type} {e : Raised} {b : α} : (throw e : Except Raised α) ≠ .ok b := fun he => by cases he

theorem bind_eq_ok {ε α β : Type} {x : Except ε α} {f : α → Except ε β} {b : β} :
    x >>= f = .ok b ↔ ∃ a, x = .ok a ∧ f a = .ok b := by
  cases x with
  | error e => simp [bind, Except.bind]
  | ok a => simp [bind, Except.bind]

/-- A computation that raises no `ExecutionFailure`, so a handler for one never sees it. -/
def NoFailure {α : Type} (x : Except Raised α) : Prop :=
  ∀ code artifacts, x ≠ .error (.executionFailure code artifacts)

namespace NoFailure
variable {α β : Type}

theorem pure (a : α) : NoFailure (Pure.pure a : Except Raised α) := fun _ _ he => by cases he

theorem throw {e : Raised} (h : ∀ code artifacts, e ≠ .executionFailure code artifacts) :
    NoFailure (MonadExcept.throw e : Except Raised α) :=
  fun code artifacts he => h code artifacts (Except.error.inj he)

theorem bind {x : Except Raised α} {f : α → Except Raised β} (hx : NoFailure x)
    (hf : ∀ a, NoFailure (f a)) : NoFailure (x >>= f) := by
  cases x with
  | ok a => exact hf a
  | error e => exact fun code artifacts he => hx code artifacts (congrArg _ (Except.error.inj he))

end NoFailure
end Mic3
