import Mic3.World

/-! `SubmitRun.execute`: read the release, prepare the parameters, then `save_requested` commits the run
and its event together, under the admission lock when limits apply. -/
namespace Mic3
open Relational

/-- Python code inside a transaction: an exception rolls back and propagates. -/
def attempt {α π ρ : Type} (result : Except Raised α) (next : α → Effect × Progress π ρ) :
    Effect × Progress π ρ :=
  match result with
  | .ok a => next a
  | .error e => (.rollback, .raised e)

theorem attempt_eq {α π ρ : Type} {result : Except Raised α} {next : α → Effect × Progress π ρ}
    {e : Effect} {r : Progress π ρ} (h : attempt result next = (e, r)) :
    (e = .rollback ∧ ∃ err, result = .error err ∧ r = .raised err) ∨
      ∃ a, result = .ok a ∧ next a = (e, r) := by
  cases result with
  | ok a => exact .inr ⟨a, rfl, h⟩
  | error err =>
    obtain ⟨rfl, rfl⟩ := Prod.mk.inj h
    exact .inl ⟨rfl, err, rfl, rfl⟩

def admissionLock : ℤ := 7523190402

def RunAdmissionLimits.check (limits : RunAdmissionLimits) (userCount totalCount : ℕ) :
    Except Raised Unit :=
  if limits.perUser ≤ userCount then
    throw (.runAdmissionExceeded "Your outstanding run limit has been reached.")
  else if limits.globalTotal ≤ totalCount then
    throw (.runAdmissionExceeded "The platform outstanding run limit has been reached.")
  else pure ()

/-- A call: API callers pass the resolved user and limits, operators may pass neither. -/
structure SubmitRun where
  releaseId : UUID
  parameters : Json
  requestedBy : Option UUID
  limits : Option RunAdmissionLimits

structure QueuedRun where
  id : UUID
  modelReleaseId : UUID
  requestedBy : Option UUID
  parameters : Json
  fingerprint : String

def QueuedRun.row (run : QueuedRun) (createdAt : Time) : Run :=
  { run with
    status := .queued, acceptedAt := none, failureCode := none, dispatchStartedAt := none
    finishedAt := none, jobNamespace := none, jobUid := none, createdAt }

/-- `release_definition(model, release)` of the joined rows. -/
def getRelease (t : Tables) (releaseId : UUID) : Except Raised ModelRelease := do
  match t.releases.find? releaseId with
  | none => throw (.modelReleaseNotFound "Model release does not exist.")
  | some row => return ⟨row.id, ← loadReleaseDefinition t row⟩

/-- The run to queue, and the release it is prepared from. -/
structure Submission where
  run : QueuedRun
  read : ReleaseDefinition

namespace SubmitRun

inductive Pc where
  | getRelease
  | lockAdmission (s : Submission) (limits : RunAdmissionLimits)
  | countTotal (s : Submission) (limits : RunAdmissionLimits)
  | countOwned (s : Submission) (limits : RunAdmissionLimits) (total : ℕ)
  | findUser (s : Submission)
  | insertRun (s : Submission)
  | checkRelease (s : Submission) (row : Run)
  | checkUser (s : Submission) (row : Run)
  | insertEvent (s : Submission) (row : Run)
  | commit (s : Submission) (row : Run) (event : OutboxEvent)

/-- The run that `execute` builds before it calls the store. -/
def prepare (call : SubmitRun) (t : Tables) (id : UUID) : Except Raised Submission := do
  let release ← Mic3.getRelease t call.releaseId
  let effective ← release.definition.executionDefinition.prepare call.parameters
  let text ← fingerprint release.definition effective
  return ⟨⟨id, release.id, call.requestedBy, effective, text⟩, release.definition⟩

def step (call : SubmitRun) (w : World) (i : Input) : Pc → Effect × Progress Pc UUID
  | .getRelease => attempt (call.prepare w.tables i.uuid) fun s =>
    match call.limits with
    | some limits => (.read, .running (.lockAdmission s limits))
    | none => (.read, .running (.findUser s))
  | .lockAdmission s limits => (.lock (.advisory admissionLock), .running (.countTotal s limits))
  | .countTotal s limits => (.read, .running (.countOwned s limits w.tables.activeCount))
  | .countOwned s limits total =>
    attempt (limits.check (w.tables.ownedCount s.run.requestedBy) total) fun _ =>
      (.read, .running (.findUser s))
  | .findUser s =>
    if s.run.requestedBy.all (· ∈ w.tables.users) then (.read, .running (.insertRun s))
    else (.rollback, .raised (.requesterNotFound "The requested_by MIC3 user does not exist."))
  | .insertRun s =>
    if (w.tables.runs.find? s.run.id).isSome then (.rollback, .raised .integrityError)
    else (.lock (.run s.run.id), .running (.checkRelease s (s.run.row i.createdAt)))
  -- The foreign keys of the inserted row take key-share locks on the rows it refers to.
  | .checkRelease s row =>
    if (w.tables.releases.find? row.modelReleaseId).isSome then
      (.share (.release row.modelReleaseId), .running (.checkUser s row))
    else (.rollback, .raised .integrityError)
  | .checkUser s row =>
    match row.requestedBy with
    | none => (.read, .running (.insertEvent s row))
    | some user =>
      if user ∈ w.tables.users then (.share (.user user), .running (.insertEvent s row))
      else (.rollback, .raised .integrityError)
  | .insertEvent s row =>
    (.read, .running (.commit s row ⟨i.uuid, row.id, "run.requested", i.createdAt, none⟩))
  | .commit s row event =>
    (.commit (.submit row event) [.submitted row.id s.read call.limits], .returned row.id)

/-- What a statement of a submission does, the constructor of its `Pc` given. -/
theorem step_cases {call : SubmitRun} {w : World} {i : Input} {pc : Pc} {e : Effect}
    {r : Progress Pc UUID} :
    call.step w i pc = (e, r) →
    (e = .rollback ∧ ∃ err, r = .raised err) ∨ match pc with
    | .getRelease => ∃ s, call.prepare w.tables i.uuid = .ok s ∧ e = .read ∧
        ((∃ limits, call.limits = some limits ∧ r = .running (.lockAdmission s limits)) ∨
          call.limits = none ∧ r = .running (.findUser s))
    | .lockAdmission s limits =>
        e = .lock (.advisory admissionLock) ∧ r = .running (.countTotal s limits)
    | .countTotal s limits => e = .read ∧ r = .running (.countOwned s limits w.tables.activeCount)
    | .countOwned s limits total =>
        limits.check (w.tables.ownedCount s.run.requestedBy) total = .ok () ∧ e = .read ∧
          r = .running (.findUser s)
    | .findUser s => e = .read ∧ r = .running (.insertRun s)
    | .insertRun s => w.tables.runs.find? s.run.id = none ∧ e = .lock (.run s.run.id) ∧
        r = .running (.checkRelease s (s.run.row i.createdAt))
    | .checkRelease s row => (w.tables.releases.find? row.modelReleaseId).isSome ∧
        e = .share (.release row.modelReleaseId) ∧ r = .running (.checkUser s row)
    | .checkUser s row => ((∃ user, e = .share (.user user)) ∨ e = .read) ∧
        r = .running (.insertEvent s row)
    | .insertEvent s row => e = .read ∧
        r = .running (.commit s row ⟨i.uuid, row.id, "run.requested", i.createdAt, none⟩)
    | .commit s row event =>
        e = .commit (.submit row event) [.submitted row.id s.read call.limits] ∧
          r = .returned row.id := by
  intro hs
  cases pc with
  | getRelease =>
    rcases attempt_eq hs with ⟨rfl, err, -, rfl⟩ | ⟨s, hp, hs⟩
    · exact .inl ⟨rfl, err, rfl⟩
    · split at hs
      · obtain ⟨rfl, rfl⟩ := Prod.mk.inj hs
        exact .inr ⟨s, hp, rfl, .inl ⟨_, ‹_›, rfl⟩⟩
      · obtain ⟨rfl, rfl⟩ := Prod.mk.inj hs
        exact .inr ⟨s, hp, rfl, .inr ⟨‹_›, rfl⟩⟩
  | lockAdmission s limits =>
    obtain ⟨rfl, rfl⟩ := Prod.mk.inj hs
    exact .inr ⟨rfl, rfl⟩
  | countTotal s limits =>
    obtain ⟨rfl, rfl⟩ := Prod.mk.inj hs
    exact .inr ⟨rfl, rfl⟩
  | countOwned s limits total =>
    rcases attempt_eq hs with ⟨rfl, err, -, rfl⟩ | ⟨_, hc, hs⟩
    · exact .inl ⟨rfl, err, rfl⟩
    · obtain ⟨rfl, rfl⟩ := Prod.mk.inj hs
      exact .inr ⟨hc, rfl, rfl⟩
  | findUser s =>
    simp only [step] at hs
    split at hs <;> obtain ⟨rfl, rfl⟩ := Prod.mk.inj hs
    · exact .inr ⟨rfl, rfl⟩
    · exact .inl ⟨rfl, _, rfl⟩
  | insertRun s =>
    simp only [step] at hs
    split at hs <;> obtain ⟨rfl, rfl⟩ := Prod.mk.inj hs
    · exact .inl ⟨rfl, _, rfl⟩
    · exact .inr ⟨Option.not_isSome_iff_eq_none.mp ‹_›, rfl, rfl⟩
  | checkRelease s row =>
    simp only [step] at hs
    split at hs <;> obtain ⟨rfl, rfl⟩ := Prod.mk.inj hs
    · exact .inr ⟨‹_›, rfl, rfl⟩
    · exact .inl ⟨rfl, _, rfl⟩
  | checkUser s row =>
    simp only [step] at hs
    split at hs
    · obtain ⟨rfl, rfl⟩ := Prod.mk.inj hs
      exact .inr ⟨.inr rfl, rfl⟩
    · split at hs <;> obtain ⟨rfl, rfl⟩ := Prod.mk.inj hs
      · exact .inr ⟨.inl ⟨_, rfl⟩, rfl⟩
      · exact .inl ⟨rfl, _, rfl⟩
  | insertEvent s row =>
    obtain ⟨rfl, rfl⟩ := Prod.mk.inj hs
    exact .inr ⟨rfl, rfl⟩
  | commit s row event =>
    obtain ⟨rfl, rfl⟩ := Prod.mk.inj hs
    exact .inr ⟨rfl, rfl⟩

end SubmitRun
end Mic3
