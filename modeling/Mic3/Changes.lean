import Mic3.Tables

/-! What a transaction has pending, and what its commit does to the committed tables. A row that was
loaded is written back column by column: only the columns the code assigned a new value change. -/
namespace Mic3
open Relational

/-- A clock reading and the values the database and `uuid4` supply for a new row. -/
structure Defaults where
  now : Time
  uuid : UUID
  createdAt : Time

/-- A session's locked run: as loaded, as assigned since, and the rows added beside it. -/
structure UnitOfWork where
  loaded : Run
  row : Run
  artifacts : List RunArtifact
  events : List OutboxEvent

def UnitOfWork.clean (row : Run) : UnitOfWork := ⟨row, row, [], []⟩

/-- One column of an UPDATE: sent only when the assigned value differs from the loaded one. -/
def column {α : Type} [DecidableEq α] (loaded assigned current : α) : α :=
  if assigned = loaded then current else assigned

@[simp] theorem column_self {α : Type} [DecidableEq α] (loaded assigned : α) :
    column loaded assigned loaded = assigned := by
  unfold column
  split <;> simp_all

/-- The UPDATE of a run row. Its key and submission columns are never assigned. -/
def Run.flush (loaded assigned current : Run) : Run :=
  { current with
    status := column loaded.status assigned.status current.status
    acceptedAt := column loaded.acceptedAt assigned.acceptedAt current.acceptedAt
    failureCode := column loaded.failureCode assigned.failureCode current.failureCode
    dispatchStartedAt :=
      column loaded.dispatchStartedAt assigned.dispatchStartedAt current.dispatchStartedAt
    finishedAt := column loaded.finishedAt assigned.finishedAt current.finishedAt
    jobNamespace := column loaded.jobNamespace assigned.jobNamespace current.jobNamespace
    jobUid := column loaded.jobUid assigned.jobUid current.jobUid }

/-- `finish_row`: the terminal write shared by acceptance, claiming and reconciliation. -/
def finishRow (u : UnitOfWork) (failureCode : Option String) (artifacts : List Artifact)
    (d : Defaults) : UnitOfWork :=
  if u.row.status.terminal then u else
  let status := if truthy failureCode then RunStatus.failed else RunStatus.succeeded
  { u with
    row := { u.row with status, failureCode, finishedAt := some d.now }
    artifacts := u.artifacts ++ artifacts.map fun a => ⟨u.row.id, a.objectKey, a.bucket, a.sizeBytes⟩
    events := u.events ++ [⟨d.uuid, u.row.id, "run." ++ status.text, d.createdAt, none⟩] }

@[simp] theorem finishRow_loaded (u : UnitOfWork) (failureCode : Option String)
    (artifacts : List Artifact) (d : Defaults) : (finishRow u failureCode artifacts d).loaded = u.loaded := by
  unfold finishRow
  split <;> rfl

@[simp] theorem UnitOfWork.clean_loaded (row : Run) : (UnitOfWork.clean row).loaded = row := rfl

/-- A release row a registration adds, or the one it found and edits. -/
inductive ReleaseWrite where
  | create (row : ModelReleaseRow)
  | edit (loaded : ModelReleaseRow) (executionDefinition : Json)

/-- What a registration writes, over the model row it inserted or loaded. -/
structure Registration where
  model : ModelRow
  inserted : Bool
  displayName : String
  release : ReleaseWrite

def ModelRow.renamed (displayName : String) (row : ModelRow) : ModelRow := { row with displayName }

def ModelReleaseRow.edited (executionDefinition : Json) (row : ModelReleaseRow) : ModelReleaseRow :=
  { row with executionDefinition }

def OutboxEvent.published (time : Time) (row : OutboxEvent) : OutboxEvent :=
  { row with publishedAt := some time }

/-- The write set of one transaction. -/
inductive Change where
  | nothing
  | submit (row : Run) (event : OutboxEvent)
  | outcome (u : UnitOfWork)
  | register (r : Registration)
  | publish (marks : List (UUID × Time))
  | reject (message : RejectedMessage)

namespace Change

def applyOutcome (u : UnitOfWork) (t : Tables) : Option Tables :=
  if u.artifacts.all fun a => 0 ≤ a.sizeBytes then do
    let artifacts ← t.artifacts.insertAll u.artifacts
    let outbox ← t.outbox.insertAll u.events
    return { t with runs := t.runs.modify u.loaded.id (Run.flush u.loaded u.row), artifacts, outbox }
  else none

def writeModel (models : Table ModelRow) (r : Registration) : Option (Table ModelRow) :=
  if r.inserted then models.insert (r.model.renamed r.displayName)
  else some (models.modify r.model.id (ModelRow.renamed r.displayName))

def writeRelease (releases : Table ModelReleaseRow) : ReleaseWrite → Option (Table ModelReleaseRow)
  | .create row => releases.insert row
  | .edit loaded definition => some (releases.modify loaded.id (ModelReleaseRow.edited definition))

def applyRegister (r : Registration) (t : Tables) : Option Tables := do
  let models ← writeModel t.models r
  let releases ← writeRelease t.releases r.release
  return { t with models, releases }

def markPublished (outbox : Table OutboxEvent) (mark : UUID × Time) : Table OutboxEvent :=
  outbox.modify mark.1 (OutboxEvent.published mark.2)

/-- The tables after the commit; `none` when a constraint refuses a row. -/
def apply (t : Tables) : Change → Option Tables
  | .nothing => some t
  | .submit row event => do
    let runs ← t.runs.insert row
    let outbox ← t.outbox.insert event
    return { t with runs, outbox }
  | .outcome u => applyOutcome u t
  | .register r => applyRegister r t
  | .publish marks => some { t with outbox := marks.foldl markPublished t.outbox }
  | .reject message => do
    let rejected ← t.rejected.insert message
    return { t with rejected }

section Inversion
variable {t t' : Tables}

theorem submit_apply {row : Run} {event : OutboxEvent} (h : (Change.submit row event).apply t = some t') :
    ∃ runs outbox, t.runs.insert row = some runs ∧ t.outbox.insert event = some outbox ∧
      t' = { t with runs, outbox } := by
  obtain ⟨runs, hruns, h⟩ := Option.bind_eq_some_iff.mp h
  obtain ⟨outbox, houtbox, h⟩ := Option.bind_eq_some_iff.mp h
  exact ⟨runs, outbox, hruns, houtbox, (Option.some.inj h).symm⟩

theorem outcome_apply {u : UnitOfWork} (h : (Change.outcome u).apply t = some t') :
    ∃ artifacts outbox, t.artifacts.insertAll u.artifacts = some artifacts ∧
      t.outbox.insertAll u.events = some outbox ∧
      t' = { t with runs := t.runs.modify u.loaded.id (Run.flush u.loaded u.row), artifacts, outbox } := by
  simp only [apply, applyOutcome] at h
  split at h
  · obtain ⟨artifacts, hartifacts, h⟩ := Option.bind_eq_some_iff.mp h
    obtain ⟨outbox, houtbox, h⟩ := Option.bind_eq_some_iff.mp h
    exact ⟨artifacts, outbox, hartifacts, houtbox, (Option.some.inj h).symm⟩
  · contradiction

theorem register_apply {r : Registration} (h : (Change.register r).apply t = some t') :
    ∃ models releases, writeModel t.models r = some models ∧
      writeRelease t.releases r.release = some releases ∧ t' = { t with models, releases } := by
  obtain ⟨models, hmodels, h⟩ := Option.bind_eq_some_iff.mp h
  obtain ⟨releases, hreleases, h⟩ := Option.bind_eq_some_iff.mp h
  exact ⟨models, releases, hmodels, hreleases, (Option.some.inj h).symm⟩

theorem reject_apply {message : RejectedMessage} (h : (Change.reject message).apply t = some t') :
    ∃ rejected, t.rejected.insert message = some rejected ∧ t' = { t with rejected } := by
  obtain ⟨rejected, hrejected, h⟩ := Option.bind_eq_some_iff.mp h
  exact ⟨rejected, hrejected, (Option.some.inj h).symm⟩

theorem publish_apply {marks : List (UUID × Time)} (h : (Change.publish marks).apply t = some t') :
    t' = { t with outbox := marks.foldl markPublished t.outbox } :=
  (Option.some.inj h).symm

theorem nothing_apply (h : Change.nothing.apply t = some t') : t' = t := (Option.some.inj h).symm

end Inversion

end Change
end Mic3
