import Mic3.Jobs
import Mic3.Lib.Table

/-! The rows of the schema, the queries the adapters send, and a run's status. -/
namespace Mic3
open Relational

/-- A `timestamptz`; only its order is used. -/
abbrev Time := ℕ

inductive RunStatus where
  | queued | running | succeeded | failed
  deriving DecidableEq

def RunStatus.text : RunStatus → String
  | .queued => "queued"
  | .running => "running"
  | .succeeded => "succeeded"
  | .failed => "failed"

/-- `ACTIVE_STATUSES`. -/
def RunStatus.active (s : RunStatus) : Bool := s = .queued || s = .running

/-- `TERMINAL_STATUSES`. -/
def RunStatus.terminal (s : RunStatus) : Bool := s = .succeeded || s = .failed

structure ModelRow where
  id : String
  displayName : String
  deriving DecidableEq

structure ModelReleaseRow where
  id : UUID
  modelId : String
  imageDigest : String
  executionDefinition : Json
  createdAt : Time
  deriving DecidableEq

structure Run where
  id : UUID
  modelReleaseId : UUID
  requestedBy : Option UUID
  parameters : Json
  fingerprint : String
  status : RunStatus
  acceptedAt : Option Time
  failureCode : Option String
  dispatchStartedAt : Option Time
  finishedAt : Option Time
  jobNamespace : Option String
  jobUid : Option String
  createdAt : Time
  deriving DecidableEq

structure RunArtifact where
  runId : UUID
  objectKey : String
  bucket : String
  sizeBytes : ℤ
  deriving DecidableEq

structure OutboxEvent where
  id : UUID
  runId : UUID
  eventType : String
  createdAt : Time
  publishedAt : Option Time
  deriving DecidableEq

structure RecordLocation where
  topic : String
  partition : ℕ
  offset : ℕ
  deriving DecidableEq

structure RejectedMessage where
  location : RecordLocation
  reasonCode : String
  diagnostic : String
  deriving DecidableEq

instance : Keyed ModelRow String := ⟨ModelRow.id⟩
instance : Keyed ModelReleaseRow UUID := ⟨ModelReleaseRow.id⟩
instance : Keyed Run UUID := ⟨Run.id⟩
instance : Keyed RunArtifact (UUID × String) := ⟨fun a => (a.runId, a.objectKey)⟩
instance : Keyed OutboxEvent UUID := ⟨OutboxEvent.id⟩
instance : Keyed RejectedMessage RecordLocation := ⟨RejectedMessage.location⟩

/-- The committed tables. -/
structure Tables where
  users : List UUID
  models : Table ModelRow
  releases : Table ModelReleaseRow
  runs : Table Run
  artifacts : Table RunArtifact
  outbox : Table OutboxEvent
  rejected : Table RejectedMessage

def Tables.empty : Tables := ⟨[], .empty, .empty, .empty, .empty, .empty, .empty⟩

/-- `ORDER BY created_at, id`. -/
def orderedBy {α : Type} (created : α → Time) (id : α → UUID) (rows : List α) : List α :=
  rows.insertionSort fun a b => created a < created b ∨ (created a = created b ∧ id a ≤ id b)

theorem orderedBy_perm {α : Type} (created : α → Time) (id : α → UUID) (rows : List α) :
    (orderedBy created id rows).Perm rows := List.perm_insertionSort _ rows

theorem pairwise_orderedBy {α : Type} (created : α → Time) (id : α → UUID) (rows : List α) :
    (orderedBy created id rows).Pairwise fun a b =>
      created a < created b ∨ (created a = created b ∧ id a ≤ id b) := by
  have htotal : Std.Total fun a b : α => created a < created b ∨ (created a = created b ∧ id a ≤ id b) :=
    ⟨fun a b => by
      have htime := Nat.lt_trichotomy (created a) (created b)
      have hid := Nat.le_total (id a).toNat (id b).toNat
      grind [BitVec.le_def]⟩
  have htrans : IsTrans α fun a b => created a < created b ∨ (created a = created b ∧ id a ≤ id b) :=
    ⟨fun a b c => by
      simp only [BitVec.le_def]
      grind⟩
  exact List.pairwise_insertionSort _ rows

namespace Tables

def runningCount (t : Tables) : ℕ := t.runs.count fun r => r.status = .running

def runningIds (t : Tables) : List UUID :=
  (orderedBy Run.createdAt Run.id (t.runs.rows.filter fun r => r.status = .running)).map Run.id

def activeCount (t : Tables) : ℕ := t.runs.count fun r => r.status.active

def ownedCount (t : Tables) (requestedBy : Option UUID) : ℕ :=
  t.runs.count fun r => r.status.active && r.requestedBy = requestedBy

/-- The oldest accepted queued run. -/
def claimCandidate (t : Tables) : Option Run :=
  (orderedBy Run.createdAt Run.id
    (t.runs.rows.filter fun r => r.status = .queued ∧ r.acceptedAt.isSome)).head?

def matchingReleases (t : Tables) (modelId imageDigest : String) : List UUID :=
  (orderedBy ModelReleaseRow.createdAt ModelReleaseRow.id
    (t.releases.rows.filter fun r => r.modelId = modelId ∧ r.imageDigest = imageDigest)).map
      ModelReleaseRow.id

/-- `parameters ->> 'mode'`. -/
def modeText (parameters : Json) : Option String :=
  match parameters.get? "mode" with
  | none | some .null => none
  | some (.str mode) => some mode
  | some value => some (String.ofList (value.dumps false false))

/-- The modes of accepted unfinished runs of a release. A missing mode is in no definition. -/
def activeModes (t : Tables) (releaseId : UUID) : List String :=
  ((t.runs.rows.filter fun r =>
    r.modelReleaseId = releaseId ∧ r.acceptedAt.isSome ∧ r.status.active).filterMap
      fun r => modeText r.parameters).dedup

def unpublished (t : Tables) : List UUID :=
  (orderedBy OutboxEvent.createdAt OutboxEvent.id
    (t.outbox.rows.filter fun e => e.publishedAt = none)).map OutboxEvent.id

end Tables

/-- `load_release_definition`; a release refers to an existing model. -/
def loadReleaseDefinition (t : Tables) (release : ModelReleaseRow) : Except Raised ReleaseDefinition :=
  match t.models.find? release.modelId with
  | none => throw .attributeError
  | some model => do
    let execution ← ExecutionDefinition.fromDict release.executionDefinition
    return ⟨model.id, model.displayName, release.imageDigest, execution⟩

end Mic3
