import Mic3.Changes
import Mic3.Feed

/-! The public states of runs, as the feed's store reads them, and the notifications that the triggers send
when rows that show in them change. -/
namespace Mic3
open Relational

structure RunFile where
  name : String
  sizeBytes : ℤ
  deriving DecidableEq

structure RunDetail where
  id : UUID
  modelReleaseId : UUID
  requestedBy : Option UUID
  parameters : Json
  status : RunStatus
  createdAt : Time
  acceptedAt : Option Time
  dispatchStartedAt : Option Time
  finishedAt : Option Time
  failureCode : Option String
  artifacts : List RunFile
  deriving DecidableEq

instance : FeedItem RunDetail := ⟨RunDetail.id, RunDetail.requestedBy⟩

/-- `PurePosixPath(key).name`. -/
def fileName (objectKey : String) : String :=
  String.ofList (((objectKey.toList.splitOn '/').filter fun x => x ≠ [] ∧ x ≠ ['.']).getLast?.getD [])

/-- `run_detail`. -/
def runDetail (run : Run) (artifacts : List RunArtifact) : RunDetail where
  id := run.id
  modelReleaseId := run.modelReleaseId
  requestedBy := run.requestedBy
  parameters := run.parameters
  status := run.status
  createdAt := run.createdAt
  acceptedAt := run.acceptedAt
  dispatchStartedAt := run.dispatchStartedAt
  finishedAt := run.finishedAt
  failureCode := run.failureCode
  artifacts := artifacts.map fun a => ⟨fileName a.objectKey, a.sizeBytes⟩

/-- The two tables that show in the state of a run. -/
structure RunTables where
  runs : Table Run
  artifacts : Table RunArtifact

namespace RunTables

/-- The artifacts of a run in the order of their keys. -/
def artifactsOf (t : RunTables) (runId : UUID) : List RunArtifact :=
  (t.artifacts.rows.filter fun a => a.runId = runId).insertionSort fun a b => a.objectKey ≤ b.objectKey

def find (t : RunTables) (runId : UUID) : Option RunDetail :=
  (t.runs.find? runId).map fun run => runDetail run (t.artifactsOf runId)

/-- The runs of a user, newest first. -/
def owned (t : RunTables) (userId : UUID) : List Run :=
  (orderedBy Run.createdAt Run.id (t.runs.rows.filter fun r => r.requestedBy = some userId)).reverse

/-- `snapshot`: the unfinished runs of a user and the latest 50 that finished. -/
def snapshot (t : RunTables) (userId : UUID) : List RunDetail :=
  let terminal := ((t.owned userId).filter fun r => r.status.terminal).take 50
  ((t.owned userId).filter fun r => r.status.active ∨ r ∈ terminal).map fun r => runDetail r (t.artifactsOf r.id)

end RunTables

/-- What a row trigger is fired for. -/
inductive RowChange where
  | insertRun (new : Run)
  | updateRun (old new : Run)
  | insertArtifact (new : RunArtifact)
  | updateArtifact (old new : RunArtifact)
  | deleteArtifact (old : RunArtifact)

/-- `ROW(NEW...) IS NOT DISTINCT FROM ROW(OLD...)`, over the columns that show. -/
abbrev Run.SamePublic (new old : Run) : Prop :=
  new.modelReleaseId = old.modelReleaseId ∧ new.requestedBy = old.requestedBy ∧ new.parameters = old.parameters ∧
    new.status = old.status ∧ new.createdAt = old.createdAt ∧ new.acceptedAt = old.acceptedAt ∧
    new.dispatchStartedAt = old.dispatchStartedAt ∧ new.finishedAt = old.finishedAt ∧
    new.failureCode = old.failureCode

/-- `NEW.id::text || COALESCE(':' || NEW.requested_by::text, '')`. -/
def runPayload (r : Run) : String := r.id.str ++ ((r.requestedBy.map fun owner => ":" ++ owner.str).getD "")

/-- `mic3_notify_run_change`: the payloads that a row change sends. -/
def notifyRunChange : RowChange → List String
  | .insertRun new => [runPayload new]
  | .updateRun old new => if new.SamePublic old then [] else [runPayload new]
  | .deleteArtifact old => [old.runId.str]
  | .insertArtifact new => [new.runId.str]
  | .updateArtifact old new => new.runId.str :: if old.runId ≠ new.runId then [old.runId.str] else []

/-- `parse_payload`; anything else than `<run_id>` or `<run_id>:<owner_id>` is a `ValueError`. -/
def parsePayload (payload : String) : Option RunChange :=
  let (runId, rest) := payload.toList.span (· ≠ ':')
  match rest with
  | [] => (UUID.parse (String.ofList runId)).map fun runId => (runId, none)
  | _ :: owner =>
    if owner = [] then none
    else do
      let runId ← UUID.parse (String.ofList runId)
      let owner ← UUID.parse (String.ofList owner)
      return (runId, some owner)

/-- A statement that writes one of the two tables. Nobody deletes a run or gives it to another user. -/
inductive RowWrite where
  | insertRun (row : Run)
  | updateRun (row : Run)
  | insertArtifact (row : RunArtifact)
  | updateArtifact (key : UUID × String) (row : RunArtifact)
  | deleteArtifact (key : UUID × String)

def RowWrite.apply (t : RunTables) : RowWrite → Option (RunTables × RowChange)
  | .insertRun row => (t.runs.insert row).map fun runs => ({ t with runs }, .insertRun row)
  | .updateRun row => do
    let old ← t.runs.find? row.id
    if row.requestedBy = old.requestedBy then return ({ t with runs := t.runs.replace row }, .updateRun old row)
    else none
  | .insertArtifact row => (t.artifacts.insert row).map fun artifacts => ({ t with artifacts }, .insertArtifact row)
  | .updateArtifact k row => do
    let old ← t.artifacts.find? k
    let artifacts ← (t.artifacts.delete k).insert row
    return ({ t with artifacts }, .updateArtifact old row)
  | .deleteArtifact k => do
    let old ← t.artifacts.find? k
    return ({ t with artifacts := t.artifacts.delete k }, .deleteArtifact old)

/-- The row changes of a transaction, in order. -/
def applyWrites (t : RunTables) : List RowWrite → Option (RunTables × List RowChange)
  | [] => some (t, [])
  | write :: writes => do
    let (t', change) ← write.apply t
    let (t'', changes) ← applyWrites t' writes
    return (t'', change :: changes)

/-- What a transaction sends when it commits: of equal payloads, one. -/
def notifications (changes : List RowChange) : List String := (changes.flatMap notifyRunChange).eraseDups

end Mic3
