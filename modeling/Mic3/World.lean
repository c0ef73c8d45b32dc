import Mathlib.Algebra.Order.Ring.Int
import Mic3.Changes
import Mic3.Lib.LockTable
import Mic3.Lib.System

/-! The servers the processes share: PostgreSQL with its locks, the Kubernetes API server and the
Kafka broker; and the effect one statement or request has on them. A history, which no process
reads, records what was observed and decided. -/
namespace Mic3
open Relational Interleaving

abbrev Pid := ℕ

/-- What a transaction can lock: an advisory key, or a row by its table and primary key. -/
inductive LockKey where
  | advisory (key : ℤ)
  | model (id : String)
  | release (id : UUID)
  | run (id : UUID)
  | user (id : UUID)
  | event (id : UUID)
  | rejection (location : RecordLocation)
  deriving DecidableEq

/-- Transaction locks go at commit or rollback; session locks stay until unlocked or until the
connection is gone. -/
structure Postgres where
  tables : Tables
  locks : LockTable LockKey Pid
  sessionLocks : ℤ → Option Pid

/-- The Job objects there are, the uid of every one that was ever created, and of those that workers
created. -/
structure Cluster where
  jobs : JobKey → Option JobObject
  created : List (JobKey × String)
  dispatched : List (JobKey × String)

structure Message where
  key : Option Bytes
  value : Option Bytes
  deriving DecidableEq

abbrev TopicPartition := String × ℕ

/-- A stored record, and the outbox event it was sent for; others' records have none. -/
structure Record where
  message : Message
  source : Option UUID

/-- A record that a producer sent and may send again. -/
structure InFlight where
  event : UUID
  topic : String
  message : Message

/-- Partition logs, the group's committed offsets, who consumes each partition from where, and the
producers' records on their way. -/
structure Broker where
  log : TopicPartition → List Record
  committed : TopicPartition → ℕ
  owner : TopicPartition → Option Pid
  position : TopicPartition → ℕ
  inFlight : List InFlight
  stored : List UUID

/-- What a reconcile call saw. -/
inductive Observation where
  | loaded (work : ExecutionWork)
  | rendered (expected : Json)
  | observed (job : JobObject)
  | listed (outputPrefix : String) (listing : List Artifact)

/-- What was seen, and who held the run's session lock then. -/
abbrev Seen := List (Observation × Option Pid)

structure RunAdmissionLimits where
  perUser : ℕ
  globalTotal : ℕ
  perUser_pos : 1 ≤ perUser
  globalTotal_pos : 1 ≤ globalTotal

/-- Something that happened, for the record. -/
inductive Entry where
  | submitted (run : UUID) (read : ReleaseDefinition) (limits : Option RunAdmissionLimits)
  | accepted (run : UUID) (invocation : Invocation)
  | handled (location : RecordLocation) (outcome : String)
  | finished (run : UUID) (seen : Seen)
  | acknowledged (event : UUID)
  | published (events : List UUID)

structure World where
  pg : Postgres
  cluster : Cluster
  broker : Broker
  history : List Entry

abbrev World.tables (w : World) : Tables := w.pg.tables

/-- One statement or request, as the servers see it. -/
inductive Effect where
  /-- A plain SELECT, a lookup, or no request at all. -/
  | read
  | lock (k : LockKey)
  | share (k : LockKey)
  | commit (change : Change) (entries : List Entry)
  | rollback
  | sessionLock (key : ℤ)
  /-- Roll back, unlock, commit the unlock. -/
  | sessionUnlock (key : ℤ)
  | createJob (key : JobKey) (job : JobObject)
  | produce (record : InFlight)
  | acknowledge (event : UUID)
  | assign (tp : TopicPartition)
  | poll (tp : TopicPartition)
  | commitOffset (tp : TopicPartition) (offset : ℕ)
  | closeConsumer
  /-- The connections of the process are gone. -/
  | disconnect

namespace World

def endTransaction (w : World) (p : Pid) : World :=
  { w with pg := { w.pg with locks := w.pg.locks.release p } }

/-- The group takes the partitions of a closed or dead consumer back. -/
def closeConsumer (w : World) (p : Pid) : World :=
  { w with broker := { w.broker with
      owner := fun tp => if w.broker.owner tp = some p then none else w.broker.owner tp } }

/-- The server drops everything a lost connection held. -/
def disconnect (w : World) (p : Pid) : World :=
  let w := (w.endTransaction p).closeConsumer p
  { w with pg := { w.pg with
      sessionLocks := fun key => if w.pg.sessionLocks key = some p then none else w.pg.sessionLocks key } }

/-- Whether `pg_try_advisory_lock(key)` of `p` succeeds: both kinds of advisory lock share one key
space. -/
def sessionFree (w : World) (p : Pid) (key : ℤ) : Bool :=
  (w.pg.sessionLocks key = none || w.pg.sessionLocks key = some p) &&
    (w.pg.locks.owner (.advisory key) = none || w.pg.locks.owner (.advisory key) = some p)

/-- A transaction's advisory lock also waits for another session's. -/
def lockable (w : World) (p : Pid) : LockKey → Bool
  | .advisory key => w.pg.sessionLocks key = none || w.pg.sessionLocks key = some p
  | _ => true

/-- The API server refuses a name that is taken, and gives a new object a uid of its own. -/
def create (w : World) (byWorker : Bool) (key : JobKey) (job : JobObject) : Option World :=
  if w.cluster.jobs key = none ∧ job.uid ≠ "" ∧ job.uid ∉ w.cluster.created.map (·.2) then
    some { w with cluster := {
      jobs := Function.update w.cluster.jobs key (some job)
      created := (key, job.uid) :: w.cluster.created
      dispatched := if byWorker then (key, job.uid) :: w.cluster.dispatched else w.cluster.dispatched } }
  else none

/-- The world after `p`'s effect; `none` while it has to wait, or when it is refused. -/
def apply (w : World) (p : Pid) : Effect → Option World
  | .read => some w
  | .lock k =>
    if w.lockable p k then
      (w.pg.locks.acquire p k).map fun locks => { w with pg := { w.pg with locks } }
    else none
  | .share k => (w.pg.locks.share p k).map fun locks => { w with pg := { w.pg with locks } }
  | .commit change entries => (change.apply w.pg.tables).map fun tables =>
    { w with
      pg := { w.pg with tables, locks := w.pg.locks.release p }
      history := entries ++ w.history }
  | .rollback => some (w.endTransaction p)
  | .sessionLock key =>
    if w.sessionFree p key then some { w with pg := { w.pg with
      sessionLocks := Function.update w.pg.sessionLocks key (some p) } }
    else none
  | .sessionUnlock key =>
    let w := w.endTransaction p
    some { w with pg := { w.pg with sessionLocks := Function.update w.pg.sessionLocks key none } }
  | .createJob key job => w.create true key job
  | .produce record =>
    some { w with broker := { w.broker with inFlight := record :: w.broker.inFlight } }
  | .acknowledge event =>
    if event ∈ w.broker.stored then some { w with history := .acknowledged event :: w.history }
    else none
  | .assign tp =>
    if w.broker.owner tp = none then some { w with broker := { w.broker with
      owner := Function.update w.broker.owner tp (some p)
      position := Function.update w.broker.position tp (w.broker.committed tp) } }
    else none
  | .poll tp =>
    if w.broker.owner tp = some p then some { w with broker := { w.broker with
      position := Function.update w.broker.position tp (w.broker.position tp + 1) } }
    else none
  | .commitOffset tp offset =>
    if w.broker.owner tp = some p then some { w with broker := { w.broker with
      committed := Function.update w.broker.committed tp offset } }
    else none
  | .closeConsumer => some (w.closeConsumer p)
  | .disconnect => some (w.disconnect p)

end World

/-- What a step is given from outside: clocks, generated values, and how the other servers answer. -/
structure Input where
  now : Time
  uuid : UUID
  createdAt : Time
  /-- The UTC offset of the database session's time zone. -/
  offset : ℤ
  /-- Whether the request of this step fails, and whether it takes effect all the same. -/
  fault : Bool
  effective : Bool
  job : JobObject
  pods : List Pod
  listing : List Artifact
  partition : TopicPartition

def Input.defaults (i : Input) : Defaults := ⟨i.now, i.uuid, i.createdAt⟩

/-- Where a statement leaves the code that sent it. -/
inductive Progress (π ρ : Type) where
  | running (pc : π)
  | returned (value : ρ)
  | raised (e : Raised)

/-- Whatever code runs next satisfies `P`. -/
def Progress.All {π ρ : Type} (P : π → Prop) : Progress π ρ → Prop
  | .running pc => P pc
  | .returned _ | .raised _ => True

theorem Progress.All.mono {π ρ : Type} {P Q : π → Prop} {r : Progress π ρ} (h : r.All P)
    (hle : ∀ pc, P pc → Q pc) : r.All Q := by
  cases r with
  | running pc => exact hle pc h
  | returned _ | raised _ => trivial

end Mic3
