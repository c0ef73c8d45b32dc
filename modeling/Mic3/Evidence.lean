import Mic3.ClusterHistory
import Mic3.Writers

/-! The evidence for an outcome: what one reconcile call saw, under the run's session lock, before it ended
the run. -/
namespace Mic3
open Relational Interleaving

/-- The work describes this run. -/
structure ExecutionWork.Of (work : ExecutionWork) (row : Run) : Prop where
  id : work.id = row.id
  parameters : work.parameters = row.parameters
  fingerprint : work.fingerprint = row.fingerprint

theorem ExecutionWork.Of.continues {work : ExecutionWork} {row row' : Run} (h : work.Of row)
    (hc : row.Continues row') : work.Of row' :=
  ⟨h.id.trans hc.id.symm, h.parameters.trans hc.parameters.symm, h.fingerprint.trans hc.fingerprint.symm⟩

/-- The work still matches its release, and the Job rendered from it is the expected one. -/
structure Reconcile.Call.Prepared (x : External) (worker : Worker) (call : Call) : Prop where
  compatible : matchesFingerprint call.work.release call.work.parameters call.work.fingerprint = .ok true
  rendered : render x.helm worker.chart worker.namespace call.work = .ok call.expected

/-- An object created under the run's Job name has completed and contains the expected contract. -/
structure Reconcile.Call.Completed (created : List (JobKey × String)) (worker : Worker) (call : Call)
    (job : JobObject) : Prop where
  created : ((worker.namespace, call.work.jobName), job.uid) ∈ created
  contract : containsContract job call.expected = .ok true
  complete : job.holds "Complete" = true
  notFailed : job.holds "Failed" = false

/-- What one call saw: the work, the rendered Job, the object and the listing of its outputs. -/
structure Inspection where
  holder : Pid
  worker : Worker
  work : ExecutionWork
  expected : Json
  job : JobObject
  outputPrefix : String
  listing : List Artifact

/-- The observations in order, each made while the same process held the run's session lock. -/
def Inspection.seen (i : Inspection) : Seen :=
  [(.loaded i.work, some i.holder), (.rendered i.expected, some i.holder),
    (.observed i.job, some i.holder), (.listed i.outputPrefix i.listing, some i.holder)]

def Inspection.call (i : Inspection) : Reconcile.Call := ⟨i.work, i.expected, i.seen⟩

/-- What the check of the listing said, given the failure code of the outcome. -/
def verdict (failureCode : Option String) (listing : List Artifact) : Except Raised (List Artifact) :=
  match failureCode with
  | none => .ok listing
  | some code => .error (.executionFailure code listing)

structure Inspection.Supports (i : Inspection) (x : External) (created : List (JobKey × String))
    (row : Run) : Prop where
  work : i.work.Of row
  prepared : i.call.Prepared x i.worker
  completed : i.call.Completed created i.worker i.job
  uid : row.jobUid = some i.job.uid
  outputPrefix : i.work.outputPrefix = .ok i.outputPrefix
  verdict : collect i.work i.outputPrefix i.listing = verdict row.failureCode i.listing

/-- The row that a listed object is stored as. -/
def artifactRow (runId : UUID) (a : Artifact) : RunArtifact := ⟨runId, a.objectKey, a.bucket, a.sizeBytes⟩

/-- The outcomes that the listing of the outputs decides. -/
def outputCodes : List (Option String) := [none, some "required_outputs_missing", some "outputs_empty"]

structure Run.Judged (row : Run) : Prop where
  terminal : row.status.terminal = true
  code : row.failureCode ∈ outputCodes

/-- Every run that the check of its outputs ended has the inspection that supports its outcome. -/
def Verified (x : External) (w : World) : Prop :=
  ∀ id row, w.tables.runs.find? id = some row → row.Judged →
    ∃ i : Inspection, Entry.finished id i.seen ∈ w.history ∧ i.Supports x w.cluster.created row ∧
      w.tables.artifactsOf id = (i.listing.map (artifactRow id)).reverse

/-- What a commit owes to the evidence. -/
def Effect.Verifies (x : External) (w : World) : Effect → Prop
  | .commit (.outcome u) entries => u.row.Judged → u.loaded.Judged ∨
      ∃ i : Inspection, Entry.finished u.loaded.id i.seen ∈ entries ∧
        i.Supports x w.cluster.created u.row ∧ u.artifacts = i.listing.map (artifactRow u.loaded.id)
  | _ => True

section Effects
variable {x : External} {p : Pid} {w w' : World} {e : Effect}

theorem Inspection.Supports.mono {i : Inspection} {created created' : List (JobKey × String)} {row : Run}
    (h : i.Supports x created row) (hle : created ⊆ created') : i.Supports x created' row :=
  { h with completed := { h.completed with created := hle h.completed.created } }

/-- A write that ends a run starts from a running one. -/
theorem Write.ends {row row' : Run} {artifacts : List RunArtifact} {events : List OutboxEvent}
    (h : Write row row' artifacts events) (hj : row'.Judged) : row.status = .running := by
  have hterminal := hj.terminal
  have hcode := hj.code
  cases h with
  | accept time hq => simp [hq, RunStatus.terminal] at hterminal
  | refuse time createdAt eventId hq => simp [outputCodes, definitionChanged] at hcode
  | start => simp [RunStatus.terminal] at hterminal
  | saveUid uid hr => exact hr
  | succeed time createdAt eventId artifacts hr => exact hr
  | fail code time createdAt eventId artifacts hr => exact hr

theorem Verified.of_eq (h : Verified x w) (hruns : w'.tables.runs = w.tables.runs)
    (hartifacts : w'.tables.artifacts = w.tables.artifacts)
    (hcreated : w.cluster.created ⊆ w'.cluster.created)
    (hhistory : ∀ entry ∈ w.history, entry ∈ w'.history) : Verified x w' := by
  intro id row hr hj
  obtain ⟨i, hm, hs, ha⟩ := h id row (hruns ▸ hr) hj
  exact ⟨i, hhistory _ hm, hs.mono hcreated, by rw [Tables.artifactsOf, hartifacts]; exact ha⟩

theorem outcome_verified {u : UnitOfWork} {entries : List Entry}
    (hal : (Change.outcome u).Allowed w.tables) (hc : w.tables.Consistent)
    (hv : (Effect.commit (.outcome u) entries).Verifies x w)
    (ha : w.apply p (.commit (.outcome u) entries) = some w') (h : Verified x w) : Verified x w' := by
  have hhistory : ∀ entry ∈ w.history, entry ∈ w'.history := fun _ hm => history_subset ha hm
  obtain ⟨tables, ht, rfl⟩ := commit_apply ha
  have hfind := find?_outcome hal ht
  obtain ⟨hu, hcurrent⟩ := hal
  obtain ⟨hother, hown⟩ := record_outcome hu ht
  intro id row hr hj
  rw [hfind id] at hr
  split at hr
  · obtain rfl := Option.some.inj hr
    rename_i hid
    subst hid
    have hartifacts : tables.artifactsOf u.loaded.id =
        u.artifacts.reverse ++ w.tables.artifactsOf u.loaded.id := congrArg RunRecord.artifacts hown
    rcases hu with ⟨hrow, hnone, -⟩ | hw
    · obtain ⟨i, hm, hs, hi⟩ := h _ _ hcurrent (hrow ▸ hj)
      exact ⟨i, hhistory _ hm, hrow ▸ hs, by simpa [hartifacts, hnone] using hi⟩
    · rcases hv hj with hjudged | ⟨i, hm, hs, hi⟩
      · -- A run that has ended receives no write.
        cases (hw.not_terminal.symm.trans hjudged.terminal)
      · have hempty : w.tables.artifactsOf u.loaded.id = [] :=
          ((hc.wellFormed _ _ hcurrent).running (hw.ends hj)).2.2.2.2.2
        refine ⟨i, List.mem_append_left _ hm, hs, ?_⟩
        show tables.artifactsOf u.loaded.id = _
        rw [hartifacts, hempty, hi, List.append_nil]
  · rename_i hid
    obtain ⟨i, hm, hs, hi⟩ := h id row hr hj
    have hartifacts : tables.artifactsOf id = w.tables.artifactsOf id :=
      congrArg RunRecord.artifacts (hother id row hid)
    exact ⟨i, hhistory _ hm, hs, hartifacts.trans hi⟩

/-- An effect that owes no more evidence keeps every outcome supported. -/
theorem Effect.Verifies.apply (hal : e.Allowed w.tables) (hc : w.tables.Consistent)
    (hv : e.Verifies x w) (ha : w.apply p e = some w') (h : Verified x w)
    (hcreated : w.cluster.created ⊆ w'.cluster.created) : Verified x w' := by
  have hhistory : ∀ entry ∈ w.history, entry ∈ w'.history := fun _ hm => history_subset ha hm
  cases hcommit : e.commits with
  | false =>
    have ht := tables_apply hcommit ha
    exact h.of_eq (by rw [ht]) (by rw [ht]) hcreated hhistory
  | true =>
    obtain ⟨change, entries, rfl⟩ := e.commits_iff.mp hcommit
    obtain ⟨tables, ht, rfl⟩ := commit_apply ha
    cases change with
    | outcome u => exact outcome_verified hal hc hv ha h
    | nothing =>
      obtain rfl := Change.nothing_apply ht
      exact h.of_eq rfl rfl hcreated hhistory
    | register r =>
      obtain ⟨models, releases, -, -, rfl⟩ := Change.register_apply ht
      exact h.of_eq rfl rfl hcreated hhistory
    | publish marks =>
      obtain rfl := Change.publish_apply ht
      exact h.of_eq rfl rfl hcreated hhistory
    | reject message =>
      obtain ⟨rejected, -, rfl⟩ := Change.reject_apply ht
      exact h.of_eq rfl rfl hcreated hhistory
    | submit row event =>
      obtain ⟨runs, outbox, hruns, -, rfl⟩ := Change.submit_apply ht
      intro id r hr hj
      rw [show runs.find? id = _ from Table.find?_insert hruns] at hr
      split at hr
      · obtain rfl := Option.some.inj hr
        have hterminal := hj.terminal
        simp [hal.1.status, RunStatus.terminal] at hterminal
      · obtain ⟨i, hm, hs, hi⟩ := h id r hr hj
        exact ⟨i, hhistory _ hm, hs, hi⟩

end Effects
end Mic3
