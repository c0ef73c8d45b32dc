import Mic3.Claiming

/-! `ReconcileExecutions.reconcile` under the run's session lock: load the work, observe or create its
Job, save the Job's uid, and conclude. A handler turns an `ExecutionFailure` into a terminal write. -/
namespace Mic3
open Relational

/-- `int.from_bytes(run_id.bytes[:8], "big", signed=True)`. -/
def runKey (id : UUID) : ℤ := (id.extractLsb' 64 64).toInt

inductive JobState where
  | active | succeeded | failed
  deriving DecidableEq

structure JobObservation where
  uid : String
  state : JobState
  failureCode : Option String

namespace Reconcile

/-- The work under way: what was loaded and rendered, and everything seen so far. -/
structure Call where
  work : ExecutionWork
  expected : Json
  seen : Seen

inductive Pc where
  | acquire
  | loadRun
  | loadRelease (row : Run)
  | loadModel (row : Run) (release : ModelReleaseRow)
  | observe (work : ExecutionWork) (seen : Seen)
  | lookup (call : Call)
  | create (call : Call)
  | confirm (call : Call)
  | readPods (call : Call) (job : JobObject)
  | lockUid (call : Call) (observation : JobObservation)
  | saveUid (call : Call) (observation : JobObservation) (row : Run)
  | listOutputs (call : Call)
  | lockFinish (seen : Seen) (failureCode : Option String) (artifacts : List Artifact)
  | finish (seen : Seen) (u : UnitOfWork)
  | unwind (error : Raised)
  | exit (error : Option Raised)

def loaded (row : Run) (definition : ReleaseDefinition) : ExecutionWork :=
  ⟨row.id, definition, row.parameters, row.fingerprint, row.jobNamespace, row.jobUid⟩

/-- Code inside the `try`: an `ExecutionFailure` is finished, anything else leaves `locked()`. -/
def guarded {α : Type} (seen : Seen) (result : Except Raised α) (next : α → Pc) : Pc :=
  match result with
  | .ok a => next a
  | .error (.executionFailure code artifacts) => .lockFinish seen (some code) artifacts
  | .error e => .exit (some e)

def unavailable : Raised := .infrastructureUnavailable "Kubernetes operation unavailable."

/-- What decides before the Job is looked up: the fingerprint, the namespace and the rendering. -/
def expectation (helm : Helm) (worker : Worker) (work : ExecutionWork) : Except Raised Json := do
  let compatible ← matchesFingerprint work.release work.parameters work.fingerprint
  if ¬ compatible then throw (.executionFailure "execution_definition_changed" [])
  else if work.namespace ≠ some worker.namespace then
    throw (.infrastructureUnavailable "Execution namespace changed; restore its configuration.")
  else render helm worker.chart worker.namespace work

/-- What `observe_or_create` concludes from the object it got. -/
def inspect (call : Call) (holder : Option Pid) (job : JobObject) : Pc :=
  let call := { call with seen := call.seen ++ [(.observed job, holder)] }
  guarded call.seen (verifyContract call.work job call.expected) fun _ =>
    if job.holds "Failed" then .readPods call job
    else .lockUid call
      ⟨job.uid, if job.holds "Complete" then .succeeded else .active, none⟩

/-- `save_job_uid`: only a running run gets the uid. -/
def savedUid (row : Run) (uid : String) : UnitOfWork :=
  if row.status = .running then
    { UnitOfWork.clean row with row := { row with jobUid := some uid } }
  else .clean row

/-- What follows once the uid is saved. -/
def conclude (call : Call) (observation : JobObservation) : Pc :=
  match observation.state with
  | .failed => .lockFinish call.seen
      (if truthy observation.failureCode then observation.failureCode else some "job_failed") []
  | .succeeded => .listOutputs call
  | .active => .exit none

/-- `finish_row` on the locked row, in a transaction of its own. -/
def finishing (seen : Seen) (row : Run) (failureCode : Option String) (artifacts : List Artifact)
    (d : Defaults) : Pc :=
  .finish seen (finishRow (.clean row) failureCode artifacts d)

def step (helm : Helm) (worker : Worker) (runId : UUID) (p : Pid) (w : World) (i : Input) :
    Pc → Effect × Progress Pc Unit
  | .acquire =>
    if w.sessionFree p (runKey runId) then (.sessionLock (runKey runId), .running .loadRun)
    else (.read, .returned ())
  | .loadRun =>
    match w.tables.runs.find? runId with
    | none => (.read, .running (.exit none))
    | some row =>
      if row.status ≠ .running then (.read, .running (.exit none))
      else (.read, .running (.loadRelease row))
  | .loadRelease row =>
    match w.tables.releases.find? row.modelReleaseId with
    | none => (.read, .running (.exit (some .attributeError)))
    | some release => (.read, .running (.loadModel row release))
  | .loadModel row release =>
    match loadReleaseDefinition w.tables release with
    | .error e => (.read, .running (.exit (some e)))
    | .ok definition =>
      let work := loaded row definition
      (.rollback, .running (.observe work [(.loaded work, w.pg.sessionLocks (runKey runId))]))
  | .observe work seen =>
    (.read, .running (guarded seen (expectation helm worker work) fun expected =>
      .lookup ⟨work, expected, seen ++ [(.rendered expected, w.pg.sessionLocks (runKey runId))]⟩))
  | .lookup call =>
    if i.fault then (.read, .running (.exit (some unavailable)))
    else match w.cluster.jobs (worker.namespace, call.work.jobName) with
      | some job => (.read, .running (inspect call (w.pg.sessionLocks (runKey runId)) job))
      | none =>
        if truthy call.work.jobUid then (.read, .running (.lockFinish call.seen (some "job_lost") []))
        else (.read, .running (.create call))
  | .create call =>
    let request := Effect.createJob (worker.namespace, call.work.jobName) i.job
    if i.fault then (if i.effective then request else .read, .running (.confirm call))
    else (request, .running (inspect call (w.pg.sessionLocks (runKey runId)) i.job))
  | .confirm call =>
    if i.fault then (.read, .running (.exit (some unavailable)))
    else match w.cluster.jobs (worker.namespace, call.work.jobName) with
      | some job => (.read, .running (inspect call (w.pg.sessionLocks (runKey runId)) job))
      | none => (.read, .running (.exit (some (.infrastructureUnavailable
          "Job creation unconfirmed; retry deterministic lookup."))))
  | .readPods call job =>
    if i.fault then (.read, .running (.exit (some unavailable)))
    else (.read, .running (.lockUid call ⟨job.uid, .failed, some (failureReason job.uid i.pods)⟩))
  | .lockUid call observation =>
    match w.tables.runs.find? runId with
    | none => (.rollback, .running (.exit (some .attributeError)))
    | some row => (.lock (.run runId), .running (.saveUid call observation row))
  | .saveUid call observation row =>
    if row.jobUid ≠ none ∧ row.jobUid ≠ some observation.uid then
      (.rollback, .running (.lockFinish call.seen (some "job_identity_conflict") []))
    else (.commit (.outcome (savedUid row observation.uid)) [], .running (conclude call observation))
  | .listOutputs call =>
    match call.work.outputPrefix with
    | .error e => (.read, .running (.exit (some e)))
    | .ok outputPrefix =>
      if i.fault then
        (.read, .running (.exit (some (.infrastructureUnavailable "Artifact inventory unavailable."))))
      else
        let seen := call.seen ++
          [(.listed outputPrefix i.listing, w.pg.sessionLocks (runKey runId))]
        (.read, .running (guarded seen (collect call.work outputPrefix i.listing) fun artifacts =>
          .lockFinish seen none artifacts))
  | .lockFinish seen failureCode artifacts =>
    match w.tables.runs.find? runId with
    | none => (.rollback, .running (.exit (some .attributeError)))
    | some row => (.lock (.run runId), .running (finishing seen row failureCode artifacts i.defaults))
  | .finish seen u =>
    (.commit (.outcome u) (if u.loaded.status.terminal then [] else [.finished runId seen]),
      .running (.exit none))
  -- An exception leaves the transaction it was raised in.
  | .unwind e => (.rollback, .running (.exit (some e)))
  | .exit error => (.sessionUnlock (runKey runId), match error with
    | none => .returned ()
    | some e => .raised e)

theorem expectation_cases (helm : Helm) (worker : Worker) (work : ExecutionWork) :
    (∃ err, expectation helm worker work = .error err ∧ NoFailure (.error err : Except Raised Json)) ∨
    (matchesFingerprint work.release work.parameters work.fingerprint = .ok false ∧
      expectation helm worker work =
        .error (.executionFailure "execution_definition_changed" [])) ∨
    ∃ expected, matchesFingerprint work.release work.parameters work.fingerprint = .ok true ∧
      work.namespace = some worker.namespace ∧
      render helm worker.chart worker.namespace work = .ok expected ∧
      expectation helm worker work = .ok expected := by
  unfold expectation
  cases hm : matchesFingerprint work.release work.parameters work.fingerprint with
  | error err =>
    refine .inl ⟨err, rfl, fun code artifacts he => ?_⟩
    obtain rfl := Except.error.inj he
    exact matchesFingerprint_noFailure _ _ _ code artifacts hm
  | ok compatible =>
    cases compatible with
    | false => exact .inr (.inl ⟨rfl, rfl⟩)
    | true =>
      by_cases hns : work.namespace = some worker.namespace
      · have hif : (if work.namespace ≠ some worker.namespace then
            throw (.infrastructureUnavailable "Execution namespace changed; restore its configuration.")
          else render helm worker.chart worker.namespace work) =
            render helm worker.chart worker.namespace work := if_neg (not_not.mpr hns)
        cases hr : render helm worker.chart worker.namespace work with
        | ok expected => exact .inr (.inr ⟨expected, rfl, hns, rfl, hr ▸ hif⟩)
        | error err =>
          refine .inl ⟨err, hr ▸ hif, fun code artifacts he => ?_⟩
          obtain rfl := Except.error.inj he
          exact render_noFailure _ _ _ _ code artifacts hr
      · exact .inl ⟨_, if_pos hns, .throw (fun _ _ he => by cases he)⟩

/-- Either the object breaks the contract, or the observation follows from its conditions. -/
theorem inspect_cases (call : Call) (holder : Option Pid) (job : JobObject) :
    (∃ err, inspect call holder job = .exit (some err)) ∨
    inspect call holder job =
      .lockFinish (call.seen ++ [(.observed job, holder)]) (some "job_identity_conflict") [] ∨
    verifyContract call.work job call.expected = .ok () ∧
      let call' := { call with seen := call.seen ++ [(.observed job, holder)] }
      (job.holds "Failed" = true ∧ inspect call holder job = .readPods call' job ∨
        job.holds "Failed" = false ∧ inspect call holder job = .lockUid call'
          ⟨job.uid, if job.holds "Complete" then .succeeded else .active, none⟩) := by
  unfold inspect
  cases hv : verifyContract call.work job call.expected with
  | error err =>
    rcases verifyContract_error hv with rfl | hne
    · exact .inr (.inl (by simp only [hv]; rfl))
    · refine .inl ⟨err, ?_⟩
      simp only [hv]
      cases err <;> first | rfl | exact absurd rfl (hne _ _)
  | ok =>
    cases hf : job.holds "Failed" with
    | true => exact .inr (.inr ⟨rfl, .inl ⟨rfl, by simp [guarded, hv]⟩⟩)
    | false => exact .inr (.inr ⟨rfl, .inr ⟨rfl, by simp [guarded, hv]⟩⟩)

/-- What a statement of a reconcile call does, the constructor of its `Pc` given. -/
theorem step_cases {helm : Helm} {worker : Worker} {runId : UUID} {p : Pid} {w : World} {i : Input}
    {pc : Pc} {e : Effect} {r : Progress Pc Unit} :
    step helm worker runId p w i pc = (e, r) →
    (pc ≠ .acquire ∧ (e = .read ∨ e = .rollback) ∧ ∃ err, r = .running (.exit err)) ∨ match pc with
    | .acquire => e = .read ∧ r = .returned () ∨
        e = .sessionLock (runKey runId) ∧ r = .running .loadRun
    | .loadRun => e = .read ∧ ∃ row, w.tables.runs.find? runId = some row ∧ row.status = .running ∧
        r = .running (.loadRelease row)
    | .loadRelease row => e = .read ∧ ∃ release,
        w.tables.releases.find? row.modelReleaseId = some release ∧ r = .running (.loadModel row release)
    | .loadModel row release => e = .rollback ∧ ∃ definition,
        loadReleaseDefinition w.tables release = .ok definition ∧
        r = .running (.observe (loaded row definition)
          [(.loaded (loaded row definition), w.pg.sessionLocks (runKey runId))])
    | .observe work seen => e = .read ∧
        (matchesFingerprint work.release work.parameters work.fingerprint = .ok false ∧
          r = .running (.lockFinish seen (some "execution_definition_changed") []) ∨
        ∃ expected, matchesFingerprint work.release work.parameters work.fingerprint = .ok true ∧
          work.namespace = some worker.namespace ∧
          render helm worker.chart worker.namespace work = .ok expected ∧
          r = .running (.lookup ⟨work, expected,
            seen ++ [(.rendered expected, w.pg.sessionLocks (runKey runId))]⟩))
    | .lookup call => e = .read ∧
        ((∃ job, w.cluster.jobs (worker.namespace, call.work.jobName) = some job ∧
          r = .running (inspect call (w.pg.sessionLocks (runKey runId)) job)) ∨
        w.cluster.jobs (worker.namespace, call.work.jobName) = none ∧
          (truthy call.work.jobUid = true ∧
              r = .running (.lockFinish call.seen (some "job_lost") []) ∨
            truthy call.work.jobUid = false ∧ r = .running (.create call)))
    | .create call =>
        (e = .read ∨ ∃ job, e = .createJob (worker.namespace, call.work.jobName) job) ∧
            r = .running (.confirm call) ∨
          ∃ job, e = .createJob (worker.namespace, call.work.jobName) job ∧
            r = .running (inspect call (w.pg.sessionLocks (runKey runId)) job)
    | .confirm call => e = .read ∧
        ∃ job, w.cluster.jobs (worker.namespace, call.work.jobName) = some job ∧
          r = .running (inspect call (w.pg.sessionLocks (runKey runId)) job)
    | .readPods call job => e = .read ∧
        r = .running (.lockUid call ⟨job.uid, .failed, some (failureReason job.uid i.pods)⟩)
    | .lockUid call observation => ∃ row, w.tables.runs.find? runId = some row ∧
        e = .lock (.run runId) ∧ r = .running (.saveUid call observation row)
    | .saveUid call observation row =>
        e = .rollback ∧ r = .running (.lockFinish call.seen (some "job_identity_conflict") []) ∨
        (row.jobUid = none ∨ row.jobUid = some observation.uid) ∧
          e = .commit (.outcome (savedUid row observation.uid)) [] ∧
          r = .running (conclude call observation)
    | .listOutputs call => e = .read ∧ ∃ outputPrefix, call.work.outputPrefix = .ok outputPrefix ∧
        let seen := call.seen ++ [(.listed outputPrefix i.listing, w.pg.sessionLocks (runKey runId))]
        ((∃ artifacts, collect call.work outputPrefix i.listing = .ok artifacts ∧
            r = .running (.lockFinish seen none artifacts)) ∨
          ∃ code artifacts,
            collect call.work outputPrefix i.listing = .error (.executionFailure code artifacts) ∧
              r = .running (.lockFinish seen (some code) artifacts))
    | .lockFinish seen failureCode artifacts => ∃ row, w.tables.runs.find? runId = some row ∧
        e = .lock (.run runId) ∧ r = .running (finishing seen row failureCode artifacts i.defaults)
    | .finish seen u => r = .running (.exit none) ∧
        e = .commit (.outcome u) (if u.loaded.status.terminal then [] else [.finished runId seen])
    | .unwind _ => False
    | .exit _ => e = .sessionUnlock (runKey runId) ∧ (r = .returned () ∨ ∃ err, r = .raised err) := by
  intro hs
  cases pc with
  | acquire =>
    simp only [step] at hs
    split at hs <;> obtain ⟨rfl, rfl⟩ := Prod.mk.inj hs
    · exact .inr (.inr ⟨rfl, rfl⟩)
    · exact .inr (.inl ⟨rfl, rfl⟩)
  | loadRun =>
    simp only [step] at hs
    split at hs
    · obtain ⟨rfl, rfl⟩ := Prod.mk.inj hs
      exact .inl ⟨(fun he => by cases he), .inl rfl, _, rfl⟩
    · rename_i row hrow
      by_cases hr : row.status ≠ .running
      · obtain ⟨rfl, rfl⟩ := Prod.mk.inj ((if_pos hr).symm.trans hs)
        exact .inl ⟨(fun he => by cases he), .inl rfl, _, rfl⟩
      · obtain ⟨rfl, rfl⟩ := Prod.mk.inj ((if_neg hr).symm.trans hs)
        exact .inr ⟨rfl, row, hrow, Decidable.not_not.mp hr, rfl⟩
  | loadRelease row =>
    simp only [step] at hs
    split at hs <;> obtain ⟨rfl, rfl⟩ := Prod.mk.inj hs
    · exact .inl ⟨(fun he => by cases he), .inl rfl, _, rfl⟩
    · exact .inr ⟨rfl, _, ‹_›, rfl⟩
  | loadModel row release =>
    simp only [step] at hs
    split at hs <;> obtain ⟨rfl, rfl⟩ := Prod.mk.inj hs
    · exact .inl ⟨(fun he => by cases he), .inl rfl, _, rfl⟩
    · exact .inr ⟨rfl, _, ‹_›, rfl⟩
  | observe work seen =>
    obtain ⟨rfl, rfl⟩ := Prod.mk.inj hs
    rcases expectation_cases helm worker work with
      ⟨err, he, hne⟩ | ⟨hm, he⟩ | ⟨expected, hm, hns, hr, he⟩
    · refine .inl ⟨(fun he => by cases he), .inl rfl, some err, ?_⟩
      rw [he]
      cases err <;> first | rfl | exact absurd rfl (hne _ _)
    · exact .inr ⟨rfl, .inl ⟨hm, by rw [he]; rfl⟩⟩
    · exact .inr ⟨rfl, .inr ⟨expected, hm, hns, hr, by rw [he]; rfl⟩⟩
  | lookup call =>
    simp only [step] at hs
    split at hs
    · obtain ⟨rfl, rfl⟩ := Prod.mk.inj hs
      exact .inl ⟨(fun he => by cases he), .inl rfl, _, rfl⟩
    · split at hs
      · obtain ⟨rfl, rfl⟩ := Prod.mk.inj hs
        exact .inr ⟨rfl, .inl ⟨_, ‹_›, rfl⟩⟩
      · rename_i hnone
        cases ht : truthy call.work.jobUid <;> simp only [ht] at hs <;>
          obtain ⟨rfl, rfl⟩ := Prod.mk.inj hs
        · exact .inr ⟨rfl, .inr ⟨hnone, .inr ⟨ht, rfl⟩⟩⟩
        · exact .inr ⟨rfl, .inr ⟨hnone, .inl ⟨ht, rfl⟩⟩⟩
  | create call =>
    simp only [step] at hs
    split at hs <;> obtain ⟨rfl, rfl⟩ := Prod.mk.inj hs
    · refine .inr (.inl ⟨?_, rfl⟩)
      cases i.effective
      · exact .inl rfl
      · exact .inr ⟨_, rfl⟩
    · exact .inr (.inr ⟨_, rfl, rfl⟩)
  | confirm call =>
    simp only [step] at hs
    split at hs
    · obtain ⟨rfl, rfl⟩ := Prod.mk.inj hs
      exact .inl ⟨(fun he => by cases he), .inl rfl, _, rfl⟩
    · split at hs <;> obtain ⟨rfl, rfl⟩ := Prod.mk.inj hs
      · exact .inr ⟨rfl, _, ‹_›, rfl⟩
      · exact .inl ⟨(fun he => by cases he), .inl rfl, _, rfl⟩
  | readPods call job =>
    simp only [step] at hs
    split at hs <;> obtain ⟨rfl, rfl⟩ := Prod.mk.inj hs
    · exact .inl ⟨(fun he => by cases he), .inl rfl, _, rfl⟩
    · exact .inr ⟨rfl, rfl⟩
  | lockUid call observation =>
    simp only [step] at hs
    split at hs <;> obtain ⟨rfl, rfl⟩ := Prod.mk.inj hs
    · exact .inl ⟨(fun he => by cases he), .inr rfl, _, rfl⟩
    · exact .inr ⟨_, ‹_›, rfl, rfl⟩
  | saveUid call observation row =>
    simp only [step] at hs
    by_cases hc : row.jobUid ≠ none ∧ row.jobUid ≠ some observation.uid
    · obtain ⟨rfl, rfl⟩ := Prod.mk.inj ((if_pos hc).symm.trans hs)
      exact .inr (.inl ⟨rfl, rfl⟩)
    · obtain ⟨rfl, rfl⟩ := Prod.mk.inj ((if_neg hc).symm.trans hs)
      exact .inr (.inr ⟨by simpa only [ne_eq, not_and_or, Decidable.not_not] using hc, rfl, rfl⟩)
  | listOutputs call =>
    simp only [step] at hs
    split at hs
    · obtain ⟨rfl, rfl⟩ := Prod.mk.inj hs
      exact .inl ⟨(fun he => by cases he), .inl rfl, _, rfl⟩
    · rename_i outputPrefix hprefix
      split at hs
      · obtain ⟨rfl, rfl⟩ := Prod.mk.inj hs
        exact .inl ⟨(fun he => by cases he), .inl rfl, _, rfl⟩
      · obtain ⟨rfl, rfl⟩ := Prod.mk.inj hs
        cases hc : collect call.work outputPrefix i.listing with
        | ok artifacts => exact .inr ⟨rfl, outputPrefix, hprefix, .inl ⟨artifacts, hc, rfl⟩⟩
        | error err =>
          cases err with
          | executionFailure code artifacts =>
            exact .inr ⟨rfl, outputPrefix, hprefix, .inr ⟨code, artifacts, hc, rfl⟩⟩
          | _ => exact .inl ⟨(fun he => by cases he), .inl rfl, _, rfl⟩
  | lockFinish seen failureCode artifacts =>
    simp only [step] at hs
    split at hs <;> obtain ⟨rfl, rfl⟩ := Prod.mk.inj hs
    · exact .inl ⟨(fun he => by cases he), .inr rfl, _, rfl⟩
    · exact .inr ⟨_, ‹_›, rfl, rfl⟩
  | finish seen u =>
    obtain ⟨rfl, rfl⟩ := Prod.mk.inj hs
    exact .inr ⟨rfl, rfl⟩
  | unwind err =>
    obtain ⟨rfl, rfl⟩ := Prod.mk.inj hs
    exact .inl ⟨(fun he => by cases he), .inr rfl, _, rfl⟩
  | exit error =>
    obtain ⟨rfl, rfl⟩ := Prod.mk.inj hs
    cases error with
    | none => exact .inr ⟨rfl, .inl rfl⟩
    | some err => exact .inr ⟨rfl, .inr ⟨err, rfl⟩⟩

end Reconcile
end Mic3
