import Mic3.Computation
import Mic3.KubernetesJobs
import Mic3.Platform

/-! A worker redeployed with another chart version or other operational values, and the Jobs that the worker
before it created: what a later reconciliation makes of them. -/
namespace Mic3
open Relational

/-- The document that a chart renders for a run's values, if it is one Job. -/
def renderedJob (helm : Helm) (chart : ℕ) («namespace» : String) (runId : UUID) (values : Json) : Option Json :=
  match helm chart ("mic3-run-" ++ runId.str) «namespace» values with
  | some [document] => if document.get? "kind" = some (.str "Job") then some document else none
  | _ => none

/-- A running run whose Job was created, under some chart and operational values, and whose uid was recorded. -/
structure Dispatched (helm : Helm) where
  row : Run
  job : JobObject
  «namespace» : String
  values : Json
  running : row.status = .running
  uid_ne : job.uid ≠ ""
  uid : row.jobUid = some job.uid
  dispatchedTo : row.jobNamespace = some «namespace»
  fingerprint : values.get? "runFingerprint" = some (.str row.fingerprint)
  created : ∃ chart expected, renderedJob helm chart «namespace» row.id values = some expected ∧
    containsContract job expected = .ok true

namespace Dispatched
variable {helm : Helm}

/-- The release still gives the run the values it was dispatched with. -/
def Yields (d : Dispatched helm) (release : ModelReleaseRow) : Prop :=
  ∃ execution, ExecutionDefinition.fromDict release.executionDefinition = .ok execution ∧
    ∀ displayName, modelJobValues (release.definition displayName execution) d.row.parameters d.row.id = .ok d.values

/-- The run is still running, its release yields the same values, and its Job is in the cluster as it was. -/
structure InFlight (d : Dispatched helm) (modelId : String) (w : World) : Prop where
  row : w.tables.runs.find? d.row.id = some d.row
  model : (w.tables.models.find? modelId).isSome
  release : ∃ release, w.tables.releases.find? d.row.modelReleaseId = some release ∧
    release.modelId = modelId ∧ d.Yields release
  job : w.cluster.jobs (d.namespace, "mic3-run-" ++ d.row.id.str) = some d.job

/-- The live Job contains the labels, annotations and spec that the worker renders now. -/
def Recognised (d : Dispatched helm) (worker : Worker) : Prop :=
  ∃ expected, renderedJob helm worker.chart d.namespace d.row.id d.values = some expected ∧
    containsContract d.job expected = .ok true

theorem recognised_iff {d : Dispatched helm} {worker : Worker} : d.Recognised worker ↔
    ((renderedJob helm worker.chart d.namespace d.row.id d.values).any fun expected =>
      containsContract d.job expected = .ok true) = true := by
  simp only [Recognised, Option.any_eq_true, decide_eq_true_eq]

instance (d : Dispatched helm) (worker : Worker) : Decidable (d.Recognised worker) :=
  decidable_of_iff _ recognised_iff.symm

/-- The statements of a reconciliation, each in the world it meets. -/
def statement (helm : Helm) (worker : Worker) (runId : UUID) (p : Pid) (env : ℕ → World × Input) :
    ℕ → Option Reconcile.Pc
  | 0 => some .acquire
  | n + 1 =>
    match statement helm worker runId p env n with
    | none => none
    | some pc =>
      match (Reconcile.step helm worker runId p (env n).1 (env n).2 pc).2 with
      | .running pc' => some pc'
      | .returned _ | .raised _ => none

/-- A reconciliation of the run by the worker, whatever happens around it while the Job is as it was: it does
not fail the run for its identity, and reports the Job's own state. -/
structure Continues (d : Dispatched helm) (modelId : String) (worker : Worker) (p : Pid) : Prop where
  keeps : ∀ env n, (∀ k < n, d.InFlight modelId (env k).1) → ∀ seen artifacts,
    statement helm worker d.row.id p env n ≠ some (.lockFinish seen (some "job_identity_conflict") artifacts)
  own : ∀ env n, (∀ k < n, d.InFlight modelId (env k).1) → ∀ call observation,
    statement helm worker d.row.id p env n = some (.lockUid call observation) →
      observation.uid = d.job.uid ∧ observation.state = d.job.state
  /-- It gets there unless a request fails or another worker is at the run. -/
  reports : ∀ env, (∀ k < 7, d.InFlight modelId (env k).1 ∧ (env k).2.fault = false) →
    (env 0).1.sessionFree p (runKey d.row.id) = true → ∃ n call observation,
      statement helm worker d.row.id p env n = some (.lockUid call observation) ∧
        observation.uid = d.job.uid ∧ observation.state = d.job.state

section Values
variable {release : ReleaseDefinition} {parameters values : Json} {runId : UUID} {text : String}

/-- A run whose values carry its fingerprint matches it. -/
theorem matches_of_values (h : modelJobValues release parameters runId = .ok values)
    (htext : values.get? "runFingerprint" = some (.str text)) :
    matchesFingerprint release parameters text = .ok true := by
  obtain ⟨mode, hmode, -⟩ := bind_eq_ok.mp h
  obtain rfl := prepareMode_parameters hmode
  obtain ⟨c, hc, rfl⟩ := modelJobValues_ok.mp h
  obtain rfl : sha256Hex c.text = text := Json.str.inj (Option.some.inj htext)
  have hfingerprint := fingerprint_ok.mpr ⟨c, hc, rfl⟩
  rw [matchesFingerprint, hfingerprint]
  exact congrArg _ (decide_eq_true rfl)

/-- What is rendered for the values of a work. -/
theorem render_ok {helm : Helm} {chart : ℕ} {«namespace» : String} {work : ExecutionWork} {expected : Json}
    (h : modelJobValues work.release work.parameters work.id = .ok values) :
    render helm chart «namespace» work = .ok expected ↔
      renderedJob helm chart «namespace» work.id values = some expected := by
  simp only [render, h, renderedJob, ExecutionWork.jobName, bind, Except.bind]
  cases helm chart ("mic3-run-" ++ work.id.str) «namespace» values with
  | none => exact ⟨(fun he => by cases he), (fun he => by cases he)⟩
  | some documents =>
    match documents with
    | [] => exact ⟨(fun he => by cases he), (fun he => by cases he)⟩
    | _ :: _ :: _ => exact ⟨(fun he => by cases he), (fun he => by cases he)⟩
    | [document] =>
      by_cases hkind : document.get? "kind" = some (.str "Job")
      · simp only [if_pos hkind, pure_eq_ok, Option.some.injEq]
      · simp only [if_neg hkind, throw_ne_ok, reduceCtorEq]

end Values

section Following
variable {d : Dispatched helm} {modelId : String} {worker : Worker} {p : Pid} {w : World} {i : Input}

/-- The work that was loaded for the run. -/
structure Loaded (d : Dispatched helm) (work : ExecutionWork) : Prop where
  id : work.id = d.row.id
  parameters : work.parameters = d.row.parameters
  fingerprint : work.fingerprint = d.row.fingerprint
  «namespace» : work.namespace = some d.namespace
  jobUid : work.jobUid = some d.job.uid
  values : modelJobValues work.release work.parameters work.id = .ok d.values

namespace Loaded
variable {work : ExecutionWork} {expected : Json}

theorem matchesFingerprint (h : d.Loaded work) :
    Mic3.matchesFingerprint work.release work.parameters work.fingerprint = .ok true :=
  matches_of_values h.values (h.fingerprint ▸ d.fingerprint)

theorem truthy (h : d.Loaded work) : Mic3.truthy work.jobUid = true := by
  rw [h.jobUid]
  exact decide_eq_true d.uid_ne

theorem render (h : d.Loaded work) (hns : worker.namespace = d.namespace) :
    Mic3.render helm worker.chart worker.namespace work = .ok expected ↔
      renderedJob helm worker.chart d.namespace d.row.id d.values = some expected := by
  rw [render_ok h.values, hns, h.id]

theorem jobName (h : d.Loaded work) : work.jobName = "mic3-run-" ++ d.row.id.str := by
  rw [ExecutionWork.jobName, h.id]

/-- The check of the live Job passes for what the worker renders exactly when it recognises the Job. -/
theorem verify (h : d.Loaded work)
    (hexpected : renderedJob helm worker.chart d.namespace d.row.id d.values = some expected) :
    verifyContract work d.job expected = .ok () ↔ d.Recognised worker := by
  constructor
  · intro hverify
    exact ⟨expected, hexpected, (verifyContract_ok hverify).2⟩
  · rintro ⟨expected', hexpected', hcontains⟩
    obtain rfl : expected = expected' := Option.some.inj (hexpected.symm.trans hexpected')
    have huid : ¬ (Mic3.truthy work.jobUid = true ∧ some d.job.uid ≠ work.jobUid) :=
      fun hne => hne.2 h.jobUid.symm
    simp only [verifyContract, if_neg huid, hcontains]
    rfl

end Loaded

/-- Where a reconciliation stands while the Job is as it was. -/
def Follows (d : Dispatched helm) (modelId : String) (worker : Worker) : Reconcile.Pc → Prop
  | .loadRelease row => row = d.row
  | .loadModel row release => row = d.row ∧ release.modelId = modelId ∧ d.Yields release
  | .observe work _ => d.Loaded work
  | .lookup call => d.Loaded call.work ∧
      renderedJob helm worker.chart d.namespace d.row.id d.values = some call.expected
  | .create _ | .confirm _ => False
  | .readPods _ job => d.Recognised worker ∧ job = d.job ∧ d.job.state = .failed
  | .lockUid _ observation => d.Recognised worker ∧ observation.uid = d.job.uid ∧
      observation.state = d.job.state ∧ observation.failureCode ≠ some "job_identity_conflict"
  | .saveUid _ observation row => d.Recognised worker ∧ observation.uid = d.job.uid ∧ row = d.row ∧
      observation.failureCode ≠ some "job_identity_conflict"
  | .listOutputs _ => d.Recognised worker
  | .lockFinish _ failureCode _ => failureCode = some "job_identity_conflict" → ¬ d.Recognised worker
  | _ => True

theorem Follows.start : d.Follows modelId worker .acquire := trivial

theorem Loaded.of_load {release : ModelReleaseRow} {definition : ReleaseDefinition}
    (hyields : d.Yields release) (h : loadReleaseDefinition w.tables release = .ok definition) :
    d.Loaded (Reconcile.loaded d.row definition) := by
  obtain ⟨displayName, execution, hexecution, rfl⟩ := loadReleaseDefinition_ok h
  obtain ⟨execution', hexecution', hvalues⟩ := hyields
  obtain rfl : execution = execution' := Except.ok.inj (hexecution.symm.trans hexecution')
  exact ⟨rfl, rfl, rfl, d.dispatchedTo, d.uid, hvalues displayName⟩

/-- What is concluded from the Job that was found. -/
theorem Follows.inspect {call : Reconcile.Call} {holder : Option Pid} (hwork : d.Loaded call.work)
    (hexpected : renderedJob helm worker.chart d.namespace d.row.id d.values = some call.expected) :
    d.Follows modelId worker (Reconcile.inspect call holder d.job) := by
  rcases Reconcile.inspect_cases call holder d.job with
    ⟨err, h⟩ | h | ⟨hverify, ⟨hf, h⟩ | ⟨hf, h⟩⟩ <;> rw [h]
  · trivial
  · intro _ hrecognised
    have hverify := (hwork.verify hexpected).mpr hrecognised
    simp only [Reconcile.inspect, Reconcile.guarded, hverify] at h
    split at h <;> contradiction
  · exact ⟨(hwork.verify hexpected).mp hverify, rfl, by rw [JobObject.state, if_pos hf]⟩
  · refine ⟨(hwork.verify hexpected).mp hverify, rfl, ?_, (fun he => by cases he)⟩
    rw [JobObject.state, if_neg (Bool.eq_false_iff.mp hf)]

/-- A statement keeps to it. -/
theorem Follows.step {pc pc' : Reconcile.Pc} {e : Effect} (hns : worker.namespace = d.namespace)
    (hw : d.InFlight modelId w) (h : d.Follows modelId worker pc)
    (hs : Reconcile.step helm worker d.row.id p w i pc = (e, .running pc')) : d.Follows modelId worker pc' := by
  rcases Reconcile.step_cases hs with ⟨-, -, err, hr⟩ | hcase
  · obtain rfl := Progress.running.inj hr
    trivial
  cases pc with
  | acquire =>
    obtain ⟨-, hr⟩ | ⟨-, hr⟩ := hcase
    · contradiction
    · obtain rfl := Progress.running.inj hr
      trivial
  | loadRun =>
    obtain ⟨-, row, hrow, -, hr⟩ := hcase
    obtain rfl := Progress.running.inj hr
    exact Option.some.inj (hrow.symm.trans hw.row)
  | loadRelease row =>
    obtain ⟨-, release, hrelease, hr⟩ := hcase
    obtain rfl := Progress.running.inj hr
    obtain rfl : row = d.row := h
    obtain ⟨release', hrelease', hmodel, hyields⟩ := hw.release
    obtain rfl : release = release' := Option.some.inj (hrelease.symm.trans hrelease')
    exact ⟨rfl, hmodel, hyields⟩
  | loadModel row release =>
    obtain ⟨-, definition, hload, hr⟩ := hcase
    obtain rfl := Progress.running.inj hr
    obtain ⟨rfl, -, hyields⟩ := h
    exact .of_load hyields hload
  | observe work seen =>
    have hwork : d.Loaded work := h
    obtain ⟨-, ⟨hmatches, -⟩ | ⟨expected, -, -, hrender, hr⟩⟩ := hcase
    · rw [hwork.matchesFingerprint] at hmatches
      contradiction
    · obtain rfl := Progress.running.inj hr
      exact ⟨hwork, (hwork.render hns).mp hrender⟩
  | lookup call =>
    obtain ⟨hwork, hexpected⟩ := h
    have hjob : w.cluster.jobs (worker.namespace, call.work.jobName) = some d.job := by
      rw [hns, hwork.jobName, hw.job]
    obtain ⟨-, ⟨job, hfound, hr⟩ | ⟨hmissing, -⟩⟩ := hcase
    · obtain rfl := Progress.running.inj hr
      obtain rfl : d.job = job := Option.some.inj (hjob.symm.trans hfound)
      exact .inspect hwork hexpected
    · rw [hjob] at hmissing
      contradiction
  | create call => exact h.elim
  | confirm call => exact h.elim
  | readPods call job =>
    obtain ⟨hrecognised, rfl, hstate⟩ := h
    obtain ⟨-, hr⟩ := hcase
    obtain rfl := Progress.running.inj hr
    refine ⟨hrecognised, rfl, hstate.symm, fun hcode => ?_⟩
    have hmem := failureReason_mem d.job.uid i.pods
    rw [Option.some.inj hcode] at hmem
    exact absurd hmem (by decide)
  | lockUid call observation =>
    obtain ⟨hrecognised, huid, -, hcode⟩ := h
    obtain ⟨row, hrow, -, hr⟩ := hcase
    obtain rfl := Progress.running.inj hr
    exact ⟨hrecognised, huid, Option.some.inj (hrow.symm.trans hw.row), hcode⟩
  | saveUid call observation row =>
    obtain ⟨hrecognised, huid, rfl, hcode⟩ := h
    rcases hcase with ⟨he, -⟩ | ⟨-, -, hr⟩
    · -- The recorded uid is the Job's, so it is saved.
      have hsame : ¬ (d.row.jobUid ≠ none ∧ d.row.jobUid ≠ some observation.uid) :=
        fun hne => hne.2 (by rw [d.uid, huid])
      simp only [Reconcile.step, if_neg hsame] at hs
      cases ((Prod.mk.inj hs).1.trans he)
    · obtain rfl := Progress.running.inj hr
      cases hstate : observation.state <;> simp only [Reconcile.conclude, hstate]
      · trivial
      · exact hrecognised
      · intro hconflict
        split at hconflict
        · exact absurd hconflict hcode
        · exact absurd hconflict (by decide)
  | listOutputs call =>
    obtain ⟨-, outputPrefix, -, ⟨artifacts, -, hr⟩ | ⟨code, artifacts, hcollect, hr⟩⟩ := hcase
    · obtain rfl := Progress.running.inj hr
      exact fun hconflict => (by cases hconflict)
    · obtain rfl := Progress.running.inj hr
      intro hconflict
      obtain rfl := Option.some.inj hconflict
      exact absurd (collect_failure hcollect).2 (by decide)
  | lockFinish seen failureCode artifacts =>
    obtain ⟨row, -, -, hr⟩ := hcase
    obtain rfl := Progress.running.inj hr
    trivial
  | finish seen u =>
    obtain rfl := Progress.running.inj hcase.1
    trivial
  | unwind err => exact hcase.elim
  | exit error =>
    obtain ⟨-, hr | ⟨err, hr⟩⟩ := hcase <;> contradiction

/-- How far the observation of the Job is. -/
def stage : Reconcile.Pc → ℕ
  | .acquire => 0
  | .loadRun => 1
  | .loadRelease _ => 2
  | .loadModel _ _ => 3
  | .observe _ _ => 4
  | .lookup _ => 5
  | .readPods _ _ => 6
  | .lockUid _ _ => 7
  | _ => 8

/-- Without a failing request, a statement leads to the next stage, or at once to the last. -/
theorem Follows.progress {pc : Reconcile.Pc} (hns : worker.namespace = d.namespace)
    (hrecognised : d.Recognised worker) (hw : d.InFlight modelId w) (hfault : i.fault = false)
    (hfree : w.sessionFree p (runKey d.row.id) = true ∨ stage pc ≠ 0)
    (h : d.Follows modelId worker pc) (hstage : stage pc < 7) :
    ∃ e pc', Reconcile.step helm worker d.row.id p w i pc = (e, .running pc') ∧
      (stage pc' = stage pc + 1 ∨ stage pc' = 7) := by
  cases pc with
  | acquire =>
    have hfree : w.sessionFree p (runKey d.row.id) = true := hfree.resolve_right (not_not.mpr rfl)
    exact ⟨_, .loadRun, if_pos hfree, .inl rfl⟩
  | loadRun =>
    refine ⟨.read, .loadRelease d.row, ?_, .inl rfl⟩
    simp only [Reconcile.step, hw.row, d.running, ne_eq, not_true, if_false]
  | loadRelease row =>
    obtain rfl : row = d.row := h
    obtain ⟨release, hrelease, -⟩ := hw.release
    exact ⟨.read, .loadModel d.row release, by simp only [Reconcile.step, hrelease], .inl rfl⟩
  | loadModel row release =>
    obtain ⟨rfl, rfl, execution, hexecution, -⟩ := h
    obtain ⟨model, hmodel⟩ := Option.isSome_iff_exists.mp hw.model
    have hload : loadReleaseDefinition w.tables release =
        .ok ⟨model.id, model.displayName, release.imageDigest, execution⟩ := by
      simp only [loadReleaseDefinition, hmodel, hexecution]
      rfl
    exact ⟨.rollback, .observe _ _, by simp only [Reconcile.step, hload]; rfl, .inl rfl⟩
  | observe work seen =>
    have hwork : d.Loaded work := h
    obtain ⟨expected, hexpected, -⟩ := hrecognised
    have hrender := (hwork.render hns).mpr hexpected
    have hdispatched : ¬ work.namespace ≠ some worker.namespace := not_not.mpr (by rw [hwork.namespace, hns])
    have hexpectation : Reconcile.expectation helm worker work = .ok expected := by
      refine bind_eq_ok.mpr ⟨true, hwork.matchesFingerprint, ?_⟩
      rw [if_neg (not_not.mpr rfl), if_neg hdispatched]
      exact hrender
    exact ⟨.read, .lookup _, by simp only [Reconcile.step, Reconcile.guarded, hexpectation]; rfl, .inl rfl⟩
  | lookup call =>
    obtain ⟨hwork, hexpected⟩ := h
    have hjob : w.cluster.jobs (worker.namespace, call.work.jobName) = some d.job := by
      rw [hns, hwork.jobName, hw.job]
    have hverify := (hwork.verify hexpected).mpr hrecognised
    refine ⟨.read, Reconcile.inspect call (w.pg.sessionLocks (runKey d.row.id)) d.job, ?_, ?_⟩
    · simp only [Reconcile.step, hfault, hjob, Bool.false_eq_true, if_false]
    · simp only [Reconcile.inspect, Reconcile.guarded, hverify]
      split
      · exact .inl rfl
      · exact .inr rfl
  | readPods call job =>
    refine ⟨.read, .lockUid call ⟨job.uid, .failed, some (failureReason job.uid i.pods)⟩, ?_, .inr rfl⟩
    simp only [Reconcile.step, hfault, Bool.false_eq_true, if_false]
  | create | confirm | lockUid | saveUid | listOutputs | lockFinish | finish | unwind | exit =>
    simp [stage] at hstage

/-- A whole reconciliation keeps to it. -/
theorem Follows.run (hns : worker.namespace = d.namespace) {env : ℕ → World × Input} {n : ℕ}
    (henv : ∀ k < n, d.InFlight modelId (env k).1) {pc : Reconcile.Pc}
    (h : statement helm worker d.row.id p env n = some pc) : d.Follows modelId worker pc := by
  induction n generalizing pc with
  | zero =>
    obtain rfl := Option.some.inj h
    exact .start
  | succ n ih =>
    rw [statement] at h
    split at h
    · contradiction
    · rename_i pc₀ hpc
      have hbefore := ih (fun k hk => henv k (hk.trans n.lt_succ_self)) hpc
      split at h
      · rename_i pc' hrunning
        obtain rfl := Option.some.inj h
        exact hbefore.step hns (henv n n.lt_succ_self) (Prod.ext rfl hrunning)
      · contradiction
      · contradiction

/-- Seven statements lead to the report. -/
theorem Follows.reports (hns : worker.namespace = d.namespace) (hrecognised : d.Recognised worker)
    {env : ℕ → World × Input} (henv : ∀ k < 7, d.InFlight modelId (env k).1 ∧ (env k).2.fault = false)
    (hfree : (env 0).1.sessionFree p (runKey d.row.id) = true) {n : ℕ} (hn : n ≤ 7) :
    ∃ m ≤ n, ∃ pc, statement helm worker d.row.id p env m = some pc ∧
      (stage pc = 7 ∨ m = n ∧ stage pc = n) := by
  induction n with
  | zero => exact ⟨0, le_rfl, .acquire, rfl, .inr ⟨rfl, rfl⟩⟩
  | succ n ih =>
    obtain ⟨m, hm, pc, hpc, hseven | ⟨rfl, hstage⟩⟩ := ih (n.le_succ.trans hn)
    · exact ⟨m, hm.trans n.le_succ, pc, hpc, .inl hseven⟩
    · have hfollows : d.Follows modelId worker pc :=
        .run hns (fun k hk => (henv k (hk.trans hn)).1) hpc
      have hfree' : (env m).1.sessionFree p (runKey d.row.id) = true ∨ stage pc ≠ 0 := by
        by_cases hzero : m = 0
        · exact .inl (hzero ▸ hfree)
        · exact .inr (hstage ▸ hzero)
      obtain ⟨hw, hfault⟩ := henv m hn
      obtain ⟨e, pc', hstep, hnext⟩ := hfollows.progress hns hrecognised hw hfault hfree' (hstage ▸ hn)
      refine ⟨m + 1, le_rfl, pc', ?_, ?_⟩
      · simp only [statement, hpc, hstep]
      · rcases hnext with hnext | hnext
        · exact .inr ⟨rfl, hnext.trans (congrArg (· + 1) hstage)⟩
        · exact .inl hnext

end Following

theorem Recognised.continues {d : Dispatched helm} {modelId : String} {worker : Worker} {p : Pid}
    (h : d.Recognised worker) (hns : worker.namespace = d.namespace) : d.Continues modelId worker p := by
  refine ⟨fun env n henv seen artifacts hn => ?_, fun env n henv call observation hn => ?_, fun env henv hfree => ?_⟩
  · exact Follows.run hns henv hn rfl h
  · obtain ⟨-, huid, hstate, -⟩ := Follows.run hns henv hn
    exact ⟨huid, hstate⟩
  · obtain ⟨n, hn, pc, hpc, hstage⟩ := Follows.reports hns h henv hfree le_rfl
    have hseven : stage pc = 7 := hstage.elim id (·.2)
    have hfollows : d.Follows modelId worker pc :=
      .run hns (fun k hk => (henv k (hk.trans_le hn)).1) hpc
    cases pc with
    | lockUid call observation => exact ⟨n, call, observation, hpc, hfollows.2.1, hfollows.2.2.1⟩
    | _ => simp [stage] at hseven

theorem Continues.recognised {d : Dispatched helm} {modelId : String} {worker : Worker} {p : Pid}
    (h : d.Continues modelId worker p) (hns : worker.namespace = d.namespace) {w : World}
    (hw : d.InFlight modelId w) (hfree : w.sessionFree p (runKey d.row.id) = true) : d.Recognised worker := by
  -- Nothing else happens.
  let env : ℕ → World × Input := fun _ => (w, ⟨0, 0, 0, 0, false, false, d.job, [], [], ("", 0)⟩)
  obtain ⟨n, call, observation, hn, -⟩ := h.reports env (fun _ _ => ⟨hw, rfl⟩) hfree
  exact (Follows.run hns (fun _ _ => hw) hn).1

/-- A later worker takes the Job for the run's own exactly when the Job contains what it renders. -/
theorem redeployed_continues (d : Dispatched helm) (modelId : String) (worker : Worker) (p : Pid)
    (hns : worker.namespace = d.namespace) {w : World} (hw : d.InFlight modelId w)
    (hfree : w.sessionFree p (runKey d.row.id) = true) :
    d.Continues modelId worker p ↔ d.Recognised worker :=
  ⟨fun h => h.recognised hns hw hfree, fun h => h.continues hns⟩

end Dispatched

/-! The Job of a run, created while the operational values had a deadline of ten minutes. -/
namespace Demo

/-- The chart, with a deadline where the operational values set one. -/
def deadlineHelm (deadline : ℕ → Option ℤ) : Helm := fun chart name _ values =>
  let value (key : String) := (values.get? key).getD .null
  let model := value "model"
  some [.obj [("kind", .str "Job"), ("metadata", .obj [("name", .str name),
      ("annotations", .obj [("mic3.io/fingerprint", value "runFingerprint")]),
      ("labels", .obj [("app.kubernetes.io/name", (model.get? "id").getD .null),
        ("app.kubernetes.io/instance", .str name), ("mic3.io/run-id", value "runId")])]),
    ("spec", .obj ([("backoffLimit", .int 0)] ++
      ((deadline chart).map fun seconds => ("activeDeadlineSeconds", .int seconds)).toList ++
      [("template", template model)]))]]

/-- The second values double it, and the third ones have none. -/
def twoDeadlines (chart : ℕ) : Option ℤ := if chart = 0 then some 600 else if chart = 1 then some 1200 else none

def runningRow : Run := ⟨runId, 1, none, .obj [("mode", .str "fast")], fingerprint, .running, some 0, none, some 0,
  none, some "science", some "job-1", 0⟩

def jobValues : Json := .obj [("runId", .str runId.str), ("runFingerprint", .str fingerprint),
  ("model", .obj [("id", .str "demo"), ("mode", .str "fast"), ("image", .str image),
    ("command", .arr [.str "solve"]), ("workingDir", .str "/work"), ("outputPath", .str "/out")])]

/-- The live Job, with a default that the API server added. -/
def liveJob : JobObject where
  uid := "job-1"
  labels := (job []).labels
  annotations := (job []).annotations
  spec := .obj [("backoffLimit", .int 0), ("parallelism", .int 1), ("activeDeadlineSeconds", .int 600),
    ("template", template (.obj [("image", .str image), ("workingDir", .str "/work"),
      ("command", .arr [.str "solve"])]))]
  conditions := []

def firstRendered : Json := ((renderedJob (deadlineHelm twoDeadlines) 0 "science" runId jobValues).getD .null)

def dispatched : Dispatched (deadlineHelm twoDeadlines) where
  row := runningRow
  job := liveJob
  «namespace» := "science"
  values := jobValues
  running := rfl
  uid_ne := by decide
  uid := rfl
  dispatchedTo := rfl
  fingerprint := rfl
  created := ⟨0, firstRendered, rfl, by decide +kernel⟩

/-- The tables and the cluster while the Job runs. -/
def running : World where
  pg := ⟨{ Tables.empty with
    models := ⟨[⟨"demo", "Demo"⟩], List.nodup_singleton _⟩
    releases := ⟨[⟨1, "demo", image, release.executionDefinition.toDict, 0⟩], List.nodup_singleton _⟩
    runs := ⟨[runningRow], List.nodup_singleton _⟩ }, .free, fun _ => none⟩
  cluster := ⟨fun key => if key = jobKey then some liveJob else none, [], []⟩
  broker := World.initial.broker
  history := []

def computation : Computation := ⟨"demo", image, "fast", ["solve"], "/work", "/out"⟩

theorem computation_fingerprint : sha256Hex computation.text = fingerprint := by decide +kernel

theorem running_inFlight : dispatched.InFlight "demo" running where
  row := rfl
  model := rfl
  release := ⟨⟨1, "demo", image, release.executionDefinition.toDict, 0⟩, rfl, rfl,
    release.executionDefinition, rfl, fun displayName => modelJobValues_ok.mpr
      ⟨computation, rfl, by rw [computation_fingerprint]; rfl⟩⟩
  job := rfl

/-- The reconciliation of the worker with the doubled deadline, nothing else going on. -/
def redeployed : Option Reconcile.Pc :=
  Dispatched.statement (deadlineHelm twoDeadlines) ⟨"science", 1, 1⟩ runId 0 (fun _ => (running, input 0)) 6

def isConflict : Option Reconcile.Pc → Bool
  | some (.lockFinish _ (some code) _) => code = "job_identity_conflict"
  | _ => false

/-- It fails the run, although the Job is there as it was. -/
theorem redeployed_conflict : dispatched.InFlight "demo" running ∧
    (∃ seen artifacts, redeployed = some (.lockFinish seen (some "job_identity_conflict") artifacts)) ∧
    ¬ dispatched.Continues "demo" ⟨"science", 1, 1⟩ 0 := by
  have hconflict : isConflict redeployed = true := by decide +kernel
  obtain ⟨seen, artifacts, hredeployed⟩ : ∃ seen artifacts,
      redeployed = some (.lockFinish seen (some "job_identity_conflict") artifacts) := by
    unfold isConflict at hconflict
    split at hconflict
    · rename_i seen code artifacts hredeployed
      obtain rfl := of_decide_eq_true hconflict
      exact ⟨seen, artifacts, hredeployed⟩
    · contradiction
  exact ⟨running_inFlight, ⟨seen, artifacts, hredeployed⟩,
    fun h => h.keeps _ 6 (fun _ _ => running_inFlight) seen artifacts hredeployed⟩

/-- A worker whose values drop the deadline takes the Job for the run's own. -/
theorem redeployed_continues_dropped : (renderedJob (deadlineHelm twoDeadlines) 2 "science" runId jobValues).getD .null ≠
      firstRendered ∧ dispatched.Continues "demo" ⟨"science", 1, 2⟩ 0 := by
  have hrecognised : dispatched.Recognised ⟨"science", 1, 2⟩ := by decide +kernel
  exact ⟨by decide +kernel,
    (dispatched.redeployed_continues "demo" ⟨"science", 1, 2⟩ 0 rfl running_inFlight (by decide +kernel)).mpr hrecognised⟩

end Demo
end Mic3
