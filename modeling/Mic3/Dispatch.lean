import Mic3.Exclusion

/-! The Jobs that workers create for a run, what a reconcile call knows of them at each of its statements,
and that its writes and requests keep them to one. -/
namespace Mic3
open Relational Interleaving

/-- The run is running. -/
def Tables.Running (t : Tables) (runId : UUID) : Prop :=
  ∃ row, t.runs.find? runId = some row ∧ row.status = .running

/-- The run is running, with this Job uid and in this namespace. -/
def Tables.RunningAs (t : Tables) (runId : UUID) (jobUid «namespace» : Option String) : Prop :=
  ∃ row, t.runs.find? runId = some row ∧ row.status = .running ∧ row.jobUid = jobUid ∧
    row.jobNamespace = «namespace»

/-- The one Job that was created for a run is there until its uid is saved. -/
structure World.SoleJob (w : World) (id : UUID) (key : JobKey) (uid : String) : Prop where
  only : w.jobsOf id = [(key, uid)]
  row : ∃ row, w.tables.runs.find? id = some row ∧ row.status ≠ .queued ∧
    row.jobNamespace = some key.1 ∧
    (row.jobUid = none ∧ (∃ job, w.cluster.jobs key = some job ∧ job.uid = uid) ∨ row.jobUid = some uid)

/-- At most one Job was created for each run, and a saved uid is one that was created under its name. -/
structure World.SoleJobs (w : World) : Prop where
  sole : ∀ id, w.jobsOf id = [] ∨ ∃ key uid, w.SoleJob id key uid
  saved : ∀ id row uid, w.tables.runs.find? id = some row → row.jobUid = some uid →
    ∃ ns, row.jobNamespace = some ns ∧ ((ns, jobNameOf id), uid) ∈ w.cluster.created

/-- The uid is that of the run's Job, as far as one was created for it. -/
structure World.Found (w : World) (worker : Worker) (runId : UUID) (uid : String) : Prop where
  running : ∃ row, w.tables.runs.find? runId = some row ∧ row.status = .running ∧
    row.jobNamespace = some worker.namespace ∧ (row.jobUid = none ∨ row.jobUid = some uid)
  created : ((worker.namespace, jobNameOf runId), uid) ∈ w.cluster.created
  sole : ∀ e ∈ w.jobsOf runId, e.2 = uid

def Reconcile.Dispatches (w : World) (worker : Worker) (runId : UUID) : Pc → Prop
  | .loadRelease row | .loadModel row _ =>
    w.tables.runs.find? runId = some row ∧ row.status = .running
  | .observe work _ => w.tables.RunningAs runId work.jobUid work.namespace
  | .lookup call => w.tables.RunningAs runId call.work.jobUid (some worker.namespace)
  | .create call => w.tables.RunningAs runId call.work.jobUid (some worker.namespace) ∧
    call.work.jobUid = none ∧ w.jobsOf runId = []
  | .confirm call => w.tables.RunningAs runId call.work.jobUid (some worker.namespace)
  | .readPods _ job => w.Found worker runId job.uid
  | .lockUid _ observation | .saveUid _ observation _ => w.Found worker runId observation.uid
  | .listOutputs _ | .lockFinish .. => w.tables.Running runId
  | .finish _ u => u.loaded.status = .running ∧ u.row.jobUid = u.loaded.jobUid
  | _ => True

def Proc.Dispatches (w : World) : Proc → Prop
  | .reconcile worker runId pc => Reconcile.Dispatches w worker runId pc
  | _ => True

section Worlds
variable {w w' : World} {worker : Worker} {runId : UUID}

theorem World.SoleJob.name {id : UUID} {key : JobKey} {uid : String} (h : w.SoleJob id key uid) :
    key.2 = jobNameOf id := by
  have hmem : (key, uid) ∈ w.jobsOf id := by simp [h.only]
  simpa using (List.mem_filter.mp hmem).2

theorem World.Found.isRunning {uid : String} (h : w.Found worker runId uid) : w.tables.Running runId := by
  obtain ⟨row, hrow, hrun, -⟩ := h.running
  exact ⟨row, hrow, hrun⟩

theorem Tables.RunningAs.isRunning {t : Tables} {jobUid ns : Option String}
    (h : t.RunningAs runId jobUid ns) : t.Running runId := by
  obtain ⟨row, hrow, hrun, -⟩ := h
  exact ⟨row, hrow, hrun⟩

/-- What a step that leaves the run and its Jobs alone leaves of the assertion. -/
theorem Reconcile.Dispatches.keep {pc : Pc} (h : Dispatches w worker runId pc)
    (hrun : ∀ row, w.tables.runs.find? runId = some row → row.status = .running →
      w'.tables.runs.find? runId = some row)
    (hjobs : w'.jobsOf runId = w.jobsOf runId) (hcreated : w.cluster.created ⊆ w'.cluster.created) :
    Dispatches w' worker runId pc := by
  have hrunning (h : w.tables.Running runId) : w'.tables.Running runId := by
    obtain ⟨row, hrow, hs⟩ := h
    exact ⟨row, hrun row hrow hs, hs⟩
  have has {jobUid ns : Option String} (h : w.tables.RunningAs runId jobUid ns) :
      w'.tables.RunningAs runId jobUid ns := by
    obtain ⟨row, hrow, hs, hrest⟩ := h
    exact ⟨row, hrun row hrow hs, hs, hrest⟩
  have hfound {uid : String} (h : w.Found worker runId uid) : w'.Found worker runId uid := by
    obtain ⟨row, hrow, hs, hrest⟩ := h.running
    exact ⟨⟨row, hrun row hrow hs, hs, hrest⟩, hcreated h.created, hjobs ▸ h.sole⟩
  cases pc with
  | loadRelease row | loadModel row release => exact ⟨hrun row h.1 h.2, h.2⟩
  | observe | lookup | confirm => exact has h
  | create call => exact ⟨has h.1, h.2.1, hjobs ▸ h.2.2⟩
  | readPods | lockUid | saveUid => exact hfound h
  | listOutputs | lockFinish => exact hrunning h
  | finish => exact h
  | acquire | loadRun | unwind | exit => trivial

/-- The object under the run's Job name, if it keeps the contract, is the run's Job. -/
theorem found_lookup {call : Reconcile.Call} {job : JobObject} (hinv : w.SoleJobs)
    (hrec : w.cluster.Recorded) (hid : call.work.id = runId)
    (h : w.tables.RunningAs runId call.work.jobUid (some worker.namespace))
    (hjob : w.cluster.jobs (worker.namespace, call.work.jobName) = some job)
    (hv : verifyContract call.work job call.expected = .ok ()) : w.Found worker runId job.uid := by
  obtain ⟨row, hrow, hrun, huid, hns⟩ := h
  subst hid
  have hname : call.work.jobName = jobNameOf call.work.id := rfl
  have hsaved (uid : String) (hu : row.jobUid = some uid) : job.uid = uid := by
    obtain ⟨ns, -, hcreated⟩ := hinv.saved _ _ _ hrow hu
    have hne : uid ≠ "" := hrec.named _ hcreated
    have hwork : call.work.jobUid = some uid := huid.symm.trans hu
    have hsame := (verifyContract_ok hv).1 (by simp [truthy, hwork, hne])
    exact Option.some.inj (hsame.trans hwork)
  refine ⟨⟨row, hrow, hrun, hns, ?_⟩, hname ▸ hrec.jobs _ _ hjob, fun e he => ?_⟩
  · cases hu : row.jobUid with
    | none => exact .inl rfl
    | some uid => exact .inr (by rw [hsaved uid hu])
  · rcases hinv.sole call.work.id with hnil | ⟨key, uid, hsole⟩
    · simp [hnil] at he
    obtain ⟨row', hrow', -, hns', huid'⟩ := hsole.row
    obtain rfl : row = row' := Option.some.inj (hrow.symm.trans hrow')
    obtain rfl : e = (key, uid) := by simpa [hsole.only] using he
    have hkey : key = (worker.namespace, call.work.jobName) :=
      Prod.ext (Option.some.inj (hns'.symm.trans hns)) hsole.name
    rcases huid' with ⟨-, job', hjob', rfl⟩ | hu
    · rw [hkey] at hjob'
      rw [Option.some.inj (hjob.symm.trans hjob')]
    · exact (hsaved uid hu).symm

/-- When the Job is missing and no uid was saved, none was ever created. -/
theorem none_created {call : Reconcile.Call} (hinv : w.SoleJobs) (hrec : w.cluster.Recorded)
    (hid : call.work.id = runId)
    (h : w.tables.RunningAs runId call.work.jobUid (some worker.namespace))
    (hjob : w.cluster.jobs (worker.namespace, call.work.jobName) = none)
    (ht : truthy call.work.jobUid = false) : call.work.jobUid = none ∧ w.jobsOf runId = [] := by
  obtain ⟨row, hrow, -, huid, hns⟩ := h
  subst hid
  have hnone : row.jobUid = none := by
    cases hu : row.jobUid with
    | none => rfl
    | some uid =>
      obtain ⟨ns, -, hcreated⟩ := hinv.saved _ _ _ hrow hu
      have hne : uid ≠ "" := hrec.named _ hcreated
      simp [truthy, ← huid, hu, hne] at ht
  refine ⟨huid ▸ hnone, ?_⟩
  rcases hinv.sole call.work.id with hnil | ⟨key, uid, hsole⟩
  · exact hnil
  obtain ⟨row', hrow', -, hns', huid'⟩ := hsole.row
  obtain rfl : row = row' := Option.some.inj (hrow.symm.trans hrow')
  have hkey : key = (worker.namespace, call.work.jobName) :=
    Prod.ext (Option.some.inj (hns'.symm.trans hns)) hsole.name
  rcases huid' with ⟨-, job, hjob', -⟩ | hu
  · rw [hkey, hjob] at hjob'
    contradiction
  · cases (hnone.symm.trans hu)

theorem Reconcile.dispatches_inspect {call : Call} {holder : Option Pid} {job : JobObject}
    (hrun : w.tables.Running runId)
    (hfound : verifyContract call.work job call.expected = .ok () → w.Found worker runId job.uid) :
    Dispatches w worker runId (inspect call holder job) := by
  rcases inspect_cases call holder job with ⟨err, h⟩ | h | ⟨hv, ⟨-, h⟩ | ⟨-, h⟩⟩ <;> rw [h]
  · trivial
  · exact hrun
  · exact hfound hv
  · exact hfound hv

theorem Reconcile.dispatches_conclude {call : Call} {observation : JobObservation}
    (hrun : w.tables.Running runId) : Dispatches w worker runId (conclude call observation) := by
  unfold conclude
  split
  · exact hrun
  · exact hrun
  · trivial

end Worlds

section Steps
variable {x : External} {p : Pid} {w w' : World} {i : Input} {e : Effect} {worker : Worker} {runId : UUID}

theorem found_create {call : Reconcile.Call} {job : JobObject} (hid : call.work.id = runId)
    (h : w.tables.RunningAs runId call.work.jobUid (some worker.namespace))
    (hnone : call.work.jobUid = none) (hjobs : w.jobsOf runId = [])
    (ha : w.apply p (.createJob (worker.namespace, call.work.jobName) job) = some w') :
    w'.Found worker runId job.uid := by
  have hjobs' : w'.jobsOf runId = [((worker.namespace, call.work.jobName), job.uid)] := by
    rw [jobsOf_create ha, hjobs, if_pos (show call.work.jobName = _ from hid ▸ rfl)]
  have hsole : ∀ e ∈ w'.jobsOf runId, e.2 = job.uid := by simp [hjobs']
  obtain ⟨-, rfl⟩ := create_apply ha
  obtain ⟨row, hrow, hrun, huid, hns⟩ := h
  refine ⟨⟨row, hrow, hrun, hns, .inl (huid.trans hnone)⟩, ?_, hsole⟩
  subst hid
  exact List.mem_cons_self

namespace Reconcile

theorem finishRow_jobUid (row : Run) (failureCode : Option String) (artifacts : List Artifact)
    (d : Defaults) : (finishRow (.clean row) failureCode artifacts d).row.jobUid = row.jobUid := by
  unfold finishRow
  split <;> rfl

theorem savedUid_status (row : Run) (uid : String) : (savedUid row uid).row.status = row.status := by
  unfold savedUid
  split <;> rfl

theorem Sees.id_eq {call : Call} {pc : Pc} (h : Sees x p w worker runId pc)
    (hpc : pc = .lookup call ∨ pc = .create call ∨ pc = .confirm call) : call.work.id = runId := by
  have hwork : w.tables.HasWork runId call.work := by
    rcases hpc with rfl | rfl | rfl <;> exact h.1
  obtain ⟨row, hrow, hof⟩ := hwork
  exact hof.id.trans (Table.key_of_find? hrow)

/-- A call that is to create the Job knows that there was none; one that found it, that it is the one. -/
theorem dispatches_step {pc : Pc} {r : Progress Pc Unit} (hs : step x.helm worker runId p w i pc = (e, r))
    (hk : Dispatches w worker runId pc) (hinv : w.SoleJobs) (hsees : Sees x p w worker runId pc)
    (hheld : ∀ h ∈ holds pc, h.Valid p w) (hknows : Knows w.tables runId pc)
    (hrec : w.cluster.Recorded) (ha : w.apply p e = some w') :
    r.All (Dispatches w' worker runId) := by
  have hlift (hc : e.commits = false) (hcr : e.creates = false) (h : r.All (Dispatches w worker runId)) :
      r.All (Dispatches w' worker runId) := by
    have ht := tables_apply hc ha
    refine h.mono fun pc hpc => hpc.keep (fun row hrow _ => ht ▸ hrow) (jobsOf_apply hcr ha runId) ?_
    rw [cluster_apply hcr ha]
    exact List.Subset.refl _
  rcases step_cases hs with ⟨-, -, err, rfl⟩ | hstep
  · trivial
  cases pc with
  | acquire => rcases hstep with ⟨rfl, rfl⟩ | ⟨rfl, rfl⟩ <;> trivial
  | loadRun =>
    obtain ⟨rfl, row, hrow, hrun, rfl⟩ := hstep
    exact hlift rfl rfl ⟨hrow, hrun⟩
  | loadRelease row =>
    obtain ⟨rfl, release, -, rfl⟩ := hstep
    exact hlift rfl rfl hk
  | loadModel row release =>
    obtain ⟨rfl, definition, -, rfl⟩ := hstep
    exact hlift rfl rfl ⟨row, hk.1, hk.2, rfl, rfl⟩
  | observe work seen =>
    obtain ⟨rfl, ⟨-, rfl⟩ | ⟨expected, -, hns, -, rfl⟩⟩ := hstep
    · exact hlift rfl rfl hk.isRunning
    · exact hlift rfl rfl (hns ▸ hk : w.tables.RunningAs runId work.jobUid (some worker.namespace))
  | lookup call =>
    have hid := hsees.id_eq (.inl rfl)
    obtain ⟨rfl, ⟨job, hjob, rfl⟩ | ⟨hnone, ⟨-, rfl⟩ | ⟨ht, rfl⟩⟩⟩ := hstep
    · exact hlift rfl rfl (dispatches_inspect hk.isRunning fun hv => found_lookup hinv hrec hid hk hjob hv)
    · exact hlift rfl rfl hk.isRunning
    · exact hlift rfl rfl ⟨hk, none_created hinv hrec hid hk hnone ht⟩
  | create call =>
    have hid := hsees.id_eq (.inr (.inl rfl))
    obtain ⟨hrun, hnone, hjobs⟩ := hk
    have hrun' (job : JobObject) (he : e = .createJob (worker.namespace, call.work.jobName) job) :
        w'.tables.RunningAs runId call.work.jobUid (some worker.namespace) := by
      rw [tables_apply (by rw [he]; rfl) ha]
      exact hrun
    obtain ⟨rfl | ⟨job, rfl⟩, rfl⟩ | ⟨job, rfl, rfl⟩ := hstep
    · exact hlift rfl rfl hrun
    · exact hrun' job rfl
    · exact dispatches_inspect (hrun' job rfl).isRunning fun _ => found_create hid hrun hnone hjobs ha
  | confirm call =>
    have hid := hsees.id_eq (.inr (.inr rfl))
    obtain ⟨rfl, job, hjob, rfl⟩ := hstep
    exact hlift rfl rfl (dispatches_inspect hk.isRunning fun hv => found_lookup hinv hrec hid hk hjob hv)
  | readPods call job =>
    obtain ⟨rfl, rfl⟩ := hstep
    exact hlift rfl rfl hk
  | lockUid call observation =>
    obtain ⟨row, -, rfl, rfl⟩ := hstep
    exact hlift rfl rfl hk
  | saveUid call observation row =>
    rcases hstep with ⟨rfl, rfl⟩ | ⟨hu, rfl, rfl⟩
    · exact hlift rfl rfl hk.isRunning
    · have hheld : (Hold.run row).Valid p w := hheld _ (by simp [holds])
      have hal : (Change.outcome (savedUid row observation.uid)).Allowed w.tables :=
        ⟨savedUid_allowed hu, by rw [savedUid_loaded]; exact hheld.2⟩
      obtain ⟨-, -, rfl⟩ := hknows
      obtain ⟨row', hrow', hrun, -⟩ := hk.running
      obtain rfl : row = row' := Option.some.inj (hheld.2.symm.trans hrow')
      obtain ⟨tables, ht, rfl⟩ := commit_apply ha
      refine dispatches_conclude ⟨_, find?_outcome hal ht row.id |>.trans (if_pos ?_), ?_⟩
      · rw [savedUid_loaded]
      · rw [savedUid_status]
        exact hrun
  | listOutputs call =>
    obtain ⟨rfl, outputPrefix, -, ⟨artifacts, -, rfl⟩ | ⟨code, artifacts, -, rfl⟩⟩ := hstep <;>
      exact hlift rfl rfl hk
  | lockFinish seen failureCode artifacts =>
    obtain ⟨row, hrow, rfl, rfl⟩ := hstep
    obtain ⟨row', hrow', hrun⟩ := hk
    obtain rfl : row = row' := Option.some.inj (hrow.symm.trans hrow')
    refine hlift rfl rfl ⟨?_, ?_⟩
    · rw [finishRow_loaded]
      exact hrun
    · rw [finishRow_jobUid, finishRow_loaded]
      rfl
  | finish seen u =>
    obtain ⟨rfl, -⟩ := hstep
    trivial
  | unwind err => exact hstep.elim
  | exit error => obtain ⟨rfl, rfl | ⟨err, rfl⟩⟩ := hstep <;> trivial

end Reconcile
end Steps
end Mic3
