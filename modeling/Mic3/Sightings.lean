import Mic3.Evidence

/-! What a reconcile call has seen at each of its statements. -/
namespace Mic3
open Relational Interleaving

/-- The run is still the one that was loaded. -/
def Tables.Since (t : Tables) (runId : UUID) (row : Run) : Prop :=
  ∃ row', t.runs.find? runId = some row' ∧ row.Continues row'

def Tables.HasWork (t : Tables) (runId : UUID) (work : ExecutionWork) : Prop :=
  ∃ row, t.runs.find? runId = some row ∧ work.Of row

/-- While the run runs, its Job has this uid. -/
def Tables.HasUid (t : Tables) (runId : UUID) (uid : String) : Prop :=
  ∃ row, t.runs.find? runId = some row ∧ row.status ≠ .queued ∧
    (row.status = .running → row.jobUid = some uid)

section Advance
variable {t t' : Tables} {runId : UUID}

theorem Tables.Since.advance {row : Run} (h : t.Since runId row) (hadv : t.Advances t')
    (hc : t.Consistent) : t'.Since runId row := by
  obtain ⟨row₁, hrow₁, hcont₁⟩ := h
  obtain ⟨row₂, hrow₂, hcont₂, -⟩ := hadv.run hc hrow₁
  exact ⟨row₂, hrow₂, hcont₁.trans hcont₂⟩

theorem Tables.HasWork.advance {work : ExecutionWork} (h : t.HasWork runId work) (hadv : t.Advances t')
    (hc : t.Consistent) : t'.HasWork runId work := by
  obtain ⟨row₁, hrow₁, hof⟩ := h
  obtain ⟨row₂, hrow₂, hcont₂, -⟩ := hadv.run hc hrow₁
  exact ⟨row₂, hrow₂, hof.continues hcont₂⟩

theorem Tables.HasUid.advance {uid : String} (h : t.HasUid runId uid) (hadv : t.Advances t')
    (hc : t.Consistent) : t'.HasUid runId uid := by
  obtain ⟨row₁, hrow₁, hs, hu⟩ := h
  obtain ⟨row₂, hrow₂, hcont₂, hm, -⟩ := hadv.run hc hrow₁
  exact ⟨row₂, hrow₂, hm.ne_queued hs, fun hrun => hcont₂.jobUid uid (hu (hm.was_running hs hrun))⟩

end Advance

namespace Reconcile

/-- The observations before the Job is looked up. -/
def Call.before (call : Call) (p : Pid) : Seen :=
  [(.loaded call.work, some p), (.rendered call.expected, some p)]

/-- The call has found its Job completed. -/
structure Call.Observed (x : External) (p : Pid) (w : World) (worker : Worker) (runId : UUID) (call : Call)
    (job : JobObject) : Prop where
  work : w.tables.HasWork runId call.work
  prepared : call.Prepared x worker
  completed : call.Completed w.cluster.created worker job
  seen : call.seen = call.before p ++ [(.observed job, some p)]

/-- The call is about to end the run by the check of its outputs. -/
def Concluding (x : External) (p : Pid) (w : World) (worker : Worker) (runId : UUID) (seen : Seen)
    (failureCode : Option String) (artifacts : List Artifact) : Prop :=
  ∃ call job outputPrefix, Call.Observed x p w worker runId call job ∧
    w.tables.HasUid runId job.uid ∧ call.work.outputPrefix = .ok outputPrefix ∧
    collect call.work outputPrefix artifacts = verdict failureCode artifacts ∧
    seen = call.seen ++ [(.listed outputPrefix artifacts, some p)]

def Sees (x : External) (p : Pid) (w : World) (worker : Worker) (runId : UUID) : Pc → Prop
  | .loadRelease row | .loadModel row _ => w.tables.Since runId row
  | .observe work seen => w.tables.HasWork runId work ∧ seen = [(.loaded work, some p)]
  | .lookup call | .create call | .confirm call =>
    w.tables.HasWork runId call.work ∧ call.Prepared x worker ∧ call.seen = call.before p
  | .lockUid call observation | .saveUid call observation _ =>
    (observation.state = .succeeded → ∃ job, observation.uid = job.uid ∧
      call.Observed x p w worker runId job) ∧
    (observation.state = .failed → ∃ code, observation.failureCode = some code ∧
      some code ∉ outputCodes)
  | .listOutputs call => ∃ job, call.Observed x p w worker runId job ∧ w.tables.HasUid runId job.uid
  | .lockFinish seen failureCode artifacts => failureCode ∈ outputCodes →
    Concluding x p w worker runId seen failureCode artifacts
  | .finish seen u => u.loaded.id = runId ∧ (u.row.Judged → u.loaded.Judged ∨
      ∃ i : Inspection, seen = i.seen ∧ i.Supports x w.cluster.created u.row ∧
        u.artifacts = i.listing.map (artifactRow u.loaded.id))
  | _ => True

end Reconcile

def Proc.Sees (x : External) (p : Pid) (w : World) : Proc → Prop
  | .reconcile worker runId pc => Reconcile.Sees x p w worker runId pc
  | _ => True

section Steps
variable {x : External} {p : Pid} {w w' : World} {i : Input} {e : Effect}

namespace Reconcile
variable {worker : Worker} {runId : UUID}

theorem Call.Observed.advance {call : Call} {job : JobObject} (h : call.Observed x p w worker runId job)
    (hadv : w.tables.Advances w'.tables) (hc : w.tables.Consistent)
    (hcreated : w.cluster.created ⊆ w'.cluster.created) : call.Observed x p w' worker runId job :=
  { h with
    work := h.work.advance hadv hc
    completed := { h.completed with created := hcreated h.completed.created } }

theorem Sees.advance {pc : Pc} (h : Sees x p w worker runId pc) (hadv : w.tables.Advances w'.tables)
    (hc : w.tables.Consistent) (hcreated : w.cluster.created ⊆ w'.cluster.created) :
    Sees x p w' worker runId pc := by
  cases pc with
  | loadRelease | loadModel => exact Tables.Since.advance h hadv hc
  | observe work seen => exact ⟨h.1.advance hadv hc, h.2⟩
  | lookup | create | confirm => exact ⟨h.1.advance hadv hc, h.2⟩
  | lockUid | saveUid =>
    refine ⟨fun hs => ?_, h.2⟩
    obtain ⟨job, huid, hobs⟩ := h.1 hs
    exact ⟨job, huid, hobs.advance hadv hc hcreated⟩
  | listOutputs call =>
    obtain ⟨job, hobs, huid⟩ := h
    exact ⟨job, hobs.advance hadv hc hcreated, huid.advance hadv hc⟩
  | lockFinish seen failureCode artifacts =>
    intro hcode
    obtain ⟨call, job, outputPrefix, hobs, huid, hrest⟩ := h hcode
    exact ⟨call, job, outputPrefix, hobs.advance hadv hc hcreated, huid.advance hadv hc, hrest⟩
  | finish seen u =>
    refine ⟨h.1, fun hj => ?_⟩
    rcases h.2 hj with hjudged | ⟨i, hseen, hs, ha⟩
    · exact .inl hjudged
    · exact .inr ⟨i, hseen, hs.mono hcreated, ha⟩
  | acquire | loadRun | readPods | unwind | exit => trivial

theorem sees_inspect {call : Call} {job : JobObject}
    (h : w.tables.HasWork runId call.work ∧ call.Prepared x worker ∧ call.seen = call.before p)
    (hcreated : ((worker.namespace, call.work.jobName), job.uid) ∈ w.cluster.created) :
    Sees x p w worker runId (inspect call (some p) job) := by
  obtain ⟨hwork, hprepared, hseen⟩ := h
  rcases inspect_cases call (some p) job with ⟨err, h⟩ | h | ⟨hv, ⟨-, h⟩ | ⟨hnotFailed, h⟩⟩ <;> rw [h]
  · trivial
  · exact fun hcode => absurd hcode (by decide)
  · trivial
  · refine ⟨fun hs => ⟨job, rfl, hwork, ⟨hprepared.1, hprepared.2⟩, ?_, by simp [hseen, Call.before]⟩, fun hs => ?_⟩
    · have hcomplete : job.holds "Complete" = true := by
        by_contra hne
        simp [hne] at hs
      exact ⟨hcreated, (verifyContract_ok hv).2, hcomplete, hnotFailed⟩
    · split at hs <;> contradiction

theorem failureReason_notMem (uid : String) (pods : List Pod) :
    some (failureReason uid pods) ∉ outputCodes := by
  have hmem := failureReason_mem uid pods
  simp only [List.mem_cons, List.not_mem_nil, or_false] at hmem
  rcases hmem with h | h | h <;> rw [h] <;> decide

theorem sees_conclude {call : Call} {observation : JobObservation}
    (h : (observation.state = .succeeded → ∃ job, observation.uid = job.uid ∧
        call.Observed x p w worker runId job) ∧
      (observation.state = .failed → ∃ code, observation.failureCode = some code ∧
        some code ∉ outputCodes))
    (huid : w.tables.HasUid runId observation.uid) :
    Sees x p w worker runId (conclude call observation) := by
  unfold conclude
  split
  · rename_i hs
    obtain ⟨code, hcode, hne⟩ := h.2 hs
    split
    · exact fun hmem => absurd (hcode ▸ hmem) hne
    · exact fun hmem => absurd hmem (by decide)
  · rename_i hs
    obtain ⟨job, hid, hobs⟩ := h.1 hs
    exact ⟨job, hobs, hid ▸ huid⟩
  · trivial

/-- What `finish` is about to write follows from what the call has seen. -/
theorem sees_finishing {seen : Seen} {row : Run} {failureCode : Option String} {artifacts : List Artifact}
    {d : Defaults} (h : Sees x p w worker runId (.lockFinish seen failureCode artifacts))
    (hrow : w.tables.runs.find? runId = some row) :
    Sees x p w worker runId (finishing seen row failureCode artifacts d) := by
  refine ⟨?_, fun hj => ?_⟩
  · rw [finishRow_loaded]
    exact Table.key_of_find? hrow
  by_cases ht : row.status.terminal = true
  · left
    rw [finishRow_terminal ht] at hj ⊢
    exact hj
  have hopen : ¬ (UnitOfWork.clean row).row.status.terminal = true := ht
  have hfinish : finishRow (.clean row) failureCode artifacts d = ⟨row, { row with
      status := if truthy failureCode then .failed else .succeeded, failureCode, finishedAt := some d.now },
      artifacts.map (artifactRow row.id), _⟩ := if_neg hopen
  rw [hfinish] at hj ⊢
  obtain ⟨call, job, outputPrefix, hobs, huid, hprefix, hcollect, hseen⟩ := h hj.code
  obtain ⟨row₁, hrow₁, hof⟩ := hobs.work
  obtain rfl : row = row₁ := Option.some.inj (hrow.symm.trans hrow₁)
  obtain ⟨row₂, hrow₂, hq, hrunning⟩ := huid
  obtain rfl : row = row₂ := Option.some.inj (hrow.symm.trans hrow₂)
  have hrun : row.status = .running := by
    cases hs : row.status <;> simp_all [RunStatus.terminal]
  refine .inr ⟨⟨p, worker, call.work, call.expected, job, outputPrefix, artifacts⟩, ?_, ?_, rfl⟩
  · rw [hseen, hobs.seen]
    rfl
  · exact ⟨⟨hof.id, hof.parameters, hof.fingerprint⟩, ⟨hobs.prepared.1, hobs.prepared.2⟩,
      ⟨hobs.completed.1, hobs.completed.2, hobs.completed.3, hobs.completed.4⟩, hrunning hrun, hprefix,
      hcollect⟩

theorem sees_step {pc : Pc} {r : Progress Pc Unit} (hs : step x.helm worker runId p w i pc = (e, r))
    (hk : Sees x p w worker runId pc) (hknows : Knows w.tables runId pc)
    (hheld : ∀ h ∈ holds pc, h.Valid p w)
    (hkey : pc ≠ .acquire → w.pg.sessionLocks (runKey runId) = some p)
    (hcluster : w.cluster.Recorded) (hadv : w.tables.Advances w'.tables) (hc : w.tables.Consistent)
    (hcreated : w.cluster.created ⊆ w'.cluster.created) (ha : w.apply p e = some w') :
    r.All (Sees x p w' worker runId) := by
  have hlift (h : r.All (Sees x p w worker runId)) : r.All (Sees x p w' worker runId) :=
    h.mono fun pc hpc => hpc.advance hadv hc hcreated
  rcases step_cases hs with ⟨-, -, err, rfl⟩ | hstep
  · trivial
  cases pc with
  | acquire => rcases hstep with ⟨rfl, rfl⟩ | ⟨rfl, rfl⟩ <;> trivial
  | loadRun =>
    obtain ⟨rfl, row, hrow, -, rfl⟩ := hstep
    exact hlift ⟨row, hrow, .refl row⟩
  | loadRelease row =>
    obtain ⟨rfl, release, -, rfl⟩ := hstep
    exact hlift hk
  | loadModel row release =>
    obtain ⟨rfl, definition, -, rfl⟩ := hstep
    obtain ⟨row', hrow', hcont⟩ := hk
    have hof : (loaded row definition).Of row := ⟨rfl, rfl, rfl⟩
    exact hlift ⟨⟨row', hrow', hof.continues hcont⟩, by rw [hkey (fun he => by cases he)]⟩
  | observe work seen =>
    obtain ⟨rfl, ⟨-, rfl⟩ | ⟨expected, hm, -, hr, rfl⟩⟩ := hstep
    · exact fun hcode => absurd hcode (by decide)
    · exact hlift ⟨hk.1, ⟨hm, hr⟩, by simp [hk.2, hkey (fun he => by cases he), Call.before]⟩
  | lookup call =>
    obtain ⟨rfl, ⟨job, hjob, rfl⟩ | ⟨-, ⟨-, rfl⟩ | ⟨-, rfl⟩⟩⟩ := hstep
    · rw [hkey (fun he => by cases he)] at hlift ⊢
      exact hlift (sees_inspect hk (hcluster.jobs _ _ hjob))
    · exact fun hcode => absurd hcode (by decide)
    · exact hlift hk
  | create call =>
    obtain ⟨-, rfl⟩ | ⟨job, rfl, rfl⟩ := hstep
    · exact hlift hk
    · rw [hkey (fun he => by cases he)]
      obtain ⟨-, rfl⟩ := create_apply ha
      exact sees_inspect hk List.mem_cons_self
  | confirm call =>
    obtain ⟨rfl, job, hjob, rfl⟩ := hstep
    rw [hkey (fun he => by cases he)] at hlift ⊢
    exact hlift (sees_inspect hk (hcluster.jobs _ _ hjob))
  | readPods call job =>
    obtain ⟨rfl, rfl⟩ := hstep
    exact ⟨(fun he => by cases he), fun _ => ⟨_, rfl, failureReason_notMem job.uid i.pods⟩⟩
  | lockUid call observation =>
    obtain ⟨row, -, rfl, rfl⟩ := hstep
    exact hlift hk
  | saveUid call observation row =>
    rcases hstep with ⟨rfl, rfl⟩ | ⟨hu, rfl, rfl⟩
    · exact fun hcode => absurd hcode (by decide)
    · have hheld : (Hold.run row).Valid p w := hheld _ (by simp [holds])
      have hal : (Change.outcome (savedUid row observation.uid)).Allowed w.tables :=
        ⟨savedUid_allowed hu, by rw [savedUid_loaded]; exact hheld.2⟩
      obtain ⟨-, hq, hid⟩ := hknows
      obtain ⟨tables, ht, hw'⟩ := commit_apply ha
      have hfind := find?_outcome hal ht runId
      rw [savedUid_loaded, if_pos hid.symm] at hfind
      have huid : w'.tables.HasUid runId observation.uid := by
        refine ⟨_, by rw [hw']; exact hfind, ?_⟩
        unfold savedUid
        split
        · exact ⟨hq, fun _ => rfl⟩
        · rename_i hrun
          exact ⟨hq, fun h => absurd h hrun⟩
      have hk' : Sees x p w' worker runId (.saveUid call observation row) := hk.advance hadv hc hcreated
      exact sees_conclude hk' huid
  | listOutputs call =>
    obtain ⟨job, hobs, huid⟩ := hk
    obtain ⟨rfl, outputPrefix, hprefix, ⟨artifacts, hcollect, rfl⟩ | ⟨code, artifacts, hcollect, rfl⟩⟩ :=
      hstep
    · obtain rfl := collect_ok hcollect
      refine hlift fun _ => ⟨call, job, outputPrefix, hobs, huid, hprefix, hcollect, ?_⟩
      rw [hkey (fun he => by cases he)]
    · obtain ⟨rfl, -⟩ := collect_failure hcollect
      refine hlift fun _ => ⟨call, job, outputPrefix, hobs, huid, hprefix, hcollect, ?_⟩
      rw [hkey (fun he => by cases he)]
  | lockFinish seen failureCode artifacts =>
    obtain ⟨row, hrow, rfl, rfl⟩ := hstep
    exact hlift (sees_finishing hk hrow)
  | finish seen u =>
    obtain ⟨rfl, -⟩ := hstep
    trivial
  | unwind err => exact hstep.elim
  | exit error => obtain ⟨rfl, rfl | ⟨err, rfl⟩⟩ := hstep <;> trivial

end Reconcile
end Steps
end Mic3
