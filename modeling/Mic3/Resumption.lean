import Mic3.Conclusions
import Mic3.ExecutedOnce

/-! Resuming an interrupted reconciliation. Whatever interruptions came before, and whether their calls
created the Job or recorded its uid, a call that nothing interrupts ends its run as the first one would have. -/
namespace Mic3
open Relational Interleaving

/-- The record of a run that ended with this code and these objects, in one write. -/
def RunRecord.ended (r : RunRecord) (failureCode : Option String) (artifacts : List Artifact) (d : Defaults) :
    RunRecord :=
  let status := if truthy failureCode then RunStatus.failed else RunStatus.succeeded
  { row := { r.row with status, failureCode, finishedAt := some d.now }
    artifacts := (artifacts.map (artifactRow r.row.id)).reverse ++ r.artifacts
    events := ⟨d.uuid, r.row.id, "run." ++ status.text, d.createdAt, none⟩ :: r.events }

/-- The row is as it was, or has the uid of the Job where it had none. -/
def Run.Resumes (row row' : Run) (uid : String) : Prop :=
  row' = row ∨ row.jobUid = none ∧ row' = row.identified uid

/-- What no step takes back of the catalog and of what happened. -/
structure World.Extends (w w' : World) : Prop where
  releases : ∀ id release, w.tables.releases.find? id = some release → ∃ release',
    w'.tables.releases.find? id = some release' ∧ release'.modelId = release.modelId ∧
      release'.imageDigest = release.imageDigest
  history : w.history ⊆ w'.history

section Extending
variable {x : External} {p : Pid} {w w' w'' : World} {e : Effect}

theorem World.Extends.refl (w : World) : w.Extends w :=
  ⟨fun _ release h => ⟨release, h, rfl, rfl⟩, List.Subset.refl _⟩

theorem World.Extends.trans (h : w.Extends w') (h' : w'.Extends w'') : w.Extends w'' where
  releases := by
    intro id release hrelease
    obtain ⟨r₁, hr₁, hm₁, hi₁⟩ := h.releases id release hrelease
    obtain ⟨r₂, hr₂, hm₂, hi₂⟩ := h'.releases id r₁ hr₁
    exact ⟨r₂, hr₂, hm₂.trans hm₁, hi₂.trans hi₁⟩
  history := List.Subset.trans h.history h'.history

theorem World.Extends.of_eq (hreleases : w'.tables.releases = w.tables.releases)
    (hhistory : w.history ⊆ w'.history) : w.Extends w' :=
  ⟨fun _ release h => ⟨release, hreleases ▸ h, rfl, rfl⟩, hhistory⟩

/-- A registration adds a release or edits the definition of one. -/
theorem register_extends {t t' : Tables} {r : Registration} (h : (Change.register r).apply t = some t')
    {id : UUID} {release : ModelReleaseRow} (hrelease : t.releases.find? id = some release) :
    ∃ release', t'.releases.find? id = some release' ∧ release'.modelId = release.modelId ∧
      release'.imageDigest = release.imageDigest := by
  obtain ⟨models, releases, -, hwrite, rfl⟩ := Change.register_apply h
  cases hr : r.release with
  | create row =>
    rw [hr] at hwrite
    exact ⟨release, Table.find?_insert_of_some hwrite hrelease, rfl, rfl⟩
  | edit loaded document =>
    rw [hr] at hwrite
    obtain rfl := Option.some.inj hwrite
    have hkey (row : ModelReleaseRow) : key (ModelReleaseRow.edited document row) = key row := rfl
    have hfind := Table.find?_modify (t := t.releases) (k := loaded.id) (j := id) hkey
    by_cases hid : id = loaded.id
    · subst hid
      rw [if_pos rfl, hrelease] at hfind
      exact ⟨release.edited document, hfind, rfl, rfl⟩
    · rw [if_neg hid] at hfind
      exact ⟨release, hfind.trans hrelease, rfl, rfl⟩

theorem apply_extends (ha : w.apply p e = some w') : w.Extends w' := by
  have hhistory := history_subset ha
  cases hcommit : e.commits with
  | false => exact .of_eq (congrArg Tables.releases (tables_apply hcommit ha)) hhistory
  | true =>
    obtain ⟨change, entries, rfl⟩ := e.commits_iff.mp hcommit
    obtain ⟨tables, ht, rfl⟩ := commit_apply ha
    cases change with
    | register r => exact ⟨fun _ _ h => register_extends ht h, hhistory⟩
    | nothing =>
      obtain rfl := Change.nothing_apply ht
      exact .of_eq rfl hhistory
    | submit row event =>
      obtain ⟨runs, outbox, -, -, rfl⟩ := Change.submit_apply ht
      exact .of_eq rfl hhistory
    | outcome u =>
      obtain ⟨artifacts, outbox, -, -, rfl⟩ := Change.outcome_apply ht
      exact .of_eq rfl hhistory
    | publish marks =>
      obtain rfl := Change.publish_apply ht
      exact .of_eq rfl hhistory
    | reject message =>
      obtain ⟨rejected, -, rfl⟩ := Change.reject_apply ht
      exact .of_eq rfl hhistory

theorem reachable_extends {c c' : Config Pid World Proc}
    (h : Reachable (platform x) (fun _ _ => True) c c') : c.shared.Extends c'.shared := by
  induction h with
  | refl => exact .refl _
  | @step d d' l _ _ hs ih =>
    refine ih.trans ?_
    cases l with
    | env ev =>
      obtain ⟨w, he, rfl⟩ := Option.map_eq_some_iff.mp hs
      obtain ⟨users, hpg⟩ := World.event_pg he
      exact .of_eq (by rw [World.tables, hpg]) (World.event_history he ▸ List.Subset.refl _)
    | act p a =>
      obtain ⟨⟨w, l⟩, ha, rfl⟩ := Option.map_eq_some_iff.mp hs
      rcases platformAct_effect ha with rfl | rfl | ⟨i, hw⟩
      · exact .refl _
      · exact .of_eq rfl (List.Subset.refl _)
      · exact apply_extends hw

end Extending

/-- The release that the run refers to is there, loads, and describes the computation of `definition`. -/
structure World.Loads (w : World) (row : Run) (definition : ReleaseDefinition) : Prop where
  release : ∃ release invocation, w.tables.releases.find? row.modelReleaseId = some release ∧
    release.modelId = definition.modelId ∧ release.imageDigest = definition.imageDigest ∧
    release.Runs row invocation ∧ selectedInvocation definition row.parameters = .ok invocation
  model : (w.tables.models.find? definition.modelId).isSome

section Loading
variable {x : External} {c₀ c : Config Pid World Proc} {id : UUID} {row row' : Run}

theorem Reached.ongoing (h : Reached x c) (hrow : c.shared.tables.runs.find? id = some row)
    (hrun : row.status = .running) : row.Ongoing :=
  ⟨((h.consistent.wellFormed id row hrow).running hrun).1, by rw [hrun]; rfl⟩

/-- A running run loads, as the computation it was accepted with. -/
theorem Reached.loads (h : Reached x c) (hrow : c.shared.tables.runs.find? id = some row)
    (hrun : row.status = .running) : ∃ definition, c.shared.Loads row definition ∧
      ∃ invocation, selectedInvocation definition row.parameters = .ok invocation ∧
        Entry.accepted id invocation ∈ c.shared.history := by
  obtain ⟨release, invocation, hrelease, hruns, hacc⟩ :=
    h.configured.ongoing id row hrow (h.ongoing hrow hrun)
  have hmodel := h.configured.models _ _ hrelease
  obtain ⟨definition, hload, -, hselected⟩ := hruns.load hmodel
  obtain ⟨displayName, execution, -, rfl⟩ := loadReleaseDefinition_ok hload
  exact ⟨_, ⟨⟨release, invocation, hrelease, rfl, rfl, hruns, hselected⟩, hmodel⟩, invocation, hselected,
    (hacc invocation).mpr rfl⟩

/-- It still does so while it runs, whatever was registered since. -/
theorem Reached.loads_later (h : Reached x c₀) {definition : ReleaseDefinition} {invocation : Invocation}
    (hloads : c₀.shared.Loads row definition)
    (hselected : selectedInvocation definition row.parameters = .ok invocation)
    (haccepted : Entry.accepted id invocation ∈ c₀.shared.history)
    (hreach : Reachable (platform x) (fun _ _ => True) c₀ c) (hwork : row.SameWork row')
    (hrow' : c.shared.tables.runs.find? id = some row') (hrun' : row'.status = .running) :
    c.shared.Loads row' definition := by
  have hr : Reached x c := h.trans hreach
  have hext := reachable_extends hreach
  obtain ⟨release₀, -, hrelease₀, hmodel₀, himage₀, -⟩ := hloads.release
  obtain ⟨release, invocation', hrelease, hruns, hacc⟩ :=
    hr.configured.ongoing id row' hrow' (hr.ongoing hrow' hrun')
  obtain rfl : invocation = invocation' := (hacc invocation).mp (hext.history haccepted)
  obtain ⟨release', hrelease', hmodel, himage⟩ := hext.releases _ _ hrelease₀
  rw [← hwork.modelReleaseId, hrelease] at hrelease'
  obtain rfl := Option.some.inj hrelease'
  have hmodelId : release.modelId = definition.modelId := hmodel.trans hmodel₀
  exact ⟨⟨release, invocation, hrelease, hmodelId, himage.trans himage₀, hruns, hwork.parameters ▸ hselected⟩,
    hmodelId ▸ hr.configured.models _ _ hrelease⟩

end Loading

theorem Run.Resumes.sameWork {row row' : Run} {uid : String} (h : row.Resumes row' uid) : row.SameWork row' := by
  rcases h with rfl | ⟨-, rfl⟩
  · exact .refl _
  · exact ⟨rfl, rfl, rfl⟩

namespace Reconcile

/-- What a statement is answered, while this is the run's Job and these are its pods and its outputs. Where
no uid is known, the Job may be created by the call itself. -/
def Against (worker : Worker) (job : JobObject) (pods : List Pod) (listing : List Artifact) (w : World)
    (i : Input) : Pc → Prop
  | .lookup call => i.fault = false ∧
    (w.cluster.jobs (worker.namespace, call.work.jobName) = some job ∨
      w.cluster.jobs (worker.namespace, call.work.jobName) = none ∧ truthy call.work.jobUid = false)
  | .create _ => i.fault = false → i.job = job
  | .confirm call => i.fault = false ∧ w.cluster.jobs (worker.namespace, call.work.jobName) = some job
  | .readPods .. => i.fault = false ∧ i.pods = pods
  | .listOutputs _ => i.fault = false ∧ i.listing = listing
  | _ => True

/-- The call is on its way to this conclusion. -/
def Leads (x : External) (worker : Worker) (row : Run) (definition : ReleaseDefinition) (job : JobObject)
    (pods : List Pod) (listing : List Artifact) (k : Conclusion) (w : World) (runId : UUID) : Pc → Prop
  | .loadRun => k = conclusion x.helm worker (loaded row definition) job pods listing ∧
    ∃ row', w.tables.runs.find? runId = some row' ∧ row'.status = .running ∧ row.Resumes row' job.uid
  | .loadRelease row' => k = conclusion x.helm worker (loaded row definition) job pods listing ∧
    row.Resumes row' job.uid
  | .loadModel row' release => k = conclusion x.helm worker (loaded row definition) job pods listing ∧
    row.Resumes row' job.uid ∧ release.modelId = definition.modelId ∧
    release.imageDigest = definition.imageDigest ∧ ∃ invocation, release.Runs row' invocation ∧
      selectedInvocation definition row'.parameters = .ok invocation
  | .observe work _ => k = conclusion x.helm worker work job pods listing
  | .lookup call | .create call | .confirm call => k = inspected call.work call.expected job pods listing
  | .readPods call job' => job' = job ∧ job.holds "Failed" = true ∧ k = judged call.work job pods listing
  | .lockUid call observation | .saveUid call observation _ =>
    observation = job.observation pods ∧ k = judged call.work job pods listing
  | .listOutputs call => k = collected call.work listing
  | .lockFinish _ failureCode artifacts => k = .ended failureCode artifacts
  | .finish _ u => ∃ failureCode artifacts d, k = .ended failureCode artifacts ∧
    u = finishRow (.clean u.loaded) failureCode artifacts d
  | .exit none => k = .active
  | .exit (some e) => k = .raised e
  | .acquire | .unwind _ => False

section Leading
variable {x : External} {worker : Worker} {row : Run} {definition : ReleaseDefinition} {job : JobObject}
  {pods : List Pod} {listing : List Artifact} {k : Conclusion} {w w' : World} {runId : UUID} {p : Pid}
  {i : Input} {e : Effect}

/-- Only the start of a call depends on the tables. -/
theorem Leads.keep {pc : Pc} (h : Leads x worker row definition job pods listing k w runId pc)
    (hrun : ∀ row, w.tables.runs.find? runId = some row → row.status = .running →
      w'.tables.runs.find? runId = some row) : Leads x worker row definition job pods listing k w' runId pc := by
  cases pc with
  | loadRun =>
    obtain ⟨hk, row', hrow', hrun', hresumes⟩ := h
    exact ⟨hk, row', hrun row' hrow' hrun', hrun', hresumes⟩
  | exit error => cases error <;> exact h
  | _ => exact h

/-- Code inside the `try` leads where its result settles. -/
theorem Leads.guarded {α : Type} {seen : Seen} {result : Except Raised α} {next : α → Pc}
    {rest : α → Conclusion} (hk : k = settle result rest)
    (hnext : ∀ a, k = rest a → Leads x worker row definition job pods listing k w runId (next a)) :
    Leads x worker row definition job pods listing k w runId (Reconcile.guarded seen result next) := by
  cases result with
  | ok a => exact hnext a hk
  | error err => cases err <;> exact hk

theorem Leads.inspect {call : Call} {holder : Option Pid}
    (hk : k = inspected call.work call.expected job pods listing) :
    Leads x worker row definition job pods listing k w runId (Reconcile.inspect call holder job) := by
  refine Leads.guarded hk fun _ hk => ?_
  cases hf : job.holds "Failed" with
  | true => exact ⟨rfl, hf, hk⟩
  | false => exact ⟨by rw [JobObject.observation, hf]; rfl, hk⟩

/-- Once the uid is saved, the Job's state decides. -/
theorem Leads.conclude {call : Call} (hk : k = judged call.work job pods listing)
    (huid : ¬ (call.work.jobUid ≠ none ∧ call.work.jobUid ≠ some job.uid)) :
    Leads x worker row definition job pods listing k w runId (Reconcile.conclude call (job.observation pods)) := by
  rw [judged, if_neg huid] at hk
  unfold Reconcile.conclude
  cases hs : (job.observation pods).state with
  | active | succeeded => simpa only [hs, Leads] using hk
  | failed =>
    have hcode : (job.observation pods).failureCode = some (failureReason job.uid pods) := by
      unfold JobObject.observation at hs ⊢
      split
      · rfl
      · rename_i hf
        rw [if_neg hf] at hs
        split at hs <;> contradiction
    have htrue : truthy (some (failureReason job.uid pods)) = true := by
      have hmem := failureReason_mem job.uid pods
      have hne : failureReason job.uid pods ≠ "" := fun he => absurd (he ▸ hmem) (by decide)
      simp [truthy, hne]
    simpa only [hs, hcode, htrue, if_true, Leads] using hk

theorem outputPrefix_noFailure (work : ExecutionWork) : NoFailure work.outputPrefix := by
  refine .bind ?_ fun _ => .pure _
  unfold digestOf
  dsimp only
  split
  · exact .throw (fun _ _ he => by cases he)
  · exact .pure _

/-- Another load of the run by way of its release. -/
theorem alike_loaded {row' : Run} {release : ModelReleaseRow} {d : ReleaseDefinition} {invocation : Invocation}
    {uid : String} (hresumes : row.Resumes row' uid) (hmodel : release.modelId = definition.modelId)
    (himage : release.imageDigest = definition.imageDigest)
    (hselected : selectedInvocation definition row'.parameters = .ok invocation)
    (hload : loadReleaseDefinition w.tables release = .ok d)
    (hd : selectedInvocation d row'.parameters = .ok invocation) :
    (loaded row definition).Alike (loaded row' d) ∧ (loaded row definition).Knows (loaded row' d) uid := by
  obtain ⟨displayName, execution, -, rfl⟩ := loadReleaseDefinition_ok hload
  rcases hresumes with rfl | ⟨hnone, rfl⟩
  · exact ⟨⟨rfl, rfl, rfl, rfl, hmodel, himage, invocation, hselected, hd⟩, .inl rfl⟩
  · exact ⟨⟨rfl, rfl, rfl, rfl, hmodel, himage, invocation, hselected, hd⟩, .inr ⟨hnone, rfl⟩⟩

/-- A statement that is answered so leads on. -/
theorem Leads.step {pc pc' : Pc} (hs : Reconcile.step x.helm worker runId p w i pc = (e, .running pc'))
    (h : Leads x worker row definition job pods listing k w runId pc)
    (hagainst : Against worker job pods listing w i pc) (hunder : Underway w worker runId pc)
    (hheld : ∀ h ∈ holds pc, h.Valid p w) (hknows : Knows w.tables runId pc)
    (hloads : ∀ row', row.Resumes row' job.uid → w.tables.runs.find? runId = some row' →
      row'.status = .running → w.Loads row' definition)
    (hfinish : ∀ seen u, pc ≠ .finish seen u) :
    Leads x worker row definition job pods listing k w' runId pc' := by
  cases pc with
  | acquire => exact h.elim
  | unwind err => exact h.elim
  | finish seen u => exact absurd rfl (hfinish seen u)
  | exit error =>
    cases error <;> cases (congrArg Prod.snd hs)
  | loadRun =>
    obtain ⟨hk, row', hrow', hrun', hresumes⟩ := h
    have hopen : ¬ row'.status ≠ .running := not_not.mpr hrun'
    simp only [Reconcile.step, hrow', if_neg hopen] at hs
    obtain ⟨-, hr⟩ := Prod.mk.inj hs
    obtain rfl := Progress.running.inj hr
    exact ⟨hk, hresumes⟩
  | loadRelease row' =>
    obtain ⟨hk, hresumes⟩ := h
    obtain ⟨hrow', hrun'⟩ := hunder
    obtain ⟨release, invocation, hrelease, hmodel, himage, hruns, hselected⟩ :=
      (hloads row' hresumes hrow' hrun').release
    simp only [Reconcile.step, hrelease] at hs
    obtain ⟨-, hr⟩ := Prod.mk.inj hs
    obtain rfl := Progress.running.inj hr
    exact ⟨hk, hresumes, hmodel, himage, invocation, hruns, hselected⟩
  | loadModel row' release =>
    obtain ⟨hk, hresumes, hmodel, himage, invocation, hruns, hselected⟩ := h
    obtain ⟨hrow', hrun'⟩ := hunder
    obtain ⟨d, hload, -, hd⟩ := hruns.load (hmodel ▸ (hloads row' hresumes hrow' hrun').model)
    obtain ⟨halike, hknows⟩ := alike_loaded hresumes hmodel himage hselected hload hd
    simp only [Reconcile.step, hload] at hs
    obtain ⟨-, hr⟩ := Prod.mk.inj hs
    obtain rfl := Progress.running.inj hr
    exact hk.trans (halike.conclusion hknows pods listing).symm
  | observe work seen =>
    obtain ⟨-, hr⟩ := Prod.mk.inj hs
    obtain rfl := Progress.running.inj hr
    exact Leads.guarded h fun expected hk => hk
  | lookup call =>
    obtain ⟨hfault, hjob | ⟨hnone, huid⟩⟩ := hagainst
    · simp only [Reconcile.step, hfault, hjob, Bool.false_eq_true, if_false] at hs
      obtain ⟨-, hr⟩ := Prod.mk.inj hs
      obtain rfl := Progress.running.inj hr
      exact Leads.inspect h
    · simp only [Reconcile.step, hfault, hnone, huid, Bool.false_eq_true, if_false] at hs
      obtain ⟨-, hr⟩ := Prod.mk.inj hs
      obtain rfl := Progress.running.inj hr
      exact h
  | create call =>
    cases hfault : i.fault with
    | true =>
      simp only [Reconcile.step, hfault, if_true] at hs
      obtain ⟨-, hr⟩ := Prod.mk.inj hs
      obtain rfl := Progress.running.inj hr
      exact h
    | false =>
      simp only [Reconcile.step, hfault, Bool.false_eq_true, if_false, hagainst hfault] at hs
      obtain ⟨-, hr⟩ := Prod.mk.inj hs
      obtain rfl := Progress.running.inj hr
      exact Leads.inspect h
  | confirm call =>
    obtain ⟨hfault, hjob⟩ := hagainst
    simp only [Reconcile.step, hfault, hjob, Bool.false_eq_true, if_false] at hs
    obtain ⟨-, hr⟩ := Prod.mk.inj hs
    obtain rfl := Progress.running.inj hr
    exact Leads.inspect h
  | readPods call job' =>
    obtain ⟨hfault, rfl⟩ := hagainst
    obtain ⟨rfl, hf, hk⟩ := h
    simp only [Reconcile.step, hfault, Bool.false_eq_true, if_false] at hs
    obtain ⟨-, hr⟩ := Prod.mk.inj hs
    obtain rfl := Progress.running.inj hr
    exact ⟨by rw [JobObject.observation, if_pos hf], hk⟩
  | lockUid call observation =>
    obtain ⟨row', hrow', -⟩ := hunder.1.2
    simp only [Reconcile.step, hrow'] at hs
    obtain ⟨-, hr⟩ := Prod.mk.inj hs
    obtain rfl := Progress.running.inj hr
    exact h
  | saveUid call observation row' =>
    obtain ⟨rfl, hk⟩ := h
    obtain ⟨-, -, rfl⟩ := hknows
    have hheld : (Hold.run row').Valid p w := hheld _ (by simp [holds])
    obtain ⟨row'', hrow'', -, huid, -⟩ := hunder.1.2
    obtain rfl : row' = row'' := Option.some.inj (hheld.2.symm.trans hrow'')
    -- The row that is locked now has the uid that was loaded.
    have hsame : (job.observation pods).uid = job.uid := by
      unfold JobObject.observation
      split <;> rfl
    by_cases hconflict : row'.jobUid ≠ none ∧ row'.jobUid ≠ some job.uid
    · simp only [Reconcile.step, hsame, if_pos hconflict] at hs
      obtain ⟨-, hr⟩ := Prod.mk.inj hs
      obtain rfl := Progress.running.inj hr
      exact hk.trans (if_pos (huid ▸ hconflict))
    · simp only [Reconcile.step, hsame, if_neg hconflict] at hs
      obtain ⟨-, hr⟩ := Prod.mk.inj hs
      obtain rfl := Progress.running.inj hr
      exact Leads.conclude hk (huid ▸ hconflict)
  | listOutputs call =>
    obtain ⟨hfault, rfl⟩ := hagainst
    have hk : k = settle call.work.outputPrefix _ := h
    cases hroot : call.work.outputPrefix with
    | error err =>
      simp only [Reconcile.step, hroot] at hs
      obtain ⟨-, hr⟩ := Prod.mk.inj hs
      obtain rfl := Progress.running.inj hr
      rw [hroot] at hk
      cases err with
      | executionFailure code artifacts => exact absurd hroot (outputPrefix_noFailure _ _ _)
      | _ => exact hk
    | ok outputPrefix =>
      rw [hroot] at hk
      simp only [Reconcile.step, hroot, hfault, Bool.false_eq_true, if_false] at hs
      obtain ⟨-, hr⟩ := Prod.mk.inj hs
      obtain rfl := Progress.running.inj hr
      exact Leads.guarded hk fun artifacts hk => hk
  | lockFinish seen failureCode artifacts =>
    obtain ⟨row', hrow', -⟩ := hunder
    simp only [Reconcile.step, hrow'] at hs
    obtain ⟨-, hr⟩ := Prod.mk.inj hs
    obtain rfl := Progress.running.inj hr
    refine ⟨failureCode, artifacts, i.defaults, h, ?_⟩
    rw [finishRow_loaded]
    rfl

end Leading
end Reconcile

/-- What is told of a run's outcome: its status, code and artifacts, and which events there are. -/
def RunRecord.outcome (r : RunRecord) : RunStatus × Option String × List RunArtifact × List String :=
  (r.row.status, r.row.failureCode, r.artifacts, r.events.map OutboxEvent.eventType)

/-- The commit of `finish_row` ends a running run. -/
theorem finish_ends {t t' : Tables} {row : Run} {failureCode : Option String} {artifacts : List Artifact}
    {d : Defaults} (hrun : row.status = .running)
    (hal : (Change.outcome (finishRow (.clean row) failureCode artifacts d)).Allowed t)
    (h : (Change.outcome (finishRow (.clean row) failureCode artifacts d)).apply t = some t') :
    ∃ row', t'.runs.find? row.id = some row' ∧
      t'.record row.id row' = (t.record row.id row).ended failureCode artifacts d := by
  have hfind := find?_outcome hal h row.id
  have hown := (record_outcome hal.1 h).2
  have hopen : ¬ (UnitOfWork.clean row).row.status.terminal = true := by
    rw [UnitOfWork.clean, hrun]
    exact Bool.false_ne_true
  rw [finishRow_loaded] at hfind hown
  refine ⟨_, hfind.trans (if_pos rfl), hown.trans ?_⟩
  rw [finishRow, if_neg hopen]
  rfl

section Calls
variable {x : External} {c₀ c c' : Config Pid World Proc} {p : Pid} {worker : Worker} {id : UUID} {row : Run}
  {pc : Reconcile.Pc}

/-- Another's step leaves the run to the call that holds its lock. -/
theorem other_keeps (h : Reached x c) (hp : c.procs p = .reconcile worker id pc) (hpc : pc ≠ .acquire)
    (hrow : c.shared.tables.runs.find? id = some row) (hrun : row.status = .running)
    {l : Label Pid Action External.Event} (hother : Elsewhere (fun _ _ => True) p c.shared l)
    (hs : (platform x).step c l = some c') : c'.shared.tables.runs.find? id = some row ∧
      c'.shared.tables.record id row = c.shared.tables.record id row := by
  have hrow' : c'.shared.tables.runs.find? id = some row := by
    cases l with
    | env ev =>
      obtain ⟨w, he, rfl⟩ := Option.map_eq_some_iff.mp hs
      exact (World.event_tables he).1 ▸ hrow
    | act q a =>
      obtain ⟨⟨w, l⟩, ha, rfl⟩ := Option.map_eq_some_iff.mp hs
      have hne : q ≠ p := fun hq => hother.2 a (hq ▸ rfl)
      have hl : Holding p (c.procs p) c.shared := ((holding_established x).holds c h).2 p
      rw [hp] at hl
      have hlock : c.shared.pg.sessionLocks (runKey id) ≠ some q := by
        rw [hl.owns hpc]
        exact fun h => hne (Option.some.inj h).symm
      exact ((underway_established x).guaranteed c q a w l h trivial ha).1.running id row hlock hrow hrun
  exact ⟨hrow', (h.advances hs).kept hrow hrow' hrun⟩

/-- What interruptions leave, as one row. -/
theorem Survives.found {c₀ c : Config Pid World Proc} (h : Survives x id row c₀ c) :
    ∃ row', c.shared.tables.runs.find? id = some row' ∧ row'.status = row.status ∧
      (row' = row ∨ row.jobUid = none ∧ ∃ uid, row' = row.identified uid) ∧
      c.shared.tables.record id row' = { c₀.shared.tables.record id row with row := row' } := by
  cases h with
  | same hrow hrecord => exact ⟨row, hrow, rfl, .inl rfl, hrecord⟩
  | identified uid c₁ hbefore hsaves hafter hrow hrecord =>
    exact ⟨_, hrow, rfl, .inr ⟨hrecord.none, uid, rfl⟩, hrecord.eq⟩

/-- The run has ended, as it stood before with or without the Job's uid. -/
def Concluded (id : UUID) (row : Run) (k : Conclusion) (c₀ c : Config Pid World Proc) : Prop :=
  ∃ failureCode artifacts d row₁ row', k = .ended failureCode artifacts ∧ row₁.status = row.status ∧
    c.shared.tables.runs.find? id = some row' ∧ row₁.id = row.id ∧ c.shared.tables.record id row' =
      RunRecord.ended { c₀.shared.tables.record id row with row := row₁ } failureCode artifacts d

/-- A call that is answered by this Job and these outputs is on its way to its conclusion, or there. -/
def Proceeds (x : External) (worker : Worker) (id : UUID) (p : Pid) (row : Run) (definition : ReleaseDefinition)
    (job : JobObject) (pods : List Pod) (listing : List Artifact) (c₀ c : Config Pid World Proc) : Prop :=
  let k := Reconcile.conclusion x.helm worker (Reconcile.loaded row definition) job pods listing
  ∀ pc, c.procs p = .reconcile worker id pc →
    (Interrupted x id c₀ c ∧ Reconcile.Leads x worker row definition job pods listing k c.shared id pc) ∨
      pc = .exit none ∧ Concluded id row k c₀ c

variable {definition : ReleaseDefinition} {job : JobObject} {pods : List Pod} {listing : List Artifact}

theorem Concluded.terminal {k : Conclusion} (h : Concluded id row k c₀ c) : ∃ row',
    c.shared.tables.runs.find? id = some row' ∧ row'.status.terminal = true := by
  obtain ⟨failureCode, artifacts, d, row₁, row', -, -, hrow', -, hrecord⟩ := h
  have hstatus : row'.status = if truthy failureCode then .failed else .succeeded :=
    congrArg (fun r => r.row.status) hrecord
  refine ⟨row', hrow', ?_⟩
  rw [hstatus]
  split <;> rfl

theorem Concluded.keep {k : Conclusion} (hr : Reached x c) (h : Concluded id row k c₀ c)
    {l : Label Pid Action External.Event} (hs : (platform x).step c l = some c') : Concluded id row k c₀ c' := by
  obtain ⟨row'', hrow'', hterminal⟩ := h.terminal
  obtain ⟨failureCode, artifacts, d, row₁, row', hk, hstatus, hrow', hid, hrecord⟩ := h
  obtain rfl : row' = row'' := Option.some.inj (hrow'.symm.trans hrow'')
  obtain ⟨row₂, hrow₂, -, hfrozen⟩ := hr.run_continues (.step .refl trivial hs) hrow'
  exact ⟨failureCode, artifacts, d, row₁, row₂, hk, hstatus, hrow₂, hid, (hfrozen hterminal).trans hrecord⟩

/-- Two calls do not both hold the lock of one run. -/
theorem not_finishes (h : Reached x c) (hp : c.procs p = .reconcile worker id pc) (hpc : pc ≠ .acquire)
    {l : Label Pid Action External.Event} (hother : Elsewhere (fun _ _ => True) p c.shared l) :
    ¬ Finishes id c l := by
  intro hfinishes
  have hl (q : Pid) : Holding q (c.procs q) c.shared := ((holding_established x).holds c h).2 q
  have hone (q : Pid) (a : Action) (hq : l = .act q a) (hfinish : (c.procs q).finishes id = true) : False := by
    unfold Proc.finishes at hfinish
    split at hfinish
    · rename_i hproc
      obtain rfl := of_decide_eq_true hfinish
      have howner := hl q
      have hown := hl p
      rw [hproc] at howner
      rw [hp] at hown
      have heq := (howner.owns (fun he => by cases he)).symm.trans (hown.owns hpc)
      exact hother.2 a (hq.trans (by rw [Option.some.inj heq]))
    · contradiction
  cases l with
  | env ev => exact hfinishes
  | act q a =>
    cases a with
    | run i | lost i => exact hone q _ rfl hfinishes
    | start | fail | crash => exact hfinishes

theorem Proceeds.other (hr : Reached x c)
    (hproceeds : Proceeds x worker id p row definition job pods listing c₀ c)
    {l : Label Pid Action External.Event} (hother : Elsewhere (fun _ _ => True) p c.shared l)
    (hs : (platform x).step c l = some c') : Proceeds x worker id p row definition job pods listing c₀ c' := by
  intro pc hp'
  have hp : c.procs p = .reconcile worker id pc :=
    (Reachable.procs_eq (.step .refl hother hs)).symm.trans hp'
  rcases hproceeds pc hp with ⟨hi, hleads⟩ | ⟨hpc, hconcluded⟩
  · have hpc : pc ≠ .acquire := fun he => by
      subst he
      exact hleads
    exact .inl ⟨.step hi (not_finishes hr hp hpc hother) hs, hleads.keep fun row' hrow' hrun' =>
      (other_keeps hr hp hpc hrow' hrun' hother hs).1⟩
  · exact .inr ⟨hpc, hconcluded.keep hr hs⟩

/-- Where a reconcile call stands after a statement, it stood in the same call before. -/
theorem next_reconcile {l : Proc} {w : World} {i : Input} {pc' : Reconcile.Pc}
    (h : (l.next x p w i).2 = .reconcile worker id pc') : ∃ pc e, l = .reconcile worker id pc ∧
      Reconcile.step x.helm worker id p w i pc = (e, .running pc') ∧ (l.next x p w i).1 = e := by
  have htask := l.next_task (x := x) (p := p) w i
  rw [h] at htask
  have htask : some (Task.reconcile worker id) = l.task := htask.resolve_left (fun he => by cases he)
  cases l with
  | reconcile worker' id' pc =>
    obtain ⟨rfl, rfl⟩ := Task.reconcile.inj (Option.some.inj htask)
    refine ⟨pc, _, rfl, Prod.ext rfl ?_, rfl⟩
    cases hr : (Reconcile.step x.helm worker id p w i pc).2 with
    | running pc₁ =>
      simp only [Proc.next, Prod.map, hr, Progress.proc, Proc.reconcile.injEq, true_and] at h
      rw [h]
    | returned | raised => simp [Proc.next, Prod.map, hr, Progress.proc] at h
  | _ => simp [Proc.task] at htask

theorem Proceeds.own (h : Reached x c₀) (hrow₀ : c₀.shared.tables.runs.find? id = some row)
    (hrun₀ : row.status = .running) {invocation : Invocation} (hloads : c₀.shared.Loads row definition)
    (hselected : selectedInvocation definition row.parameters = .ok invocation)
    (haccepted : Entry.accepted id invocation ∈ c₀.shared.history) (hr : Reached x c)
    (hproceeds : Proceeds x worker id p row definition job pods listing c₀ c) {i : Input}
    (hagainst : ∀ pc, c.procs p = .reconcile worker id pc →
      Reconcile.Against worker job pods listing c.shared i pc)
    (hs : (platform x).step c (.act p (.run i)) = some c') :
    Proceeds x worker id p row definition job pods listing c₀ c' := by
  intro pc' hp'
  obtain ⟨w', hw, rfl⟩ := step_run hs
  obtain ⟨pc, e, hp, hstep, he⟩ := next_reconcile ((Function.update_self _ _ _).symm.trans hp')
  rw [he] at hw
  obtain ⟨hunder, -, -, hconf, hknows, hl⟩ := ((underway_established x).holds c hr).2 p
  rw [hp] at hunder hconf hknows hl
  rcases hproceeds pc hp with ⟨hi, hleads⟩ | ⟨rfl, -⟩
  · obtain ⟨row₁, hrow₁, hstatus₁, hcases, hrecord₁⟩ := (interrupted_survives h hrow₀ hrun₀ hi).found
    have hrun₁ : row₁.status = .running := hstatus₁.trans hrun₀
    cases hfinish : (Proc.reconcile worker id pc).finishes id with
    | false =>
      refine .inl ⟨.step hi (fun hf => ?_) hs, ?_⟩
      · have hf : (c.procs p).finishes id = true := hf
        rw [hp, hfinish] at hf
        exact Bool.false_ne_true hf
      · refine hleads.step hstep (hagainst pc hp) hunder hl.valid hknows (fun row' hresumes hrow' hrun' => ?_) ?_
        · exact h.loads_later hloads hselected haccepted hi.reachable hresumes.sameWork hrow' hrun'
        · rintro seen u rfl
          simp [Proc.finishes] at hfinish
    | true =>
      obtain ⟨seen, u, rfl⟩ : ∃ seen u, pc = .finish seen u := by
        cases pc with
        | finish seen u => exact ⟨seen, u, rfl⟩
        | _ => contradiction
      obtain ⟨failureCode, artifacts, d, hk, hu⟩ := hleads
      obtain ⟨hid, hrunning⟩ := hunder
      have hheld : (Hold.run u.loaded).Valid p c.shared := hl.valid _ (by simp [Proc.holds, Reconcile.holds])
      obtain ⟨he', hr'⟩ := Prod.mk.inj hstep
      obtain rfl := Progress.running.inj hr'
      rw [← he'] at hw
      have hal : (Change.outcome u).Allowed c.shared.tables := ⟨hknows.1, hheld.2⟩
      obtain ⟨tables, ht, rfl⟩ := commit_apply hw
      have hloaded : u.loaded = row₁ := Option.some.inj (hheld.2.symm.trans (hid ▸ hrow₁))
      rw [hu] at hal ht
      obtain ⟨row', hrow', hrecord'⟩ := finish_ends hrunning hal ht
      rw [hid] at hrow' hrecord'
      refine .inr ⟨rfl, failureCode, artifacts, d, row₁, row', hk, hstatus₁, hrow', ?_, ?_⟩
      · rcases hcases with rfl | ⟨-, uid, rfl⟩ <;> rfl
      · rw [← hrecord₁, ← hloaded]
        exact hrecord'
  · cases (congrArg Prod.snd hstep)

/-- By induction on the turns of the call. -/
theorem Proceeds.turns (h : Reached x c₀) (hrow₀ : c₀.shared.tables.runs.find? id = some row)
    (hrun₀ : row.status = .running) {invocation : Invocation} (hloads : c₀.shared.Loads row definition)
    (hselected : selectedInvocation definition row.parameters = .ok invocation)
    (haccepted : Entry.accepted id invocation ∈ c₀.shared.history) (hr : Reached x c)
    (hproceeds : Proceeds x worker id p row definition job pods listing c₀ c)
    {turns : List (Config Pid World Proc × Action)}
    (hturns : Turns (platform x) (fun _ _ => True) p c turns c')
    (hall : ∀ t ∈ turns, ∃ i, t.2 = .run i ∧ ∀ pc, t.1.procs p = .reconcile worker id pc →
      Reconcile.Against worker job pods listing t.1.shared i pc) :
    Proceeds x worker id p row definition job pods listing c₀ c' := by
  induction hturns with
  | start => exact hproceeds
  | other hturns hok hs ih => exact (ih hall).other (hr.trans hturns.reachable) hok hs
  | @own turns d d' a hturns _ hs ih =>
    obtain ⟨i, ha, hagainst⟩ := hall _ List.mem_cons_self
    obtain rfl : a = .run i := ha
    have hbefore := ih fun t ht => hall t (List.mem_cons_of_mem _ ht)
    exact hbefore.own h hrow₀ hrun₀ hloads hselected haccepted (hr.trans hturns.reachable) hagainst hs

end Calls

/-- The `ExecutionFailure` that the code under a statement raises. -/
def Reconcile.Raises (x : External) (worker : Worker) (w : World) (i : Input) :
    Pc → String → List Artifact → Prop
  | .observe work _, code, artifacts =>
    expectation x.helm worker work = .error (.executionFailure code artifacts)
  | .lookup call, code, artifacts => i.fault = false ∧
    match w.cluster.jobs (worker.namespace, call.work.jobName) with
    | some job => verifyContract call.work job call.expected = .error (.executionFailure code artifacts)
    | none => truthy call.work.jobUid = true ∧ code = "job_lost" ∧ artifacts = []
  | .create call, code, artifacts => i.fault = false ∧
    verifyContract call.work i.job call.expected = .error (.executionFailure code artifacts)
  | .confirm call, code, artifacts => i.fault = false ∧ ∃ job,
    w.cluster.jobs (worker.namespace, call.work.jobName) = some job ∧
      verifyContract call.work job call.expected = .error (.executionFailure code artifacts)
  | .saveUid _ observation row, code, artifacts => row.jobUid ≠ none ∧ row.jobUid ≠ some observation.uid ∧
    code = "job_identity_conflict" ∧ artifacts = []
  | .listOutputs call, code, artifacts => i.fault = false ∧ ∃ outputPrefix,
    call.work.outputPrefix = .ok outputPrefix ∧
      collect call.work outputPrefix i.listing = .error (.executionFailure code artifacts)
  | _, _, _ => False

section Raising
variable {x : External} {worker : Worker} {w : World} {i : Input} {id : UUID} {p : Pid} {pc : Reconcile.Pc}
  {code : String} {artifacts : List Artifact} {c₀ c c' : Config Pid World Proc}

theorem Reconcile.inspect_failure {call : Call} (holder : Option Pid) {job : JobObject}
    (h : verifyContract call.work job call.expected = .error (.executionFailure code artifacts)) :
    (∃ seen, inspect call holder job = .lockFinish seen (some code) artifacts) ∧ code ≠ "" := by
  refine ⟨⟨_, by simp only [inspect, guarded, h]; rfl⟩, ?_⟩
  rcases verifyContract_error h with he | hne
  · rw [(Raised.executionFailure.inj he).1]
    decide
  · exact absurd rfl (hne _ _)

/-- Whatever raises it, the handler goes on to `record.finish` with its code and its artifacts. -/
theorem Reconcile.Raises.step (p : Pid) (id : UUID) (h : Raises x worker w i pc code artifacts) :
    (∃ e seen, Reconcile.step x.helm worker id p w i pc =
      (e, .running (.lockFinish seen (some code) artifacts)) ∧ e.commits = false) ∧ code ≠ "" := by
  cases pc with
  | observe work seen =>
    have he : expectation x.helm worker work = .error (.executionFailure code artifacts) := h
    refine ⟨⟨.read, seen, by simp only [Reconcile.step, guarded, he], rfl⟩, ?_⟩
    rcases expectation_cases x.helm worker work with ⟨err, he', hne⟩ | ⟨-, he'⟩ | ⟨expected, -, -, -, he'⟩
    · exact absurd (he'.symm.trans he) (hne _ _)
    · injection Except.error.inj (he'.symm.trans he) with hcode
      rw [← hcode]
      decide
    · cases (he'.symm.trans he)
  | lookup call =>
    obtain ⟨hfault, h⟩ := h
    split at h
    · rename_i job hjob
      obtain ⟨⟨seen, hseen⟩, hne⟩ := inspect_failure (w.pg.sessionLocks (runKey id)) h
      refine ⟨⟨.read, seen, ?_, rfl⟩, hne⟩
      simp only [Reconcile.step, hfault, hjob, Bool.false_eq_true, if_false, hseen]
    · rename_i hjob
      obtain ⟨huid, rfl, rfl⟩ := h
      refine ⟨⟨.read, call.seen, ?_, rfl⟩, by decide⟩
      simp only [Reconcile.step, hfault, hjob, huid, Bool.false_eq_true, if_false, if_true]
  | create call =>
    obtain ⟨hfault, h⟩ := h
    obtain ⟨⟨seen, hseen⟩, hne⟩ := inspect_failure (w.pg.sessionLocks (runKey id)) h
    refine ⟨⟨.createJob (worker.namespace, call.work.jobName) i.job, seen, ?_, rfl⟩, hne⟩
    simp only [Reconcile.step, hfault, Bool.false_eq_true, if_false, hseen]
  | confirm call =>
    obtain ⟨hfault, job, hjob, h⟩ := h
    obtain ⟨⟨seen, hseen⟩, hne⟩ := inspect_failure (w.pg.sessionLocks (runKey id)) h
    refine ⟨⟨.read, seen, ?_, rfl⟩, hne⟩
    simp only [Reconcile.step, hfault, hjob, Bool.false_eq_true, if_false, hseen]
  | saveUid call observation row =>
    obtain ⟨hsome, hother, rfl, rfl⟩ := h
    exact ⟨⟨.rollback, call.seen, if_pos ⟨hsome, hother⟩, rfl⟩, by decide⟩
  | listOutputs call =>
    obtain ⟨hfault, outputPrefix, hroot, hcollect⟩ := h
    refine ⟨⟨.read, call.seen ++ [(.listed outputPrefix i.listing, w.pg.sessionLocks (runKey id))], ?_, rfl⟩, ?_⟩
    · simp only [Reconcile.step, hroot, hfault, Bool.false_eq_true, if_false, guarded, hcollect]
    · rcases (collect_failure hcollect).2 with rfl | rfl <;> decide
  | _ => exact h.elim

end Raising

section Main
variable {x : External} {c₀ : Config Pid World Proc} {id : UUID} {row : Run}

end Main

namespace Demo

def ends (p : Pid) (c : Config Pid World Proc) : Bool :=
  (row c).any (fun r => r.status = .succeeded) &&
    match c.procs p with
    | .reconcile w id (.exit none) => isWorker 1 w && id = runId
    | _ => false

end Demo

end Mic3
