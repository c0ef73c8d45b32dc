import Mic3.Dispatch

/-! What every reconcile call knows of its run at each of its statements, whatever became of the run's Jobs:
the row is as it was loaded, and the uid to be saved is that of a Job that the call saw. -/
namespace Mic3
open Relational Interleaving

/-- The call saw a Job with this uid under the name of its run. -/
def Reconcile.Call.Saw (w : World) (worker : Worker) (call : Call) (uid : String) : Prop :=
  ∃ job holder, (Observation.observed job, holder) ∈ call.seen ∧ job.uid = uid ∧
    ((worker.namespace, call.work.jobName), uid) ∈ w.cluster.created

/-- The call works on the run as it is. -/
def Reconcile.Call.On (w : World) (worker : Worker) (runId : UUID) (call : Call) : Prop :=
  call.work.id = runId ∧ w.tables.RunningAs runId call.work.jobUid (some worker.namespace)

def Reconcile.Underway (w : World) (worker : Worker) (runId : UUID) : Pc → Prop
  | .loadRelease row | .loadModel row _ =>
    w.tables.runs.find? runId = some row ∧ row.status = .running
  | .observe work _ => work.id = runId ∧ w.tables.RunningAs runId work.jobUid work.namespace
  | .lookup call | .create call | .confirm call => call.On w worker runId
  | .readPods call job => call.On w worker runId ∧ call.Saw w worker job.uid
  | .lockUid call observation | .saveUid call observation _ =>
    call.On w worker runId ∧ call.Saw w worker observation.uid
  | .listOutputs _ | .lockFinish .. => w.tables.Running runId
  | .finish _ u => u.loaded.id = runId ∧ u.loaded.status = .running
  | _ => True

def Proc.Underway (w : World) : Proc → Prop
  | .reconcile worker runId pc => Reconcile.Underway w worker runId pc
  | _ => True

def underway : Contract Pid World Proc where
  inv := fun _ => True
  assert := fun _ l w => l.Underway w
  guarantee := Excludes

section Steps
variable {x : External} {p q : Pid} {w w' : World} {i : Input} {e : Effect} {l l' : Proc}

namespace Reconcile
variable {worker : Worker} {runId : UUID} {call : Call} {job : JobObject} {uid : String}

theorem Call.On.isRunning (h : call.On w worker runId) : w.tables.Running runId := h.2.isRunning

theorem Call.Saw.mono (h : call.Saw w worker uid) (hcreated : w.cluster.created ⊆ w'.cluster.created) :
    call.Saw w' worker uid := by
  obtain ⟨job, holder, hseen, huid, hmem⟩ := h
  exact ⟨job, holder, hseen, huid, hcreated hmem⟩

/-- What stays when the row stays and Jobs are only added. -/
theorem Underway.keep {pc : Pc} (h : Underway w worker runId pc)
    (hrun : ∀ row, w.tables.runs.find? runId = some row → row.status = .running →
      w'.tables.runs.find? runId = some row)
    (hcreated : w.cluster.created ⊆ w'.cluster.created) : Underway w' worker runId pc := by
  have hrunning (h : w.tables.Running runId) : w'.tables.Running runId := by
    obtain ⟨row, hrow, hs⟩ := h
    exact ⟨row, hrun row hrow hs, hs⟩
  have has {jobUid ns : Option String} (h : w.tables.RunningAs runId jobUid ns) :
      w'.tables.RunningAs runId jobUid ns := by
    obtain ⟨row, hrow, hs, hrest⟩ := h
    exact ⟨row, hrun row hrow hs, hs, hrest⟩
  cases pc with
  | loadRelease row | loadModel row release => exact ⟨hrun row h.1 h.2, h.2⟩
  | observe | lookup | create | confirm => exact ⟨h.1, has h.2⟩
  | readPods | lockUid | saveUid => exact ⟨⟨h.1.1, has h.1.2⟩, h.2.mono hcreated⟩
  | listOutputs | lockFinish => exact hrunning h
  | finish => exact h
  | acquire | loadRun | unwind | exit => trivial

/-- Whatever object the call got, it saw it. -/
theorem underway_inspect {holder : Option Pid} (h : call.On w worker runId)
    (hcreated : ((worker.namespace, call.work.jobName), job.uid) ∈ w.cluster.created) :
    Underway w worker runId (inspect call holder job) := by
  have hsaw : Call.Saw w worker { call with seen := call.seen ++ [(.observed job, holder)] } job.uid :=
    ⟨job, holder, List.mem_append_right _ (List.mem_singleton.mpr rfl), rfl, hcreated⟩
  rcases inspect_cases call holder job with ⟨err, h'⟩ | h' | ⟨-, ⟨-, h'⟩ | ⟨-, h'⟩⟩ <;> rw [h']
  · trivial
  · exact h.isRunning
  · exact ⟨h, hsaw⟩
  · exact ⟨h, hsaw⟩

theorem underway_conclude {observation : JobObservation} (h : w.tables.Running runId) :
    Underway w worker runId (conclude call observation) := by
  unfold conclude
  split
  · exact h
  · exact h
  · trivial

theorem underway_step {pc : Pc} {r : Progress Pc Unit} (hs : step x.helm worker runId p w i pc = (e, r))
    (hk : Underway w worker runId pc) (hheld : ∀ h ∈ holds pc, h.Valid p w)
    (hknows : Knows w.tables runId pc) (hrec : w.cluster.Recorded) (ha : w.apply p e = some w') :
    r.All (Underway w' worker runId) := by
  have hlift (hc : e.commits = false) (hcr : e.creates = false) (h : r.All (Underway w worker runId)) :
      r.All (Underway w' worker runId) := by
    have ht := tables_apply hc ha
    refine h.mono fun pc hpc => hpc.keep (fun row hrow _ => ht ▸ hrow) ?_
    rw [cluster_apply hcr ha]
    exact List.Subset.refl _
  rcases step_cases hs with ⟨-, -, err, rfl⟩ | hstep
  · trivial
  cases pc with
  | acquire => rcases hstep with ⟨rfl, rfl⟩ | ⟨rfl, rfl⟩ <;> trivial
  | loadRun =>
    obtain ⟨rfl, row, hrow, hrun, rfl⟩ := hstep
    exact hlift rfl rfl ⟨hrow, hrun⟩
  | loadRelease row =>
    obtain ⟨rfl, release, -, rfl⟩ := hstep
    exact hlift rfl rfl hk
  | loadModel row release =>
    obtain ⟨rfl, definition, -, rfl⟩ := hstep
    exact hlift rfl rfl ⟨Table.key_of_find? hk.1, row, hk.1, hk.2, rfl, rfl⟩
  | observe work seen =>
    obtain ⟨rfl, ⟨-, rfl⟩ | ⟨expected, -, hns, -, rfl⟩⟩ := hstep
    · exact hlift rfl rfl hk.2.isRunning
    · exact hlift rfl rfl ⟨hk.1, hns ▸ hk.2⟩
  | lookup call =>
    obtain ⟨rfl, ⟨job, hjob, rfl⟩ | ⟨-, ⟨-, rfl⟩ | ⟨-, rfl⟩⟩⟩ := hstep
    · exact hlift rfl rfl (underway_inspect hk (hrec.jobs _ _ hjob))
    · exact hlift rfl rfl hk.isRunning
    · exact hlift rfl rfl hk
  | create call =>
    obtain ⟨hid, hrun⟩ := hk
    have hon (job : JobObject) (he : e = .createJob (worker.namespace, call.work.jobName) job) :
        call.On w' worker runId ∧ ((worker.namespace, call.work.jobName), job.uid) ∈ w'.cluster.created := by
      refine ⟨⟨hid, ?_⟩, ?_⟩
      · rw [tables_apply (by rw [he]; rfl) ha]
        exact hrun
      · rw [he] at ha
        obtain ⟨-, rfl⟩ := create_apply ha
        exact List.mem_cons_self
    obtain ⟨rfl | ⟨job, rfl⟩, rfl⟩ | ⟨job, rfl, rfl⟩ := hstep
    · exact hlift rfl rfl ⟨hid, hrun⟩
    · exact (hon job rfl).1
    · exact underway_inspect (hon job rfl).1 (hon job rfl).2
  | confirm call =>
    obtain ⟨rfl, job, hjob, rfl⟩ := hstep
    exact hlift rfl rfl (underway_inspect hk (hrec.jobs _ _ hjob))
  | readPods call job =>
    obtain ⟨rfl, rfl⟩ := hstep
    exact hlift rfl rfl hk
  | lockUid call observation =>
    obtain ⟨row, -, rfl, rfl⟩ := hstep
    exact hlift rfl rfl hk
  | saveUid call observation row =>
    rcases hstep with ⟨rfl, rfl⟩ | ⟨hu, rfl, rfl⟩
    · exact hlift rfl rfl hk.1.isRunning
    · have hheld : (Hold.run row).Valid p w := hheld _ (by simp [holds])
      have hal : (Change.outcome (savedUid row observation.uid)).Allowed w.tables :=
        ⟨savedUid_allowed hu, by rw [savedUid_loaded]; exact hheld.2⟩
      obtain ⟨-, -, rfl⟩ := hknows
      obtain ⟨row', hrow', hrun⟩ := hk.1.isRunning
      obtain rfl : row = row' := Option.some.inj (hheld.2.symm.trans hrow')
      obtain ⟨tables, ht, rfl⟩ := commit_apply ha
      refine underway_conclude ⟨_, find?_outcome hal ht row.id |>.trans (if_pos ?_), ?_⟩
      · rw [savedUid_loaded]
      · rw [savedUid_status]
        exact hrun
  | listOutputs call =>
    obtain ⟨rfl, outputPrefix, -, ⟨artifacts, -, rfl⟩ | ⟨code, artifacts, -, rfl⟩⟩ := hstep <;>
      exact hlift rfl rfl hk
  | lockFinish seen failureCode artifacts =>
    obtain ⟨row, hrow, rfl, rfl⟩ := hstep
    obtain ⟨row', hrow', hrun⟩ := hk
    obtain rfl : row = row' := Option.some.inj (hrow.symm.trans hrow')
    refine hlift rfl rfl ⟨?_, ?_⟩ <;> rw [finishRow_loaded]
    · exact Table.key_of_find? hrow
    · exact hrun
  | finish seen u =>
    obtain ⟨rfl, -⟩ := hstep
    trivial
  | unwind err => exact hstep.elim
  | exit error => obtain ⟨rfl, rfl | ⟨err, rfl⟩⟩ := hstep <;> trivial

end Reconcile

theorem Proc.underway_step (hs : l.next x p w i = (e, l')) (hk : l.Underway w) (hknows : l.Knows w.tables)
    (hl : Holding p l w) (hrec : w.cluster.Recorded) (ha : w.apply p e = some w') : l'.Underway w' := by
  cases l with
  | idle | unwinding =>
    obtain ⟨rfl, rfl⟩ := Prod.mk.inj hs
    trivial
  | reconcile worker runId pc =>
    obtain ⟨rfl, rfl⟩ := Prod.mk.inj hs
    exact (Reconcile.underway_step rfl hk hl.valid hknows hrec ha).proc (Q := fun l => l.Underway w')
      (fun _ h => h) trivial
  | submit | register | accept | claim | publish | consume =>
    obtain ⟨rfl, rfl⟩ := Prod.mk.inj hs
    exact (Progress.all_true _).proc (Q := fun l => l.Underway w') (fun _ _ => trivial) trivial

theorem Proc.Underway.stable (hk : l.Underway w) (hl : Holding q l w) (hne : p ≠ q)
    (hg : Excludes p w w') (hcreated : w.cluster.created ⊆ w'.cluster.created) : l.Underway w' := by
  cases l with
  | reconcile worker runId pc =>
    by_cases hpc : pc = .acquire
    · subst hpc
      trivial
    have hother : w.pg.sessionLocks (runKey runId) ≠ some p := by
      rw [hl.owns hpc]
      exact fun h => hne (Option.some.inj h).symm
    exact Reconcile.Underway.keep hk (fun row hrow hrun => hg.running _ row hother hrow hrun) hcreated
  | _ => trivial

end Steps

theorem underway_layer (x : External) : Layer underway ((evidence x).both foundation) x where
  start := fun _ task _ => by cases task <;> trivial
  failing := by
    intro _ l _
    cases l with
    | reconcile worker runId pc => cases pc <;> trivial
    | _ => trivial
  refl := excludes_refl
  step := by
    intro p w i l e l' w' hs ha ⟨_, hrec, _, _, _⟩ ⟨hsees, _, hconf, hknows, hl⟩ _ _ hk
    obtain ⟨hal, -⟩ := Proc.knows_step hs hknows hl ha
    exact ⟨trivial, Proc.underway_step hs hk hknows hl hrec ha,
      Proc.excludes hs hal hknows hconf hsees hl ha⟩

theorem underway_proof (x : External) :
    underway.Proof ((evidence x).both foundation) (platform x) fun _ _ => True where
  act := by
    intro p a w l w' l' _ ha hinv hl hg h hk
    exact (underway_layer x).act (fun _ _ _ => ⟨trivial, trivial, trivial, trivial, .of_nothing rfl rfl⟩)
      ha hinv hl hg h hk
  stable := by
    intro p q l w w' hne _ ⟨_, _, _, _, hl⟩ ⟨_, hcreated, _⟩ hg _ hk
    exact hk.stable hl hne hg hcreated
  env := by
    intro ev w w' _ he _ _
    obtain ⟨hruns, -, -⟩ := World.event_tables he
    refine ⟨trivial, fun q l _ hk => ?_⟩
    cases l with
    | reconcile worker runId pc =>
      exact Reconcile.Underway.keep hk (fun row hrow _ => hruns ▸ hrow) (World.event_created he)
    | _ => trivial

theorem underway_established (x : External) :
    (underway.both ((evidence x).both foundation)).Established (platform x) (fun _ _ => True) initial :=
  (underway_proof x).established (evidence_established x) ⟨trivial, fun _ => trivial⟩

end Mic3
