import Mic3.SoleJobs

/-! A run is never executed twice: as long as others delete a worker's Job only after its uid was saved, it
has at most one over the whole history. -/
namespace Mic3
open Relational Interleaving

def dispatch : Contract Pid World Proc where
  inv := World.SoleJobs
  assert := fun _ l w => l.Dispatches w
  guarantee := Excludes

theorem dispatch_layer (x : External) : Layer dispatch ((evidence x).both foundation) x where
  start := fun _ task _ => by cases task <;> trivial
  failing := by
    intro _ l _
    cases l with
    | reconcile worker runId pc => cases pc <;> trivial
    | _ => trivial
  refl := excludes_refl
  step := by
    intro p w i l e l' w' hs ha ⟨_, hrec, _, hc, _⟩ ⟨hsees, _, hconf, hknows, hl⟩
      ⟨_, hcreated, _, hadv, _⟩ h hk
    obtain ⟨hal, -⟩ := Proc.knows_step hs hknows hl ha
    exact ⟨Proc.soleJobs_step hs h hk hsees hknows hconf hal hcreated hadv hc ha,
      Proc.dispatches_step hs h hk hsees hknows hl hrec ha,
      Proc.excludes hs hal hknows hconf hsees hl ha⟩

theorem dispatch_proof (x : External) :
    dispatch.Proof ((evidence x).both foundation) (platform x) KeepsJobs where
  act := by
    intro p a w l w' l' _ ha hinv hl hg h hk
    exact (dispatch_layer x).act (fun _ _ _ => ⟨trivial, trivial, trivial, trivial, .of_nothing rfl rfl⟩)
      ha hinv hl hg h hk
  stable := by
    intro p q l w w' hne _ ⟨_, _, _, _, hl⟩ ⟨_, hcreated, _⟩ hg _ hk
    exact hk.stable hl hne hg hcreated
  env := by
    intro ev w w' hok he ⟨_, _, _, hc, _⟩ h
    obtain ⟨hruns, hartifacts, houtbox⟩ := World.event_tables he
    have hadv : w.tables.Advances w'.tables :=
      .of_eq hruns hartifacts (congrArg (fun t => t.rows.map OutboxEvent.inserted) houtbox)
    have hcreated := World.event_created he
    refine ⟨h.advance (jobsOf_event he) (jobsKept_event hok he) (savesOwn_of_eq hruns) hcreated hadv hc,
      fun q l _ hk => ?_⟩
    cases l with
    | reconcile worker runId pc =>
      exact Reconcile.Dispatches.keep hk (fun row hrow _ => hruns ▸ hrow) (jobsOf_event he _) hcreated
    | _ => trivial

theorem initial_soleJobs : World.initial.SoleJobs := ⟨fun _ => .inl rfl, fun _ _ _ h => (by cases h)⟩

theorem dispatch_established (x : External) :
    (dispatch.both ((evidence x).both foundation)).Established (platform x) KeepsJobs initial :=
  (dispatch_proof x).established ((evidence_established x).mono fun _ _ _ => trivial)
    ⟨initial_soleJobs, fun _ => trivial⟩

section Runs
variable {x : External} {c c' : Config Pid World Proc} {p : Pid} {worker : Worker} {id : UUID}

/-- A step in which the next statement of a process takes effect. -/
theorem step_run {i : Input} (hs : (platform x).step c (.act p (.run i)) = some c') :
    ∃ w', c.shared.apply p ((c.procs p).next x p c.shared i).1 = some w' ∧
      c' = ⟨w', Function.update c.procs p ((c.procs p).next x p c.shared i).2⟩ := by
  obtain ⟨⟨w', l'⟩, ha, rfl⟩ := Option.map_eq_some_iff.mp hs
  obtain ⟨w₁, hw, h⟩ := Option.map_eq_some_iff.mp ha
  obtain ⟨rfl, rfl⟩ := Prod.mk.inj h
  exact ⟨w₁, hw, rfl⟩

/-- The run has failed with this code. -/
def FailedWith (id : UUID) (code : String) (c : Config Pid World Proc) : Prop :=
  ∃ row, c.shared.tables.runs.find? id = some row ∧ row.status = .failed ∧ row.failureCode = some code

theorem finish_fails (h : Reachable (platform x) KeepsJobs initial c) {seen : Seen} {u : UnitOfWork}
    {code : String} (hp : c.procs p = .reconcile worker id (.finish seen u))
    (hs : u.row.status = .failed) (hcode : u.row.failureCode = some code) (k : Input) :
    After (platform x) KeepsJobs p (FailedWith id code) [.run k] c := by
  intro c₁ c₂ hothers hstep
  have hr := h.trans (hothers.mono fun _ _ hok => hok.1)
  obtain ⟨-, -, -, hconf, hknows, hl⟩ := ((dispatch_established x).holds c₁ hr).2 p
  have hp₁ : c₁.procs p = .reconcile worker id (.finish seen u) := hothers.procs_eq.trans hp
  rw [hp₁] at hconf hknows hl
  obtain ⟨w', ha, rfl⟩ := step_run hstep
  rw [hp₁] at ha
  have hknows : (Proc.reconcile worker id (.finish seen u)).Knows c₁.shared.tables := hknows
  have hal : (Change.outcome u).Allowed c₁.shared.tables :=
    (Proc.knows_step (x := x) (i := k) rfl hknows hl ha).1
  obtain ⟨rfl, -⟩ := hconf
  obtain ⟨tables, ht, rfl⟩ := commit_apply ha
  exact ⟨u.row, (find?_outcome hal ht _).trans (if_pos rfl), hs, hcode⟩

/-- A reconcile call that is to fail its run does, once its next two statements have run. -/
theorem lockFinish_fails (h : Reachable (platform x) KeepsJobs initial c) {seen : Seen} {code : String}
    {artifacts : List Artifact} (hne : code ≠ "")
    (hp : c.procs p = .reconcile worker id (.lockFinish seen (some code) artifacts)) (j k : Input) :
    After (platform x) KeepsJobs p (FailedWith id code) [.run j, .run k] c := by
  intro c₁ c₂ hothers hstep
  have hr := h.trans (hothers.mono fun _ _ hok => hok.1)
  have hk := (((dispatch_established x).holds c₁ hr).2 p).1
  have hp₁ : c₁.procs p = .reconcile worker id (.lockFinish seen (some code) artifacts) :=
    hothers.procs_eq.trans hp
  rw [hp₁] at hk
  obtain ⟨row, hrow, hrun⟩ := hk
  have hr₂ := hr.step (by trivial) hstep
  obtain ⟨w', -, rfl⟩ := step_run hstep
  have hp₂ : (c₁.procs p).next x p c₁.shared j = (.lock (.run id),
      .reconcile worker id (.finish seen (finishRow (.clean row) (some code) artifacts j.defaults))) := by
    rw [hp₁]
    simp only [Proc.next, Reconcile.step, hrow]
    rfl
  refine finish_fails hr₂ ((Function.update_self _ _ _).trans (congrArg Prod.snd hp₂)) ?_ ?_ k
  · simp [finishRow, UnitOfWork.clean, hrun, RunStatus.terminal, truthy, hne]
  · simp [finishRow, UnitOfWork.clean, hrun, RunStatus.terminal]

/-- A reconcile call whose lookup finds a recorded Job missing fails the run with `job_lost`. -/
theorem missing_job_fails (h : Reachable (platform x) KeepsJobs initial c) {call : Reconcile.Call} {row : Run}
    {uid : String} (hp : c.procs p = .reconcile worker id (.lookup call))
    (hrow : c.shared.tables.runs.find? id = some row) (hu : row.jobUid = some uid)
    (hjob : c.shared.cluster.jobs (worker.namespace, call.work.jobName) = none) {i : Input}
    (hi : i.fault = false) (hs : (platform x).step c (.act p (.run i)) = some c') (j k : Input) :
    After (platform x) KeepsJobs p (FailedWith id "job_lost") [.run j, .run k] c' := by
  obtain ⟨hinv, hall⟩ := (dispatch_established x).holds c h
  obtain ⟨hsole, -, hrec, -⟩ := hinv
  have hk := (hall p).1
  rw [hp] at hk
  obtain ⟨row', hrow', -, huid, -⟩ := hk
  obtain rfl : row = row' := Option.some.inj (hrow.symm.trans hrow')
  obtain ⟨ns, -, hcreated⟩ := hsole.saved id row uid hrow hu
  have hne : uid ≠ "" := hrec.named _ hcreated
  have ht : truthy call.work.jobUid = true := by simp [truthy, ← huid, hu, hne]
  have hr := h.step (by trivial) hs
  obtain ⟨w', -, rfl⟩ := step_run hs
  have hp' : (c.procs p).next x p c.shared i =
      (.read, .reconcile worker id (.lockFinish call.seen (some "job_lost") [])) := by
    rw [hp]
    simp only [Proc.next, Reconcile.step, hi, hjob, ht]
    rfl
  exact lockFinish_fails hr (by decide) ((Function.update_self _ _ _).trans (congrArg Prod.snd hp')) j k

/-- A run is never executed twice. Over the whole history workers create at most one Job for it; its saved
uid is that of the Job under its name, and of the one that a worker created; once it is saved no worker
is about to create another; and a call that finds the recorded Job missing fails the run. -/
theorem run_executed_once (h : Reachable (platform x) KeepsJobs initial c) (id : UUID) :
    (c.shared.jobsOf id).length ≤ 1 ∧
    (∀ row uid, c.shared.tables.runs.find? id = some row → row.jobUid = some uid →
      (∃ ns, row.jobNamespace = some ns ∧ ((ns, jobNameOf id), uid) ∈ c.shared.cluster.created) ∧
        ∀ e ∈ c.shared.jobsOf id, e.2 = uid) ∧
    (∀ p worker call row, c.procs p = .reconcile worker id (.create call) →
      c.shared.tables.runs.find? id = some row → row.jobUid = none ∧ c.shared.jobsOf id = []) ∧
    ∀ p worker call row, c.procs p = .reconcile worker id (.lookup call) →
      c.shared.tables.runs.find? id = some row → row.jobUid ≠ none →
      c.shared.cluster.jobs (worker.namespace, call.work.jobName) = none →
      ∀ i c' j k, i.fault = false → (platform x).step c (.act p (.run i)) = some c' →
        After (platform x) KeepsJobs p (FailedWith id "job_lost") [.run j, .run k] c' := by
  obtain ⟨⟨hinv, -⟩, hall⟩ := (dispatch_established x).holds c h
  refine ⟨?_, fun row uid hrow hu => ⟨hinv.saved id row uid hrow hu, ?_⟩, ?_, ?_⟩
  · rcases hinv.sole id with hnil | ⟨key, uid, hsole⟩
    · simp [hnil]
    · simp [hsole.only]
  · intro e he
    rcases hinv.sole id with hnil | ⟨key, uid', hsole⟩
    · simp [hnil] at he
    · obtain rfl : e = (key, uid') := by simpa [hsole.only] using he
      obtain ⟨row', hrow', -, -, huid⟩ := hsole.row
      obtain rfl : row = row' := Option.some.inj (hrow.symm.trans hrow')
      rcases huid with ⟨hnone, -⟩ | hsaved
      · exact absurd (hnone.symm.trans hu) nofun
      · exact Option.some.inj (hsaved.symm.trans hu)
  · intro p worker call row hp hrow
    have hk := (hall p).1
    rw [hp] at hk
    obtain ⟨⟨row', hrow', -, huid, -⟩, hnone, hjobs⟩ := hk
    obtain rfl : row = row' := Option.some.inj (hrow.symm.trans hrow')
    exact ⟨huid.trans hnone, hjobs⟩
  · intro p worker call row hp hrow hu hjob i c' j k hi hs
    obtain ⟨uid, hu⟩ := Option.ne_none_iff_exists'.mp hu
    exact missing_job_fails h hp hrow hu hjob hi hs j k

/-- Whether others delete a Job in this step. -/
def deletes : Label Pid Action External.Event → Bool
  | .env (.deleteJob _) => true
  | _ => false

theorem keepsJobs_of_not_deletes {w : World} {l : Label Pid Action External.Event}
    (h : deletes l = false) : KeepsJobs w l := by
  cases l with
  | act => trivial
  | env ev => cases ev <;> trivial

theorem run_executed_once_demo : ∃ c r, Demo.row c = some r ∧ r.jobUid = some "job-1" ∧
    (c.shared.jobsOf Demo.runId).length ≤ 1 ∧ ∀ e ∈ c.shared.jobsOf Demo.runId, e.2 = "job-1" := by
  obtain ⟨c, r, hc, hr, -, hu, -⟩ := Demo.finished
  have hkeeps : ∀ l ∈ Demo.accepting ++ Demo.creating ++ Demo.finishing, deletes l = false := by
    have hall : (Demo.accepting ++ Demo.creating ++ Demo.finishing).all (fun l => !deletes l) = true := by
      decide +kernel
    exact fun l hl => by simpa using List.all_eq_true.mp hall l hl
  have h := run_executed_once (reachable_of_run (fun w l hl => keepsJobs_of_not_deletes (hkeeps l hl)) hc)
    Demo.runId
  exact ⟨c, r, hr, hu, h.1, (h.2.1 r "job-1" hr hu).2⟩

end Runs
end Mic3
