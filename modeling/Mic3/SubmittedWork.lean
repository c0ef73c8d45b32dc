import Mic3.Computation
import Mic3.ExecutedOnce
import Mic3.Origins

/-! What is dispatched is what was submitted. Whatever the catalog has become, a worker renders a Job only
from a definition with the run's fingerprint, and so with the computation that the submission read. -/
namespace Mic3
open Relational Interleaving

/-- The run is on record with the release that its submission read, and carries that computation. -/
structure World.Submitted (w : World) (row : Run) (read : ReleaseDefinition) (c : Computation) : Prop where
  recorded : ∃ limits, Entry.submitted row.id read limits ∈ w.history
  parameters : row.parameters = ExecutionDefinition.modeParameters c.mode
  computation : read.computation? c.mode = some c
  fingerprint : row.fingerprint = sha256Hex c.text

section Submissions
variable {d : ReleaseDefinition} {c : Computation} {mode : String}

theorem computation_mode (h : d.computation? mode = some c) : c.mode = mode := by
  obtain ⟨i, -, rfl⟩ := Option.map_eq_some_iff.mp h
  rfl

/-- What a call computed is the computation of the release it read. -/
theorem Submission.Of.computation {s : Submission} {call : SubmitRun} (h : s.Of call) :
    ∃ c : Computation, s.run.parameters = ExecutionDefinition.modeParameters c.mode ∧
      s.read.computation? c.mode = some c ∧ s.run.fingerprint = sha256Hex c.text := by
  obtain ⟨t, id, h⟩ := h
  obtain ⟨release, -, h⟩ := bind_eq_ok.mp h
  obtain ⟨effective, heffective, h⟩ := bind_eq_ok.mp h
  obtain ⟨text, htext, h⟩ := bind_eq_ok.mp h
  obtain rfl := Except.ok.inj h
  obtain ⟨mode, -, heffective⟩ := bind_eq_ok.mp heffective
  obtain rfl := Except.ok.inj heffective
  obtain ⟨c, hc, rfl⟩ := fingerprint_ok.mp htext
  obtain rfl : c.mode = mode := computation_mode hc
  exact ⟨c, rfl, hc, rfl⟩

/-- Every run is on record with the computation it was submitted for. -/
theorem Origins.submitted {w : World} (h : Origins w) {id : UUID} {row : Run}
    (hrow : w.tables.runs.find? id = some row) : ∃ read c, w.Submitted row read c := by
  obtain ⟨call, s, hof, hcarries, hm⟩ := h.rows id row hrow
  obtain ⟨c, hparameters, hcomputation, hfingerprint⟩ := hof.computation
  obtain rfl : row.id = id := Table.key_of_find? hrow
  exact ⟨s.read, c, ⟨call.limits, hm⟩, hcarries.parameters.trans hparameters, hcomputation,
    hcarries.fingerprint.trans hfingerprint⟩

/-- A definition that still has the run's fingerprint has its computation. -/
theorem World.Submitted.of_matches {w : World} {row : Run} {read : ReleaseDefinition}
    (h : w.Submitted row read c) (hm : matchesFingerprint d row.parameters row.fingerprint = .ok true) :
    ∃ c', d.computation? c.mode = some c' ∧ (c.NoCollision c' → c' = c) := by
  have htext := matchesFingerprint_true.mp hm
  rw [h.parameters] at htext
  obtain ⟨c', hc', -⟩ := fingerprint_ok.mp htext
  have hread : Mic3.fingerprint read (ExecutionDefinition.modeParameters c.mode) = .ok row.fingerprint :=
    fingerprint_ok.mpr ⟨c, h.computation, h.fingerprint.symm⟩
  exact ⟨c', hc', fun hno => (computation_eq h.computation hc' hread htext hno).symm⟩

theorem fingerprint_missing (h : d.computation? mode = none) :
    fingerprint d (ExecutionDefinition.modeParameters mode) = .error d.executionDefinition.unsupportedMode := by
  have hnone : d.executionDefinition.mode? mode = none := Option.map_eq_none_iff.mp h
  have hkeys : ¬ [("mode", Json.str mode)].map (·.1) ≠ ["mode"] := not_not.mpr rfl
  have hget : (Json.obj [("mode", Json.str mode)]).get? "mode" = some (.str mode) := rfl
  have hselected : selectedInvocation d (ExecutionDefinition.modeParameters mode) =
      .error d.executionDefinition.unsupportedMode := by
    simp only [selectedInvocation, ExecutionDefinition.modeParameters, hget, ExecutionDefinition.resolve,
      ExecutionDefinition.prepareMode, if_neg hkeys, hnone]
    rfl
  simp only [fingerprint, fingerprintPayload, hselected]
  rfl

/-- A definition without the mode, or with another computation for it, does not match. -/
theorem World.Submitted.mismatch {w : World} {row : Run} {read : ReleaseDefinition}
    (h : w.Submitted row read c) (hne : d.computation? c.mode ≠ some c)
    (hno : ∀ c', d.computation? c.mode = some c' → c.NoCollision c') :
    matchesFingerprint d row.parameters row.fingerprint = .ok false := by
  cases hc' : d.computation? c.mode with
  | none =>
    rw [h.parameters, matchesFingerprint, fingerprint_missing hc']
    rfl
  | some c' =>
    have htext : Mic3.fingerprint d row.parameters = .ok (sha256Hex c'.text) := by
      rw [h.parameters]
      exact fingerprint_ok.mpr ⟨c', hc', rfl⟩
    have hdiffer : sha256Hex c'.text ≠ row.fingerprint := by
      intro heq
      obtain ⟨c'', hc'', hsame⟩ := h.of_matches (matchesFingerprint_true.mpr (htext.trans (congrArg _ heq)))
      have hcc : c'' = c := hsame (hno c'' hc'')
      exact hne (hcc ▸ hc'')
    rw [matchesFingerprint, htext]
    exact congrArg _ (decide_eq_false hdiffer)

end Submissions
/-! No Job is created for a run that was never started. -/

/-- The run's dispatch has started. -/
def Tables.Started (t : Tables) (id : UUID) : Prop :=
  ∃ row, t.runs.find? id = some row ∧ row.dispatchStartedAt.isSome

/-- Up to the creation of the Job, a call works on a run that was started. -/
def Reconcile.WorksOn (t : Tables) (runId : UUID) : Pc → Prop
  | .loadRelease _ | .loadModel .. | .observe .. | .lookup _ | .create _ => t.Started runId
  | _ => True

def Proc.WorksOn (t : Tables) : Proc → Prop
  | .reconcile _ runId pc => Reconcile.WorksOn t runId pc
  | _ => True

/-- Workers create Jobs only for runs that were started. -/
def starting : Contract Pid World Proc where
  inv := fun w => ∀ id, w.jobsOf id ≠ [] → w.tables.Started id
  assert := fun _ l w => l.WorksOn w.tables
  guarantee := fun _ _ _ => True

section Starting
variable {x : External} {p : Pid} {w w' : World} {i : Input} {e : Effect} {l l' : Proc}

theorem Tables.Started.advance {t t' : Tables} {id : UUID} (h : t.Started id) (hadv : t.Advances t')
    (hc : t.Consistent) : t'.Started id := by
  obtain ⟨row, hrow, hsome⟩ := h
  obtain ⟨time, htime⟩ := Option.isSome_iff_exists.mp hsome
  obtain ⟨row', hrow', hcont, -⟩ := hadv.run hc hrow
  have htime' : row'.dispatchStartedAt = some time := hcont.dispatchStartedAt time htime
  exact ⟨row', hrow', by rw [htime']; rfl⟩

theorem Proc.WorksOn.advance {t t' : Tables} (h : l.WorksOn t) (hadv : t.Advances t') (hc : t.Consistent) :
    l.WorksOn t' := by
  cases l with
  | reconcile worker runId pc =>
    cases pc with
    | loadRelease | loadModel | observe | lookup | create => exact Tables.Started.advance h hadv hc
    | _ => trivial
  | _ => trivial

theorem Reconcile.worksOn_inspect {t : Tables} {runId : UUID} (call : Call) (holder : Option Pid)
    (job : JobObject) : WorksOn t runId (inspect call holder job) := by
  rcases inspect_cases call holder job with ⟨err, h⟩ | h | ⟨-, ⟨-, h⟩ | ⟨-, h⟩⟩ <;> rw [h] <;> trivial

theorem Reconcile.worksOn_step {helm : Helm} {worker : Worker} {runId : UUID} {pc : Pc}
    {r : Progress Pc Unit} (hs : step helm worker runId p w i pc = (e, r)) (hk : WorksOn w.tables runId pc)
    (hc : w.tables.Consistent) : r.All (WorksOn w.tables runId) := by
  rcases step_cases hs with ⟨-, -, err, rfl⟩ | hstep
  · trivial
  cases pc with
  | acquire => rcases hstep with ⟨-, rfl⟩ | ⟨-, rfl⟩ <;> trivial
  | loadRun =>
    obtain ⟨-, row, hrow, hrun, rfl⟩ := hstep
    -- A running run has its dispatch time.
    exact ⟨row, hrow, ((hc.wellFormed runId row hrow).running hrun).2.1⟩
  | loadRelease row =>
    obtain ⟨-, release, -, rfl⟩ := hstep
    exact hk
  | loadModel row release =>
    obtain ⟨-, definition, -, rfl⟩ := hstep
    exact hk
  | observe work seen =>
    obtain ⟨-, ⟨-, rfl⟩ | ⟨expected, -, -, -, rfl⟩⟩ := hstep
    · trivial
    · exact hk
  | lookup call =>
    obtain ⟨-, ⟨job, -, rfl⟩ | ⟨-, ⟨-, rfl⟩ | ⟨-, rfl⟩⟩⟩ := hstep
    · exact worksOn_inspect ..
    · trivial
    · exact hk
  | create call =>
    obtain ⟨-, rfl⟩ | ⟨job, -, rfl⟩ := hstep
    · trivial
    · exact worksOn_inspect ..
  | confirm call =>
    obtain ⟨-, job, -, rfl⟩ := hstep
    exact worksOn_inspect ..
  | readPods call job =>
    obtain ⟨-, rfl⟩ := hstep
    trivial
  | lockUid call observation =>
    obtain ⟨row, -, -, rfl⟩ := hstep
    trivial
  | saveUid call observation row =>
    rcases hstep with ⟨-, rfl⟩ | ⟨-, -, rfl⟩
    · trivial
    · unfold conclude
      split <;> trivial
  | listOutputs call =>
    obtain ⟨-, outputPrefix, -, ⟨artifacts, -, rfl⟩ | ⟨code, artifacts, -, rfl⟩⟩ := hstep <;> trivial
  | lockFinish seen failureCode artifacts =>
    obtain ⟨row, -, -, rfl⟩ := hstep
    trivial
  | finish seen u =>
    obtain ⟨rfl, -⟩ := hstep
    trivial
  | unwind err => exact hstep.elim
  | exit error => obtain ⟨-, rfl | ⟨err, rfl⟩⟩ := hstep <;> trivial

theorem Proc.worksOn_step (hs : l.next x p w i = (e, l')) (hk : l.WorksOn w.tables)
    (hc : w.tables.Consistent) : l'.WorksOn w.tables := by
  cases l with
  | idle | unwinding =>
    obtain ⟨-, rfl⟩ := Prod.mk.inj hs
    trivial
  | reconcile worker runId pc =>
    obtain ⟨-, rfl⟩ := Prod.mk.inj hs
    exact (Reconcile.worksOn_step rfl hk hc).proc (Q := fun l => l.WorksOn w.tables) (fun _ h => h) trivial
  | _ =>
    obtain ⟨-, rfl⟩ := Prod.mk.inj hs
    exact (Progress.all_true _).proc (Q := fun l => l.WorksOn w.tables) (fun _ _ => trivial) trivial

/-- The request of a call that works on a started run is the only one that creates a Job. -/
theorem jobsOf_started (hs : l.next x p w i = (e, l')) (ha : w.apply p e = some w')
    (hinv : ∀ id, w.jobsOf id ≠ [] → w.tables.Started id) (hk : l.WorksOn w.tables) (hsees : l.Sees x p w)
    {id : UUID} (hjobs : w'.jobsOf id ≠ []) : w.tables.Started id := by
  cases hcreates : e.creates with
  | false => exact hinv id (jobsOf_apply hcreates ha id ▸ hjobs)
  | true =>
    cases e with
    | createJob key job =>
      rcases Proc.emits hs with h | ⟨change, entries, h, -⟩ | h
      · contradiction
      · contradiction
      · cases h with
        | createJob worker runId call job =>
          have hsees : Reconcile.Sees x p w worker runId (.create call) := hsees
          have hid : call.work.id = runId := hsees.id_eq (.inr (.inl rfl))
          rw [jobsOf_create ha] at hjobs
          split at hjobs
          · rename_i hname
            obtain rfl : runId = id := hid.symm.trans (jobNameOf_injective hname)
            exact hk
          · exact hinv id hjobs
    | _ => contradiction

end Starting

theorem starting_layer (x : External) : Layer starting ((evidence x).both foundation) x where
  start := fun _ task _ => by cases task <;> trivial
  failing := by
    intro _ l _
    cases l with
    | reconcile worker runId pc => cases pc <;> trivial
    | _ => trivial
  refl := fun _ _ => trivial
  step := by
    intro p w i l e l' w' hs ha ⟨_, _, _, hc, _⟩ ⟨hsees, _⟩ ⟨_, _, _, hadv, _⟩ hinv hk
    refine ⟨fun id hjobs => ?_, (Proc.worksOn_step hs hk hc).advance hadv hc, trivial⟩
    exact (jobsOf_started hs ha hinv hk hsees hjobs).advance hadv hc

theorem starting_proof (x : External) :
    starting.Proof ((evidence x).both foundation) (platform x) fun _ _ => True where
  act := by
    intro p a w l w' l' _ ha hinv hl hg h hk
    exact (starting_layer x).act (fun _ _ _ => ⟨trivial, trivial, trivial, trivial, .of_nothing rfl rfl⟩)
      ha hinv hl hg h hk
  stable := by
    intro p q l w w' _ ⟨_, _, _, hc, _⟩ _ ⟨_, _, _, hadv, _⟩ _ _ hk
    exact Proc.WorksOn.advance hk hadv hc
  env := by
    intro ev w w' _ he ⟨_, _, _, hc, _⟩ hinv
    obtain ⟨hruns, hartifacts, houtbox⟩ := World.event_tables he
    have hadv : w.tables.Advances w'.tables :=
      .of_eq hruns hartifacts (congrArg (fun t => t.rows.map OutboxEvent.inserted) houtbox)
    refine ⟨fun id hjobs => ?_, fun q l _ hk => Proc.WorksOn.advance hk hadv hc⟩
    rw [jobsOf_event he] at hjobs
    exact (hinv id hjobs).advance hadv hc

theorem starting_established (x : External) :
    (starting.both ((evidence x).both foundation)).Established (platform x) (fun _ _ => True) initial :=
  (starting_proof x).established (evidence_established x) ⟨fun _ h => absurd rfl h, fun _ => trivial⟩

/-- The work that a reconcile call has loaded, up to the creation of its Job. -/
def Reconcile.Pc.work? : Pc → Option ExecutionWork
  | .observe work _ => some work
  | .lookup call | .create call | .confirm call => some call.work
  | _ => none

/-- The values that a reconcile call renders, once the fingerprint matches. -/
def Reconcile.rendered (work : ExecutionWork) : Option Json := do
  let compatible ← (matchesFingerprint work.release work.parameters work.fingerprint).toOption
  if compatible then (modelJobValues work.release work.parameters work.id).toOption else none

theorem Reconcile.rendered_eq_some {work : ExecutionWork} {values : Json} : rendered work = some values ↔
    matchesFingerprint work.release work.parameters work.fingerprint = .ok true ∧
      modelJobValues work.release work.parameters work.id = .ok values := by
  have htoOption {α : Type} (r : Except Raised α) (a : α) : r.toOption = some a ↔ r = .ok a := by
    cases r <;> simp [Except.toOption]
  constructor
  · intro h
    obtain ⟨compatible, hm, h⟩ := Option.bind_eq_some_iff.mp h
    obtain ⟨rfl, hv⟩ := Option.ite_none_right_eq_some.mp h
    exact ⟨(htoOption _ _).mp hm, (htoOption _ _).mp hv⟩
  · rintro ⟨hm, hv⟩
    exact Option.bind_eq_some_iff.mpr ⟨true, (htoOption _ _).mpr hm, (htoOption _ _).mpr hv⟩

/-- Where an acceptance stands, whether it was called or is part of consuming a record. -/
def Proc.accepting : Proc → Option AcceptRun.Pc
  | .accept _ pc | .consume _ (.accept _ _ pc) => some pc
  | _ => none

section Runs
variable {x : External} {c c' : Config Pid World Proc} {p : Pid}

theorem Reached.sees (h : Reached x c) (p : Pid) : (c.procs p).Sees x p c.shared :=
  (((evidence_established x).holds c h).2 p).1

/-- What a worker renders is what was submitted. -/
theorem rendered_as_submitted (h : Reached x c) {worker : Worker} {id : UUID} {pc : Reconcile.Pc}
    {work : ExecutionWork} {values : Json} (hp : c.procs p = .reconcile worker id pc) (hw : pc.work? = some work)
    (hr : Reconcile.rendered work = some values) :
    ∃ row read comp comp', c.shared.tables.runs.find? id = some row ∧ c.shared.Submitted row read comp ∧
      work.release.computation? comp.mode = some comp' ∧
      (comp.NoCollision comp' → values = comp.jobValues id row.fingerprint) := by
  obtain ⟨hm, hv⟩ := Reconcile.rendered_eq_some.mp hr
  have hsees := h.sees p
  rw [hp] at hsees
  have hwork : c.shared.tables.HasWork id work := by
    cases pc <;> cases hw <;> exact hsees.1
  obtain ⟨row, hrow, hof⟩ := hwork
  obtain ⟨read, comp, hsubmitted⟩ := h.origins.submitted hrow
  rw [hof.parameters, hof.fingerprint] at hm
  obtain ⟨comp', hcomp', hsame⟩ := hsubmitted.of_matches hm
  refine ⟨row, read, comp, comp', hrow, hsubmitted, hcomp', fun hno => ?_⟩
  obtain rfl := hsame hno
  rw [hof.parameters, hsubmitted.parameters] at hv
  obtain ⟨comp, hcomp, rfl⟩ := modelJobValues_ok.mp hv
  obtain rfl : comp = comp' := Option.some.inj (hcomp.symm.trans hcomp')
  have hid : work.id = id := hof.id.trans (Table.key_of_find? hrow)
  rw [hid, hsubmitted.fingerprint]

/-- The run has failed for its changed definition, and stays so: it is never dispatched. -/
def NeverDispatched (x : External) (id : UUID) (c : Config Pid World Proc) : Prop :=
  ∀ c', Reachable (platform x) (fun _ _ => True) c c' → ∃ row, c'.shared.tables.runs.find? id = some row ∧
    row.status = .failed ∧ row.failureCode = some definitionChanged ∧ row.Undispatched ∧
      c'.shared.jobsOf id = []

theorem Reached.started (h : Reached x c) {id : UUID} (hjobs : c.shared.jobsOf id ≠ []) :
    c.shared.tables.Started id :=
  ((starting_established x).holds c h).1.1 id hjobs

/-- A run that failed before it was accepted is never dispatched. -/
theorem Reached.neverDispatched (h : Reached x c) {id : UUID} {row : Run}
    (hrow : c.shared.tables.runs.find? id = some row) (hs : row.status = .failed) (ha : row.acceptedAt = none) :
    NeverDispatched x id c := by
  intro c' h'
  obtain ⟨-, -, hfailed⟩ := (h.consistent.wellFormed id row hrow).failed hs
  obtain ⟨hund, -, hcode⟩ := hfailed ha
  obtain ⟨row', hrow', -, hfrozen⟩ := h.run_continues h' hrow
  obtain rfl : row' = row := congrArg RunRecord.row (hfrozen (by rw [hs]; rfl))
  refine ⟨row', hrow', hs, hcode, hund, ?_⟩
  by_contra hjobs
  have hr : Reached x c' := h.trans h'
  obtain ⟨row'', hrow'', hstarted⟩ := hr.started hjobs
  obtain rfl : row' = row'' := Option.some.inj (hrow'.symm.trans hrow'')
  have hnone : row'.dispatchStartedAt = none := hund.dispatchStartedAt
  rw [hnone] at hstarted
  contradiction

section Accepting
variable {w : World} {l : Proc} {i : Input} {pc pc' : AcceptRun.Pc} {release : ModelReleaseRow} {row : Run}
  {u : UnitOfWork} {outcome : String} {entries : List Entry} {t : Tables}

theorem Proc.Knows.accepting (h : l.Knows t) (hp : l.accepting = some pc) : AcceptRun.Knows pc := by
  cases l with
  | accept runId pc₀ =>
    obtain rfl := Option.some.inj hp
    exact h
  | consume topic pc₀ =>
    cases pc₀ with
    | accept location runId pc₁ =>
      obtain rfl := Option.some.inj hp
      exact h
    | _ => contradiction
  | _ => contradiction

theorem Proc.accepting_holds (hp : l.accepting = some pc) : l.holds = AcceptRun.holds pc := by
  cases l with
  | accept runId pc₀ =>
    obtain rfl := Option.some.inj hp
    rfl
  | consume topic pc₀ =>
    cases pc₀ with
    | accept location runId pc₁ =>
      obtain rfl := Option.some.inj hp
      rfl
    | _ => contradiction
  | _ => contradiction

/-- The comparison leaves the acceptance at its commit. -/
theorem Proc.accepting_decided (hp : l.accepting = some (.loadRelease release row))
    (hd : AcceptRun.decide w.tables release row i = .ok pc') : (l.next x p w i).2.accepting = some pc' := by
  have hstep (runId : UUID) : AcceptRun.step runId w i (.loadRelease release row) = (.read, .running pc') := by
    simp only [AcceptRun.step, hd]
    rfl
  cases l with
  | accept runId pc₀ =>
    obtain rfl := Option.some.inj hp
    simp only [Proc.next, hstep]
    rfl
  | consume topic pc₀ =>
    cases pc₀ with
    | accept location runId pc₁ =>
      obtain rfl := Option.some.inj hp
      simp only [Proc.next, Consumer.step, hstep]
      rfl
    | _ => contradiction
  | _ => contradiction

theorem Proc.accepting_commits (hp : l.accepting = some (.commit release u outcome entries)) :
    ∃ entries', (l.next x p w i).1 = .commit (.outcome u) entries' := by
  cases l with
  | accept runId pc₀ =>
    obtain rfl := Option.some.inj hp
    exact ⟨entries, rfl⟩
  | consume topic pc₀ =>
    cases pc₀ with
    | accept location runId pc₁ =>
      obtain rfl := Option.some.inj hp
      exact ⟨.handled location outcome :: entries, rfl⟩
    | _ => contradiction
  | _ => contradiction

theorem AcceptRun.decide_mismatch {d : ReleaseDefinition} (hd : loadReleaseDefinition w.tables release = .ok d)
    (hm : matchesFingerprint d row.parameters row.fingerprint = .ok false) :
    AcceptRun.decide w.tables release row i = .ok (.commit release
      (saveOutcome (.clean row) (AcceptRun.outcome row false i.now) i.defaults) "failed-run" []) := by
  exact bind_eq_ok.mpr ⟨d, hd, bind_eq_ok.mpr ⟨false, hm, rfl⟩⟩

/-- What an acceptance writes for a run it refuses. -/
theorem AcceptRun.refused {row : Run} (hq : row.status = .queued) (now : Time) (d : Defaults) :
    (saveOutcome (.clean row) (AcceptRun.outcome row false now) d).row.status = .failed ∧
      (saveOutcome (.clean row) (AcceptRun.outcome row false now) d).row.acceptedAt = row.acceptedAt := by
  have hcode : truthy (some "execution_definition_changed") = true := rfl
  refine ⟨?_, rfl⟩
  simp [saveOutcome, AcceptRun.outcome, finishRow, UnitOfWork.clean, hq, hcode, RunStatus.terminal]

end Accepting

/-- Once a refusal has been committed, its run is never dispatched. -/
theorem refusal_lasts (h : Reached x c) {release : ModelReleaseRow} {row : Run} {now : Time} {d : Defaults}
    {entries : List Entry} (hq : row.status = .queued) (hnone : row.acceptedAt = none)
    (hp : (c.procs p).accepting = some (.commit release
      (AcceptRun.saveOutcome (.clean row) (AcceptRun.outcome row false now) d) "failed-run" entries)) (k : Input) :
    After (platform x) (fun _ _ => True) p (NeverDispatched x row.id) [.run k] c := by
  intro c₁ c₂ hothers hstep
  have hr : Reached x c₁ := h.trans (hothers.mono fun _ _ _ => trivial)
  have hr₂ : Reached x c₂ := hr.step trivial hstep
  rw [← hothers.procs_eq] at hp
  obtain ⟨hknows, hl⟩ := ((runHistory_established x).holds c₁ hr).2 p
  obtain ⟨w', ha, rfl⟩ := step_run hstep
  obtain ⟨entries', he⟩ := Proc.accepting_commits (x := x) (p := p) (w := c₁.shared) (i := k) hp
  rw [he] at ha
  have hal := (Proc.knows_step (Prod.ext he rfl) hknows hl ha).1
  obtain ⟨tables, ht, rfl⟩ := commit_apply ha
  have hrow := (find?_outcome hal ht row.id).trans (if_pos (by simp [UnitOfWork.clean]))
  obtain ⟨hfailed, haccepted⟩ := AcceptRun.refused hq now d
  exact hr₂.neverDispatched hrow hfailed (haccepted.trans hnone)

/-- A run whose definition no longer has its computation is failed by the acceptance that finds it so. -/
theorem changed_run_fails (h : Reached x c) {release : ModelReleaseRow} {row : Run} {d : ReleaseDefinition}
    {i : Input} (hp : (c.procs p).accepting = some (.loadRelease release row))
    (hd : loadReleaseDefinition c.shared.tables release = .ok d)
    (hs : (platform x).step c (.act p (.run i)) = some c') :
    ∃ read comp, c.shared.Submitted row read comp ∧
      ((∀ comp', d.computation? comp.mode = some comp' → comp.NoCollision comp') →
        d.computation? comp.mode ≠ some comp →
          ∀ k, After (platform x) (fun _ _ => True) p (NeverDispatched x row.id) [.run k] c') := by
  obtain ⟨hknows, hl⟩ := ((runHistory_established x).holds c h).2 p
  obtain ⟨hq, hnone⟩ : row.status = .queued ∧ row.acceptedAt = none := hknows.accepting hp
  have hheld : (Hold.run row).Valid p c.shared :=
    hl.valid _ (by rw [Proc.accepting_holds hp]; simp [AcceptRun.holds])
  obtain ⟨read, comp, hsubmitted⟩ := h.origins.submitted hheld.2
  refine ⟨read, comp, hsubmitted, fun hno hne k => ?_⟩
  have hm : matchesFingerprint d row.parameters row.fingerprint = .ok false := hsubmitted.mismatch hne hno
  have hr : Reached x c' := h.step trivial hs
  obtain ⟨w', -, rfl⟩ := step_run hs
  have hdecided := Proc.accepting_decided (x := x) (p := p) hp (AcceptRun.decide_mismatch (i := i) hd hm)
  exact refusal_lasts hr hq hnone ((congrArg Proc.accepting (Function.update_self ..)).trans hdecided) k

/-- What is dispatched is what was submitted. Values that a worker renders are those of the computation that
the submission read, under the run's own fingerprint; and a run whose computation has changed or is gone when
an acceptance compares it is failed by that acceptance and never dispatched. Two computations must not
collide under SHA-256. -/
theorem dispatched_as_submitted (h : Reached x c) (p : Pid) :
    (∀ worker id pc work values, c.procs p = .reconcile worker id pc → pc.work? = some work →
      Reconcile.rendered work = some values →
      ∃ row read comp comp', c.shared.tables.runs.find? id = some row ∧ c.shared.Submitted row read comp ∧
        work.release.computation? comp.mode = some comp' ∧
        (comp.NoCollision comp' → values = comp.jobValues id row.fingerprint)) ∧
    ∀ release row d i c', (c.procs p).accepting = some (.loadRelease release row) →
      loadReleaseDefinition c.shared.tables release = .ok d →
      (platform x).step c (.act p (.run i)) = some c' →
      ∃ read comp, c.shared.Submitted row read comp ∧
        ((∀ comp', d.computation? comp.mode = some comp' → comp.NoCollision comp') →
          d.computation? comp.mode ≠ some comp →
            ∀ k, After (platform x) (fun _ _ => True) p (NeverDispatched x row.id) [.run k] c') :=
  ⟨fun _ _ _ _ _ hp hw hv => rendered_as_submitted h hp hw hv,
    fun _ _ _ _ _ hp hd hs => changed_run_fails h hp hd hs⟩

theorem dispatched_as_submitted_demo : ∃ (c : Config Pid World Proc) (worker : Worker) (id : UUID)
    (call : Reconcile.Call) (values : Json) (row : Run) (read : ReleaseDefinition) (comp comp' : Computation),
    c.procs 0 = .reconcile worker id (.create call) ∧ Reconcile.rendered call.work = some values ∧
    c.shared.tables.runs.find? id = some row ∧ c.shared.Submitted row read comp ∧
    call.work.release.computation? comp.mode = some comp' ∧
    (comp.NoCollision comp' → values = comp.jobValues id row.fingerprint) := by
  obtain ⟨c, r, call, hc, hr, -, worker, id, hp⟩ := Demo.created
  have hreached := Demo.reached hc
  have hsees := hreached.sees 0
  rw [hp] at hsees
  obtain ⟨values, hv, -⟩ := bind_eq_ok.mp hsees.2.1.rendered
  have hrendered := Reconcile.rendered_eq_some.mpr ⟨hsees.2.1.compatible, hv⟩
  obtain ⟨row, read, comp, comp', hrow, hsubmitted, hcomp', hvalues⟩ :=
    (dispatched_as_submitted hreached 0).1 worker id _ call.work values hp rfl hrendered
  exact ⟨c, worker, id, call, values, row, read, comp, comp', hp, hrendered, hrow, hsubmitted, hcomp', hvalues⟩

end Runs

end Mic3
